import Mathlib

/-! Counts and sums over a list when one place of it changes. -/

namespace Thredis.Lib

universe u

variable {α : Type u}

/-- What holds of every item and of the new one holds after the update. -/
theorem forall_mem_set {items : List α} {new : α} {p : α → Prop} (kept : ∀ item ∈ items, p item)
    (fresh : p new) {place : Nat} : ∀ item ∈ items.set place new, p item :=
  fun item member => (List.mem_or_eq_of_mem_set member).elim (kept item) (· ▸ fresh)

/-- A single-place update moves a count by what left and what came. -/
theorem countP_set_add {slots : List α} {place : Nat} {old : α}
    (held : slots[place]? = some old) (new : α) (p : α → Bool)
    : (slots.set place new).countP p + (p old).toNat = slots.countP p + (p new).toNat := by
  induction slots generalizing place with
  | nil => simp at held
  | cons first rest ih =>
    cases place with
    | zero =>
      obtain rfl : first = old := by simpa using held
      simp only [List.set_cons_zero, List.countP_cons]
      cases p first <;> cases p new <;> simp
    | succ place =>
      have further : rest[place]? = some old := by exact held
      have step := ih further
      simp only [List.set_cons_succ, List.countP_cons]
      omega

theorem sum_modify_succ {counts : List Nat} {place : Nat} (inside : place < counts.length)
    : (counts.modify place (· + 1)).sum = counts.sum + 1 := by
  induction counts generalizing place with
  | nil => simp at inside
  | cons first rest ih =>
    cases place with
    | zero => simp [Nat.add_right_comm]
    | succ place =>
      have step := ih (Nat.lt_of_succ_lt_succ inside)
      simp only [List.modify_succ_cons, List.sum_cons]
      omega

theorem take_sum_le_modify (counts : List Nat) (place taken : Nat)
    : (counts.take taken).sum ≤ ((counts.modify place (· + 1)).take taken).sum := by
  induction counts generalizing place taken with
  | nil => simp
  | cons first rest ih =>
    cases taken with
    | zero => simp
    | succ taken =>
      cases place with
      | zero => simp
      | succ place => simpa using ih place taken

end Thredis.Lib
