import Mathlib

/-! Removing one position of a vector by moving the last element into it. -/

namespace Thredis.Lib
open List

variable {α : Type}

def swapRemove (items : List α) (slot : Nat) : List α :=
  match items.getLast? with
  | none => items
  | some moved => (items.set slot moved).dropLast

theorem swapRemove_concat (front : List α) (last : α) (slot : Nat)
    : swapRemove (front ++ [last]) slot = ((front ++ [last]).set slot last).dropLast := by
  simp [swapRemove]

variable {items : List α}

/-- The removed item and the remaining ones are a permutation of the vector. -/
theorem swapRemove_perm {slot : Nat} {item : α} (found : items[slot]? = some item)
    : (item :: swapRemove items slot).Perm items := by
  obtain ⟨inside, itemEq⟩ := List.getElem?_eq_some_iff.mp found
  have nonempty : items ≠ [] := by
    rintro rfl
    exact absurd inside (by simp)
  obtain ⟨front, last, rfl⟩ : ∃ front last, items = front ++ [last] :=
    ⟨_, _, (dropLast_append_getLast nonempty).symm⟩
  rw [swapRemove_concat]
  by_cases isLast : slot = front.length
  · subst isLast
    have same : last = item := by simpa using itemEq
    simpa [same] using (perm_append_singleton item front).symm
  · have inFront : slot < front.length := by
      have : slot < front.length + 1 := by simpa using inside
      omega
    rw [set_append_left _ _ inFront]
    simp only [dropLast_concat]
    have here : front[slot] = item := by
      simpa [getElem_append_left inFront] using itemEq
    have split : front = front.take slot ++ item :: front.drop (slot + 1) := by
      rw [← here]
      simp
    rw [set_eq_take_append_cons_drop, if_pos inFront]
    conv => rhs; rw [split]
    rw [append_assoc]
    refine List.Perm.trans ?_ perm_middle.symm
    refine List.Perm.cons item ?_
    refine List.Perm.append_left _ ?_
    exact (perm_append_singleton last _).symm

/-- The last element stands in the freed slot, every other one where it stood. -/
theorem swapRemove_getElem? {slot : Nat} (inside : slot < items.length) (index : Nat)
    : (swapRemove items slot)[index]?
        = if index + 1 < items.length then
            if index = slot then items.getLast? else items[index]?
          else none := by
  have nonempty : items ≠ [] := by
    rintro rfl
    exact absurd inside (by simp)
  obtain ⟨front, last, rfl⟩ : ∃ front last, items = front ++ [last] :=
    ⟨_, _, (dropLast_append_getLast nonempty).symm⟩
  rw [swapRemove_concat, getElem?_dropLast]
  simp only [length_set, length_append, length_singleton,
    Nat.add_sub_cancel, getElem?_set, Nat.add_lt_add_iff_right]
  split
  next low =>
    by_cases same : slot = index
    · simp [same]
      omega
    · have other : ¬ index = slot := fun eq => same eq.symm
      simp [same, other]
  next => rfl

/-- Back pointers across a removal: the last element points to the freed slot, the removed one
nowhere, and every other one where it did.
-/
theorem swapRemove_links {At : α → Nat → Prop} {slot : Nat} {out moved : α}
    (links : ∀ index item, items[index]? = some item ↔ At item index)
    (once : ∀ item index other, At item index → At item other → index = other)
    (found : items[slot]? = some out) (last : items.getLast? = some moved) (index : Nat) (item : α)
    : (swapRemove items slot)[index]? = some item
      ↔ item ≠ out ∧ (item = moved ∧ index = slot ∨ item ≠ moved ∧ At item index) := by
  obtain ⟨inside, -⟩ := List.getElem?_eq_some_iff.mp found
  have lastAt : items[items.length - 1]? = some moved := by rw [← last, getLast?_eq_getElem?]
  have outAt := (links slot out).mp found
  have movedAt := (links _ moved).mp lastAt
  rw [swapRemove_getElem? inside, last]
  constructor
  · intro placed
    obtain ⟨low, placed⟩ := Option.ite_none_right_eq_some.mp placed
    split at placed
    next atSlot =>
      cases placed
      refine ⟨?_, .inl ⟨rfl, atSlot⟩⟩
      rintro rfl
      have := once _ _ _ outAt movedAt
      omega
    next notSlot =>
      have placedAt := (links index item).mp placed
      refine ⟨?_, .inr ⟨?_, placedAt⟩⟩
      · rintro rfl
        exact notSlot (once _ _ _ placedAt outAt)
      · rintro rfl
        have := once _ _ _ placedAt movedAt
        omega
  · rintro ⟨notOut, ⟨rfl, rfl⟩ | ⟨notMoved, placedAt⟩⟩
    · have notLast : index ≠ items.length - 1 := by
        intro same
        rw [same, lastAt] at found
        exact notOut (Option.some.inj found)
      rw [if_pos (by omega), if_pos rfl]
    · have placed := (links index item).mpr placedAt
      obtain ⟨indexLt, -⟩ := List.getElem?_eq_some_iff.mp placed
      have notSlot : index ≠ slot := by
        rintro rfl
        exact notOut (Option.some.inj (placed.symm.trans found))
      have notLast : index ≠ items.length - 1 := by
        rintro rfl
        exact notMoved (Option.some.inj (placed.symm.trans lastAt))
      rw [if_pos (by omega), if_neg notSlot]
      exact placed

end Thredis.Lib
