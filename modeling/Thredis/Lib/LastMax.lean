import Mathlib

/-! The last maximum of a list of ranked candidates: a later candidate of equal rank wins.
Folding with `laterMax` computes it in one pass, which is how ranked scans keep a winner.
-/

namespace Thredis.Lib
open List

variable {ρ α β : Type} [LinearOrder ρ]

/-- The next candidate replaces the held one unless the held one ranks strictly higher. -/
def laterMax (held : Option (ρ × α)) (next : ρ × α) : Option (ρ × α) :=
  match held with
  | none => some next
  | some best => if best.1 ≤ next.1 then some next else some best

def lastMax (ranked : List (ρ × α)) : Option (ρ × α) := ranked.foldl laterMax none

@[simp] theorem laterMax_none (next : ρ × α) : laterMax none next = some next := rfl

theorem laterMax_some (best next : ρ × α)
    : laterMax (some best) next = if best.1 ≤ next.1 then some next else some best := rfl

@[simp] theorem lastMax_nil : lastMax ([] : List (ρ × α)) = none := rfl

variable (ranked : List (ρ × α))

theorem lastMax_concat (next : ρ × α)
    : lastMax (ranked ++ [next]) = laterMax (lastMax ranked) next := by
  simp [lastMax]

theorem lastMax_eq_none : lastMax ranked = none ↔ ranked = [] := by
  constructor
  · intro none_eq
    cases ranked using reverseRecOn with
    | nil => rfl
    | append_singleton front last =>
      rw [lastMax_concat] at none_eq
      cases inner : lastMax front <;>
        simp only [inner, laterMax_some] at none_eq
      · cases none_eq
      · split at none_eq <;> cases none_eq
  · rintro rfl
    rfl

/-- The winner splits the list: nothing before it ranks higher, everything after it ranks
strictly lower.
-/
theorem lastMax_spec (winner : ρ × α) (won : lastMax ranked = some winner)
    : ∃ before after, ranked = before ++ winner :: after
        ∧ (∀ item ∈ before, item.1 ≤ winner.1)
        ∧ (∀ item ∈ after, item.1 < winner.1) := by
  induction ranked using reverseRecOn generalizing winner with
  | nil => simp at won
  | append_singleton ranked next ih =>
    rw [lastMax_concat] at won
    cases held : lastMax ranked with
    | none =>
      simp only [held, laterMax_none, Option.some.injEq] at won
      have empty := (lastMax_eq_none ranked).mp held
      exact ⟨[], [], by simp [empty, won], by simp, by simp⟩
    | some best =>
      obtain ⟨before, after, split_eq, low, high⟩ := ih best held
      rw [held, laterMax_some] at won
      split at won
      next le =>
        cases won
        refine ⟨ranked, [], rfl, ?_, by simp⟩
        intro item member
        rw [split_eq] at member
        rcases mem_append.mp member with inBefore | inAfter
        · exact le_trans (low item inBefore) le
        · rcases mem_cons.mp inAfter with same | inAfter
          · exact same ▸ le
          · exact le_trans (le_of_lt (high item inAfter)) le
      next nle =>
        cases won
        refine ⟨before, after ++ [next], by simp [split_eq], low, ?_⟩
        intro item member
        rcases mem_append.mp member with inAfter | isNext
        · exact high item inAfter
        · rw [mem_singleton.mp isNext]
          exact lt_of_not_ge nle

/-- A candidate that nothing before outranks and that outranks everything after wins. -/
theorem lastMax_of_split (before after : List (ρ × α)) (winner : ρ × α)
    (low : ∀ item ∈ before, item.1 ≤ winner.1) (high : ∀ item ∈ after, item.1 < winner.1)
    : lastMax (before ++ winner :: after) = some winner := by
  induction after using reverseRecOn with
  | nil =>
    rw [lastMax_concat]
    cases held : lastMax before with
    | none => rfl
    | some best =>
      obtain ⟨_, _, split_eq, -, -⟩ := lastMax_spec before best held
      rw [laterMax_some, if_pos (low best (by simp [split_eq]))]
  | append_singleton after next ih =>
    have inner := ih (fun item member => high item (by simp [member]))
    have lower := high next (by simp)
    rw [← cons_append, ← append_assoc, lastMax_concat, inner, laterMax_some,
      if_neg (not_le.mpr lower)]

variable (relabel : α → β) (ranked : List (ρ × α))

/-- Relabelling the candidates keeps the winner. -/
theorem foldl_laterMax_map (held : Option (ρ × α))
    : (ranked.map (Prod.map id relabel)).foldl laterMax (held.map (Prod.map id relabel))
        = (ranked.foldl laterMax held).map (Prod.map id relabel) := by
  induction ranked generalizing held with
  | nil => rfl
  | cons next rest ih =>
    rw [map_cons, foldl_cons, foldl_cons, ← ih]
    cases held with
    | none => rfl
    | some best =>
      simp only [Option.map_some, laterMax_some, Prod.map_fst, id_eq]
      split <;> rfl

theorem lastMax_map
    : lastMax (ranked.map (Prod.map id relabel)) = (lastMax ranked).map (Prod.map id relabel) :=
  foldl_laterMax_map relabel ranked none

end Thredis.Lib
