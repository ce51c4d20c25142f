import Mathlib

/-! Finite maps whose entries may fall due: what a key shows is its entry unless that entry
is due, and dropping keys that show nothing changes nothing that is shown.
-/

namespace Thredis.Lib

universe u v

variable {κ : Type u} {ε : Type v}

abbrev TimedMap (κ : Type u) (ε : Type v) := κ → Option ε

namespace TimedMap

def visible (due : ε → Bool) (map : TimedMap κ ε) (key : κ) : Option ε :=
  (map key).filter (fun entry => !due entry)

variable {due : ε → Bool} {map : TimedMap κ ε} {key : κ}

section

variable {later : ε → Bool} (grows : ∀ entry, due entry = true → later entry = true)

include grows

/-- A test that only grows hides what was hidden. -/
theorem visible_later (map : TimedMap κ ε) (key : κ)
    : map.visible later key = TimedMap.visible later (map.visible due) key := by
  rw [visible, visible, visible]
  cases map key with
  | none => rfl
  | some entry =>
    rw [Option.filter_some, Option.filter_some]
    cases now : due entry with
    | true => simp [grows entry now]
    | false => simp [Option.filter_some]

end

variable [DecidableEq κ]

def empty : TimedMap κ ε := fun _ => none

def put (map : TimedMap κ ε) (key : κ) (entry : ε) : TimedMap κ ε :=
  fun other => if other = key then some entry else map other

def drop (map : TimedMap κ ε) (gone : List κ) : TimedMap κ ε :=
  fun other => if other ∈ gone then none else map other

def alter (map : TimedMap κ ε) (key : κ) (f : ε → ε) : TimedMap κ ε :=
  fun other => if other = key then (map other).map f else map other

section

variable (due) (map)

theorem visible_put (key : κ) (entry : ε) (other : κ)
    : (map.put key entry).visible due other
      = if other = key then (some entry).filter (fun entry => !due entry)
        else map.visible due other := by
  simp only [visible, put]
  split <;> rfl

theorem visible_drop (gone : List κ) (other : κ)
    : (map.drop gone).visible due other
      = if other ∈ gone then none else map.visible due other := by
  simp only [visible, drop]
  split <;> rfl

/-- Dropping those of the keys `gone` that show an entry; the others need no dropping. -/
def evict (due : ε → Bool) (map : TimedMap κ ε) (gone : List κ) : TimedMap κ ε :=
  map.drop (gone.filter (fun key => (map.visible due key).isSome))

theorem visible_evict (gone : List κ) (other : κ)
    : (map.evict due gone).visible due other
      = if other ∈ gone then none else map.visible due other := by
  rw [evict, visible_drop]
  by_cases member : other ∈ gone
  · cases shown : map.visible due other <;> simp [shown]
  · simp [member]

end

/-- Altering an entry that shows is putting the altered entry. -/
theorem alter_eq_put {entry : ε} (f : ε → ε)
    (shown : map.visible due key = some entry) : map.alter key f = map.put key (f entry) := by
  funext other
  simp only [alter, put]
  split
  · rename_i same
    rw [same, (Option.filter_eq_some_iff.mp shown).1]
    rfl
  · rfl

end TimedMap

end Thredis.Lib
