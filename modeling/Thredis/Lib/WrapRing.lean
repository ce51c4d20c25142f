import Thredis.Lib.ProbeTable

/-! Rings addressed by counters that wrap: a counter is an unbounded count seen through a fixed
width, its slot the count modulo a power of two, and a window of the ring holds the part of a
growing list that is still needed.
-/

namespace Thredis.Lib
open Function BitVec

universe u

variable {w : Nat}

def stamp (origin : BitVec w) (count : Nat) : BitVec w := origin + BitVec.ofNat w count

theorem stamp_add (origin : BitVec w) (count more : Nat)
    : stamp origin count + BitVec.ofNat w more = stamp origin (count + more) := by
  rw [stamp, stamp, ofNat_add, add_assoc]

variable {early late : Nat}

section

variable (origin : BitVec w) (order : early ≤ late) (near : late - early < 2 ^ w)

include order near

/-- Counts less than a full turn apart are told apart by their difference. -/
theorem stamp_sub_toNat
    : (stamp origin late - stamp origin early).toNat = late - early := by
  have split : stamp origin late = stamp origin early + BitVec.ofNat w (late - early) := by
    rw [stamp_add]
    congr 1
    omega
  rw [split, BitVec.add_comm, BitVec.add_sub_cancel, BitVec.toNat_ofNat, Nat.mod_eq_of_lt near]

theorem stamp_inj (same : stamp origin late = stamp origin early)
    : early = late := by
  have apart := stamp_sub_toNat origin order near
  rw [same] at apart
  simp at apart
  omega

end

/-- The slot of a count in a ring of `cap` slots. -/
theorem stamp_and_mask {cap : Nat} (pow : PowTwo cap) (fits : cap ≤ 2 ^ w) (origin : BitVec w)
    (count : Nat)
    : (stamp origin count &&& BitVec.ofNat w (cap - 1)).toNat = (origin.toNat + count) % cap := by
  have positive := pow.pos
  have divides : cap ∣ 2 ^ w := by
    obtain ⟨bits, rfl⟩ := pow
    exact Nat.pow_dvd_pow 2 ((Nat.pow_le_pow_iff_right (by decide)).mp fits)
  rw [toNat_and, toNat_ofNat, Nat.mod_eq_of_lt (by omega), pow.and_mask, stamp,
    toNat_add, toNat_ofNat, Nat.mod_mod_of_dvd _ divides, Nat.add_mod,
    Nat.mod_mod_of_dvd _ divides, ← Nat.add_mod]

/-- Counts less than `cap` apart have different slots. -/
theorem slot_ne {cap start : Nat} (order : early < late) (near : late < early + cap)
    : (start + early) % cap ≠ (start + late) % cap := by
  intro same
  have divides := (Nat.modEq_iff_dvd' (by omega)).mp same
  have small : (start + late) - (start + early) < cap := by omega
  have zero := Nat.eq_zero_of_dvd_of_lt divides small
  omega

variable {α : Type u}

/-- The memory holds, at the positions of its indices, what the list has from `start` on. -/
def Window (memory : Nat → α) (position : Nat → Nat) (start : Nat) (list : List α) : Prop :=
  ∀ n, start ≤ n → n < list.length → list[n]? = some (memory (position n))

variable {memory : Nat → α} {position : Nat → Nat} {start : Nat} {list : List α}

section

variable (window : Window memory position start list)

include window

theorem Window.later {later : Nat} (order : start ≤ later) : Window memory position later list :=
  fun n above inside => window n (order.trans above) inside

/-- A write elsewhere leaves a window as it is. -/
theorem Window.frame {index : Nat} (apart : ∀ n, start ≤ n → n < list.length → position n ≠ index)
    (value : α)
    : Window (update memory index value) position start list := by
  intro n above inside
  rw [update_of_ne (apart n above inside)]
  exact window n above inside

/-- A write at the next position extends a window. -/
theorem Window.extend (apart : ∀ n, start ≤ n → n < list.length → position n ≠ position list.length)
    (value : α)
    : Window (update memory (position list.length) value) position start (list ++ [value]) := by
  intro n above inside
  rw [List.length_append, List.length_singleton] at inside
  by_cases last : n = list.length
  · subst last
    rw [update_self, List.getElem?_concat_length]
  · have before : n < list.length := by omega
    rw [List.getElem?_append_left before]
    exact window.frame apart value n above before

end

variable (memory : Nat → α)

/-- The values a ring of `cap` slots holds: `count` of them, from `head` on. -/
def ringView (cap head count : Nat) : List α :=
  (List.range count).map fun n => memory ((head + n) % cap)

@[simp]
theorem length_ringView (cap head count : Nat)
    : (ringView memory cap head count).length = count := by
  simp [ringView]

theorem ringView_add (cap head front back : Nat)
    : ringView memory cap head (front + back)
      = ringView memory cap head front ++ ringView memory cap ((head + front) % cap) back := by
  simp [ringView, List.range_add, Nat.add_assoc]

theorem ringView_cons {cap head : Nat} (inside : head < cap) (memory : Nat → α) (count : Nat)
    : ringView memory cap head (count + 1)
      = memory head :: ringView memory cap ((head + 1) % cap) count := by
  rw [Nat.add_comm, ringView_add]
  simp [ringView, Nat.mod_eq_of_lt inside]

/-- A write behind the values held, while there is room, is one more value. -/
theorem ringView_push {cap head count : Nat} (room : count < cap) (memory : Nat → α) (value : α)
    : ringView (update memory ((head + count) % cap) value) cap head (count + 1)
      = ringView memory cap head count ++ [value] := by
  rw [ringView, List.range_succ, List.map_append, List.map_singleton, update_self]
  congr 1
  apply List.map_congr_left
  intro n inside
  exact update_of_ne (slot_ne (List.mem_range.mp inside) (by omega)) _ _

end Thredis.Lib
