import Mathlib

/-! Counting in bit-reversed order. A cursor that is incremented at its highest masked bit
visits the residues of every power of two in the order of their reversed bits, so the part
of the words it has passed is an initial segment whatever mask each step used.
-/

namespace Thredis.Lib
open BitVec

variable {w : Nat}

variable (v : BitVec w)

def bitOrder : Nat := v.reverse.toNat

theorem bitOrder_lt : bitOrder v < 2 ^ w := v.reverse.isLt

@[simp] theorem bitOrder_reverse : bitOrder v.reverse = v.toNat := by
  rw [bitOrder, reverse_reverse_eq]

@[simp] theorem bitOrder_zero : bitOrder (0#w) = 0 := by
  have none : (0#w).reverse = 0#w := by
    apply eq_of_getLsbD_eq
    simp [getLsbD_reverse]
  rw [bitOrder, none, toNat_ofNat, Nat.zero_mod]

theorem testBit_bitOrder (i : Nat)
    : (bitOrder v).testBit i = (decide (i < w) && v.getLsbD (w - 1 - i)) := by
  rw [bitOrder, testBit_toNat, getLsbD_reverse, getMsbD_eq_getLsbD]

def AgreeBelow (k : Nat) (u v : BitVec w) : Prop := ∀ j < k, u.getLsbD j = v.getLsbD j

variable {k small large : Nat}

theorem agreeBelow_iff_mod (u v : BitVec w)
    : AgreeBelow k u v ↔ u.toNat % 2 ^ k = v.toNat % 2 ^ k := by
  constructor
  · intro agree
    apply Nat.eq_of_testBit_eq
    intro j
    rw [Nat.testBit_mod_two_pow, Nat.testBit_mod_two_pow, testBit_toNat, testBit_toNat]
    by_cases low : j < k
    · rw [agree j low]
    · simp [low]
  · intro same j low
    have bit := congrArg (fun n => n.testBit j) same
    simpa [low, testBit_toNat] using bit

/-- Agreeing on the low bits is lying in the same aligned block of the reversed order. -/
theorem agreeBelow_iff_block (within : k ≤ w) (u v : BitVec w)
    : AgreeBelow k u v ↔ bitOrder u / 2 ^ (w - k) = bitOrder v / 2 ^ (w - k) := by
  constructor
  · intro agree
    apply Nat.eq_of_testBit_eq
    intro i
    rw [Nat.testBit_div_two_pow, Nat.testBit_div_two_pow, testBit_bitOrder, testBit_bitOrder]
    by_cases high : i + (w - k) < w
    · rw [agree (w - 1 - (i + (w - k))) (by omega)]
    · simp [high]
  · intro same j low
    have bit := congrArg (fun n => n.testBit (k - 1 - j)) same
    have position : w - 1 - (k - 1 - j + (w - k)) = j := by omega
    have inside : k - 1 - j + (w - k) < w := by omega
    simpa [Nat.testBit_div_two_pow, testBit_bitOrder, position, inside] using bit

def lowMask (w k : Nat) : BitVec w := BitVec.ofNat w (2 ^ k - 1)

theorem getLsbD_lowMask (k j : Nat)
    : (lowMask w k).getLsbD j = (decide (j < w) && decide (j < k)) := by
  rw [lowMask, getLsbD_ofNat, Nat.testBit_two_pow_sub_one]

/-- The cursor after `v`: every bit above the mask is set, and the word is incremented from
its highest bit down.
-/
def reverseNext (k : Nat) (v : BitVec w) : BitVec w :=
  ((v ||| ~~~ lowMask w k).reverse + 1#w).reverse

/-- Setting the bits above the mask moves to the last position of the block. -/
theorem bitOrder_fill (within : k ≤ w) (v : BitVec w)
    : bitOrder (v ||| ~~~ lowMask w k)
      = 2 ^ (w - k) * (bitOrder v / 2 ^ (w - k)) + (2 ^ (w - k) - 1) := by
  have last : 2 ^ (w - k) - 1 < 2 ^ (w - k) := Nat.sub_lt (Nat.two_pow_pos _) Nat.one_pos
  apply Nat.eq_of_testBit_eq
  intro i
  rw [Nat.testBit_two_pow_mul_add _ last, testBit_bitOrder, getLsbD_or, getLsbD_not,
    getLsbD_lowMask, Nat.testBit_div_two_pow, testBit_bitOrder]
  by_cases low : i < w - k
  · have inside : i < w := by omega
    have above : ¬ w - 1 - i < k := by omega
    have bound : w - 1 - i < w := by omega
    simp [low, inside, above, bound]
  · have back : i - (w - k) + (w - k) = i := by omega
    rw [if_neg low, back]
    by_cases inside : i < w
    · have masked : w - 1 - i < k := by omega
      have bound : w - 1 - i < w := by omega
      simp [masked]
    · simp [inside]

/-- The next cursor starts the next block, or is back at zero after the last one. -/
theorem bitOrder_reverseNext (within : k ≤ w) (v : BitVec w)
    : bitOrder (reverseNext k v) = (2 ^ (w - k) * (bitOrder v / 2 ^ (w - k) + 1)) % 2 ^ w := by
  have filled := bitOrder_fill within v
  rw [bitOrder] at filled
  have positive : 0 < 2 ^ (w - k) := Nat.two_pow_pos _
  rw [reverseNext, bitOrder_reverse, toNat_add, toNat_ofNat, Nat.add_mod_mod, Nat.mul_add]
  congr 1
  omega

variable {v : BitVec w}

/-- A word ahead of the cursor is in the cursor's block, or the next cursor has not passed it
and has not come back to zero.
-/
theorem reverseNext_le (within : k ≤ w) {u : BitVec w}
    (ahead : bitOrder v ≤ bitOrder u) (apart : ¬ AgreeBelow k u v)
    : reverseNext k v ≠ 0#w ∧ bitOrder (reverseNext k v) ≤ bitOrder u := by
  have positive : 0 < 2 ^ (w - k) := Nat.two_pow_pos _
  have blocks : bitOrder v / 2 ^ (w - k) + 1 ≤ bitOrder u / 2 ^ (w - k) := by
    have ordered := Nat.div_le_div_right (c := 2 ^ (w - k)) ahead
    rw [agreeBelow_iff_block within] at apart
    omega
  have start : 2 ^ (w - k) * (bitOrder v / 2 ^ (w - k) + 1) ≤ bitOrder u :=
    Nat.le_trans (Nat.mul_le_mul_left _ blocks) (Nat.mul_div_le _ _)
  have order : bitOrder (reverseNext k v) = 2 ^ (w - k) * (bitOrder v / 2 ^ (w - k) + 1) := by
    rw [bitOrder_reverseNext within, Nat.mod_eq_of_lt (Nat.lt_of_le_of_lt start (bitOrder_lt u))]
  refine ⟨fun zero => ?_, order ▸ start⟩
  rw [zero, bitOrder_zero] at order
  have nonzero : 0 < 2 ^ (w - k) * (bitOrder v / 2 ^ (w - k) + 1) :=
    Nat.mul_pos positive (Nat.succ_pos _)
  omega

/-- The bits between two masks are clear. -/
theorem and_lowMask_xor_eq_zero (nested : small ≤ large) (within : large ≤ w) (v : BitVec w)
    : v &&& (lowMask w small ^^^ lowMask w large) = 0#w
      ↔ ∀ j, small ≤ j → j < large → v.getLsbD j = false := by
  constructor
  · intro clear j above below
    have bit : (v &&& (lowMask w small ^^^ lowMask w large)).getLsbD j = (0#w).getLsbD j := by
      rw [clear]
    have bound : j < w := by omega
    have outside : ¬ j < small := by omega
    rw [getLsbD_and, getLsbD_xor, getLsbD_lowMask, getLsbD_lowMask] at bit
    simpa [bound, below, outside] using bit
  · intro clear
    apply eq_of_getLsbD_eq
    intro j bound
    rw [getLsbD_and, getLsbD_xor, getLsbD_lowMask, getLsbD_lowMask]
    by_cases above : small ≤ j
    · by_cases below : j < large
      · simp [clear j above below]
      · have outside : ¬ j < small := by omega
        simp [below, outside]
    · have inside : j < small := by omega
      have below : j < large := by omega
      simp [inside, below]

/-- At the start of a large block, the bits between the masks are clear exactly at the start
of a small block. (The small mask has the larger blocks.)
-/
theorem and_lowMask_xor_iff_aligned (nested : small ≤ large)
    (within : large ≤ w) (aligned : 2 ^ (w - large) ∣ bitOrder v)
    : v &&& (lowMask w small ^^^ lowMask w large) = 0#w ↔ 2 ^ (w - small) ∣ bitOrder v := by
  rw [and_lowMask_xor_eq_zero nested within, Nat.dvd_iff_mod_eq_zero]
  constructor
  · intro clear
    apply Nat.eq_of_testBit_eq
    intro i
    rw [Nat.testBit_mod_two_pow]
    by_cases low : i < w - small
    · by_cases lower : i < w - large
      · have zero := congrArg (fun n => n.testBit i) (Nat.dvd_iff_mod_eq_zero.mp aligned)
        simpa [lower, low] using zero
      · rw [testBit_bitOrder, clear (w - 1 - i) (by omega) (by omega)]
        simp
    · simp [low]
  · intro start j above below
    have bit := congrArg (fun n => n.testBit (w - 1 - j)) start
    have low : w - 1 - j < w - small := by omega
    have inside : w - 1 - j < w := by omega
    have back : w - 1 - (w - 1 - j) = j := by omega
    simpa [testBit_bitOrder, low, inside, back] using bit

theorem aligned_reverseNext (within : k ≤ w) (v : BitVec w)
    : 2 ^ (w - k) ∣ bitOrder (reverseNext k v) := by
  rw [bitOrder_reverseNext within]
  exact (Nat.dvd_mod_iff (Nat.pow_dvd_pow 2 (Nat.sub_le w k))).mpr (Nat.dvd_mul_right _ _)

/-- A step of the larger mask that leaves bits between the masks set stays in the block of the
smaller mask and moves on to the next part of it.
-/
theorem reverseNext_within (nested : small ≤ large) (within : large ≤ w)
    (inside : reverseNext large v &&& (lowMask w small ^^^ lowMask w large) ≠ 0#w)
    : AgreeBelow small (reverseNext large v) v
      ∧ bitOrder (reverseNext large v) / 2 ^ (w - large) % 2 ^ (large - small)
        = bitOrder v / 2 ^ (w - large) % 2 ^ (large - small) + 1 := by
  have sizes : 2 ^ (w - small) = 2 ^ (w - large) * 2 ^ (large - small) := by
    rw [← Nat.pow_add]
    congr 1
    omega
  have positive : 0 < 2 ^ (w - large) := Nat.two_pow_pos _
  rw [Ne, and_lowMask_xor_iff_aligned nested within (aligned_reverseNext within v)] at inside
  have order : bitOrder (reverseNext large v)
      = 2 ^ (w - large) * (bitOrder v / 2 ^ (w - large) + 1) := by
    have next := bitOrder_reverseNext within v
    rcases Nat.lt_or_ge (2 ^ (w - large) * (bitOrder v / 2 ^ (w - large) + 1)) (2 ^ w) with
      below | above
    · rw [next, Nat.mod_eq_of_lt below]
    · -- past the last block the cursor is zero, which every block size divides
      have last : bitOrder v / 2 ^ (w - large) < 2 ^ large := by
        rw [Nat.div_lt_iff_lt_mul positive, ← Nat.pow_add, Nat.add_sub_cancel' within]
        exact bitOrder_lt v
      have most : 2 ^ (w - large) * (bitOrder v / 2 ^ (w - large) + 1) ≤ 2 ^ w := by
        calc 2 ^ (w - large) * (bitOrder v / 2 ^ (w - large) + 1)
            ≤ 2 ^ (w - large) * 2 ^ large := Nat.mul_le_mul_left _ last
          _ = 2 ^ w := by rw [← Nat.pow_add, Nat.sub_add_cancel within]
      rw [Nat.le_antisymm most above, Nat.mod_self] at next
      exact absurd (next ▸ Nat.dvd_zero _) inside
  have block : bitOrder (reverseNext large v) / 2 ^ (w - large)
      = bitOrder v / 2 ^ (w - large) + 1 := by
    rw [order, Nat.mul_div_cancel_left _ positive]
  have carry : ¬ 2 ^ (large - small) ∣ bitOrder v / 2 ^ (w - large) + 1 := fun divides =>
    inside (by rw [order, sizes]; exact Nat.mul_dvd_mul_left _ divides)
  have quotient := Nat.succ_div_of_not_dvd carry
  constructor
  · rw [agreeBelow_iff_block (Nat.le_trans nested within), sizes, ← Nat.div_div_eq_div_mul,
      ← Nat.div_div_eq_div_mul, block, quotient]
  · have before := Nat.div_add_mod (bitOrder v / 2 ^ (w - large)) (2 ^ (large - small))
    have after := Nat.div_add_mod (bitOrder v / 2 ^ (w - large) + 1) (2 ^ (large - small))
    rw [quotient] at after
    rw [block]
    omega

end Thredis.Lib
