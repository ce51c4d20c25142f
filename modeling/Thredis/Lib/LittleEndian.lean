import Mathlib

/-! Numbers as fixed-width byte strings, least significant byte first. -/

namespace Thredis.Lib

def littleEndian : Nat → Nat → List UInt8
  | 0, _ => []
  | width + 1, value => UInt8.ofNat value :: littleEndian width (value / 256)

def fromLittleEndian : List UInt8 → Nat
  | [] => 0
  | low :: high => low.toNat + 256 * fromLittleEndian high

@[simp]
theorem littleEndian_length (width value : Nat) : (littleEndian width value).length = width := by
  induction width generalizing value with
  | zero => rfl
  | succ width ih => simp [littleEndian, ih]

/-- Reading back gives the value modulo the width, by induction on the width. -/
theorem fromLittleEndian_littleEndian (width value : Nat)
    : fromLittleEndian (littleEndian width value) = value % 256 ^ width := by
  induction width generalizing value with
  | zero => simp [littleEndian, fromLittleEndian, Nat.mod_one]
  | succ width ih =>
    have low : (UInt8.ofNat value).toNat = value % 256 := rfl
    rw [littleEndian, fromLittleEndian, ih, low, Nat.pow_succ', Nat.mod_mul]

end Thredis.Lib
