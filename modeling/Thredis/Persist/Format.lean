import Thredis.Lib.LittleEndian

/-! The words and the checksum every persistent file is made of. -/

namespace Thredis.Persist

open Thredis.Lib

abbrev Bytes := List UInt8

theorem noBytes_sized : ([] : Bytes).length < 2 ^ 32 := by decide

/-- The default hash is one of the two kinds. -/
theorem plainHash_known : (0 : BitVec 32).toNat ≤ 1 := by decide

def snapshotPutU32 (value : BitVec 32) : Bytes := littleEndian 4 value.toNat

variable (value : BitVec 64)

def snapshotPutU64 : Bytes := littleEndian 8 value.toNat

def snapshotGetU32 (bytes : Bytes) : BitVec 32 := .ofNat 32 (fromLittleEndian (bytes.take 4))

def snapshotGetU64 (bytes : Bytes) : BitVec 64 := .ofNat 64 (fromLittleEndian (bytes.take 8))

def snapshotChecksum (bytes : Bytes) : BitVec 64 :=
  bytes.foldl (fun h byte => (h ^^^ byte.toBitVec.setWidth 64) * 1099511628211#64)
    1469598103934665603#64

@[simp]
theorem snapshotPutU32_length (value : BitVec 32) : (snapshotPutU32 value).length = 4 :=
  littleEndian_length 4 _

@[simp]
theorem snapshotPutU64_length : (snapshotPutU64 value).length = 8 :=
  littleEndian_length 8 _

@[simp]
theorem snapshotGetU32_put (value : BitVec 32) (rest : Bytes)
    : snapshotGetU32 (snapshotPutU32 value ++ rest) = value := by
  rw [snapshotGetU32, List.take_left' (snapshotPutU32_length value), snapshotPutU32,
    fromLittleEndian_littleEndian, Nat.mod_eq_of_lt (by exact value.isLt)]
  exact BitVec.eq_of_toNat_eq (by simp)

@[simp]
theorem snapshotGetU64_put (rest : Bytes)
    : snapshotGetU64 (snapshotPutU64 value ++ rest) = value := by
  rw [snapshotGetU64, List.take_left' (snapshotPutU64_length value), snapshotPutU64,
    fromLittleEndian_littleEndian, Nat.mod_eq_of_lt (by exact value.isLt)]
  exact BitVec.eq_of_toNat_eq (by simp)

@[simp]
theorem snapshotGetU64_put_last
    : snapshotGetU64 (snapshotPutU64 value) = value := by
  exact snapshotGetU64_put value []

@[simp]
theorem drop_snapshotPutU32 (value : BitVec 32) (rest : Bytes) (skipped : Nat)
    : (snapshotPutU32 value ++ rest).drop (skipped + 4) = rest.drop skipped := by
  rw [Nat.add_comm, ← snapshotPutU32_length value, List.drop_length_add_append]

@[simp]
theorem drop_snapshotPutU64 (rest : Bytes) (skipped : Nat)
    : (snapshotPutU64 value ++ rest).drop (skipped + 8) = rest.drop skipped := by
  rw [Nat.add_comm, ← snapshotPutU64_length value, List.drop_length_add_append]

end Thredis.Persist
