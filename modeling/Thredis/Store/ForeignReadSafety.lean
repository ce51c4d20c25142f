import Mathlib

/-! The per-shard filter of keys a foreign reader must not read locally. A cell counts the
references of all hashes that map to it and remembers one fingerprint; beside each cell stands
a 32-bit touch epoch.
-/

namespace Thredis.Store
open BitVec

def kCellCount : Nat := 4096

def kCountBits : Nat := 31

def kCountMask : BitVec 64 := (1#64 <<< kCountBits) - 1

def kFingerprintMask : BitVec 64 := ((1#64 <<< 32) - 1) <<< kCountBits

def kWildcardBit : BitVec 64 := 1#64 <<< 63

def kUInt64Max : Nat := 2 ^ 64 - 1

abbrev CellIndex := Fin kCellCount

def mixedHash (hash : BitVec 64) : BitVec 64 :=
  let hash := hash ^^^ (hash >>> 33)
  let hash := hash * 0xff51afd7ed558ccd#64
  let hash := hash ^^^ (hash >>> 33)
  let hash := hash * 0xc4ceb9fe1a85ec53#64
  hash ^^^ (hash >>> 33)

/-- The low bits of the mixed hash; the mask is one less than the cell count. -/
def cellIndex (hash : BitVec 64) : CellIndex :=
  ⟨(mixedHash hash).toNat % kCellCount, Nat.mod_lt _ (by decide)⟩

def fingerprint (hash : BitVec 64) : BitVec 32 :=
  let result := (mixedHash hash >>> 12).setWidth 32
  if result = 0 then 1 else result

def cellCount (cell : BitVec 64) : BitVec 64 := cell &&& kCountMask

def cellFingerprint (cell : BitVec 64) : BitVec 32 :=
  ((cell &&& kFingerprintMask) >>> kCountBits).setWidth 32

def cellWildcard (cell : BitVec 64) : Bool := cell &&& kWildcardBit != 0

def pack (count : BitVec 64) (fingerprint : BitVec 32) (wildcard : Bool) : BitVec 64 :=
  count ||| (fingerprint.setWidth 64 <<< kCountBits) ||| (if wildcard then kWildcardBit else 0)

theorem kCountMask_eq : kCountMask = (allOnes 31).setWidth 64 := by decide

theorem kFingerprintMask_eq : kFingerprintMask = (allOnes 32).setWidth 64 <<< 31 := by decide

theorem kWildcardBit_eq : kWildcardBit = twoPow 64 63 := by decide

variable {count : BitVec 64}

section

variable (fits : count.toNat < 2 ^ 31)

include fits

section

variable (fingerprint : BitVec 32) (wildcard : Bool)

/-- The bits of a packed cell: 31 of the count, 32 of the fingerprint, and the wildcard bit. -/
theorem pack_getLsbD (i : Nat)
    : (pack count fingerprint wildcard).getLsbD i
      = if i < 31 then count.getLsbD i
        else if i < 63 then fingerprint.getLsbD (i - 31) else decide (i = 63) && wildcard := by
  have wild : (if wildcard then kWildcardBit else 0).getLsbD i = (decide (i = 63) && wildcard) := by
    cases wildcard with
    | false => simp
    | true =>
      simp only [kWildcardBit_eq]
      grind
  simp only [pack, getLsbD_or, wild, getLsbD_shiftLeft, kCountBits]
  by_cases low : i < 31
  · simp only [low]
    simp
    omega
  · have high : count.getLsbD i = false :=
      Nat.testBit_lt_two_pow (fits.trans_le
        (Nat.pow_le_pow_right (by decide) (not_lt.mp low)))
    rw [high]
    by_cases mid : i < 63
    · simp [mid, show i < 64 by omega, show i - 31 < 64 by omega]
      omega
    · have out : fingerprint.getLsbD (i - 31) = false := getLsbD_of_ge _ _ (by omega)
      simp [low, mid, out]

theorem cellCount_pack
    : cellCount (pack count fingerprint wildcard) = count := by
  apply eq_of_getLsbD_eq
  intro i inside
  rw [cellCount, getLsbD_and, pack_getLsbD fits, kCountMask_eq, getLsbD_setWidth, getLsbD_allOnes]
  by_cases low : i < 31
  · simp [low, inside]
  · have high : count.getLsbD i = false :=
      Nat.testBit_lt_two_pow (fits.trans_le
        (Nat.pow_le_pow_right (by decide) (not_lt.mp low)))
    simp [low, high]

theorem cellFingerprint_pack
    : cellFingerprint (pack count fingerprint wildcard) = fingerprint := by
  apply eq_of_getLsbD_eq
  intro i inside
  simp only [cellFingerprint, kCountBits, getLsbD_setWidth, getLsbD_ushiftRight,
    getLsbD_and, pack_getLsbD fits, kFingerprintMask_eq, getLsbD_shiftLeft,
    getLsbD_allOnes]
  simp [inside, show 31 + i < 63 by omega, show 31 + i < 64 by omega,
    show i < 64 by omega]

theorem cellWildcard_pack
    : cellWildcard (pack count fingerprint wildcard) = wildcard := by
  have bit : (pack count fingerprint wildcard).getLsbD 63 = wildcard := by
    rw [pack_getLsbD fits]
    simp
  rw [cellWildcard, kWildcardBit_eq, and_twoPow, bit]
  cases wildcard <;> decide

end

/-- A cell with a count is not zero. -/
theorem pack_ne_zero (some : count ≠ 0) (fingerprint : BitVec 32) (wildcard : Bool)
    : pack count fingerprint wildcard ≠ 0 := by
  intro zero
  have counted := cellCount_pack fits fingerprint wildcard
  rw [zero] at counted
  exact some (counted.symm.trans (by simp [cellCount]))

end

-- The filter

structure ForeignReadSafety where
  cells : CellIndex → BitVec 64
  epochs : CellIndex → BitVec 32
  unsafeTotalRefs : Nat
  saturatedCells : Nat
  poisonRefs : Nat

/-- The arguments of `add_cell`: a reference that a cell is to count. -/
structure CellRef where
  index : CellIndex
  fingerprint : BitVec 32
  forceWildcard : Bool

namespace ForeignReadSafety

def init : ForeignReadSafety :=
  { cells := fun _ => 0, epochs := fun _ => 0, unsafeTotalRefs := 0, saturatedCells := 0
    poisonRefs := 0 }

variable (filter : ForeignReadSafety)

def mightContain (hash : BitVec 64) : Bool :=
  let cell := filter.cells (cellIndex hash)
  if cell = 0 then false
  else cellWildcard cell || cellFingerprint cell == Store.fingerprint hash

def cellEpoch (hash : BitVec 64) : BitVec 32 :=
  filter.epochs (cellIndex hash)

def permanentlyPoisoned : Bool := filter.poisonRefs == kUInt64Max

variable (index : CellIndex)

def storeCell (cell : BitVec 64)
    : ForeignReadSafety :=
  { filter with cells := Function.update filter.cells index cell }

def touchEpoch : ForeignReadSafety :=
  { filter with epochs := Function.update filter.epochs index (filter.epochs index + 1) }

def touchAllEpochs : ForeignReadSafety :=
  { filter with epochs := fun index => filter.epochs index + 1 }

def storeAddCell (ref : CellRef) : ForeignReadSafety :=
  let old := filter.cells ref.index
  if old = 0 then filter.storeCell ref.index (pack 1 ref.fingerprint ref.forceWildcard)
  else
    let count := cellCount old
    if count = kCountMask then filter
    else
      let next := count + 1
      let wildcard := ref.forceWildcard || cellWildcard old
        || cellFingerprint old != ref.fingerprint
      if next = kCountMask then
        { filter.storeCell ref.index (pack kCountMask (cellFingerprint old) true) with
          saturatedCells := filter.saturatedCells + 1 }
      else filter.storeCell ref.index (pack next (cellFingerprint old) wildcard)

def addCell (ref : CellRef) : ForeignReadSafety :=
  (filter.storeAddCell ref).touchEpoch ref.index

/-- `store_close_cell`; `none` where it aborts. -/
def storeCloseCell : Option ForeignReadSafety :=
  let old := filter.cells index
  let count := cellCount old
  if count = 0 then none
  else if count = kCountMask then some filter
  else if count = 1 then some (filter.storeCell index 0)
  else some (filter.storeCell index (pack (count - 1) (cellFingerprint old) (cellWildcard old)))

def closeCell : Option ForeignReadSafety :=
  (filter.storeCloseCell index).map (fun filter => filter.touchEpoch index)

def addCells (refs : List CellRef) : ForeignReadSafety :=
  refs.foldl addCell filter

def closeCells : ForeignReadSafety → List CellRef → Option ForeignReadSafety
  | filter, [] => some filter
  | filter, ref :: refs =>
    match filter.closeCell ref.index with
    | none => none
    | some filter => filter.closeCells refs

/-- The stores of `rebuild_saturated_if_drained` behind its tests. -/
def clearCells : ForeignReadSafety :=
  { touchAllEpochs { filter with cells := fun _ => 0 } with saturatedCells := 0 }

def rebuildSaturatedIfDrained (unsafeRefs : Nat)
    : ForeignReadSafety :=
  if unsafeRefs ≠ 0 ∨ filter.poisonRefs ≠ 0 ∨ filter.saturatedCells = 0 then filter
  else filter.clearCells

def poisonPermanently : ForeignReadSafety :=
  { touchAllEpochs { filter with
      cells := fun _ => pack kCountMask 1 true
      poisonRefs := kUInt64Max
      unsafeTotalRefs := kUInt64Max } with
    saturatedCells := kCellCount }

def hashRef (hash : BitVec 64) : CellRef :=
  { index := cellIndex hash, fingerprint := Store.fingerprint hash, forceWildcard := false }

/-- The references the first `poison_open` makes. -/
def poisonWalk : List CellRef :=
  (List.finRange kCellCount).map
    (fun index => { index := index, fingerprint := 1, forceWildcard := true })

def addSpan (hashes : List (BitVec 64)) : ForeignReadSafety :=
  if hashes.length = 0 then filter
  else if filter.unsafeTotalRefs = kUInt64Max
      ∨ kUInt64Max - filter.unsafeTotalRefs < hashes.length then filter.poisonPermanently
  else
    addCells { filter with unsafeTotalRefs := filter.unsafeTotalRefs + hashes.length }
      (hashes.map hashRef)

def closeSpan (hashes : List (BitVec 64))
    : Option ForeignReadSafety :=
  if hashes.length = 0 then some filter
  else if filter.poisonRefs = kUInt64Max then some filter
  else
    match filter.closeCells (hashes.map hashRef) with
    | none => none
    | some filter =>
      if filter.unsafeTotalRefs < hashes.length then none
      else
        let remaining := filter.unsafeTotalRefs - hashes.length
        some (rebuildSaturatedIfDrained { filter with unsafeTotalRefs := remaining } remaining)

def poisonOpen : ForeignReadSafety :=
  if filter.poisonRefs = kUInt64Max then filter
  else if filter.poisonRefs ≠ 0 then
    if filter.poisonRefs = kUInt64Max - 1 then filter.poisonPermanently
    else { filter with poisonRefs := filter.poisonRefs + 1 }
  else addCells { filter with poisonRefs := 1 } poisonWalk

def poisonClose : Option ForeignReadSafety :=
  if filter.poisonRefs = 0 then none
  else if filter.poisonRefs = kUInt64Max then some filter
  else if 1 < filter.poisonRefs then some { filter with poisonRefs := filter.poisonRefs - 1 }
  else
    match filter.closeCells poisonWalk with
    | none => none
    | some filter =>
      some (rebuildSaturatedIfDrained { filter with poisonRefs := 0 } filter.unsafeTotalRefs)

end ForeignReadSafety

end Thredis.Store
