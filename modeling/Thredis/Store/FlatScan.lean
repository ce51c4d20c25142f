import Thredis.Lib.ReverseScan
import Thredis.Store.FlatOps

/-! The keyspace cursor: the reverse-binary counter, the visit of one home slot and the walk
of a `SCAN` call over one or two tables.
-/

namespace Thredis.Store
open Thredis.Lib BitVec

/-- One exchange of `scan_cursor_reverse_bits`: neighbouring groups of `s` bits change places. -/
def swapGroups (m : BitVec 64) (s : Nat) (v : BitVec 64) : BitVec 64 :=
  ((v &&& m) <<< s) ||| ((v >>> s) &&& m)

def scanCursorReverseBits (v : BitVec 64) : BitVec 64 :=
  let v := swapGroups 0x5555555555555555#64 1 v
  let v := swapGroups 0x3333333333333333#64 2 v
  let v := swapGroups 0x0f0f0f0f0f0f0f0f#64 4 v
  let v := swapGroups 0x00ff00ff00ff00ff#64 8 v
  let v := swapGroups 0x0000ffff0000ffff#64 16 v
  (v <<< 32) ||| (v >>> 32)

def scanCursorNext (cursor mask : BitVec 64) : BitVec 64 :=
  scanCursorReverseBits (scanCursorReverseBits (cursor ||| ~~~ mask) + 1#64)

/-- The mask of an exchange holds the lower of each two neighbouring groups. -/
def LowerGroups (m : BitVec 64) (s : Nat) : Prop :=
  ∀ i < 64, if m.getLsbD i then i + s = i ^^^ s ∧ (s ≤ i → m.getLsbD (i - s) = false)
    else s ≤ i ∧ i - s = i ^^^ s ∧ m.getLsbD (i - s) = true

instance LowerGroups.decidable (m : BitVec 64) (s : Nat) : Decidable (LowerGroups m s) :=
  inferInstanceAs (Decidable (∀ i < 64, _))

/-- An exchange moves bit `i` to where its index differs in the bit of `s`. -/
theorem getLsbD_swapGroups {m : BitVec 64} {s : Nat} (groups : LowerGroups m s) (v : BitVec 64)
    {i : Nat} (inside : i < 64) : (swapGroups m s v).getLsbD i = v.getLsbD (i ^^^ s) := by
  have bit := groups i inside
  rw [swapGroups, getLsbD_or, getLsbD_shiftLeft, getLsbD_and, getLsbD_and]
  by_cases lower : m.getLsbD i = true
  · rw [if_pos lower] at bit
    obtain ⟨up, clear⟩ := bit
    by_cases room : s ≤ i
    · simp [lower, clear room, Nat.add_comm s i, up]
    · simp [lower, Nat.lt_of_not_le room, Nat.add_comm s i, up]
  · rw [if_neg lower] at bit
    obtain ⟨room, down, set⟩ := bit
    rw [down] at set
    rw [down, set, Bool.eq_false_iff.mpr lower]
    simp [inside, Nat.not_lt.mpr room]

theorem scanCursorReverseBits_eq (v : BitVec 64) : scanCursorReverseBits v = v.reverse := by
  have mirrored : ∀ i < 64, i ^^^ 32 ^^^ 16 ^^^ 8 ^^^ 4 ^^^ 2 ^^^ 1 = 63 - i := by decide
  have halves : ∀ i < 64, if i < 32 then i + 32 = i ^^^ 32 else i - 32 = i ^^^ 32 := by decide
  have bounded : ∀ i < 64, i ^^^ 32 < 64 ∧ i ^^^ 32 ^^^ 16 < 64 ∧ i ^^^ 32 ^^^ 16 ^^^ 8 < 64
      ∧ i ^^^ 32 ^^^ 16 ^^^ 8 ^^^ 4 < 64 ∧ i ^^^ 32 ^^^ 16 ^^^ 8 ^^^ 4 ^^^ 2 < 64 := by decide
  apply eq_of_getLsbD_eq
  intro i inside
  obtain ⟨below32, below16, below8, below4, below2⟩ := bounded i inside
  have exchanged (u : BitVec 64)
      : ((u <<< 32) ||| (u >>> 32)).getLsbD i = u.getLsbD (i ^^^ 32) := by
    have half := halves i inside
    rw [getLsbD_or, getLsbD_shiftLeft]
    by_cases low : i < 32
    · rw [if_pos low] at half
      simp [low, Nat.add_comm 32 i, half]
    · rw [if_neg low] at half
      have beyond : u.getLsbD (32 + i) = false := getLsbD_of_ge u _ (by omega)
      simp [low, inside, half, beyond]
  simp only [scanCursorReverseBits]
  rw [exchanged, getLsbD_swapGroups (by decide) _ below32, getLsbD_swapGroups (by decide) _ below16,
    getLsbD_swapGroups (by decide) _ below8, getLsbD_swapGroups (by decide) _ below4,
    getLsbD_swapGroups (by decide) _ below2, mirrored i inside, getLsbD_reverse,
    getMsbD_eq_getLsbD]
  simp [inside]

/-- The source's counter is the increment in bit-reversed order. -/
theorem scanCursorNext_lowMask (cursor : BitVec 64) (k : Nat)
    : scanCursorNext cursor (lowMask 64 k) = reverseNext k cursor := by
  rw [scanCursorNext, scanCursorReverseBits_eq, scanCursorReverseBits_eq, reverseNext]

namespace FlatStore

variable (env : StoreEnv) (expireOnVisit : Bool)

/-- `scan_visit`: the objects handed to the callback, and the store. -/
def scanVisit (store : FlatStore) (side : Side) (h : BitVec 64) (object : KvObj)
    : List KvObj × FlatStore :=
  if !expireOnVisit then ([object], store)
  else if object.deadlineElapsed store.cachedNowMs then
    if store.atomicHasRecord h object.key then ([object], store)
    else if store.snapshot.active && side == .old then ([], store)
    else
      let logged := store.recordDelete object.key
      let erased := (logged.eraseIn side h object.key).map (fun erased => erased.2)
      ([], (erased.getD logged).countExpired true)
  else ([object], store)

structure HomeVisit where
  examined : Nat
  emitted : List KvObj
  store : FlatStore

/-- The probe loop of `scan_home`, with the probes left. -/
def scanHomeLoop (side : Side) (home : Nat) : Nat → Nat → FlatStore → HomeVisit
  | 0, _, store => { examined := 0, emitted := [], store := store }
  | probes + 1, i, store =>
    match store.tables.table side with
    | none => { examined := 0, emitted := [], store := store }
    | some table =>
      match table.slots[i]? with
      | some (.live word) =>
        let h := env.hashKey word.obj.key
        let visited :=
          if table.slotStart h = home then store.scanVisit expireOnVisit side h word.obj
          else ([], store)
        let rest := scanHomeLoop side home probes (nextSlot table.cap i) visited.2
        { rest with examined := rest.examined + 1, emitted := visited.1 ++ rest.emitted }
      | some .dead =>
        let rest := scanHomeLoop side home probes (nextSlot table.cap i) store
        { rest with examined := rest.examined + 1 }
      | _ => { examined := 0, emitted := [], store := store }

/-- `scan_home`: every key whose home slot is `home`, wherever probing put it; an empty home
is charged as one slot.
-/
def scanHome (store : FlatStore) (side : Side) (home : Nat) : HomeVisit :=
  let cap := ((store.tables.table side).map Table.cap).getD 0
  let visit := scanHomeLoop env expireOnVisit side home (cap + 1) home store
  { visit with examined := if visit.examined = 0 then 1 else visit.examined }

end FlatStore

structure ScanState where
  store : FlatStore
  cursor : BitVec 64
  homes : Nat
  slots : Nat
  emitted : List KvObj

def Table.scanMask (table : Table) : BitVec 64 := BitVec.ofNat 64 table.mask

namespace ScanState

variable (env : StoreEnv) (expireOnVisit : Bool)

variable (state : ScanState)

def visitHome (side : Side) (home : Nat) : ScanState :=
  let visit := state.store.scanHome env expireOnVisit side home
  { state with
    store := visit.store, homes := state.homes + 1, slots := state.slots + visit.examined
    emitted := state.emitted ++ visit.emitted }

def advance (mask : BitVec 64) : ScanState :=
  { state with cursor := scanCursorNext state.cursor mask }

def visitLarge (large : Side) (largeMask : BitVec 64) : ScanState :=
  (state.visitHome env expireOnVisit large
    ((state.cursor &&& largeMask).toNat % 2 ^ 32)).advance largeMask

/-- The inner loop over the homes of the larger table that share the smaller table's home;
`turns` bounds its iterations.
-/
def sweepLarge (large : Side) (smallMask largeMask : BitVec 64) : Nat → ScanState → ScanState
  | 0, state => state
  | turns + 1, state =>
    let next := state.visitLarge env expireOnVisit large largeMask
    if next.cursor &&& (smallMask ^^^ largeMask) ≠ 0#64 then
      sweepLarge large smallMask largeMask turns next
    else next

def sweepBoth (small large : Side) (smallTable largeTable : Table)
    : ScanState :=
  (state.visitHome env expireOnVisit small
    ((state.cursor &&& smallTable.scanMask).toNat % 2 ^ 32)).sweepLarge env expireOnVisit large
      smallTable.scanMask largeTable.scanMask largeTable.cap

def turn : ScanState :=
  let cur := state.store.tables.cur
  let home := state.cursor.toNat % 2 ^ 32 &&& cur.mask
  match state.store.tables.old with
  | none => (state.visitHome env expireOnVisit .cur home).advance cur.scanMask
  | some old =>
    if cur.mask = old.mask then
      ((state.visitHome env expireOnVisit .cur home).visitHome env expireOnVisit .old
        home).advance cur.scanMask
    else if cur.cap < old.cap then state.sweepBoth env expireOnVisit .cur .old cur old
    else state.sweepBoth env expireOnVisit .old .cur old cur

def loop (count : Nat) : Nat → ScanState → ScanState
  | 0, state => state
  | turns + 1, state =>
    let next := state.turn env expireOnVisit
    if next.cursor ≠ 0#64 ∧ next.homes < count ∧ next.slots < count * 10 then
      loop count turns next
    else next

end ScanState

def ScanState.start (store : FlatStore) (cursor : BitVec 64) : ScanState :=
  { store := store, cursor := cursor, homes := 0, slots := 0, emitted := [] }

/-- `scan`: the state the call ends in holds the cursor it returns. The current table is
always allocated here.
-/
def FlatStore.scan (env : StoreEnv) (store : FlatStore) (cursor : BitVec 64) (count : Nat)
    (expireOnVisit : Bool) : ScanState :=
  (ScanState.start store cursor).loop env expireOnVisit count (count + 1)

namespace ScanState

variable {env : StoreEnv} {expireOnVisit : Bool}

theorem sweepLarge_turn (large : Side) (smallMask largeMask : BitVec 64) (turns : Nat)
    (state : ScanState)
    : state.sweepLarge env expireOnVisit large smallMask largeMask (turns + 1)
      = if (state.visitLarge env expireOnVisit large largeMask).cursor
            &&& (smallMask ^^^ largeMask) ≠ 0#64 then
          (state.visitLarge env expireOnVisit large largeMask).sweepLarge env expireOnVisit large
            smallMask largeMask turns
        else state.visitLarge env expireOnVisit large largeMask :=
  rfl

theorem loop_turn (count turns : Nat) (state : ScanState)
    : state.loop env expireOnVisit count (turns + 1)
      = if (state.turn env expireOnVisit).cursor ≠ 0#64
            ∧ (state.turn env expireOnVisit).homes < count
            ∧ (state.turn env expireOnVisit).slots < count * 10 then
          (state.turn env expireOnVisit).loop env expireOnVisit count turns
        else state.turn env expireOnVisit :=
  rfl

end ScanState

end Thredis.Store
