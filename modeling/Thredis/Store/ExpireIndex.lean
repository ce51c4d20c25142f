import Thredis.Store.FlatTable

/-! The hash-only index of keys that may carry a deadline: two slot tables with their own
incremental migration, a sampling cursor and a random draw.
-/

namespace Thredis.Store
open Thredis.Lib

/-- The answers the allocator still has to give; a list that has run out grants every
request.
-/
abbrev Allocations := List Bool

def drawAllocation : Allocations → Bool × Allocations
  | [] => (true, [])
  | granted :: rest => (granted, rest)

/-- `hashes_[t]` and `states(t)` with their counters; an unallocated table has no slots. -/
structure ExpireTable where
  slots : List (Slot (BitVec 64))
  live : Nat
  tombs : Nat
  deriving DecidableEq, Repr

namespace ExpireTable

variable (table : ExpireTable)

def cap : Nat := table.slots.length

def unallocated : ExpireTable := { slots := [], live := 0, tombs := 0 }

def allocated (cap : Nat) : ExpireTable :=
  { slots := List.replicate cap .empty, live := 0, tombs := 0 }

variable (hash : BitVec 64)

def start : Nat :=
  (mix64 hash).toNat &&& (table.cap - 1)

/-- The probe loops of the index stop after `cap` probes. -/
def walk : Probe (BitVec 64) :=
  probe (fun entry => entry == hash) table.slots table.cap (table.start hash) none

def insertRaw : Option ExpireTable :=
  match table.walk hash with
  | .hit _ _ => some table
  | .vacant _ (some tomb) =>
    some { slots := table.slots.set tomb (.live hash), live := table.live + 1
           tombs := table.tombs - 1 }
  | .vacant index none =>
    some { table with slots := table.slots.set index (.live hash), live := table.live + 1 }
  | .exhausted => none

def kill (index : Nat) : ExpireTable :=
  { slots := table.slots.set index .dead, live := table.live - 1, tombs := table.tombs + 1 }

def eraseIn : Option ExpireTable :=
  match table.walk hash with
  | .hit index _ => some (table.kill index)
  | _ => none

def liveAt (index : Nat) : Option (BitVec 64) :=
  match table.slots[index]? with
  | some (.live hash) => some hash
  | _ => none

/-- The load factor that starts a migration, or finishes one early. -/
def crowded : Bool :=
  decide (table.cap * 70 ≤ (table.live + table.tombs + 1) * 100)

end ExpireTable

/-- While a migration runs, `tab0` is drained into `tab1`. -/
structure ExpireIndex where
  tab0 : ExpireTable
  tab1 : ExpireTable
  cursor : Nat
  migratePos : Nat
  deriving DecidableEq, Repr

namespace ExpireIndex

def kMinCap : Nat := 16

def kMigrateSlotsPerOp : Nat := 8

def init : ExpireIndex :=
  { tab0 := .unallocated, tab1 := .unallocated, cursor := 0, migratePos := 0 }

variable (index : ExpireIndex)

def size : Nat := index.tab0.live + index.tab1.live

/-- Both `migrating()` and the private `rehashing()`. -/
def migrating : Bool := decide (index.tab1.cap ≠ 0)

def clear (_ : ExpireIndex) : ExpireIndex := init

def migrateSlot : ExpireIndex :=
  match index.tab0.liveAt index.migratePos with
  | some hash =>
    { index with
      tab0 := index.tab0.kill index.migratePos
      tab1 := (index.tab1.insertRaw hash).getD index.tab1
      migratePos := index.migratePos + 1 }
  | none => { index with migratePos := index.migratePos + 1 }

def migrateSlots : Nat → ExpireIndex → ExpireIndex
  | 0, index => index
  | slots + 1, index =>
    if index.migratePos < index.tab0.cap then migrateSlots slots index.migrateSlot else index

def finishMigration : ExpireIndex :=
  let drained := migrateSlots (index.tab0.cap - index.migratePos) index
  { tab0 := drained.tab1, tab1 := .unallocated, cursor := 0, migratePos := 0 }

def migrate (slots : Nat) (index : ExpireIndex) : ExpireIndex :=
  let moved := migrateSlots slots index
  if moved.tab0.cap ≤ moved.migratePos then moved.finishMigration else moved

def insertMigrate : ExpireIndex :=
  if index.migrating then
    let moved := migrate kMigrateSlotsPerOp index
    if moved.migrating && moved.tab1.crowded then moved.finishMigration else moved
  else index

def insertAllocate (allocations : Allocations)
    : Option ExpireIndex × Allocations :=
  if index.tab0.cap = 0 then
    match drawAllocation allocations with
    | (true, rest) => (some { index with tab0 := .allocated kMinCap }, rest)
    | (false, rest) => (none, rest)
  else (some index, allocations)

/-- A crowded table starts a migration, doubled only when its live entries ask for it. -/
def insertGrow (allocations : Allocations)
    : Option ExpireIndex × Allocations :=
  if !index.migrating && index.tab0.crowded then
    let doubled := decide (index.tab0.cap ≤ index.tab0.live * 2)
    if doubled && decide ((2 ^ 64 - 1) / 2 < index.tab0.cap) then (none, allocations)
    else
      match drawAllocation allocations with
      | (true, rest) =>
        let wanted := if doubled then index.tab0.cap * 2 else index.tab0.cap
        (some (migrate kMigrateSlotsPerOp
          { index with tab1 := .allocated wanted, migratePos := 0 }), rest)
      | (false, rest) => (none, rest)
  else (some index, allocations)

def insertPlace (hash : BitVec 64) : Bool × ExpireIndex :=
  if index.migrating then
    let tab0 := (index.tab0.eraseIn hash).getD index.tab0
    match index.tab1.insertRaw hash with
    | some tab1 => (true, { index with tab0 := tab0, tab1 := tab1 })
    | none => (false, { index with tab0 := tab0 })
  else
    match index.tab0.insertRaw hash with
    | some tab0 => (true, { index with tab0 := tab0 })
    | none => (false, index)

def insert (hash : BitVec 64) (allocations : Allocations)
    : Bool × ExpireIndex × Allocations :=
  let moved := index.insertMigrate
  match moved.insertAllocate allocations with
  | (none, rest) => (false, moved, rest)
  | (some ready, rest) =>
    match ready.insertGrow rest with
    | (none, rest) => (false, ready, rest)
    | (some grown, rest) =>
      let placed := grown.insertPlace hash
      (placed.1, placed.2, rest)

/-- Reaching zero live entries releases the tables, except one of the minimum size. -/
def collapseEmpty : ExpireIndex :=
  if !index.migrating && decide (index.tab0.cap ≤ kMinCap) then
    { index with
      tab0 := { slots := List.replicate index.tab0.cap .empty, live := index.tab0.live, tombs := 0 }
      cursor := 0 }
  else init

def erase (hash : BitVec 64) : Bool × ExpireIndex :=
  if index.size = 0 then (false, index)
  else
    let erased := match index.tab1.eraseIn hash with
      | some tab1 => some { index with tab1 := tab1 }
      | none => (index.tab0.eraseIn hash).map (fun tab0 => { index with tab0 := tab0 })
    match erased with
    | none => (false, index)
    | some next => (true, if next.size = 0 then next.collapseEmpty else next)

/-- The slot the cursor stands on, over the rest of `tab0` and then `tab1`; `none` when the
index has no slot.
-/
def cursorSlot : Option (Option (BitVec 64) × ExpireIndex) :=
  let oldLeft := index.tab0.cap - index.migratePos
  let total := oldLeft + index.tab1.cap
  if total = 0 then none
  else
    let pos := if total ≤ index.cursor then 0 else index.cursor
    let found :=
      if pos < oldLeft then index.tab0.liveAt (index.migratePos + pos)
      else index.tab1.liveAt (pos - oldLeft)
    some (found, { index with cursor := pos + 1 })

/-- One turn of the sampling loop: the hash to visit, if the slot holds one. -/
def sampleNext : Option (Option (BitVec 64) × ExpireIndex) :=
  if index.size = 0 then none else index.cursorSlot

def randomAt (table : ExpireTable) (random : BitVec 64) (offset : Nat) : Option (BitVec 64) :=
  if table.cap = 0 ∨ table.live = 0 then none
  else table.liveAt ((mix64 (random + BitVec.ofNat 64 offset)).toNat &&& (table.cap - 1))

/-- The random attempts of `random_hash`, `i` counting up to `attempts`. -/
def randomProbes (random : BitVec 64) (attempts : Nat)
    : Option (BitVec 64) :=
  (List.range attempts).findSome? (fun i =>
    (randomAt index.tab0 random (i * 2)).or (randomAt index.tab1 random (i * 2 + 1)))

/-- The bounded cursor walk behind a missed random draw. -/
def cursorProbes : Nat → ExpireIndex → Option (BitVec 64) × ExpireIndex
  | 0, index => (none, index)
  | attempts + 1, index =>
    match index.cursorSlot with
    | none => (none, index)
    | some (some hash, next) => (some hash, next)
    | some (none, next) => cursorProbes attempts next

def randomHash (random : BitVec 64) (attempts : Nat)
    : Option (BitVec 64) × ExpireIndex :=
  if index.size = 0 then (none, index)
  else
    match index.randomProbes random attempts with
    | some hash => (some hash, index)
    | none => cursorProbes attempts index

variable (index : ExpireIndex)

theorem insertAllocate_granted
    : (index.insertAllocate []).2 = [] := by
  simp only [insertAllocate]
  split <;> rfl

theorem insertGrow_granted : (index.insertGrow []).2 = [] := by
  simp only [insertGrow]
  split
  · split <;> rfl
  · rfl

theorem insert_granted (h : BitVec 64)
    : (index.insert h []).2.2 = [] := by
  have first := insertAllocate_granted index.insertMigrate
  simp only [insert]
  split
  · rename_i rest refused
    rwa [refused] at first
  · rename_i ready rest allocated
    rw [allocated] at first
    obtain rfl := first
    have second := insertGrow_granted ready
    split
    · rename_i rest refused
      rwa [refused] at second
    · rename_i grown rest started
      rwa [started] at second

theorem cursorSlot_tables {index next : ExpireIndex} {found : Option (BitVec 64)}
    (visited : index.cursorSlot = some (found, next))
    : next.tab0 = index.tab0 ∧ next.tab1 = index.tab1 ∧ next.migratePos = index.migratePos := by
  simp only [cursorSlot] at visited
  split at visited
  · cases visited
  · cases visited
    exact ⟨rfl, rfl, rfl⟩

theorem cursorProbes_tables (attempts : Nat) (index : ExpireIndex)
    : (cursorProbes attempts index).2.tab0 = index.tab0
      ∧ (cursorProbes attempts index).2.tab1 = index.tab1
      ∧ (cursorProbes attempts index).2.migratePos = index.migratePos := by
  induction attempts generalizing index with
  | zero => exact ⟨rfl, rfl, rfl⟩
  | succ attempts ih =>
    simp only [cursorProbes]
    split
    · exact ⟨rfl, rfl, rfl⟩
    · rename_i hash next visited
      exact cursorSlot_tables visited
    · rename_i next visited
      obtain ⟨tab0, tab1, pos⟩ := cursorSlot_tables visited
      obtain ⟨tab0', tab1', pos'⟩ := ih next
      exact ⟨tab0'.trans tab0, tab1'.trans tab1, pos'.trans pos⟩

variable (index : ExpireIndex) (random : BitVec 64) (attempts : Nat)

theorem randomHash_tables
    : (index.randomHash random attempts).2.tab0 = index.tab0
      ∧ (index.randomHash random attempts).2.tab1 = index.tab1
      ∧ (index.randomHash random attempts).2.migratePos = index.migratePos := by
  simp only [randomHash]
  split
  · exact ⟨rfl, rfl, rfl⟩
  · split
    · exact ⟨rfl, rfl, rfl⟩
    · exact cursorProbes_tables attempts index

/-- A random draw leaves the population of the index as it was. -/
theorem randomHash_size
    : (index.randomHash random attempts).2.size = index.size := by
  obtain ⟨tab0, tab1, -⟩ := randomHash_tables index random attempts
  rw [size, size, tab0, tab1]

end ExpireIndex

end Thredis.Store
