import Thredis.Lib.ProbeTable
import Thredis.Store.KvObj

/-! `SetMemberTable`: the open-addressed table behind a large set, with the dense side index that
makes random picks cheap and the generation that tells a scan of a rebuild.
-/

namespace Thredis.Cmd

open Thredis.Lib Thredis.Store

structure SetEntry where
  value : Slice
  densePos : Nat
  deriving DecidableEq, Repr

structure SetMemberTable where
  slots : List (Slot SetEntry)
  liveSlots : List Nat
  live : Nat
  tombs : Nat
  generation : BitVec 32
  deriving DecidableEq, Repr

inductive InsertResult where
  | inserted
  | exists
  | oom
  deriving DecidableEq, Repr

/-- The allocator's answers to an insertion: the member's copy, the growth of the table and of the
dense index.
-/
structure InsertGrants where
  copy : Bool
  growth : Bool
  index : Bool
  deriving DecidableEq, Repr

namespace SetMemberTable

def fresh : SetMemberTable :=
  { slots := [], liveSlots := [], live := 0, tombs := 0, generation := 1 }

/-- The doubling loop of `capacity_for`; no capacity passes `2 ^ 31`. -/
def growCapacity (entries : Nat) : Nat → Nat → Option Nat
  | 0, _ => none
  | turns + 1, cap =>
    if entries * 10 < cap * 7 then some cap
    else if 2 ^ 30 < cap then none
    else growCapacity entries turns (cap * 2)

/-- `capacity_for`, `none` for its answer 0. -/
def capacityFor (entries : Nat) : Option Nat := growCapacity entries 30 8

variable (home : Slice → Nat)

/-- The slot a member goes to in a table that holds it nowhere and has no tombstones. -/
def rehashPlace (next : List (Slot SetEntry)) (value : Slice) : Nat :=
  match probe (fun _ => false) next next.length (home value &&& (next.length - 1)) none with
  | .vacant place _ => place
  | _ => 0

/-- The loop of `rehash` over `live_slots_`. -/
def rehashInto (slots : List (Slot SetEntry))
    : List Nat → List (Slot SetEntry) × List Nat → List (Slot SetEntry) × List Nat
  | [], moved => moved
  | old :: rest, (next, nextLive) =>
    match slots[old]? with
    | some (.live entry) =>
      let place := rehashPlace home next entry.value
      rehashInto slots rest (next.set place (.live { entry with densePos := nextLive.length }),
          nextLive ++ [place])
    | _ => rehashInto slots rest (next, nextLive)

/-- `rehash` when its allocations succeed: `++generation_` skips 0. -/
def rehash (capacity : Nat) (table : SetMemberTable) : SetMemberTable :=
  let moved := rehashInto home table.slots table.liveSlots (List.replicate capacity .empty, [])
  let generation := table.generation + 1
  { table with
    slots := moved.1, liveSlots := moved.2, tombs := 0
    generation := if generation = 0#32 then 1 else generation }

/-- `reserve`; `granted` is the allocator's answer. -/
def reserve (entries : Nat) (granted : Bool) (table : SetMemberTable) : Option SetMemberTable :=
  match capacityFor entries with
  | none => none
  | some wanted =>
    if !granted then none
    else if table.slots.length < wanted then some (table.rehash home wanted)
    else some table

variable (value : Slice)

variable (table : SetMemberTable)

/-- The walk of `find` and `find_insert_slot`. -/
def walk : Probe SetEntry :=
  probe (fun entry => decide (entry.value = value)) table.slots table.slots.length
    (home value &&& (table.slots.length - 1)) none

def find : Option Nat :=
  match table.walk home value with
  | .hit place _ => some place
  | _ => none

def firstTomb (slots : List (Slot SetEntry)) : Nat → Nat → Option Nat
  | 0, _ => none
  | fuel + 1, index =>
    if slots[index]? = some .dead then some index
    else firstTomb slots fuel (nextSlot slots.length index)

/-- `find_insert_slot` for a member that is not in the table. -/
def insertSlot : Option Nat :=
  match table.walk home value with
  | .hit _ _ => none
  | .vacant place tomb => some (tomb.getD place)
  | .exhausted =>
    firstTomb table.slots table.slots.length (home value &&& (table.slots.length - 1))

/-- `ensure_insert_capacity`; `none` when it fails. -/
def ensureInsertCapacity (granted : Bool) (table : SetMemberTable) : Option SetMemberTable :=
  let size := table.slots.length
  if size = 0 then if granted then some (table.rehash home 8) else none
  else if (table.live + table.tombs + 1) * 10 < size * 7 then some table
  else if (table.live + 1) * 2 < size then
    if granted then some (table.rehash home size) else none
  else if 2 ^ 30 < size then none
  else if granted then some (table.rehash home (size * 2)) else none

/-- The slot write that ends `insert`. -/
def put (place : Nat) (table : SetMemberTable) : SetMemberTable :=
  { table with
    slots := table.slots.set place (.live { value := value, densePos := table.liveSlots.length })
    liveSlots := table.liveSlots ++ [place]
    live := table.live + 1
    tombs := if table.slots[place]? = some .dead then table.tombs - 1 else table.tombs }

def insert (grants : InsertGrants) (table : SetMemberTable)
    : SetMemberTable × InsertResult :=
  if (table.find home value).isSome then (table, .exists)
  else if !grants.copy then (table, .oom)
  else
    match table.ensureInsertCapacity home grants.growth with
    | none => (table, .oom)
    | some grown =>
      if !grants.index then (grown, .oom)
      else
        match grown.insertSlot home value with
        | none => (grown, .oom)
        | some place => (grown.put value place, .inserted)

/-- `erase_at`: the last live slot takes the erased one's place in `live_slots_`. -/
def eraseAt (place : Nat) (table : SetMemberTable) : SetMemberTable :=
  match table.slots[place]? with
  | some (.live entry) =>
    let moved := table.liveSlots.getLastD 0
    let reseated :=
      match table.slots[moved]? with
      | some (.live other) =>
        table.slots.set moved (.live { other with densePos := entry.densePos })
      | _ => table.slots
    { table with
      slots := reseated.set place .dead
      liveSlots := (table.liveSlots.set entry.densePos moved).dropLast
      live := table.live - 1
      tombs := table.tombs + 1 }
  | _ => table

def erase : SetMemberTable × Bool :=
  match table.find home value with
  | none => (table, false)
  | some place => (table.eraseAt place, true)

def members : List Slice :=
  table.slots.filterMap fun
    | .live entry => some entry.value
    | _ => none

end SetMemberTable

end Thredis.Cmd
