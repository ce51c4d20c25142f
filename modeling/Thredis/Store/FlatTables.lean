import Thredis.Store.FlatTable

/-! The two tables of the store and the bounded migration between them: `tab_[0]` takes
every new object, and while a rehash runs `tab_[1]` is drained into it slot by slot.
-/

namespace Thredis.Store
open Thredis.Lib Option

/-- `tab_[0]`, `tab_[1]` and `rehash_pos_`. -/
structure Tables where
  cur : Table
  old : Option Table
  rehashPos : Nat
  deriving DecidableEq, Repr

/-- A table index of the source: `cur` is 0 and `old` is 1. -/
inductive Side where
  | cur | old
  deriving DecidableEq, Repr

def kLoadPct : Nat := 70

def kRehashSlotsPerOp : Nat := 8

def kUInt32Max : Nat := 2 ^ 32 - 1

namespace Tables

variable (tables : Tables)

def rehashing : Bool := tables.old.isSome

def oldLive : Nat := (tables.old.map Table.live).getD 0

def oldCap : Nat := (tables.old.map Table.cap).getD 0

def size : Nat := tables.cur.live + tables.oldLive

def table : Side → Option Table
  | .cur => some tables.cur
  | .old => tables.old

def put (side : Side) (table : Table) : Tables :=
  match side with
  | .cur => { tables with cur := table }
  | .old => { tables with old := some table }

def findIn (side : Side) (h : BitVec 64) (key : Slice) : Option KvObj :=
  (tables.table side).bind (fun table => table.findIn h key)

/-- `atomic_find_physical` and `find_resident`: the object either table holds. -/
def resident (h : BitVec 64) (key : Slice) : Option KvObj :=
  (tables.findIn .cur h key).or (tables.findIn .old h key)

def eraseIn (side : Side) (h : BitVec 64) (key : Slice)
    : Option (KvObj × Tables) :=
  (tables.table side).bind (fun table =>
    (table.eraseIn h key).map (fun erased => (erased.1, tables.put side erased.2)))

def insertCur (h : BitVec 64) (object : KvObj)
    : Option (Option KvObj × Tables) :=
  (tables.cur.insertInto h object).map (fun placed => (placed.1, tables.put .cur placed.2))

/-- A mutation through a pointer to the resident object of a key. -/
def modify (h : BitVec 64) (key : Slice) (f : KvObj → KvObj) : Tables :=
  let rewrite := fun (word : Word) => { word with obj := f word.obj }
  match tables.cur.findSlotIn h key with
  | some (index, _) => tables.put .cur (tables.cur.rewriteAt index rewrite)
  | none =>
    match tables.old with
    | none => tables
    | some old =>
      match old.findSlotIn h key with
      | some (index, _) => tables.put .old (old.rewriteAt index rewrite)
      | none => tables

/-- `start_rehash` once its table is allocated: the current table is demoted whole. -/
def demote (newcap : Nat) : Tables :=
  { cur := .fresh (max newcap kMinCap), old := some tables.cur, rehashPos := 0 }

/-- The migration loop over `count` slots of the old table: the tables, the objects a move
displaced, and whether `insert_into` refused a move.
-/
def moveSlots (hashKey : Slice → BitVec 64)
    : Nat → Tables → List KvObj → Tables × List KvObj × Bool
  | 0, tables, displaced => (tables, displaced, false)
  | count + 1, tables, displaced =>
    match tables.old with
    | none => (tables, displaced, false)
    | some old =>
      match old.slots[tables.rehashPos]? with
      | some (.live word) =>
        match tables.cur.insertInto (hashKey word.obj.key) word.obj with
        | none => (tables, displaced, true)
        | some (current, cur) =>
          moveSlots hashKey count
            { cur := cur, old := some (old.kill tables.rehashPos)
              rehashPos := tables.rehashPos + 1 }
            (displaced ++ current.toList)
      | _ =>
        moveSlots hashKey count { tables with rehashPos := tables.rehashPos + 1 } displaced

def finishRehash : Tables :=
  if tables.oldCap ≤ tables.rehashPos then { tables with old := none, rehashPos := 0 }
  else tables

/-- `rehash_step`: one window of the migration, and the retirement of a drained table. -/
def rehashStep (hashKey : Slice → BitVec 64) (tables : Tables) : Tables × List KvObj × Bool :=
  let count := min (tables.rehashPos + kRehashSlotsPerOp) tables.oldCap - tables.rehashPos
  match moveSlots hashKey count tables [] with
  | (moved, displaced, true) => (moved, displaced, true)
  | (moved, displaced, false) => (moved.finishRehash, displaced, false)

def objects : List KvObj :=
  tables.cur.objects ++ (tables.old.map Table.objects).getD []

/-- The representation invariant of both tables. The slots behind the migration position are
drained, and the position stays inside the old table.
-/
structure WellFormed (hashKey : Slice → BitVec 64) (tables : Tables) : Prop where
  cur : tables.cur.WellFormed hashKey
  old : ∀ table, tables.old = some table → table.WellFormed hashKey
  apart : ∀ table, tables.old = some table
    → ∀ a ∈ tables.cur.objects, ∀ b ∈ table.objects, a.key ≠ b.key
  swept : ∀ table, tables.old = some table → ∀ index < tables.rehashPos, ∀ word : Word,
    table.slots[index]? ≠ some (.live word)
  position : ∀ table, tables.old = some table → tables.rehashPos < table.cap

variable {object : KvObj}

theorem mem_objects {tables : Tables}
    : object ∈ tables.objects
      ↔ object ∈ tables.cur.objects
        ∨ ∃ table, tables.old = some table ∧ object ∈ table.objects := by
  cases found : tables.old with
  | none | some table => simp [objects, found]

variable {hashKey : Slice → BitVec 64} {tables : Tables}

section

variable (wf : tables.WellFormed hashKey)

include wf

/-- A key has at most one object over both tables. -/
theorem WellFormed.object_unique {a b : KvObj} (heldA : a ∈ tables.objects)
    (heldB : b ∈ tables.objects) (same : a.key = b.key)
    : a = b := by
  rcases mem_objects.mp heldA with inCur | ⟨table, found, inOld⟩
  · rcases mem_objects.mp heldB with inCur' | ⟨table, found, inOld⟩
    · exact wf.cur.object_unique inCur inCur' same
    · exact absurd same (wf.apart table found a inCur b inOld)
  · rcases mem_objects.mp heldB with inCur | ⟨table', found', inOld'⟩
    · exact absurd same.symm (wf.apart table found b inCur a inOld)
    · rw [found] at found'
      cases found'
      exact (wf.old table found).object_unique inOld inOld' same

theorem WellFormed.findIn_iff (side : Side) (key : Slice) (object : KvObj)
    : tables.findIn side (hashKey key) key = some object
      ↔ (∃ table, tables.table side = some table ∧ object ∈ table.objects) ∧ object.key = key := by
  cases side with
  | cur =>
    simp only [findIn, table, bind_some, wf.cur.findIn_iff]
    simp
  | old =>
    simp only [findIn, bind_eq_some_iff]
    constructor
    · rintro ⟨old, found, located⟩
      obtain ⟨held, named⟩ := ((wf.old old found).findIn_iff key object).mp located
      exact ⟨⟨old, found, held⟩, named⟩
    · rintro ⟨⟨old, found, held⟩, named⟩
      exact ⟨old, found, ((wf.old old found).findIn_iff key object).mpr ⟨held, named⟩⟩

/-- No key is found in both tables. -/
theorem WellFormed.findIn_apart {key : Slice} {a b : KvObj}
    (inCur : tables.findIn .cur (hashKey key) key = some a)
    (inOld : tables.findIn .old (hashKey key) key = some b) : False := by
  obtain ⟨⟨_, ⟨rfl⟩, held⟩, named⟩ := (wf.findIn_iff .cur key a).mp inCur
  obtain ⟨⟨old, found, heldOld⟩, namedOld⟩ := (wf.findIn_iff .old key b).mp inOld
  exact wf.apart old found a held b heldOld (named.trans namedOld.symm)

/-- The resident object of a key is the one object of that key. -/
theorem WellFormed.resident_iff (key : Slice) (object : KvObj)
    : tables.resident (hashKey key) key = some object
      ↔ object ∈ tables.objects ∧ object.key = key := by
  rw [resident, mem_objects]
  have inCur := wf.findIn_iff .cur key object
  have inOld := wf.findIn_iff .old key object
  simp only [table, some.injEq, exists_eq_left'] at inCur inOld
  constructor
  · intro found
    rcases or_eq_some_iff.mp found with first | ⟨-, second⟩
    · exact ⟨.inl (inCur.mp first).1, (inCur.mp first).2⟩
    · exact ⟨.inr (inOld.mp second).1, (inOld.mp second).2⟩
  · rintro ⟨held | ⟨old, found, held⟩, named⟩
    · rw [inCur.mpr ⟨held, named⟩, some_or]
    · have second := inOld.mpr ⟨⟨old, found, held⟩, named⟩
      have missing := eq_none_iff_forall_ne_some.mpr fun _ first => wf.findIn_apart first second
      rw [missing, none_or, second]

end

variable {key : Slice}

theorem WellFormed.resident_none (wf : tables.WellFormed hashKey)
    : tables.resident (hashKey key) key = none ↔ ∀ object ∈ tables.objects, object.key ≠ key := by
  simp only [eq_none_iff_forall_ne_some, ne_eq, wf.resident_iff, not_and]

/-- The slots of the current table that are taken or promised to the old table's objects. -/
def load (tables : Tables) : Nat := tables.cur.live + tables.cur.tombs + tables.oldLive

def windowsLeft (tables : Tables) : Nat :=
  (tables.oldCap - tables.rehashPos + (kRehashSlotsPerOp - 1)) / kRehashSlotsPerOp

/-- The current table keeps a free slot after it has taken in the old table's objects,
`slack` more, and `pace` more for every window the migration has left. The old table has a
free slot too.
-/
structure Roomy (pace slack : Nat) (tables : Tables) : Prop where
  cur : tables.load + pace * tables.windowsLeft + slack < tables.cur.cap
  old : ∀ table, tables.old = some table → table.live + table.tombs < table.cap

/-- Without a migration, room is a matter of the current table alone. -/
theorem roomy_idle (still : tables.old = none) (pace slack : Nat)
    : Roomy pace slack tables ↔ tables.cur.live + tables.cur.tombs + slack < tables.cur.cap := by
  have load : tables.load = tables.cur.live + tables.cur.tombs := by simp [load, oldLive, still]
  have windows : tables.windowsLeft = 0 := by
    simp [windowsLeft, oldCap, still, kRehashSlotsPerOp]
  constructor
  · intro room
    have bound := room.cur
    rwa [load, windows] at bound
  · intro bound
    refine ⟨by rwa [load, windows], fun table found => ?_⟩
    rw [still] at found
    cases found

/-- An update that stays inside both tables: same capacities, same migration position, and
the old table no fuller than before.
-/
structure Framed (before after : Tables) : Prop where
  cap : after.cur.cap = before.cur.cap
  pos : after.rehashPos = before.rehashPos
  old : ∀ table, after.old = some table → ∃ earlier, before.old = some earlier
    ∧ table.cap = earlier.cap ∧ table.live + table.tombs = earlier.live + earlier.tombs
  gone : after.old = none ↔ before.old = none

theorem Framed.refl (tables : Tables) : Framed tables tables :=
  ⟨rfl, rfl, fun table found => ⟨table, found, rfl, rfl⟩, .rfl⟩

variable {before after : Tables}

theorem Framed.oldCap (framed : Framed before after)
    : after.oldCap = before.oldCap := by
  cases found : after.old with
  | none => simp [Tables.oldCap, found, framed.gone.mp found]
  | some table =>
    obtain ⟨earlier, start, sameCap, -⟩ := framed.old table found
    simp [Tables.oldCap, found, start, sameCap]

theorem Framed.windowsLeft (framed : Framed before after)
    : after.windowsLeft = before.windowsLeft := by
  simp [Tables.windowsLeft, framed.oldCap, framed.pos]

variable {pace slack : Nat}

/-- Room carries over to an update that adds no more to the load than the slack pays for. -/
theorem Roomy.framed {slack' : Nat} (room : Roomy pace slack before) (framed : Framed before after)
    (loads : after.load + slack' ≤ before.load + slack) : Roomy pace slack' after := by
  refine ⟨?_, fun table found => ?_⟩
  · have bound := room.cur
    rw [framed.windowsLeft, framed.cap]
    omega
  · obtain ⟨earlier, start, sameCap, sameLoad⟩ := framed.old table found
    have bound := room.old earlier start
    omega

theorem Roomy.weaken {slack' : Nat} (room : Roomy pace slack tables)
    (less : slack' ≤ slack) : Roomy pace slack' tables :=
  room.framed (.refl tables) (by omega)

/-- One empty table is a sound state. -/
theorem WellFormed.empty {cap : Nat} (pow : PowTwo cap) (minimum : kMinCap ≤ cap)
    (fits : cap ≤ 2 ^ 31)
    : WellFormed hashKey { cur := Table.fresh cap, old := none, rehashPos := 0 } where
  cur := Table.WellFormed.fresh hashKey pow minimum fits
  old := nofun
  apart := nofun
  swept := nofun
  position := nofun

theorem Roomy.empty {cap : Nat} (less : slack < cap)
    : Roomy pace slack { cur := Table.fresh cap, old := none, rehashPos := 0 } := by
  refine (roomy_idle rfl pace slack).mpr ?_
  rw [Table.cap_fresh]
  simpa [Table.fresh] using less

-- Updates inside both tables

structure Erased (hashKey : Slice → BitVec 64) (tables : Tables) (key : Slice)
    (object : KvObj) (after : Tables) : Prop where
  wellFormed : after.WellFormed hashKey
  held : object ∈ tables.objects
  named : object.key = key
  left : ∀ other, other ∈ after.objects ↔ other ∈ tables.objects ∧ other.key ≠ key
  framed : Framed tables after
  load : after.load ≤ tables.load
  size : after.size + 1 = tables.size

/-- One table was exchanged for one that holds the same objects except under `key`, where it
holds those of `own`.
-/
structure Exchanged (hashKey : Slice → BitVec 64) (tables : Tables) (key : Slice)
    (own : KvObj → Prop) (after : Tables) : Prop where
  wellFormed : after.WellFormed hashKey
  holds : ∀ other, other ∈ after.objects ↔ own other ∨ other ∈ tables.objects ∧ other.key ≠ key
  framed : Framed tables after

section Exchange

variable {next : Table} {own : KvObj → Prop}

theorem WellFormed.exchange_cur (wf : tables.WellFormed hashKey) (fits : next.WellFormed hashKey)
    (cap : next.cap = tables.cur.cap) (named : ∀ other, own other → other.key = key)
    (holds : ∀ other, other ∈ next.objects
      ↔ own other ∨ other ∈ tables.cur.objects ∧ other.key ≠ key)
    (cleared : ∀ old, tables.old = some old → ∀ b ∈ old.objects, b.key ≠ key)
    : Exchanged hashKey tables key own { tables with cur := next } := by
  refine
    { wellFormed := { wf with cur := fits, apart := fun old found a inCur b inOld => ?_ }
      holds := fun other => ?_
      framed := ⟨cap, rfl, fun old found => ⟨old, found, rfl, rfl⟩, .rfl⟩ }
  · rcases (holds a).mp inCur with owned | ⟨before, -⟩
    · rw [named a owned]
      exact (cleared old found b inOld).symm
    · exact wf.apart old found a before b inOld
  · simp only [mem_objects, holds]
    constructor
    · rintro ((owned | ⟨inCur, apart⟩) | ⟨old, found, inOld⟩)
      · exact .inl owned
      · exact .inr ⟨.inl inCur, apart⟩
      · exact .inr ⟨.inr ⟨old, found, inOld⟩, cleared old found other inOld⟩
    · rintro (owned | ⟨inCur | inOld, apart⟩)
      · exact .inl (.inl owned)
      · exact .inl (.inr ⟨inCur, apart⟩)
      · exact .inr inOld

theorem WellFormed.exchange_old (wf : tables.WellFormed hashKey) {old : Table}
    (found : tables.old = some old) (fits : next.WellFormed hashKey) (cap : next.cap = old.cap)
    (load : next.live + next.tombs = old.live + old.tombs)
    (kept : ∀ {index : Nat} {word : Word}, next.slots[index]? = some (.live word)
      → ∃ before, old.slots[index]? = some (.live before))
    (named : ∀ other, own other → other.key = key)
    (holds : ∀ other, other ∈ next.objects ↔ own other ∨ other ∈ old.objects ∧ other.key ≠ key)
    (cleared : ∀ a ∈ tables.cur.objects, a.key ≠ key)
    : Exchanged hashKey tables key own { tables with old := some next } := by
  refine
    { wellFormed := ⟨wf.cur, ?_, ?_, ?_, ?_⟩
      holds := fun other => ?_
      framed := ⟨rfl, rfl, ?_, by simp [found]⟩ }
  · rintro _ ⟨rfl⟩
    exact fits
  · rintro _ ⟨rfl⟩ a inCur b inOld
    rcases (holds b).mp inOld with owned | ⟨before, -⟩
    · rw [named b owned]
      exact cleared a inCur
    · exact wf.apart old found a inCur b before
  · rintro _ ⟨rfl⟩ index behind word live
    obtain ⟨earlier, was⟩ := kept live
    exact wf.swept old found index behind earlier was
  · rintro _ ⟨rfl⟩
    rw [cap]
    exact wf.position old found
  · simp only [mem_objects, found, some.injEq, exists_eq_left', holds]
    constructor
    · rintro (inCur | owned | ⟨inOld, apart⟩)
      · exact .inr ⟨.inl inCur, cleared other inCur⟩
      · exact .inl owned
      · exact .inr ⟨.inr inOld, apart⟩
    · rintro (owned | ⟨inCur | inOld, apart⟩)
      · exact .inr (.inl owned)
      · exact .inl inCur
      · exact .inr (.inr ⟨inOld, apart⟩)
  · rintro _ ⟨rfl⟩
    exact ⟨old, found, cap, load⟩

end Exchange

section

variable (wf : tables.WellFormed hashKey)

include wf

theorem WellFormed.eraseIn_cur {table : Table}
    (erased : Table.Erased hashKey tables.cur key object table)
    : Erased hashKey tables key object { tables with cur := table } := by
  have exchanged := wf.exchange_cur erased.wellFormed erased.cap
    (fun _ => False.elim) (by simpa using erased.left)
    fun old found b inOld named =>
      wf.apart old found object erased.held b inOld (erased.named.trans named.symm)
  have live := erased.live
  have tombs := erased.tombs
  refine ⟨exchanged.wellFormed, mem_objects.mpr (.inl erased.held), erased.named,
    by simpa using exchanged.holds, exchanged.framed, ?_, ?_⟩
  · simp only [load, oldLive]
    omega
  · simp only [size, oldLive]
    omega

theorem WellFormed.eraseIn_old {old table : Table} (found : tables.old = some old)
    (erased : Table.Erased hashKey old key object table)
    : Erased hashKey tables key object { tables with old := some table } := by
  have live := erased.live
  have tombs := erased.tombs
  have exchanged := wf.exchange_old found erased.wellFormed erased.cap
    (by omega) (fun live => ⟨_, erased.kept live⟩) (fun _ => False.elim)
    (by simpa using erased.left)
    fun a inCur named =>
      wf.apart old found a inCur object erased.held (named.trans erased.named.symm)
  refine ⟨exchanged.wellFormed, mem_objects.mpr (.inr ⟨old, found, erased.held⟩), erased.named,
    by simpa using exchanged.holds, exchanged.framed, ?_, ?_⟩
  · simp only [load, oldLive, found, map_some, getD_some]
    omega
  · simp only [size, oldLive, found, map_some, getD_some]
    omega

/-- An object erased from the old table no longer asks for a slot of the current one. -/
theorem WellFormed.eraseIn_old_load
    (erased : tables.eraseIn .old (hashKey key) key = some (object, after))
    : after.load + 1 = tables.load := by
  rw [eraseIn, bind_eq_some_iff] at erased
  obtain ⟨old, found, mapped⟩ := erased
  obtain ⟨⟨removed, next⟩, inTable, same⟩ := map_eq_some_iff.mp mapped
  cases same
  have there : tables.old = some old := found
  have live := ((wf.old old found).eraseIn_some inTable).live
  simp only [load, oldLive, put, there, map_some, getD_some]
  omega

end

variable {side : Side}

section

variable (wf : tables.WellFormed hashKey)

include wf

/-- `erase_in` on either table removes exactly the object of the key. -/
theorem WellFormed.eraseIn_some
    (erased : tables.eraseIn side (hashKey key) key = some (object, after))
    : Erased hashKey tables key object after := by
  rw [eraseIn, bind_eq_some_iff] at erased
  obtain ⟨table, found, mapped⟩ := erased
  obtain ⟨⟨removed, next⟩, inTable, same⟩ := map_eq_some_iff.mp mapped
  cases same
  cases side with
  | cur =>
    cases found
    exact wf.eraseIn_cur (wf.cur.eraseIn_some inTable)
  | old => exact wf.eraseIn_old found ((wf.old table found).eraseIn_some inTable)

/-- `erase_in` finds nothing exactly when its table lacks the key. -/
theorem WellFormed.eraseIn_none
    : tables.eraseIn side (hashKey key) key = none
      ↔ ∀ table, tables.table side = some table → ∀ object ∈ table.objects, object.key ≠ key := by
  have each : ∀ table, tables.table side = some table → table.WellFormed hashKey := by
    intro table found
    cases side with
    | cur => cases found; exact wf.cur
    | old => exact wf.old table found
  simp only [eraseIn, bind_eq_none_iff, map_eq_none_iff]
  exact forall₂_congr (fun table found => (each table found).eraseIn_none)

structure Inserted (hashKey : Slice → BitVec 64) (tables : Tables) (object : KvObj)
    (displaced : Option KvObj) (after : Tables) : Prop where
  wellFormed : after.WellFormed hashKey
  holds : ∀ other, other ∈ after.objects
    ↔ other = object ∨ other ∈ tables.objects ∧ other.key ≠ object.key
  took : ∀ current, displaced = some current
    ↔ current ∈ tables.objects ∧ current.key = object.key
  framed : Framed tables after
  load : after.load + displaced.isSome.toNat ≤ tables.load + 1
  size : after.size + displaced.isSome.toNat = tables.size + 1

/-- `insert_into(0, ..)` of a key the old table does not hold. -/
theorem WellFormed.insertCur_some {displaced : Option KvObj}
    (cleared : ∀ old, tables.old = some old → ∀ b ∈ old.objects, b.key ≠ object.key)
    (inserted : tables.insertCur (hashKey object.key) object = some (displaced, after))
    : Inserted hashKey tables object displaced after := by
  obtain ⟨⟨current, table⟩, placed, same⟩ := map_eq_some_iff.mp inserted
  cases same
  have facts := wf.cur.insertInto_some placed
  have exchanged := wf.exchange_cur facts.wellFormed facts.cap (by simp) facts.holds cleared
  refine { exchanged with took := fun other => ?_, load := ?_, size := ?_ }
  · rw [facts.took, mem_objects]
    constructor
    · rintro ⟨inCur, named⟩
      exact ⟨.inl inCur, named⟩
    · rintro ⟨inCur | ⟨old, found, inOld⟩, named⟩
      · exact ⟨inCur, named⟩
      · exact absurd named (cleared old found other inOld)
  · have bound := facts.load
    simp only [load, put, oldLive]
    omega
  · have live := facts.live
    simp only [size, put, oldLive]
    omega

/-- `insert_into(0, ..)` gives up only when the current table is full and lacks the key. -/
theorem WellFormed.insertCur_none (refused : tables.insertCur (hashKey object.key) object = none)
    : tables.cur.cap ≤ tables.cur.live + tables.cur.tombs
      ∧ ∀ other ∈ tables.cur.objects, other.key ≠ object.key :=
  wf.cur.insertInto_none (map_eq_none_iff.mp refused)

end

structure Modified (hashKey : Slice → BitVec 64) (tables : Tables) (old new : KvObj)
    (after : Tables) : Prop where
  wellFormed : after.WellFormed hashKey
  holds : ∀ other, other ∈ after.objects
    ↔ other = new ∨ other ∈ tables.objects ∧ other.key ≠ old.key
  framed : Framed tables after
  load : after.load = tables.load
  size : after.size = tables.size

variable (wf : tables.WellFormed hashKey)

include wf

theorem WellFormed.rewrite_cur {old new : KvObj} {table : Table} (held : old ∈ tables.cur.objects)
    (named : new.key = old.key) (facts : Table.Rewritten hashKey tables.cur old new table)
    : Modified hashKey tables old new { tables with cur := table } := by
  have exchanged := wf.exchange_cur facts.wellFormed facts.cap (by simp [named]) facts.holds
    fun other found b inOld same => wf.apart other found old held b inOld same.symm
  exact { exchanged with
      load := by simp [load, oldLive, facts.live, facts.tombs]
      size := by simp [size, oldLive, facts.live] }

theorem WellFormed.rewrite_old {old new : KvObj} {before table : Table}
    (found : tables.old = some before) (held : old ∈ before.objects) (named : new.key = old.key)
    (facts : Table.Rewritten hashKey before old new table)
    : Modified hashKey tables old new { tables with old := some table } := by
  have exchanged := wf.exchange_old found facts.wellFormed facts.cap
    (by rw [facts.live, facts.tombs]) facts.kept (by simp [named]) facts.holds
    fun a inCur same => wf.apart before found a inCur old held same
  exact { exchanged with
      load := by simp [load, oldLive, found, facts.live]
      size := by simp [size, oldLive, found, facts.live] }

/-- A mutation that keeps the key changes the resident object of the key and nothing else. -/
theorem WellFormed.modify_some (found : tables.resident (hashKey key) key = some object)
    (f : KvObj → KvObj) (named : (f object).key = object.key)
    : Modified hashKey tables object (f object) (tables.modify (hashKey key) key f) := by
  rw [resident, findIn, findIn] at found
  simp only [table, bind_some, Table.findIn] at found
  simp only [modify]
  cases inCur : tables.cur.findSlotIn (hashKey key) key with
  | some located =>
    obtain ⟨index, first⟩ := located
    obtain ⟨word, held, same, -⟩ := (wf.cur.findSlotIn_iff key index first).mp inCur
    rw [inCur] at found
    cases found
    subst same
    exact wf.rewrite_cur (Table.mem_objects.mpr ⟨word, List.mem_of_getElem? held, rfl⟩) named
      (wf.cur.rewriteAt held (fun word => { word with obj := f word.obj }) named rfl)
  | none =>
    rw [inCur] at found
    obtain ⟨old, there, mapped⟩ := bind_eq_some_iff.mp found
    obtain ⟨⟨index, second⟩, inOld, same⟩ := map_eq_some_iff.mp mapped
    obtain rfl := same
    obtain ⟨word, held, same, -⟩ := ((wf.old old there).findSlotIn_iff key index second).mp inOld
    subst same
    simp only [there, inOld]
    exact wf.rewrite_old there (Table.mem_objects.mpr ⟨word, List.mem_of_getElem? held, rfl⟩)
      named
      ((wf.old old there).rewriteAt held (fun word => { word with obj := f word.obj }) named rfl)

theorem WellFormed.table {table : Table} (there : tables.table side = some table)
    : table.WellFormed hashKey := by
  cases side with
  | cur => cases there; exact wf.cur
  | old => exact wf.old table there

end Tables

end Thredis.Store
