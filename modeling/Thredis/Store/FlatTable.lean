import Thredis.Lib.ProbeTable
import Thredis.Store.KvObj

/-! One slot table of the store: hashing, slot words, the probe loops over one table, and
what each of them does to a well-formed table.
-/

namespace Thredis.Store
open Thredis.Lib List

def mix64 (h : BitVec 64) : BitVec 64 :=
  let h := h ^^^ (h >>> 33)
  let h := h * 0xff51afd7ed558ccd#64
  let h := h ^^^ (h >>> 33)
  let h := h * 0xc4ceb9fe1a85ec53#64
  h ^^^ (h >>> 33)

def readBytes : List UInt8 → BitVec 64
  | [] => 0#64
  | byte :: rest => (readBytes rest <<< 8) ||| BitVec.ofNat 64 byte.toNat

def hashKeyMixTail (h : BitVec 64) (rest : List UInt8) : BitVec 64 :=
  let n := rest.length
  let byteAt := fun i => BitVec.ofNat 64 (rest.getD i 0).toNat
  if 4 ≤ n then
    mix64 (h ^^^ ((readBytes (rest.take 4) <<< 32) ||| readBytes ((rest.drop (n - 4)).take 4)))
  else if n ≠ 0 then
    mix64 (h ^^^ ((byteAt 0 <<< 16) ||| (byteAt (n >>> 1) <<< 8) ||| byteAt (n - 1)))
  else h

def hashKeyMixWords : BitVec 64 → List UInt8 → BitVec 64
  | h, b0 :: b1 :: b2 :: b3 :: b4 :: b5 :: b6 :: b7 :: rest =>
    hashKeyMixWords (mix64 (h ^^^ readBytes [b0, b1, b2, b3, b4, b5, b6, b7])) rest
  | h, rest => mix64 (hashKeyMixTail h rest)

def hashKeyMix (seed : BitVec 64) (key : Slice) : BitVec 64 :=
  hashKeyMixWords
    (0x9e3779b97f4a7c15#64 ^^^ (BitVec.ofNat 64 key.length * 0xff51afd7ed558ccd#64) ^^^ seed) key

def tagOf (h : BitVec 64) : BitVec 64 := (h >>> 49) &&& 0x7fff#64

/-- A live slot word: the tag, the object the pointer bits name, and `kTombBit`, which on a
live word marks an object whose pre-image a capture has already taken. The word of `kTombBit`
alone is the tombstone.
-/
structure Word where
  tag : BitVec 64
  mark : Bool
  obj : KvObj
  deriving DecidableEq, Repr

def makeWord (tag : BitVec 64) (object : KvObj) : Word :=
  { tag := tag, mark := false, obj := object }

structure Table where
  slots : List (Slot Word)
  live : Nat
  tombs : Nat
  deriving DecidableEq, Repr

def kMinCap : Nat := 64

namespace Table

variable (table : Table)

def cap : Nat := table.slots.length

def mask : Nat := table.cap - 1

def fresh (cap : Nat) : Table :=
  { slots := List.replicate cap .empty, live := 0, tombs := 0 }

variable (h : BitVec 64)

def slotStart : Nat :=
  (mix64 h).toNat % 2 ^ 32 &&& table.mask

def isKey (tag : BitVec 64) (key : Slice) (word : Word) : Bool :=
  word.tag == tag && word.obj.key == key

/-- The probe loop every lookup of the source runs: `probes <= cap`, from the hash's slot. -/
def walk (accept : Word → Bool) : Probe Word :=
  probe accept table.slots (table.cap + 1) (table.slotStart h) none

def findSlotIn (key : Slice) : Option (Nat × KvObj) :=
  match table.walk h (isKey (tagOf h) key) with
  | .hit index word => some (index, word.obj)
  | _ => none

def findIn (key : Slice) : Option KvObj :=
  (table.findSlotIn h key).map (fun found => found.2)

/-- The first object of the hash that carries a deadline. -/
def findHashIn (hashKey : Slice → BitVec 64) (table : Table) (h : BitVec 64) : Option KvObj :=
  match table.walk h (fun word =>
      word.tag == tagOf h && word.obj.hasTtlSlot && hashKey word.obj.key == h
        && decide (0 ≤ word.obj.deadline)) with
  | .hit _ word => some word.obj
  | _ => none

/-- `insert_into` on the slots: the displaced object and the new table, or `none` when the
probes run out.
-/
def insertInto (object : KvObj)
    : Option (Option KvObj × Table) :=
  let word := makeWord (tagOf h) object
  match table.walk h (isKey (tagOf h) object.key) with
  | .hit index current =>
    some (some current.obj, { table with slots := table.slots.set index (.live word) })
  | .vacant _ (some tomb) =>
    some (none, { slots := table.slots.set tomb (.live word)
                  live := table.live + 1, tombs := table.tombs - 1 })
  | .vacant index none =>
    some (none, { slots := table.slots.set index (.live word)
                  live := table.live + 1, tombs := table.tombs })
  | .exhausted => none

def kill (index : Nat) : Table :=
  { slots := table.slots.set index .dead, live := table.live - 1, tombs := table.tombs + 1 }

/-- `erase_in` on the slots: the removed object and the new table. -/
def eraseIn (key : Slice) : Option (KvObj × Table) :=
  match table.walk h (isKey (tagOf h) key) with
  | .hit index word => some (word.obj, table.kill index)
  | _ => none

def rewriteAt (index : Nat) (f : Word → Word) : Table :=
  match table.slots[index]? with
  | some (.live word) => { table with slots := table.slots.set index (.live (f word)) }
  | _ => table

end Table

-- Well-formed tables

namespace Table

def wordKey (word : Word) : Slice := word.obj.key

def objects (table : Table) : List KvObj :=
  table.slots.filterMap (fun slot =>
    match slot with
    | .live word => some word.obj
    | _ => none)

variable {object : KvObj}

theorem mem_objects {table : Table}
    : object ∈ table.objects ↔ ∃ word, Slot.live word ∈ table.slots ∧ word.obj = object := by
  constructor
  · intro member
    obtain ⟨slot, held, same⟩ := mem_filterMap.mp member
    cases slot with
    | live word => exact ⟨word, held, Option.some.inj same⟩
    | empty | dead => cases same
  · rintro ⟨word, held, rfl⟩
    exact mem_filterMap.mpr ⟨_, held, rfl⟩

/-- The representation invariant of one table, under the key hash `hashKey`. -/
structure WellFormed (hashKey : Slice → BitVec 64) (table : Table) : Prop where
  pow : PowTwo table.cap
  minimum : kMinCap ≤ table.cap
  fits : table.cap ≤ 2 ^ 31
  placed : Placed (fun word : Word => table.slotStart (hashKey word.obj.key)) wordKey table.slots
  tagged : ∀ word, Slot.live word ∈ table.slots → word.tag = tagOf (hashKey word.obj.key)
  liveCount : table.live = Lib.liveCount table.slots
  tombCount : table.tombs = Lib.deadCount table.slots

theorem WellFormed.fresh (hashKey : Slice → BitVec 64) {cap : Nat} (pow : PowTwo cap)
    (minimum : kMinCap ≤ cap) (fits : cap ≤ 2 ^ 31) : (fresh cap).WellFormed hashKey where
  pow := by simpa [Table.cap, Table.fresh] using pow
  minimum := by simpa [Table.cap, Table.fresh] using minimum
  fits := by simpa [Table.cap, Table.fresh] using fits
  placed := Placed.fresh _ _ _
  tagged := fun _ held => absurd held (live_not_mem_replicate _)
  liveCount := (liveCount_replicate cap).symm
  tombCount := (deadCount_replicate cap).symm

@[simp] theorem cap_fresh (cap : Nat) : (fresh cap).cap = cap := by
  simp [Table.cap, Table.fresh]

@[simp] theorem objects_fresh (cap : Nat) : (fresh cap).objects = [] := by
  simp [objects, fresh]

variable {hashKey : Slice → BitVec 64} {table : Table}

section

variable (wf : table.WellFormed hashKey)

include wf

theorem WellFormed.slotStart_lt (h : BitVec 64)
    : table.slotStart h < table.cap := by
  have pow : PowTwo table.slots.length := wf.pow
  simp only [slotStart, mask, cap, pow.and_mask]
  exact Nat.mod_lt _ pow.pos

/-- A table has a free slot exactly when its counters leave one. -/
theorem WellFormed.free_iff
    : table.live + table.tombs < table.cap ↔ Slot.empty ∈ table.slots := by
  rw [wf.liveCount, wf.tombCount]
  exact count_lt_iff_empty_mem table.slots

theorem WellFormed.live_pos (held : object ∈ table.objects) : 0 < table.live := by
  obtain ⟨word, member, -⟩ := mem_objects.mp held
  rw [wf.liveCount]
  exact liveCount_pos_of_mem member

/-- A key has at most one object in a table. -/
theorem WellFormed.object_unique {a b : KvObj} (heldA : a ∈ table.objects)
    (heldB : b ∈ table.objects) (same : a.key = b.key) : a = b := by
  obtain ⟨wordA, memberA, rfl⟩ := mem_objects.mp heldA
  obtain ⟨wordB, memberB, rfl⟩ := mem_objects.mp heldB
  obtain ⟨i, foundA⟩ := mem_iff_getElem?.mp memberA
  obtain ⟨j, foundB⟩ := mem_iff_getElem?.mp memberB
  obtain rfl := wf.placed.unique foundA foundB same
  rw [foundA] at foundB
  cases foundB
  rfl

/-- A walk for a key, under the key's own hash, finds its object or proves it absent. -/
theorem WellFormed.walk_says (key : Slice)
    : WalkSays wordKey table.slots (table.slotStart (hashKey key)) key
        (table.walk (hashKey key) (isKey (tagOf (hashKey key)) key)) := by
  refine wf.placed.probe_says wf.pow (wf.slotStart_lt _) (Nat.le_succ _) ?_ ?_
  · intro word held
    rw [isKey, wf.tagged word held, wordKey, Bool.and_eq_true, beq_iff_eq, beq_iff_eq]
    exact ⟨fun both => both.2, fun same => ⟨by rw [same], same⟩⟩
  · intro word _ same
    rw [← same, wordKey]

/-- In a table with an empty slot every walk stops by itself. -/
theorem WellFormed.walk_stops (free : Slot.empty ∈ table.slots) (h : BitVec 64)
    (accept : Word → Bool) : table.walk h accept ≠ .exhausted :=
  probe_stops wf.pow (wf.slotStart_lt h) (Nat.le_succ _) free

/-- The lookup of a key finds exactly the object the table holds for it. -/
theorem WellFormed.findSlotIn_iff (key : Slice) (index : Nat) (object : KvObj)
    : table.findSlotIn (hashKey key) key = some (index, object)
      ↔ ∃ word, table.slots[index]? = some (.live word) ∧ word.obj = object ∧ object.key = key := by
  have said := wf.walk_says key
  rw [findSlotIn]
  cases walked : table.walk (hashKey key) (isKey (tagOf (hashKey key)) key) with
  | hit place word =>
    rw [walked] at said
    constructor
    · intro same
      cases same
      exact ⟨word, said.1, rfl, said.2⟩
    · rintro ⟨other, found, rfl, named⟩
      obtain rfl := wf.placed.unique said.1 found (said.2.trans named.symm)
      rw [said.1] at found
      cases found
      rfl
  | vacant place tomb =>
    rw [walked] at said
    refine ⟨nofun, ?_⟩
    rintro ⟨word, found, rfl, named⟩
    exact absurd named (said.2.2.1 word (mem_of_getElem? found))
  | exhausted =>
    rw [walked] at said
    refine ⟨nofun, ?_⟩
    rintro ⟨word, found, rfl, named⟩
    exact absurd named (said.1 word (mem_of_getElem? found))

theorem WellFormed.findIn_iff (key : Slice) (object : KvObj)
    : table.findIn (hashKey key) key = some object ↔ object ∈ table.objects ∧ object.key = key := by
  rw [findIn, Option.map_eq_some_iff]
  constructor
  · rintro ⟨⟨index, found⟩, located, rfl⟩
    obtain ⟨word, held, same, named⟩ := (wf.findSlotIn_iff key index found).mp located
    exact ⟨mem_objects.mpr ⟨word, mem_of_getElem? held, same⟩, named⟩
  · rintro ⟨held, named⟩
    obtain ⟨word, member, same⟩ := mem_objects.mp held
    obtain ⟨index, found⟩ := mem_iff_getElem?.mp member
    exact ⟨(index, object), (wf.findSlotIn_iff key index object).mpr ⟨word, found, same, named⟩,
      rfl⟩

end

variable {key : Slice}

theorem WellFormed.findIn_none (wf : table.WellFormed hashKey)
    : table.findIn (hashKey key) key = none ↔ ∀ object ∈ table.objects, object.key ≠ key := by
  simp only [Option.eq_none_iff_forall_ne_some, ne_eq, wf.findIn_iff, not_and]

-- Updates of a well-formed table

theorem slotStart_congr {a b : Table} (same : a.cap = b.cap) (h : BitVec 64)
    : a.slotStart h = b.slotStart h := by
  rw [slotStart, slotStart, mask, mask, same]

/-- A single-slot update that keeps placement, tags and counts keeps the table well formed. -/
theorem WellFormed.update (wf : table.WellFormed hashKey) {place : Nat} {old new : Slot Word}
    {live tombs : Nat} (held : table.slots[place]? = some old)
    (placed : Placed (fun word : Word => table.slotStart (hashKey word.obj.key)) wordKey
      (table.slots.set place new))
    (tagged : ∀ word, new = .live word → word.tag = tagOf (hashKey word.obj.key))
    (liveMoves : live + old.isLive.toNat = table.live + new.isLive.toNat)
    (tombsMove : tombs + old.isDead.toNat = table.tombs + new.isDead.toNat)
    : WellFormed hashKey { slots := table.slots.set place new, live, tombs } := by
  have sameCap
      : cap { slots := table.slots.set place new, live, tombs }
        = table.cap := length_set
  refine ⟨by rw [sameCap]; exact wf.pow, by rw [sameCap]; exact wf.minimum,
    by rw [sameCap]; exact wf.fits, ?_, ?_, ?_, ?_⟩
  · simpa [slotStart_congr sameCap] using placed
  · intro word member
    obtain ⟨index, found⟩ := mem_iff_getElem?.mp member
    obtain ⟨-, written⟩ | ⟨-, kept⟩ := getElem?_set_live found
    · exact tagged word written
    · exact wf.tagged word (mem_of_getElem? kept)
  · have count := liveCount_set held new
    have before := wf.liveCount
    show live = Lib.liveCount (table.slots.set place new)
    omega
  · have count := deadCount_set held new
    have before := wf.tombCount
    show tombs = Lib.deadCount (table.slots.set place new)
    omega

structure Erased (hashKey : Slice → BitVec 64) (table : Table) (key : Slice) (object : KvObj)
    (after : Table) : Prop where
  wellFormed : after.WellFormed hashKey
  held : object ∈ table.objects
  named : object.key = key
  left : ∀ other, other ∈ after.objects ↔ other ∈ table.objects ∧ other.key ≠ key
  cap : after.cap = table.cap
  live : after.live + 1 = table.live
  tombs : after.tombs = table.tombs + 1
  kept : ∀ {index : Nat} {word : Word}, after.slots[index]? = some (.live word)
    → table.slots[index]? = some (.live word)

variable {index : Nat}

section

variable (wf : table.WellFormed hashKey)

include wf

/-- Killing the slot of an object removes exactly that object. -/
theorem WellFormed.kill {word : Word} (held : table.slots[index]? = some (.live word))
    : Erased hashKey table word.obj.key word.obj (table.kill index) := by
  have member := mem_of_getElem? held
  have positive := wf.live_pos (mem_objects.mpr ⟨word, member, rfl⟩)
  refine
    { wellFormed := wf.update held (wf.placed.kill index) nofun ?_ rfl
      held := mem_objects.mpr ⟨word, member, rfl⟩
      named := rfl
      left := fun other => ?_
      cap := length_set
      live := Nat.sub_add_cancel positive
      tombs := rfl
      kept := fun found => ?_ }
  · show table.live - 1 + 1 = table.live + 0
    omega
  · rw [mem_objects, mem_objects]
    constructor
    · rintro ⟨kept, keptMember, rfl⟩
      obtain ⟨before, apart⟩ := (wf.placed.mem_kill held kept).mp keptMember
      exact ⟨⟨kept, before, rfl⟩, apart⟩
    · rintro ⟨⟨kept, before, rfl⟩, apart⟩
      exact ⟨kept, (wf.placed.mem_kill held kept).mpr ⟨before, apart⟩, rfl⟩
  · obtain ⟨-, absurdity⟩ | ⟨-, before⟩ := getElem?_set_live found
    · cases absurdity
    · exact before

theorem WellFormed.eraseIn_some {after : Table}
    (erased : table.eraseIn (hashKey key) key = some (object, after))
    : Erased hashKey table key object after := by
  have said := wf.walk_says key
  rw [eraseIn] at erased
  cases walked : table.walk (hashKey key) (isKey (tagOf (hashKey key)) key) with
  | hit index word =>
    rw [walked] at said erased
    cases erased
    obtain ⟨held, rfl⟩ := said
    exact wf.kill held
  | vacant index tomb | exhausted => simp [walked] at erased

/-- A table refuses to erase a key exactly when it does not hold it. -/
theorem WellFormed.eraseIn_none
    : table.eraseIn (hashKey key) key = none ↔ ∀ object ∈ table.objects, object.key ≠ key := by
  rw [← wf.findIn_none]
  simp only [eraseIn, findIn, findSlotIn]
  cases table.walk (hashKey key) (isKey (tagOf (hashKey key)) key) <;> simp

end

structure Inserted (hashKey : Slice → BitVec 64) (table : Table) (object : KvObj)
    (displaced : Option KvObj) (after : Table) : Prop where
  wellFormed : after.WellFormed hashKey
  holds : ∀ other, other ∈ after.objects
    ↔ other = object ∨ other ∈ table.objects ∧ other.key ≠ object.key
  took : ∀ current, displaced = some current
    ↔ current ∈ table.objects ∧ current.key = object.key
  cap : after.cap = table.cap
  live : after.live + displaced.isSome.toNat = table.live + 1
  tombs : after.tombs ≤ table.tombs
  load : after.live + after.tombs + displaced.isSome.toNat ≤ table.live + table.tombs + 1

section Write

variable {place : Nat} {old : Slot Word} (word : Word) (live tombs : Nat)

/-- Writing a word into a slot its key may take: the table stays well formed and now holds
exactly the new object under its key.
-/
theorem WellFormed.write (wf : table.WellFormed hashKey) (held : table.slots[place]? = some old)
    (reach : Reach table.slots (table.slotStart (hashKey word.obj.key)) place)
    (alone : ∀ {index : Nat} {other : Word}, table.slots[index]? = some (.live other)
      → other.obj.key = word.obj.key → index = place)
    (freed : ∀ other, old = .live other → other.obj.key = word.obj.key)
    (tagged : word.tag = tagOf (hashKey word.obj.key))
    (liveMoves : live + old.isLive.toNat = table.live + 1)
    (tombsMove : tombs + old.isDead.toNat = table.tombs)
    : WellFormed hashKey { slots := table.slots.set place (.live word), live, tombs }
      ∧ ∀ other, other ∈ objects { slots := table.slots.set place (.live word), live, tombs }
          ↔ other = word.obj ∨ other ∈ table.objects ∧ other.key ≠ word.obj.key := by
  refine ⟨wf.update held (wf.placed.write reach alone) ?_ liveMoves tombsMove, fun other => ?_⟩
  · intro written same
    cases same
    exact tagged
  · have inside := (List.getElem?_eq_some_iff.mp held).1
    have members := mem_write inside alone
      (fun {other} found => freed other (by rw [held] at found; exact Option.some.inj found))
    rw [mem_objects, mem_objects]
    constructor
    · rintro ⟨kept, keptMember, rfl⟩
      rcases (members kept).mp keptMember with rfl | ⟨before, apart⟩
      · exact .inl rfl
      · exact .inr ⟨⟨kept, before, rfl⟩, apart⟩
    · rintro (rfl | ⟨⟨kept, before, rfl⟩, apart⟩)
      · exact ⟨word, (members word).mpr (.inl rfl), rfl⟩
      · exact ⟨kept, (members kept).mpr (.inr ⟨before, apart⟩), rfl⟩

end Write

/-- Taking a free slot offered by the walk. -/
private theorem WellFormed.take_free (wf : table.WellFormed hashKey) (object : KvObj)
    {place : Nat} {old : Slot Word} {tombs : Nat} (held : table.slots[place]? = some old)
    (free : old.isLive = false)
    (reach : Reach table.slots (table.slotStart (hashKey object.key)) place)
    (absent : ∀ word, Slot.live word ∈ table.slots → wordKey word ≠ object.key)
    (tombsMove : tombs + old.isDead.toNat = table.tombs)
    : Inserted hashKey table object none
        { slots := table.slots.set place (.live (makeWord (tagOf (hashKey object.key)) object))
          live := table.live + 1, tombs } := by
  obtain ⟨wellFormed, holds⟩ := wf.write
    (makeWord (tagOf (hashKey object.key)) object) (table.live + 1) tombs held reach
    (fun found same => absurd same (absent _ (mem_of_getElem? found)))
    (fun other same => by rw [same] at free; cases free) rfl
    (by rw [free]; rfl) tombsMove
  refine ⟨wellFormed, holds, fun current => ⟨nofun, ?_⟩, length_set, rfl, ?_, ?_⟩
  · rintro ⟨member, named⟩
    obtain ⟨word, found, rfl⟩ := mem_objects.mp member
    exact absurd named (absent word found)
  · show tombs ≤ table.tombs
    omega
  · show table.live + 1 + tombs + 0 ≤ table.live + table.tombs + 1
    omega

section

variable (wf : table.WellFormed hashKey)

include wf

/-- `insert_into` places the object, replacing the object of its key if there is one. -/
theorem WellFormed.insertInto_some {displaced : Option KvObj} {after : Table}
    (inserted : table.insertInto (hashKey object.key) object = some (displaced, after))
    : Inserted hashKey table object displaced after := by
  have said := wf.walk_says object.key
  simp only [insertInto] at inserted
  cases walked : table.walk (hashKey object.key)
    (isKey (tagOf (hashKey object.key)) object.key) with
  | exhausted => simp [walked] at inserted
  | hit index current =>
    rw [walked] at said inserted
    cases inserted
    obtain ⟨held, named⟩
      : table.slots[index]? = some (.live current) ∧ current.obj.key = object.key := said
    have reach := wf.placed.reach held
    simp only [named] at reach
    obtain ⟨wellFormed, holds⟩ := wf.write (makeWord (tagOf (hashKey object.key)) object)
      table.live table.tombs held reach
      (fun found same => wf.placed.unique found held (same.trans named.symm))
      (fun other same => by cases same; exact named) rfl rfl rfl
    refine ⟨wellFormed, holds, fun other => ?_, length_set, rfl, Nat.le_refl _, Nat.le_refl _⟩
    have member := mem_objects.mpr ⟨current, mem_of_getElem? held, rfl⟩
    constructor
    · intro same
      cases same
      exact ⟨member, named⟩
    · rintro ⟨otherMember, otherNamed⟩
      rw [wf.object_unique member otherMember (named.trans otherNamed.symm)]
  | vacant index tomb =>
    rw [walked] at said inserted
    obtain ⟨free, reach, absent, tombs⟩ := said
    cases tomb with
    | none =>
      cases inserted
      exact wf.take_free object free rfl reach absent rfl
    | some place =>
      cases inserted
      obtain ⟨dead, deadReach⟩ := tombs place rfl
      have positive : 0 < table.tombs := by
        rw [wf.tombCount]
        exact countP_pos_iff.mpr ⟨_, mem_of_getElem? dead, rfl⟩
      exact wf.take_free object dead rfl deadReach absent (Nat.sub_add_cancel positive)

/-- `insert_into` gives up only on a table without a free slot that lacks the key. -/
theorem WellFormed.insertInto_none (refused : table.insertInto (hashKey object.key) object = none)
    : table.cap ≤ table.live + table.tombs ∧ ∀ other ∈ table.objects, other.key ≠ object.key := by
  have said := wf.walk_says object.key
  simp only [insertInto] at refused
  cases walked : table.walk (hashKey object.key)
    (isKey (tagOf (hashKey object.key)) object.key) with
  | hit index current => simp [walked] at refused
  | vacant index tomb => cases tomb <;> simp [walked] at refused
  | exhausted =>
    rw [walked] at said
    obtain ⟨absent, full⟩ := said
    refine ⟨Nat.le_of_not_lt (fun free => full _ (wf.free_iff.mp free) rfl), ?_⟩
    intro other member
    obtain ⟨word, held, rfl⟩ := mem_objects.mp member
    exact absent word held

structure Rewritten (hashKey : Slice → BitVec 64) (table : Table) (old new : KvObj)
    (after : Table) : Prop where
  wellFormed : after.WellFormed hashKey
  holds : ∀ other, other ∈ after.objects
    ↔ other = new ∨ other ∈ table.objects ∧ other.key ≠ old.key
  cap : after.cap = table.cap
  live : after.live = table.live
  tombs : after.tombs = table.tombs
  kept : ∀ {index : Nat} {word : Word}, after.slots[index]? = some (.live word)
    → ∃ before, table.slots[index]? = some (.live before)

theorem WellFormed.rewriteAt {word : Word} (held : table.slots[index]? = some (.live word))
    (f : Word → Word) (named : (f word).obj.key = word.obj.key) (tagged : (f word).tag = word.tag)
    : Rewritten hashKey table word.obj (f word).obj (table.rewriteAt index f) := by
  have reach := wf.placed.reach held
  have tag := wf.tagged word (mem_of_getElem? held)
  obtain ⟨wellFormed, holds⟩ := wf.write (f word) table.live table.tombs held
    (by rw [named]; exact reach) (fun found same => wf.placed.unique found held (same.trans named))
    (fun other same => by cases same; exact named.symm) (by rw [tagged, named, tag]) rfl rfl
  have shape : table.rewriteAt index f
      = { table with slots := table.slots.set index (.live (f word)) } := by
    rw [Table.rewriteAt, held]
  rw [shape]
  refine ⟨wellFormed, fun other => ?_, length_set, rfl, rfl, fun found => ?_⟩
  · rw [holds other, named]
  · obtain ⟨rfl, -⟩ | ⟨-, before⟩ := getElem?_set_live found
    · exact ⟨word, held⟩
    · exact ⟨_, before⟩

end

/-- A slot that is not live is left alone. -/
theorem rewriteAt_eq_self (f : Word → Word)
    (missing : ∀ word, table.slots[index]? ≠ some (.live word))
    : table.rewriteAt index f = table := by
  rw [rewriteAt]
  split
  · rename_i word found
    exact absurd found (missing word)
  · rfl

/-- A table that counts no live word holds no object. -/
theorem WellFormed.objects_eq_nil (wf : table.WellFormed hashKey) (none : table.live = 0)
    : table.objects = [] :=
  eq_nil_iff_forall_not_mem.mpr (fun _ held => absurd (wf.live_pos held) (by omega))

/-- A table whose slots are all empty or dead counts no live word. -/
theorem WellFormed.live_eq_zero (wf : table.WellFormed hashKey)
    (cleared : ∀ (index : Nat) (word : Word), table.slots[index]? ≠ some (.live word))
    : table.live = 0 := by
  rw [wf.liveCount]
  by_contra positive
  obtain ⟨word, member⟩ := live_mem_of_liveCount_pos (Nat.pos_of_ne_zero positive)
  obtain ⟨index, found⟩ := mem_iff_getElem?.mp member
  exact cleared index word found

end Table

end Thredis.Store
