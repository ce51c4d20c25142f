import Thredis.Store.ExpireIndex

/-! The two tables of the expire index and their migration: the hashes held stay the same,
since the table they move into keeps room for everything still to come.
-/

namespace Thredis.Store
open Thredis.Lib ExpireIndex List ExpireTable

-- One table

namespace ExpireTable

variable {table after : ExpireTable} {hash : BitVec 64}

def Holds (table : ExpireTable) (hash : BitVec 64) : Prop := Slot.live hash ∈ table.slots

def load (table : ExpireTable) : Nat := table.live + table.tombs

structure WellFormed (table : ExpireTable) : Prop where
  pow : table.cap = 0 ∨ PowTwo table.cap ∧ ExpireIndex.kMinCap ≤ table.cap
  placed : Placed table.start id table.slots
  liveCount : table.live = Lib.liveCount table.slots
  tombCount : table.tombs = Lib.deadCount table.slots

theorem WellFormed.unallocated : unallocated.WellFormed where
  pow := .inl rfl
  placed := Placed.fresh _ _ 0
  liveCount := rfl
  tombCount := rfl

theorem WellFormed.allocated {cap : Nat} (pow : PowTwo cap) (minimum : ExpireIndex.kMinCap ≤ cap)
    : (allocated cap).WellFormed where
  pow := .inr (by simpa [ExpireTable.cap, ExpireTable.allocated] using ⟨pow, minimum⟩)
  placed := Placed.fresh _ _ _
  liveCount := (liveCount_replicate cap).symm
  tombCount := (deadCount_replicate cap).symm

@[simp] theorem cap_allocated (cap : Nat) : (ExpireTable.allocated cap).cap = cap := by
  simp [ExpireTable.cap, ExpireTable.allocated]

theorem not_holds_allocated (cap : Nat) (hash : BitVec 64)
    : ¬ (allocated cap).Holds hash := live_not_mem_replicate hash

theorem not_holds_of_cap (none : table.cap = 0) (hash : BitVec 64) : ¬ table.Holds hash := by
  rw [Holds, eq_nil_of_length_eq_zero none]
  exact not_mem_nil

/-- A walk for a hash finds it or proves it absent. -/
theorem WellFormed.walk_says (wf : table.WellFormed) (hash : BitVec 64)
    : WalkSays id table.slots (table.start hash) hash (table.walk hash) := by
  rcases wf.pow with none | ⟨pow, -⟩
  · have empty := eq_nil_of_length_eq_zero none
    rw [walk, none, empty]
    exact ⟨nofun, nofun⟩
  · refine wf.placed.probe_says pow ?_ (Nat.le_refl _) (fun entry _ => beq_iff_eq) ?_
    · rw [start, pow.and_mask]
      exact Nat.mod_lt _ pow.pos
    · rintro entry - rfl
      rfl

/-- Not all slots are taken exactly when one is empty. -/
theorem WellFormed.load_lt_iff (wf : table.WellFormed)
    : table.load < table.cap ↔ Slot.empty ∈ table.slots := by
  rw [load, wf.liveCount, wf.tombCount]
  exact count_lt_iff_empty_mem table.slots

theorem WellFormed.live_eq_zero (wf : table.WellFormed)
    : table.live = 0 ↔ ∀ hash, ¬ table.Holds hash := by
  rw [wf.liveCount]
  constructor
  · intro none hash held
    have some := liveCount_pos_of_mem held
    omega
  · intro none
    by_contra some
    obtain ⟨hash, held⟩ := live_mem_of_liveCount_pos (Nat.pos_of_ne_zero some)
    exact none hash held

variable {place : Nat}

section

variable (wf : table.WellFormed)

include wf

/-- A single-slot update that keeps placement and counts keeps the table well formed. -/
theorem WellFormed.update {old new : Slot (BitVec 64)} {live tombs : Nat}
    (held : table.slots[place]? = some old)
    (placed : Placed table.start id (table.slots.set place new))
    (liveMoves : live + old.isLive.toNat = table.live + new.isLive.toNat)
    (tombsMove : tombs + old.isDead.toNat = table.tombs + new.isDead.toNat)
    : ExpireTable.WellFormed { slots := table.slots.set place new, live, tombs } := by
  have sameCap : cap { slots := table.slots.set place new, live, tombs } = table.cap :=
    length_set
  have lives := liveCount_set held new
  have deads := deadCount_set held new
  have before := wf.liveCount
  have buried := wf.tombCount
  refine ⟨by rw [sameCap]; exact wf.pow, ?_, ?_, ?_⟩
  · have starts : start { slots := table.slots.set place new, live, tombs } = table.start :=
      funext (fun hash => by rw [start, start, sameCap])
    rw [starts]
    exact placed
  · show live = Lib.liveCount (table.slots.set place new)
    omega
  · show tombs = Lib.deadCount (table.slots.set place new)
    omega

structure Erased (table : ExpireTable) (hash : BitVec 64) (after : ExpireTable) : Prop where
  wellFormed : after.WellFormed
  held : table.Holds hash
  left : ∀ other, after.Holds other ↔ table.Holds other ∧ other ≠ hash
  cap : after.cap = table.cap
  live : after.live + 1 = table.live
  load : after.load = table.load
  kept : ∀ {place : Nat} {other : BitVec 64}, after.slots[place]? = some (.live other)
    → table.slots[place]? = some (.live other)

/-- A tombstone takes the place of one hash. -/
theorem WellFormed.kill (held : table.slots[place]? = some (.live hash))
    : Erased table hash (table.kill place) := by
  have member := mem_of_getElem? held
  have positive : 0 < table.live := by
    rw [wf.liveCount]
    exact liveCount_pos_of_mem member
  refine ⟨wf.update held (wf.placed.kill place) ?_ rfl, member,
    wf.placed.mem_kill held, length_set, Nat.sub_add_cancel positive, ?_,
    fun found => ?_⟩
  · show table.live - 1 + 1 = table.live + 0
    omega
  · show table.live - 1 + (table.tombs + 1) = table.live + table.tombs
    omega
  · obtain ⟨-, absurdity⟩ | ⟨-, before⟩ := getElem?_set_live found
    · cases absurdity
    · exact before

theorem WellFormed.eraseIn_some (erased : table.eraseIn hash = some after)
    : Erased table hash after := by
  have said := wf.walk_says hash
  rw [eraseIn] at erased
  cases walked : table.walk hash with
  | hit place entry =>
    rw [walked] at said erased
    obtain ⟨held, rfl⟩ := said
    cases erased
    exact wf.kill held
  | vacant place tomb | exhausted => simp [walked] at erased

/-- A walk that misses has met every place the hash could be in. -/
theorem WellFormed.eraseIn_none (refused : table.eraseIn hash = none)
    : ¬ table.Holds hash := by
  have said := wf.walk_says hash
  rw [eraseIn] at refused
  cases walked : table.walk hash with
  | hit place entry => simp [walked] at refused
  | vacant place tomb =>
    rw [walked] at said
    exact fun held => said.2.2.1 hash held rfl
  | exhausted =>
    rw [walked] at said
    exact fun held => said.1 hash held rfl

/-- A table without a hash, whether or not the hash had been there. -/
structure Without (table : ExpireTable) (hash : BitVec 64) (after : ExpireTable) : Prop where
  wellFormed : after.WellFormed
  left : ∀ other, after.Holds other ↔ table.Holds other ∧ other ≠ hash
  cap : after.cap = table.cap
  live : after.live ≤ table.live
  kept : ∀ {place : Nat} {other : BitVec 64}, after.slots[place]? = some (.live other)
    → table.slots[place]? = some (.live other)

theorem WellFormed.without (hash : BitVec 64)
    : Without table hash ((table.eraseIn hash).getD table) := by
  cases erased : table.eraseIn hash with
  | none =>
    have absent := wf.eraseIn_none erased
    refine ⟨wf, fun other => ⟨fun held => ⟨held, ?_⟩, And.left⟩, rfl, Nat.le_refl _, id⟩
    rintro rfl
    exact absent held
  | some after =>
    have gone := wf.eraseIn_some erased
    have live := gone.live
    refine { gone with live := ?_ }
    show after.live ≤ table.live
    omega

structure Inserted (table : ExpireTable) (hash : BitVec 64) (after : ExpireTable) : Prop where
  wellFormed : after.WellFormed
  holds : ∀ other, after.Holds other ↔ other = hash ∨ table.Holds other
  cap : after.cap = table.cap
  load : after.load ≤ table.load + 1

/-- Writing a hash that is nowhere in the table into a slot its walk offers. -/
theorem WellFormed.write {old : Slot (BitVec 64)} (held : table.slots[place]? = some old)
    (free : old.isLive = false) (reach : Reach table.slots (table.start hash) place)
    (absent : ∀ entry, Slot.live entry ∈ table.slots → entry ≠ hash) {tombs : Nat}
    (tombsMove : tombs + old.isDead.toNat = table.tombs)
    : Inserted table hash
        { slots := table.slots.set place (.live hash), live := table.live + 1, tombs } := by
  have inside := (List.getElem?_eq_some_iff.mp held).1
  have alone : ∀ {index : Nat} {other : BitVec 64}, table.slots[index]? = some (.live other)
      → id other = id hash → index = place :=
    fun found same => absurd same (absent _ (mem_of_getElem? found))
  refine ⟨wf.update held (wf.placed.write reach alone) ?_ tombsMove, fun other => ?_,
    length_set, ?_⟩
  · rw [free]
    rfl
  · have members := mem_write inside alone (fun {other} found => by
        rw [held] at found
        cases found
        cases free) other
    refine members.trans ?_
    constructor
    · rintro (same | ⟨before, -⟩)
      · exact .inl same
      · exact .inr before
    · rintro (same | before)
      · exact .inl same
      · exact .inr ⟨before, absent other before⟩
  · show table.live + 1 + tombs ≤ table.live + table.tombs + 1
    omega

/-- A new hash goes into the first tombstone met, or the empty slot behind. -/
theorem WellFormed.insertRaw_some (inserted : table.insertRaw hash = some after)
    : Inserted table hash after := by
  have said := wf.walk_says hash
  rw [insertRaw] at inserted
  cases walked : table.walk hash with
  | hit place entry =>
    rw [walked] at said inserted
    obtain ⟨held, rfl⟩ := said
    cases inserted
    have member := mem_of_getElem? held
    refine ⟨wf, fun other => ⟨.inr, ?_⟩, rfl, Nat.le_succ _⟩
    rintro (rfl | before)
    · exact member
    · exact before
  | vacant place tomb =>
    rw [walked] at said inserted
    obtain ⟨empty, reach, absent, tombs⟩ := said
    cases tomb with
    | none =>
      cases inserted
      exact wf.write empty rfl reach absent rfl
    | some tomb =>
      cases inserted
      obtain ⟨dead, reach⟩ := tombs tomb rfl
      have buried : 0 < table.tombs := by
        rw [wf.tombCount]
        exact countP_pos_iff.mpr ⟨_, mem_of_getElem? dead, rfl⟩
      exact wf.write dead rfl reach absent (Nat.sub_add_cancel buried)
  | exhausted => simp [walked] at inserted

/-- A table with a free slot takes every hash. -/
theorem WellFormed.insertRaw_room (room : table.load < table.cap) (hash : BitVec 64)
    : ∃ after, table.insertRaw hash = some after := by
  have said := wf.walk_says hash
  rw [insertRaw]
  cases walked : table.walk hash with
  | hit place entry => exact ⟨_, rfl⟩
  | vacant place tomb =>
    cases tomb with
    | none | some tomb => exact ⟨_, rfl⟩
  | exhausted =>
    rw [walked] at said
    exact absurd rfl (said.2 .empty (wf.load_lt_iff.mp room))

end

theorem liveAt_some (found : table.liveAt place = some hash)
    : table.slots[place]? = some (.live hash) := by
  rw [liveAt] at found
  split at found
  · rename_i entry held
    rw [held, Option.some.inj found]
  · cases found

end ExpireTable

namespace ExpireIndex

variable {index : ExpireIndex} {hash : BitVec 64}

def Holds (index : ExpireIndex) (hash : BitVec 64) : Prop :=
  index.tab0.Holds hash ∨ index.tab1.Holds hash

def windowsLeft (index : ExpireIndex) : Nat :=
  (index.tab0.cap - index.migratePos + 7) / kMigrateSlotsPerOp

/-- Two tables without a common hash; nothing live lies behind the migration. -/
structure Split (index : ExpireIndex) : Prop where
  tab0 : index.tab0.WellFormed
  tab1 : index.tab1.WellFormed
  apart : ∀ hash, index.tab0.Holds hash → ¬ index.tab1.Holds hash
  swept : ∀ place < index.migratePos, ∀ hash, index.tab0.slots[place]? ≠ some (.live hash)

/-- Room for `spare` more hashes. A migration counts every live hash still to move and one
insert for each window it has left.
-/
structure Room (index : ExpireIndex) (spare : Nat) : Prop where
  still : index.tab1.cap = 0 → index.tab0.cap ≠ 0 → index.tab0.load + spare < index.tab0.cap
  moving : index.tab1.cap ≠ 0
    → index.tab1.load + index.tab0.live + index.windowsLeft + spare < index.tab1.cap

def Allocated (index : ExpireIndex) : Prop := index.tab1.cap = 0 → index.tab0.cap ≠ 0

structure WellFormed (index : ExpireIndex) : Prop where
  split : index.Split
  room : index.Room 0
  ahead : index.tab1.cap ≠ 0 → index.migratePos < index.tab0.cap
  atRest : index.tab1.cap = 0 → index.migratePos = 0

theorem migrating_iff : index.migrating = true ↔ index.tab1.cap ≠ 0 := by
  rw [migrating, decide_eq_true_iff]

theorem WellFormed.init : init.WellFormed where
  split := ⟨.unallocated, .unallocated, nofun, nofun⟩
  room := ⟨fun _ none => absurd rfl none, absurd rfl⟩
  ahead := fun none => absurd rfl none
  atRest := fun _ => rfl

theorem not_holds_init (hash : BitVec 64) : ¬ init.Holds hash := by
  rintro (held | held)
  · cases held
  · cases held

/-- A cursor step keeps both tables and the migration. -/
theorem WellFormed.of_tables {next : ExpireIndex} (wf : index.WellFormed)
    (tab0 : next.tab0 = index.tab0) (tab1 : next.tab1 = index.tab1)
    (pos : next.migratePos = index.migratePos) : next.WellFormed := by
  obtain ⟨⟨wf0, wf1, apart, swept⟩, ⟨still, moving⟩, ahead, atRest⟩ := wf
  constructor
  · constructor
    · rw [tab0]; exact wf0
    · rw [tab1]; exact wf1
    · rw [tab0, tab1]; exact apart
    · rw [tab0, pos]; exact swept
  · constructor
    · rw [tab0, tab1]; exact still
    · rw [windowsLeft, tab0, tab1, pos]; exact moving
  · rw [tab0, tab1, pos]; exact ahead
  · rw [tab1, pos]; exact atRest

theorem holds_of_tables {next : ExpireIndex} (tab0 : next.tab0 = index.tab0)
    (tab1 : next.tab1 = index.tab1) : next.Holds hash ↔ index.Holds hash := by
  rw [Holds, Holds, tab0, tab1]

theorem WellFormed.size_eq_zero (wf : index.WellFormed)
    : index.size = 0 ↔ ∀ hash, ¬ index.Holds hash := by
  have first := wf.split.tab0.live_eq_zero
  have second := wf.split.tab1.live_eq_zero
  rw [size, Nat.add_eq_zero_iff, first, second]
  constructor
  · rintro ⟨none0, none1⟩ hash (held | held)
    · exact none0 hash held
    · exact none1 hash held
  · exact fun none =>
      ⟨fun hash held => none hash (.inl held), fun hash held => none hash (.inr held)⟩

-- Migration

/-- What moving old slots has done: the same hashes, and no more slots taken in all. -/
structure Moved (before after : ExpireIndex) : Prop where
  split : after.Split
  holds : ∀ hash, after.Holds hash ↔ before.Holds hash
  cap0 : after.tab0.cap = before.tab0.cap
  cap1 : after.tab1.cap = before.tab1.cap
  total : after.tab1.load + after.tab0.live ≤ before.tab1.load + before.tab0.live

theorem Moved.refl (split : index.Split) : Moved index index :=
  ⟨split, fun _ => .rfl, rfl, rfl, Nat.le_refl _⟩

/-- Moves of old slots compose. -/
theorem Moved.trans {first second third : ExpireIndex} (front : Moved first second)
    (back : Moved second third) : Moved first third :=
  ⟨back.split, fun hash => (back.holds hash).trans (front.holds hash),
    back.cap0.trans front.cap0, back.cap1.trans front.cap1, Nat.le_trans back.total front.total⟩

/-- A live slot gives up its hash, which finds room in the new table. -/
theorem Split.migrateSlot (split : index.Split)
    (fits : index.tab1.load + index.tab0.live < index.tab1.cap)
    : Moved index index.migrateSlot ∧ index.migrateSlot.migratePos = index.migratePos + 1 := by
  rw [ExpireIndex.migrateSlot]
  cases found : index.tab0.liveAt index.migratePos with
  | none =>
    refine ⟨⟨{ split with swept := fun place below hash => ?_ },
      fun _ => .rfl, rfl, rfl, Nat.le_refl _⟩, rfl⟩
    rcases Nat.lt_or_eq_of_le (Nat.le_of_lt_succ below) with before | rfl
    · exact split.swept place before hash
    · exact fun held => by simp [liveAt, held] at found
  | some hash =>
    have held := liveAt_some found
    have erased := split.tab0.kill held
    obtain ⟨after, placed⟩ := split.tab1.insertRaw_room (by omega) hash
    have inserted := split.tab1.insertRaw_some placed
    have live := erased.live
    have load := inserted.load
    simp only [placed, Option.getD_some]
    refine ⟨⟨⟨erased.wellFormed, inserted.wellFormed, fun other kept there => ?_,
      fun place below other => ?_⟩, fun other => ?_, erased.cap, inserted.cap, ?_⟩, trivial⟩
    · obtain ⟨before, apart⟩ := (erased.left other).mp kept
      rcases (inserted.holds other).mp there with same | old
      · exact apart same
      · exact split.apart other before old
    · intro there
      obtain ⟨-, absurdity⟩ | ⟨apart, old⟩ := getElem?_set_live there
      · cases absurdity
      · have most : place < index.migratePos + 1 := below
        exact split.swept place (by omega) other old
    · rw [Holds]
      rw [erased.left, inserted.holds]
      constructor
      · rintro (⟨kept, -⟩ | rfl | old)
        · exact .inl kept
        · exact .inl erased.held
        · exact .inr old
      · rintro (kept | old)
        · by_cases same : other = hash
          · exact .inr (.inl same)
          · exact .inl ⟨kept, same⟩
        · exact .inr (.inr old)
    · show after.load + (index.tab0.kill index.migratePos).live ≤ _
      omega

/-- Several slots, as far as the old table goes.
Witness: induction over the slots; each takes no more room than it frees.
-/
theorem Split.migrateSlots (slots : Nat) (split : index.Split)
    (fits : index.tab1.load + index.tab0.live < index.tab1.cap)
    : Moved index (migrateSlots slots index)
      ∧ (index.migratePos ≤ index.tab0.cap → (migrateSlots slots index).migratePos
          = min (index.migratePos + slots) index.tab0.cap) := by
  induction slots generalizing index with
  | zero =>
    refine ⟨.refl split, fun inside => ?_⟩
    show index.migratePos = min (index.migratePos + 0) index.tab0.cap
    omega
  | succ slots ih =>
    rw [migrateSlots]
    split
    · obtain ⟨moved, pos⟩ := split.migrateSlot fits
      have total := moved.total
      have cap1 := moved.cap1
      have cap0 := moved.cap0
      obtain ⟨rest, posRest⟩ := ih moved.split (by omega)
      refine ⟨moved.trans rest, fun _ => ?_⟩
      omega
    · exact ⟨.refl split, fun inside => by omega⟩

/-- What a finished migration leaves: one table with everything in it. -/
theorem Split.finishMigration (split : index.Split)
    (fits : index.tab1.load + index.tab0.live < index.tab1.cap)
    (inside : index.migratePos ≤ index.tab0.cap)
    : index.finishMigration.Split
      ∧ (∀ hash, index.finishMigration.Holds hash ↔ index.Holds hash)
      ∧ index.finishMigration.tab0.cap = index.tab1.cap
      ∧ index.finishMigration.tab0.load ≤ index.tab1.load + index.tab0.live := by
  obtain ⟨moved, pos⟩ := split.migrateSlots (index.tab0.cap - index.migratePos) fits
  have total := moved.total
  have drained : ∀ hash, ¬ (ExpireIndex.migrateSlots (index.tab0.cap - index.migratePos)
      index).tab0.Holds hash := by
    intro hash held
    obtain ⟨place, found⟩ := mem_iff_getElem?.mp held
    have below := (List.getElem?_eq_some_iff.mp found).1
    have cap0 : (ExpireIndex.migrateSlots (index.tab0.cap - index.migratePos)
        index).tab0.slots.length = index.tab0.cap := moved.cap0
    refine moved.split.swept place ?_ hash found
    omega
  refine ⟨⟨moved.split.tab1, .unallocated, fun _ _ => nofun, nofun⟩, fun hash => ?_, moved.cap1, ?_⟩
  · rw [← moved.holds hash]
    constructor
    · rintro (held | held)
      · exact .inr held
      · cases held
    · rintro (held | held)
      · exact absurd held (drained hash)
      · exact .inl held
  · show (ExpireIndex.migrateSlots _ index).tab1.load ≤ _
    omega

/-- All old slots moved, the new table stands alone. -/
theorem WellFormed.finishMigration (wf : index.WellFormed) (moving : index.tab1.cap ≠ 0)
    : index.finishMigration.WellFormed
      ∧ ∀ hash, index.finishMigration.Holds hash ↔ index.Holds hash := by
  have room := wf.room.moving moving
  have ahead := wf.ahead moving
  obtain ⟨split, holds, cap, load⟩ := wf.split.finishMigration (by omega) (by omega)
  exact ⟨⟨split, ⟨fun _ _ => by omega, absurd rfl⟩, absurd rfl,
    fun _ => rfl⟩, holds⟩

/-- A window of a migration pays for one insert. -/
theorem Split.migrate (split : index.Split) (moving : index.tab1.cap ≠ 0)
    (room : index.tab1.load + index.tab0.live + index.windowsLeft < index.tab1.cap)
    (ahead : index.migratePos < index.tab0.cap)
    : (migrate kMigrateSlotsPerOp index).WellFormed
      ∧ (∀ hash, (migrate kMigrateSlotsPerOp index).Holds hash ↔ index.Holds hash)
      ∧ (migrate kMigrateSlotsPerOp index).Room 1
      ∧ (migrate kMigrateSlotsPerOp index).Allocated := by
  obtain ⟨moved, pos⟩ := split.migrateSlots kMigrateSlotsPerOp (by omega)
  have total := moved.total
  have cap0 := moved.cap0
  have cap1 := moved.cap1
  have left : index.windowsLeft = (index.tab0.cap - index.migratePos + 7) / 8 := rfl
  have eight : kMigrateSlotsPerOp = 8 := rfl
  rw [ExpireIndex.migrate]
  generalize ExpireIndex.migrateSlots kMigrateSlotsPerOp index = after at *
  split
  · obtain ⟨split', holds, cap, load⟩ := moved.split.finishMigration (by omega) (by omega)
    have full : ∀ spare, spare ≤ 1 → after.finishMigration.Room spare := fun spare few =>
      ⟨fun _ _ => by omega, absurd rfl⟩
    exact ⟨⟨split', full 0 (by omega), absurd rfl, fun _ => rfl⟩,
      fun hash => (holds hash).trans (moved.holds hash), full 1 (Nat.le_refl 1),
      fun _ => by omega⟩
  · have rest : after.windowsLeft = (after.tab0.cap - after.migratePos + 7) / 8 := rfl
    have full : ∀ spare, spare ≤ 1 → after.Room spare := fun spare few =>
      ⟨fun none => absurd (cap1.symm.trans none) moving, fun _ => by omega⟩
    exact ⟨⟨moved.split, full 0 (by omega), fun _ => by omega,
      fun none => absurd (cap1.symm.trans none) moving⟩, moved.holds, full 1 (Nat.le_refl 1),
      fun none => absurd (cap1.symm.trans none) moving⟩

/-- One window moves no hash out of the index and leaves room for an insert. -/
theorem WellFormed.migrate (wf : index.WellFormed) (moving : index.tab1.cap ≠ 0)
    : (migrate kMigrateSlotsPerOp index).WellFormed
      ∧ (∀ hash, (migrate kMigrateSlotsPerOp index).Holds hash ↔ index.Holds hash)
      ∧ (migrate kMigrateSlotsPerOp index).Room 1
      ∧ (migrate kMigrateSlotsPerOp index).Allocated :=
  wf.split.migrate moving (wf.room.moving moving) (wf.ahead moving)

end ExpireIndex

end Thredis.Store
