import Thredis.Store.FlatTables

/-! Starting and driving a migration: a demoted table keeps every object, one window moves
objects without displacing any, and with room to spare no window is refused.
-/

namespace Thredis.Store
open Thredis.Lib Option

namespace Tables

variable {hashKey : Slice → BitVec 64} {tables : Tables}

/-- Demoting the current table keeps every object. -/
theorem WellFormed.demote (wf : tables.WellFormed hashKey) (still : tables.old = none)
    {newcap : Nat} (pow : PowTwo (max newcap kMinCap)) (fits : max newcap kMinCap ≤ 2 ^ 31)
    : (tables.demote newcap).WellFormed hashKey
      ∧ (∀ object, object ∈ (tables.demote newcap).objects ↔ object ∈ tables.objects)
      ∧ (tables.demote newcap).size = tables.size := by
  refine ⟨⟨.fresh hashKey pow (le_max_right _ _) fits, ?_, ?_, ?_, ?_⟩, fun object => ?_, ?_⟩
  · rintro _ ⟨rfl⟩
    exact wf.cur
  · rintro _ ⟨rfl⟩ a inCur
    simp [Tables.demote] at inCur
  · rintro _ ⟨rfl⟩ index behind
    exact absurd behind (Nat.not_lt_zero _)
  · rintro _ ⟨rfl⟩
    exact wf.cur.pow.pos
  · simp [mem_objects, Tables.demote, still]
  · simp [size, oldLive, Tables.demote, Table.fresh, still]

/-- The room a fresh current table offers while its predecessor is drained. -/
theorem Roomy.demote {pace slack newcap : Nat}
    (full : tables.cur.live + tables.cur.tombs < tables.cur.cap)
    (fits : tables.cur.live + pace * ((tables.cur.cap + 7) / 8) + slack < max newcap kMinCap)
    : Roomy pace slack (tables.demote newcap) := by
  refine ⟨?_, ?_⟩
  · simpa [load, oldLive, windowsLeft, oldCap, Tables.demote, Table.fresh, Table.cap,
      kRehashSlotsPerOp] using fits
  · rintro _ ⟨rfl⟩
    exact full

/-- The state a migration loop is in: `WellFormed`, except that the position may already
have reached the end of the old table.
-/
structure Draining (hashKey : Slice → BitVec 64) (tables : Tables) (old : Table) : Prop where
  cur : tables.cur.WellFormed hashKey
  found : tables.old = some old
  source : old.WellFormed hashKey
  apart : ∀ a ∈ tables.cur.objects, ∀ b ∈ old.objects, a.key ≠ b.key
  swept : ∀ index < tables.rehashPos, ∀ word : Word, old.slots[index]? ≠ some (.live word)

/-- What part of a migration window has done: `count` slots were drained, unless `refused`
says that one of them could not be placed.
-/
structure Moving (hashKey : Slice → BitVec 64) (before after : Tables) (refused : Bool)
    (count : Nat) : Prop where
  migrating : ∃ old table, before.old = some old ∧ Draining hashKey after table
    ∧ table.cap = old.cap ∧ table.live + table.tombs = old.live + old.tombs
  objects : ∀ object, object ∈ after.objects ↔ object ∈ before.objects
  cap : after.cur.cap = before.cur.cap
  load : after.load ≤ before.load
  size : after.size = before.size
  drained : refused = false → after.rehashPos = before.rehashPos + count
  stuck : refused = true → after.rehashPos < before.rehashPos + count
    ∧ after.cur.cap ≤ after.cur.live + after.cur.tombs

variable {old : Table}

theorem WellFormed.draining (wf : tables.WellFormed hashKey)
    (found : tables.old = some old) : Draining hashKey tables old :=
  ⟨wf.cur, found, wf.old old found, wf.apart old found, wf.swept old found⟩

variable {count : Nat}

/-- Two parts of a window in a row. -/
theorem Moving.trans {first second third : Tables} {refused : Bool}
    (front : Moving hashKey first second false 1) (back : Moving hashKey second third refused count)
    : Moving hashKey first third refused (count + 1) := by
  have position := front.drained rfl
  obtain ⟨old, middle, atFirst, draining, middleCap, middleLoad⟩ := front.migrating
  obtain ⟨middle', last, atSecond, lastDraining, lastCap, lastLoad⟩ := back.migrating
  rw [draining.found] at atSecond
  cases atSecond
  exact
    { migrating := ⟨old, last, atFirst, lastDraining, lastCap.trans middleCap,
        lastLoad.trans middleLoad⟩
      objects := fun object => (back.objects object).trans (front.objects object)
      cap := back.cap.trans front.cap
      load := back.load.trans front.load
      size := back.size.trans front.size
      drained := fun ok => by rw [back.drained ok]; omega
      stuck := fun failed => ⟨by have := (back.stuck failed).1; omega, (back.stuck failed).2⟩ }

section

variable (draining : Draining hashKey tables old)

include draining

section

variable (idle : ∀ word : Word, old.slots[tables.rehashPos]? ≠ some (.live word))

include idle

/-- A slot without an object only moves the position. -/
theorem Draining.skip
    : Draining hashKey { tables with rehashPos := tables.rehashPos + 1 } old := by
  refine { draining with swept := ?_ }
  intro index behind word
  rcases Nat.lt_succ_iff_lt_or_eq.mp behind with earlier | rfl
  · exact draining.swept index earlier word
  · exact idle word

theorem Draining.skipped
    : Moving hashKey tables { tables with rehashPos := tables.rehashPos + 1 } false 1 :=
  { migrating := ⟨old, old, draining.found, draining.skip idle, rfl, rfl⟩
    objects := fun _ => .rfl
    cap := rfl
    load := le_rfl
    size := rfl
    drained := fun _ => rfl
    stuck := nofun }

end

/-- A move of one object: it leaves the old table for the current one and displaces
nothing, because no key is in both.
-/
theorem Draining.moved {word : Word} (held : old.slots[tables.rehashPos]? = some (.live word))
    {current : Option KvObj} {cur : Table}
    (placed : tables.cur.insertInto (hashKey word.obj.key) word.obj = some (current, cur))
    : current = none
      ∧ Draining hashKey
          { cur, old := some (old.kill tables.rehashPos)
            rehashPos := tables.rehashPos + 1 } (old.kill tables.rehashPos)
      ∧ Moving hashKey tables
          { cur, old := some (old.kill tables.rehashPos)
            rehashPos := tables.rehashPos + 1 } false 1 := by
  have arrives := draining.cur.insertInto_some placed
  have leaves := draining.source.kill held
  have inOld := leaves.held
  have alone : current = none := by
    cases current with
    | none => rfl
    | some other =>
      obtain ⟨inCur, same⟩ := (arrives.took other).mp rfl
      exact absurd same (draining.apart other inCur word.obj inOld)
  have swept : ∀ index < tables.rehashPos + 1, ∀ other : Word,
      (old.kill tables.rehashPos).slots[index]? ≠ some (.live other) := by
    intro index behind other live
    rcases Nat.lt_succ_iff_lt_or_eq.mp behind with earlier | rfl
    · exact draining.swept index earlier other (leaves.kept live)
    · obtain ⟨-, absurdity⟩ | ⟨elsewhere, -⟩ := getElem?_set_live live
      · cases absurdity
      · exact elsewhere rfl
  have next : Draining hashKey
      { cur, old := some (old.kill tables.rehashPos)
        rehashPos := tables.rehashPos + 1 } (old.kill tables.rehashPos) := by
    refine ⟨arrives.wellFormed, rfl, leaves.wellFormed, fun a inCur b inRest => ?_, swept⟩
    obtain ⟨inOld, apart⟩ := (leaves.left b).mp inRest
    rcases (arrives.holds a).mp inCur with rfl | ⟨before, -⟩
    · exact fun same => apart same.symm
    · exact draining.apart a before b inOld
  refine ⟨alone, next, ?_⟩
  refine
    { migrating := ⟨old, old.kill tables.rehashPos, draining.found, next, leaves.cap, ?_⟩
      objects := fun object => ?_
      cap := arrives.cap
      load := ?_
      size := ?_
      drained := fun _ => rfl
      stuck := nofun }
  · have live := leaves.live
    have tombs := leaves.tombs
    omega
  · simp only [mem_objects, draining.found, some.injEq, exists_eq_left', arrives.holds,
      leaves.left]
    constructor
    · rintro ((rfl | ⟨inCur, -⟩) | ⟨inRest, -⟩)
      · exact .inr inOld
      · exact .inl inCur
      · exact .inr inRest
    · rintro (inCur | inRest)
      · exact .inl (.inr ⟨inCur, draining.apart object inCur word.obj inOld⟩)
      · rcases Classical.em (object.key = word.obj.key) with same | other
        · exact .inl (.inl (draining.source.object_unique inRest inOld same))
        · exact .inr ⟨inRest, other⟩
  · have bound := arrives.load
    have live := leaves.live
    simp only [load, oldLive, draining.found, map_some, getD_some]
    omega
  · have gained := arrives.live
    have lost := leaves.live
    simp only [alone, isSome_none, Bool.toNat_false] at gained
    simp only [size, oldLive, draining.found, map_some, getD_some]
    omega

end

theorem moveSlots_idle (count : Nat) (displaced : List KvObj) (found : tables.old = some old)
    (idle : ∀ word : Word, old.slots[tables.rehashPos]? ≠ some (.live word))
    : moveSlots hashKey (count + 1) tables displaced
      = moveSlots hashKey count { tables with rehashPos := tables.rehashPos + 1 } displaced := by
  simp [moveSlots, found]

/-- A window of the migration moves objects and displaces none.
Witness: induction over the slots left; each slot is skipped, moved, or stops the window.
-/
theorem Draining.moveSlots (count : Nat) (displaced : List KvObj)
    (draining : Draining hashKey tables old)
    : ∃ after refused, moveSlots hashKey count tables displaced = (after, displaced, refused)
      ∧ Moving hashKey tables after refused count := by
  induction count generalizing tables old with
  | zero =>
    refine ⟨tables, false, rfl, ?_⟩
    exact
      { migrating := ⟨old, old, draining.found, draining, rfl, rfl⟩
        objects := fun _ => .rfl
        cap := rfl
        load := le_rfl
        size := rfl
        drained := fun _ => rfl
        stuck := nofun }
  | succ count ih =>
    rcases Classical.em (∃ word : Word, old.slots[tables.rehashPos]? = some (.live word)) with
      ⟨word, slot⟩ | idle
    · cases placed : tables.cur.insertInto (hashKey word.obj.key) word.obj with
      | none =>
        refine ⟨tables, true, by simp [moveSlots, draining.found, slot, placed], ?_⟩
        exact
          { migrating := ⟨old, old, draining.found, draining, rfl, rfl⟩
            objects := fun _ => .rfl
            cap := rfl
            load := le_rfl
            size := rfl
            drained := nofun
            stuck := fun _ => ⟨by omega, (draining.cur.insertInto_none placed).1⟩ }
      | some result =>
        obtain ⟨current, cur⟩ := result
        obtain ⟨rfl, next, step⟩ := draining.moved slot placed
        obtain ⟨after, refused, done, moving⟩ := ih next
        refine ⟨after, refused, ?_, step.trans moving⟩
        simpa [moveSlots, draining.found, slot, placed] using done
    · have idle : ∀ word : Word, old.slots[tables.rehashPos]? ≠ some (.live word) :=
        fun word live => idle ⟨word, live⟩
      obtain ⟨after, refused, done, moving⟩ := ih (draining.skip idle)
      refine ⟨after, refused, ?_, (draining.skipped idle).trans moving⟩
      rw [moveSlots_idle count displaced draining.found idle, done]

/-- What a `rehash_step` has done; `refused` is its early return. -/
structure Stepped (hashKey : Slice → BitVec 64) (before after : Tables) (refused : Bool)
    : Prop where
  wellFormed : after.WellFormed hashKey
  objects : ∀ object, object ∈ after.objects ↔ object ∈ before.objects
  cap : after.cur.cap = before.cur.cap
  load : after.load ≤ before.load
  size : after.size = before.size
  old : ∀ table, after.old = some table → ∃ earlier, before.old = some earlier
    ∧ table.cap = earlier.cap ∧ table.live + table.tombs = earlier.live + earlier.tombs
  advanced : refused = false → before.rehashing = true
    → after.windowsLeft + 1 = before.windowsLeft
  stuck : refused = true → after.cur.cap ≤ after.cur.live + after.cur.tombs

/-- Freeing a drained table loses no object. -/
theorem Draining.finish (draining : Draining hashKey tables old) (done : old.cap ≤ tables.rehashPos)
    : Tables.WellFormed hashKey { tables with old := none, rehashPos := 0 }
      ∧ (∀ object, object ∈ objects { tables with old := none, rehashPos := 0 }
          ↔ object ∈ tables.objects)
      ∧ old.live = 0 := by
  have cleared : ∀ (index : Nat) (word : Word), old.slots[index]? ≠ some (.live word) := by
    intro index word live
    have inside : index < old.cap := (List.getElem?_eq_some_iff.mp live).1
    exact draining.swept index (by omega) word live
  have idle := draining.source.live_eq_zero cleared
  refine ⟨⟨draining.cur, nofun, nofun, nofun, nofun⟩, fun object => ?_, idle⟩
  simp [mem_objects, draining.found, draining.source.objects_eq_nil idle]

variable {before after : Tables}

section

variable (wf : before.WellFormed hashKey)
  (window : count = min (before.rehashPos + kRehashSlotsPerOp) before.oldCap - before.rehashPos)

include wf window

/-- The end of a window whose slots were all drained. -/
theorem Moving.finish (moving : Moving hashKey before after false count)
    : Stepped hashKey before after.finishRehash false := by
  obtain ⟨old, table, found, draining, sameCap, sameLoad⟩ := moving.migrating
  have position := moving.drained rfl
  have inside := wf.position old found
  have oldCap : before.oldCap = old.cap := by simp [oldCap, found]
  have tableCap : after.oldCap = old.cap := by simp [Tables.oldCap, draining.found, sameCap]
  simp only [kRehashSlotsPerOp] at window
  rw [finishRehash]
  split
  · obtain ⟨wellFormed, objects, idle⟩ := draining.finish (by omega)
    refine ⟨wellFormed, fun object => (objects object).trans (moving.objects object), moving.cap,
      ?_, ?_, by simp, fun _ _ => ?_, by simp⟩
    · have bound := moving.load
      simp only [Tables.load, oldLive, draining.found, map_some, idle] at bound ⊢
      exact bound
    · have same := moving.size
      simp only [Tables.size, oldLive, draining.found, map_some, idle] at same ⊢
      exact same
    · simp only [windowsLeft, Tables.oldCap, map_none, getD_none, kRehashSlotsPerOp]
      simp only [Tables.oldCap] at oldCap
      omega
  · refine ⟨⟨draining.cur, ?_, ?_, ?_, ?_⟩, moving.objects, moving.cap, moving.load, moving.size,
      ?_, fun _ _ => ?_, by simp⟩
    · intro other same
      rw [draining.found] at same
      cases same
      exact draining.source
    · intro other same
      rw [draining.found] at same
      cases same
      exact draining.apart
    · intro other same
      rw [draining.found] at same
      cases same
      exact draining.swept
    · intro other same
      rw [draining.found] at same
      cases same
      omega
    · intro other same
      rw [draining.found] at same
      cases same
      exact ⟨old, found, sameCap, sameLoad⟩
    · simp only [windowsLeft, kRehashSlotsPerOp]
      omega

/-- The early return of a window keeps both tables well formed. -/
theorem Moving.refuse (moving : Moving hashKey before after true count)
    : Stepped hashKey before after true := by
  obtain ⟨old, table, found, draining, sameCap, sameLoad⟩ := moving.migrating
  obtain ⟨short, full⟩ := moving.stuck rfl
  have inside := wf.position old found
  have oldCap : before.oldCap = old.cap := by simp [oldCap, found]
  have only : ∀ other, after.old = some other → other = table := by
    intro other same
    rw [draining.found] at same
    exact (some.inj same).symm
  refine ⟨⟨draining.cur, ?_, ?_, ?_, ?_⟩, moving.objects, moving.cap, moving.load, moving.size, ?_,
    by simp, fun _ => full⟩
  · intro other same
    rw [only other same]
    exact draining.source
  · intro other same
    rw [only other same]
    exact draining.apart
  · intro other same
    rw [only other same]
    exact draining.swept
  · intro other same
    rw [only other same]
    omega
  · intro other same
    rw [only other same]
    exact ⟨old, found, sameCap, sameLoad⟩

end

/-- `rehash_step` moves objects without displacing any, whatever the load. -/
theorem WellFormed.rehashStep (wf : tables.WellFormed hashKey)
    : ∃ after refused, tables.rehashStep hashKey = (after, [], refused)
      ∧ Stepped hashKey tables after refused := by
  cases found : tables.old with
  | none =>
    refine ⟨{ tables with old := none, rehashPos := 0 }, false, ?_, ?_⟩
    · simp [Tables.rehashStep, Tables.oldCap, found, Tables.moveSlots, finishRehash]
    · refine ⟨⟨wf.cur, by simp, by simp, by simp, by simp⟩, fun object => ?_, rfl, ?_, ?_, by simp,
        ?_, by simp⟩
      · simp [mem_objects, found]
      · simp [load, oldLive]
      · simp [size, oldLive, found]
      · simp [rehashing, found]
  | some old =>
    obtain ⟨after, refused, done, moving⟩ :=
      (wf.draining found).moveSlots
        (min (tables.rehashPos + kRehashSlotsPerOp) tables.oldCap - tables.rehashPos) []
    cases refused with
    | true => exact ⟨after, true, by simp [Tables.rehashStep, done], moving.refuse wf rfl⟩
    | false =>
      exact ⟨after.finishRehash, false, by simp [Tables.rehashStep, done], moving.finish wf rfl⟩

/-- With room to spare a window is never refused, and pays back its share of the pace. -/
theorem Stepped.room {refused : Bool} {pace slack : Nat}
    (stepped : Stepped hashKey before after refused) (room : Roomy pace slack before)
    (moving : before.rehashing = true)
    : refused = false ∧ Roomy pace (slack + pace) after := by
  have loads := stepped.load
  have cap := stepped.cap
  have bound := room.cur
  have granted : refused = false := by
    cases refused with
    | false => rfl
    | true =>
      have full := stepped.stuck rfl
      simp only [Tables.load] at loads bound full
      omega
  refine ⟨granted, ?_, fun table found => ?_⟩
  · have progress := stepped.advanced granted moving
    rw [← progress] at bound
    rw [Nat.mul_add] at bound
    omega
  · obtain ⟨earlier, start, sameCap, sameLoad⟩ := stepped.old table found
    have free := room.old earlier start
    omega

theorem WellFormed.windowsLeft_pos (wf : tables.WellFormed hashKey)
    (found : tables.old = some old) : 0 < tables.windowsLeft := by
  have inside := wf.position old found
  simp only [windowsLeft, oldCap, found, map_some, getD_some, kRehashSlotsPerOp]
  omega

end Tables

end Thredis.Store
