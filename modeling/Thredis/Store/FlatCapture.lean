import Thredis.Store.FlatSnapshot
import Thredis.Store.FlatExpiry

/-! What a capture does to the tables: its traversal and its pre-images only mark slots of
the frozen table, and the swap at the cut keeps every object.
-/

namespace Thredis.Store
open Thredis.Lib

namespace FlatStore

variable {env : StoreEnv} {store : FlatStore}

structure Captured (env : StoreEnv) (before after : FlatStore) : Prop where
  sound : after.Sound env
  objects : ∀ object, object ∈ after.tables.objects ↔ object ∈ before.tables.objects
  room : ∀ pace slack, before.tables.Roomy pace slack → after.tables.Roomy pace slack
  cap : after.tables.cur.cap = before.tables.cur.cap
  refused : after.rehashRefused = before.rehashRefused
  records : after.atomics.entries = before.atomics.entries
  granted : before.allocations = [] → after.allocations = []
  newCap : after.snapshot.newCap = before.snapshot.newCap
  prepared : after.snapshot.prepared = before.snapshot.prepared

/-- Steps of a capture compose. -/
theorem Captured.trans {first second third : FlatStore} (front : Captured env first second)
    (back : Captured env second third) : Captured env first third where
  sound := back.sound
  objects := fun object => (back.objects object).trans (front.objects object)
  room := fun pace slack room => back.room pace slack (front.room pace slack room)
  cap := back.cap.trans front.cap
  refused := back.refused.trans front.refused
  records := back.records.trans front.records
  granted := fun none => back.granted (front.granted none)
  newCap := back.newCap.trans front.newCap
  prepared := back.prepared.trans front.prepared

/-- A step that changes only the stream of the capture. -/
theorem Sound.captured (sound : store.Sound env) {snapshot : SnapshotState}
    {allocations : Allocations} (newCap : snapshot.newCap = store.snapshot.newCap)
    (prepared : snapshot.prepared = store.snapshot.prepared)
    (granted : store.allocations = [] → allocations = [])
    : Captured env store { store with snapshot, allocations } :=
  ⟨sound, fun _ => .rfl, fun _ _ => id, rfl, rfl, rfl, granted, newCap, prepared⟩

theorem Captured.refl (sound : store.Sound env) : Captured env store store :=
  sound.captured rfl rfl id

/-- Marking a slot of the frozen table moves nothing. -/
theorem Sound.rewriteFrozen (sound : store.Sound env) (slot : Nat) (mark : Bool)
    : Captured env store (store.rewriteFrozen slot mark) := by
  rw [FlatStore.rewriteFrozen]
  split
  · exact .refl sound
  · rename_i old there
    by_cases live : ∃ word, old.slots[slot]? = some (.live word)
    · obtain ⟨word, held⟩ := live
      have member := Table.mem_objects.mpr ⟨word, List.mem_of_getElem? held, rfl⟩
      have marked := Tables.WellFormed.rewrite_old sound there member rfl
        ((sound.old old there).rewriteAt held (fun word => { word with mark }) rfl rfl)
      refine ⟨marked.wellFormed, fun object => (marked.holds object).trans ?_,
        fun pace slack room => room.framed marked.framed
          (Nat.add_le_add_right (Nat.le_of_eq marked.load) slack),
        rfl, rfl, rfl, id, rfl, rfl⟩
      have inTables := Tables.mem_objects.mpr (.inr ⟨old, there, member⟩)
      constructor
      · rintro (rfl | ⟨kept, -⟩)
        · exact inTables
        · exact kept
      · intro kept
        by_cases same : object.key = word.obj.key
        · exact .inl (Tables.WellFormed.object_unique sound kept inTables same)
        · exact .inr ⟨kept, same⟩
    · have same := Table.rewriteAt_eq_self (fun word => { word with mark })
        (fun word held => live ⟨word, held⟩)
      rw [same, Tables.put]
      have unmoved : { store.tables with old := some old } = store.tables := by
        rw [← there]
      rw [unmoved]
      exact .refl sound

/-- A relation kept by what a capture is made of: changes of its stream, and of the marks in the
frozen table.
-/
structure Capturing (R : FlatStore → FlatStore → Prop) : Prop where
  refl : ∀ store, R store store
  trans : ∀ {first second third}, R first second → R second third → R first third
  stream : ∀ {store : FlatStore} {snapshot : SnapshotState} {allocations : Allocations},
    snapshot.newCap = store.snapshot.newCap → snapshot.prepared = store.snapshot.prepared
    → (store.allocations = [] → allocations = [])
    → R store { store with snapshot := snapshot, allocations := allocations }
  rewriteFrozen : ∀ (store : FlatStore) (slot : Nat) (mark : Bool),
    R store (store.rewriteFrozen slot mark)

namespace Capturing

variable {R : FlatStore → FlatStore → Prop} (capturing : Capturing R)

include capturing

section

variable (store)

theorem makeSnapshotChunk (flags : Nat)
    : R store (store.makeSnapshotChunk flags).2 := by
  have granted : store.allocations = [] → (drawAllocation store.allocations).2 = [] :=
    drawAllocation_rest
  rw [FlatStore.makeSnapshotChunk]
  split
  · rename_i rest drawn
    rw [drawn] at granted
    exact capturing.stream rfl rfl granted
  · rename_i rest drawn
    rw [drawn] at granted
    exact capturing.stream rfl rfl granted

theorem snapshotStartRecord {object : KvObj} {slot : Nat} {preimage : Bool}
    {begun : Bool × FlatStore}
    (answered : store.snapshotStartRecord env object slot preimage = begun) : R store begun.2 := by
  rw [← answered, FlatStore.snapshotStartRecord]
  split
  · exact capturing.stream rfl rfl id
  · exact capturing.stream rfl rfl id

/-- By the gate's branches: it marks the frozen word, or emits its pre-image first. -/
theorem snapshotPrepareWrite (h : BitVec 64) (key : Slice)
    : R store (store.snapshotPrepareWrite env h key).2 := by
  fun_cases store.snapshotPrepareWrite env h key with
  | case6 _ _ _ slot => exact capturing.rewriteFrozen store slot true
  | case8 _ _ _ _ _ _ _ _ _ next refused => exact capturing.snapshotStartRecord store refused
  | case9 _ _ _ _ _ _ _ _ _ next begun =>
    exact capturing.trans (capturing.snapshotStartRecord store begun) (capturing.stream rfl rfl id)
  | _ => exact capturing.refl store

theorem snapshotSeal (flags : Nat) : R store (store.snapshotSeal flags) := by
  rw [FlatStore.snapshotSeal]
  split
  · exact capturing.stream rfl rfl id
  · exact capturing.refl store

theorem snapshotChunk {flags : Nat} {made : Option SnapshotChunk × FlatStore}
    (answered : store.snapshotChunk flags = made) : R store made.2 := by
  rw [← answered, FlatStore.snapshotChunk]
  split
  · exact capturing.refl store
  · exact capturing.makeSnapshotChunk store flags

theorem snapshotBuild (chunk : Option SnapshotChunk)
    : R store { store with snapshot := { store.snapshot with build := chunk } } :=
  capturing.stream rfl rfl id

theorem snapshotFill (chunk : SnapshotChunk) (bytes : List UInt8)
    : R store (store.snapshotFill chunk bytes) := by
  have built := capturing.snapshotBuild store (some { chunk with bytes := chunk.bytes ++ bytes })
  simp only [FlatStore.snapshotFill]
  split
  · exact capturing.trans built (capturing.snapshotSeal _ 0)
  · exact built

end

/-- By induction over the turns, a chunk filled in each. -/
theorem snapshotEmit (turns : Nat) (rest : List UInt8) (budget : Nat) (store : FlatStore)
    : R store (FlatStore.snapshotEmit turns rest budget store).2.2 := by
  fun_induction FlatStore.snapshotEmit turns rest budget store with
  | case1 | case2 => exact capturing.refl _
  | case3 turns rest budget store _ next refused => exact capturing.snapshotChunk store refused
  | case4 turns rest budget store _ chunk next given count ih =>
    have filled := capturing.trans (capturing.snapshotChunk store given)
      (capturing.snapshotFill next chunk (rest.take count))
    exact capturing.trans filled ih

variable (store : FlatStore)

theorem snapshotProgressRecord {record : SnapshotRecordState} {budget : Nat}
    {progressed : Nat × FlatStore}
    (answered : store.snapshotProgressRecord record budget = progressed)
    : R store progressed.2 := by
  have emitted := capturing.snapshotEmit (budget + 1) record.rest budget store
  rw [← answered, FlatStore.snapshotProgressRecord]
  split
  rename_i rest left next given
  rw [given] at emitted
  split
  · exact capturing.trans emitted (capturing.stream rfl rfl id)
  · have idle : R next { next with snapshot := { next.snapshot with record := none } } :=
      capturing.stream rfl rfl id
    have cleared := capturing.trans emitted idle
    split
    · exact capturing.trans cleared (capturing.rewriteFrozen _ _ _)
    · exact capturing.trans cleared (capturing.stream rfl rfl id)

theorem snapshotFinishStream : R store store.snapshotFinishStream := by
  fun_cases FlatStore.snapshotFinishStream store with
  | case1 => exact capturing.refl store
  | case2 _ next refused => exact capturing.snapshotChunk store refused
  | case3 _ chunk next given =>
    have built := capturing.trans (capturing.snapshotChunk store given)
      (capturing.snapshotBuild next (some chunk))
    have sealed := capturing.trans built (capturing.snapshotSeal _ snapshotFrameEnd)
    exact capturing.trans sealed (capturing.stream rfl rfl id)

/-- The slot under the cursor is passed over, unmarked, or begins a record. -/
theorem snapshotVisit : R store (store.snapshotVisit env) := by
  fun_cases store.snapshotVisit env with
  | case1 | case3 => exact capturing.stream rfl rfl id
  | case2 =>
    exact capturing.trans (capturing.rewriteFrozen store store.snapshot.pos false)
      (capturing.stream rfl rfl id)
  | case4 => exact capturing.snapshotStartRecord store rfl

/-- The traversal of the frozen table.
Witness: induction over its turns.
-/
theorem snapshotProgressLoop (turns bytes slots : Nat) (store : FlatStore)
    : R store (FlatStore.snapshotProgressLoop env turns bytes slots store) := by
  fun_induction FlatStore.snapshotProgressLoop env turns bytes slots store with
  | case3 turns bytes slots store _ record _ left next given =>
    exact capturing.snapshotProgressRecord store given
  | case4 turns bytes slots store _ record _ left next given _ ih =>
    exact capturing.trans (capturing.snapshotProgressRecord store given) ih
  | case5 turns bytes slots store => exact capturing.snapshotFinishStream store
  | case7 turns bytes store _ _ _ slots ih =>
    exact capturing.trans (capturing.snapshotVisit store) ih
  | _ => exact capturing.refl _

theorem snapshotProgress (store : FlatStore) (byteBudget slotBudget : Nat)
    : R store (store.snapshotProgress env byteBudget slotBudget) := by
  rw [FlatStore.snapshotProgress]
  split
  · exact capturing.refl store
  · exact capturing.snapshotProgressLoop _ _ _ store

theorem snapshotHandoffComplete (store : FlatStore)
    : R store store.snapshotHandoffComplete := by
  rw [FlatStore.snapshotHandoffComplete]
  split
  · exact capturing.refl store
  · exact capturing.stream rfl rfl id

end Capturing

/-- Changes of the stream and of marks move no object. -/
theorem capturing_captured
    : Capturing (fun before after => before.Sound env → Captured env before after) where
  refl _ sound := .refl sound
  trans front back sound := (front sound).trans (back (front sound).sound)
  stream newCap prepared granted sound := sound.captured newCap prepared granted
  rewriteFrozen _ slot mark sound := sound.rewriteFrozen slot mark

/-- The table a prepared capture has allocated can take over from the current one. -/
def PlanFits (store : FlatStore) : Prop :=
  ∀ cap, store.snapshot.newCap = some cap
    → store.snapshot.prepared = true ∧ PowTwo cap ∧ kMinCap ≤ cap ∧ cap ≤ 2 ^ 31
      ∧ store.tables.cur.cap ≤ cap

variable {before after : FlatStore}

/-- The prepared table still fits after the capture's own steps. -/
theorem Captured.planFits (captured : Captured env before after)
    (fits : before.PlanFits) : after.PlanFits := by
  intro cap planned
  rw [captured.newCap] at planned
  rw [captured.prepared, captured.cap]
  exact fits cap planned

/-- It fits after the owner's calls, which keep the capacity once it is planned. -/
theorem Steady.planFits {pace : Nat}
    (steady : Steady env pace before after) (fits : before.PlanFits) : after.PlanFits := by
  intro cap planned
  rw [steady.snapshot] at planned
  obtain ⟨prepared, pow, least, most, covers⟩ := fits cap planned
  rw [steady.snapshot, steady.planned prepared]
  exact ⟨prepared, pow, least, most, covers⟩

/-- What the owner relies on through captures and merges: the current table can take in every
object of the old one, no migration step was ever refused, and the allocator grants.
-/
structure Capturable (env : StoreEnv) (store : FlatStore) : Prop where
  sound : store.Sound env
  room : store.tables.Roomy 0 0
  records : store.atomics.entries = []
  granted : store.allocations = []
  moved : store.rehashRefused = 0
  plan : store.PlanFits

theorem Captured.capturable (captured : Captured env before after)
    (ready : before.Capturable env) : after.Capturable env where
  sound := captured.sound
  room := captured.room 0 0 ready.room
  records := captured.records.trans ready.records
  granted := captured.granted ready.granted
  moved := captured.refused.trans ready.moved
  plan := captured.planFits ready.plan

theorem Steady.capturable (steady : Steady env 0 before after)
    (ready : before.Capturable env) : after.Capturable env where
  sound := steady.sound
  room := (steady.room ready.room).1
  records := steady.entries ready.records
  granted := steady.granted ready.granted
  moved := (steady.room ready.room).2.trans ready.moved
  plan := steady.planFits ready.plan

variable (ready : store.Capturable env)

include ready

/-- `snapshot_prepare` plans a table twice as large, or takes a migration step. -/
theorem Capturable.snapshotPrepare (epoch : Nat) (cutMs : Int)
    : (store.snapshotPrepare env epoch cutMs).2.Capturable env := by
  have drained := drawAllocation_rest ready.granted
  fun_cases store.snapshotPrepare env epoch cutMs with
  | case2 => exact (ready.sound.rehashStep.steady (Nat.zero_le 1)).capturable ready
  | case6 _ _ _ wanted _ cap nonzero rest drawn =>
    rw [drawn] at drained
    exact { ready with granted := drained }
  | case7 _ _ _ wanted _ cap nonzero rest drawn =>
    obtain ⟨pow, least, most, covers⟩ := roundPow2_fits nonzero
    rw [drawn] at drained
    refine { ready with granted := drained, plan := ?_ }
    rintro cap ⟨rfl⟩
    exact ⟨rfl, pow, least, most, (Nat.le_mul_of_pos_right _ (by decide)).trans covers⟩
  | _ => exact ready

/-- `snapshot_mark` demotes the current table under the planned one. -/
theorem Capturable.snapshotMark (shardId cutMs : Int)
    : (store.snapshotMark shardId cutMs).2.Capturable env := by
  rw [FlatStore.snapshotMark]
  split
  · exact ready
  · rename_i newCap planned
    split
    · exact ready
    · rename_i due
      simp only [Bool.or_eq_true, not_or] at due
      have still : store.tables.old = none := by
        simpa [FlatStore.rehashing, Tables.rehashing] using due.2
      obtain ⟨-, pow, least, most, covers⟩ := ready.plan newCap planned
      have largest := Nat.max_eq_left least
      have full := (Tables.roomy_idle still 0 0).mp ready.room
      obtain ⟨wellFormed, -⟩ := Tables.WellFormed.demote ready.sound still
        (by rw [largest]; exact pow) (by rw [largest]; exact most)
      have room : Tables.Roomy 0 0 (store.tables.demote newCap) := .demote full (by omega)
      rw [Tables.demote, largest] at wellFormed room
      have swapped : (store.snapshotSwap newCap shardId cutMs).Capturable env :=
        { ready with sound := wellFormed, room, plan := by rintro _ ⟨⟩ }
      have made := capturing_captured.makeSnapshotChunk _ snapshotFrameBegin swapped.sound
      exact (made.trans (capturing_captured.snapshotBuild _ _ made.sound)).capturable swapped

/-- `snapshot_cancel` frees the planned table. -/
theorem Capturable.snapshotCancel
    : store.snapshotCancel.Capturable env :=
  { ready with plan := nofun }

end FlatStore

end Thredis.Store
