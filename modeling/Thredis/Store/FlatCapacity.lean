import Thredis.Lib.Runs
import Thredis.Store.FlatCapture
import Thredis.Store.FlatRuns

/-! Capacity over whole runs of a shard: calls, captures and the merges that follow them.
Every table keeps an empty slot and every migration completes, as long as a new key that
meets two tables outside a capture finds a slot to spare.
-/

namespace Thredis.Store
open Thredis.Lib

/-- What the owner of a shard does: timed calls and the steps of a capture. -/
inductive ShardEvent where
  | call (timed : TimedCall)
  | prepare (epoch : Nat) (cutMs : Int)
  | mark (shardId cutMs : Int)
  | prepareWrite (key : Slice)
  | progress (byteBudget slotBudget : Nat)
  | takeChunk
  | handoffComplete
  | cancel
  deriving DecidableEq, Repr

def shardStep (env : StoreEnv) (store : FlatStore) : ShardEvent → Option FlatStore
  | .call timed =>
    if timed.call = .clear then none
    else some ((store.setCachedNowMs (store.cachedNowMs + timed.tick)).call env timed.call).2
  | .prepare epoch cutMs => some (store.snapshotPrepare env epoch cutMs).2
  | .mark shardId cutMs => some (store.snapshotMark shardId cutMs).2
  | .prepareWrite key => some (store.snapshotPrepareWrite env (env.hashKey key) key).2
  | .progress byteBudget slotBudget => some (store.snapshotProgress env byteBudget slotBudget)
  | .takeChunk => some store.snapshotTakeChunk.2
  | .handoffComplete => some store.snapshotHandoffComplete
  | .cancel => some store.snapshotCancel

def ShardEvent.inserts : ShardEvent → Option KvObj
  | .call { call := .insert object, .. } => some object
  | _ => none

/-- A new key that meets two tables outside a capture finds room for both tables' objects
and its own.
-/
def MergeRoom (env : StoreEnv) (store : FlatStore) (event : ShardEvent) : Prop :=
  ∀ object ∈ event.inserts, store.rehashing = true → store.snapshot.active = false
    → store.tables.resident (env.hashKey object.key) object.key ≠ none
      ∨ store.tables.cur.live + store.tables.cur.tombs + store.tables.oldLive + 1
        < store.tables.cur.cap

instance MergeRoom.decidable (env : StoreEnv) (store : FlatStore) (event : ShardEvent)
    : Decidable (MergeRoom env store event) :=
  inferInstanceAs (Decidable (∀ object ∈ event.inserts, _))

namespace FlatStore

variable {env : StoreEnv} {store : FlatStore}

/-- What a capture and the merge after it must not break. -/
structure Sustained (env : StoreEnv) (store : FlatStore) : Prop where
  free : ∀ side table, store.tables.table side = some table → Slot.empty ∈ table.slots
  stops : ∀ side table, store.tables.table side = some table
    → ∀ h accept, table.walk h accept ≠ .exhausted
  moved : store.rehashRefused = 0
  completes : ∃ steps, ((fun store => store.rehashStep env)^[steps] store).tables.old = none

/-- A migration with room takes one window less after every step. -/
theorem Sound.rehashStep_windows (sound : store.Sound env) (room : store.tables.Roomy 0 0)
    (moving : store.rehashing = true)
    : (store.rehashStep env).tables.windowsLeft + 1 = store.tables.windowsLeft := by
  obtain ⟨tables, refused, done, stepped⟩ := Tables.WellFormed.rehashStep sound
  have shape : (store.rehashStep env).tables = tables := by simp [FlatStore.rehashStep, done]
  rw [shape]
  exact stepped.advanced (stepped.room room moving).1 moving

theorem Sound.windowsLeft_zero (sound : store.Sound env) (done : store.tables.windowsLeft = 0)
    : store.tables.old = none := by
  cases there : store.tables.old with
  | none => rfl
  | some old =>
    have left := Tables.WellFormed.windowsLeft_pos sound there
    omega

/-- As many steps as there are windows left complete the migration.
Witness: induction over the windows left; each step has one window less before it.
-/
theorem Sound.rehash_completes (windows : Nat) (sound : store.Sound env)
    (room : store.tables.Roomy 0 0) (left : store.tables.windowsLeft = windows)
    : ((fun store => store.rehashStep env)^[windows] store).tables.old = none := by
  induction windows generalizing store with
  | zero => exact sound.windowsLeft_zero left
  | succ windows ih =>
    have moving : store.rehashing = true := by
      cases there : store.tables.old with
      | none =>
        simp [Tables.windowsLeft, Tables.oldCap, there, kRehashSlotsPerOp] at left
      | some old => simp [rehashing, Tables.rehashing, there]
    have stepped := sound.rehashStep
    have fewer := sound.rehashStep_windows room moving
    rw [Function.iterate_succ_apply]
    exact ih stepped.sound (stepped.room 0 (Nat.zero_le 1) 0 (Nat.zero_le 1) room).1 (by omega)

theorem Capturable.sustained (ready : store.Capturable env) : Sustained env store := by
  have free : ∀ side table, store.tables.table side = some table → Slot.empty ∈ table.slots := by
    intro side table there
    refine (Tables.WellFormed.table ready.sound there).free_iff.mp ?_
    cases side with
    | cur =>
      cases there
      have bound := ready.room.cur
      simp only [Tables.load] at bound
      omega
    | old => exact ready.room.old table there
  exact ⟨free, fun side table there =>
    (Tables.WellFormed.table ready.sound there).walk_stops (free side table there), ready.moved,
    _, Sound.rehash_completes _ ready.sound ready.room rfl⟩

/-- Every call keeps the room, an insert under its condition. -/
theorem Capturable.call (ready : store.Capturable env) {call : Call} (listed : call ≠ .clear)
    (gate : ∀ object, call = .insert object → store.rehashing = true
      → store.snapshot.active = false → store.content env object.key ≠ none
        ∨ store.tables.Roomy 0 1)
    : (store.call env call).2.Capturable env := by
  have small := Nat.zero_le 1
  suffices steady : Steady env 0 store (store.call env call).2 from steady.capturable ready
  cases call with
  | insert object =>
    obtain ⟨gone, effect⟩ := ready.sound.insert object
    exact effect.steady ⟨small, ready.room, nofun, fun _ => gate object rfl⟩
  | erase key => exact (ready.sound.erase key).1.steady small
  | find key =>
    obtain ⟨gone, reaped, -⟩ := (ready.sound.find key).reaped
    exact reaped.tended.steady small
  | tryOverwrite key value => exact (ready.sound.tryOverwrite key value).2 0 small
  | setExpire key addr expireAtMs =>
    have answer := (ready.sound.find key).answer ready.records
    exact (ready.sound.setExpire key addr expireAtMs
      (fun object found => ready.sound.live_key (by rw [← answer, found]; rfl))).2 0 small
        ready.records nofun ready.room
  | persist key => exact (ready.sound.persist key).2.2.2 0 small
  | activeExpire budget =>
    obtain ⟨gone, reaped⟩ := ready.sound.activeExpire budget
    exact reaped.tended.steady small
  | clear => exact absurd rfl listed
  | rehashStep => exact ready.sound.rehashStep.steady small

theorem Capturable.step (ready : store.Capturable env) {event : ShardEvent} {next : FlatStore}
    (allowed : MergeRoom env store event) (stepped : shardStep env store event = some next)
    : next.Capturable env := by
  cases event with
  | call timed =>
    obtain ⟨tick, call⟩ := timed
    obtain ⟨listed, rfl⟩ := guard_passed stepped
    have clocked : (store.setCachedNowMs (store.cachedNowMs + tick)).Capturable env :=
      { ready with }
    refine clocked.call listed (fun object isInsert moving inactive => ?_)
    subst isInsert
    rcases allowed object rfl moving inactive with held | wide
    · exact .inl (by rw [content, Ne, Option.map_eq_none_iff]; exact held)
    · have spare : store.tables.Roomy 0 1 :=
        ⟨by simpa [Tables.load] using wide, ready.room.old⟩
      exact .inr spare
  | prepare epoch cutMs => cases stepped; exact ready.snapshotPrepare epoch cutMs
  | mark shardId cutMs => cases stepped; exact ready.snapshotMark shardId cutMs
  | prepareWrite key =>
    cases stepped
    exact (capturing_captured.snapshotPrepareWrite store _ key ready.sound).capturable ready
  | progress byteBudget slotBudget =>
    cases stepped
    exact (capturing_captured.snapshotProgress store _ _ ready.sound).capturable ready
  | takeChunk =>
    cases stepped
    have taken : Captured env store store.snapshotTakeChunk.2 := ready.sound.captured rfl rfl id
    exact taken.capturable ready
  | handoffComplete =>
    cases stepped
    exact (capturing_captured.snapshotHandoffComplete store ready.sound).capturable ready
  | cancel => cases stepped; exact ready.snapshotCancel

theorem Capturable.init (env : StoreEnv) {initialCap : Nat}
    (constructed : roundPow2 initialCap ≠ 0) (maxmemory : Maxmemory) (seed : BitVec 64)
    : (init initialCap maxmemory seed).Capturable env :=
  have ready := Ready.init env constructed maxmemory seed
  ⟨ready.sound, ready.base, ready.records, ready.granted, rfl, nofun⟩

def putByte (n : Nat) : ShardEvent :=
  .call { tick := 0, call := .insert (stringObject n [UInt8.ofNat n] []) }

/-- In every run of calls and captures whose inserts of new keys during a merge find a slot
to spare, every table keeps an empty slot, every probe loop stops, no migration step is
refused, and finitely many migration steps complete any migration.
-/
theorem sustained_of_mergeRoom (env : StoreEnv) {initialCap : Nat}
    (constructed : roundPow2 initialCap ≠ 0) (maxmemory : Maxmemory) (seed : BitVec 64)
    (events : List ShardEvent) {final : FlatStore} (each : EachStep (shardStep env) (MergeRoom env)
      (FlatStore.init initialCap maxmemory seed) events)
    (ran : run (shardStep env) (FlatStore.init initialCap maxmemory seed) events = some final)
    : Sustained env final := by
  have ready :=
    run_invariant_of_eachStep (fun _ _ _ ready => ready.step)
      (Capturable.init env constructed maxmemory seed) each ran
  exact ready.sustained

theorem sustained_of_mergeRoom_capture
    : EachStep (shardStep (.boot 0#64)) (MergeRoom (.boot 0#64)) (FlatStore.init 64 .off 1#64)
        [putByte 3, .prepare 1 0, .mark 0 0, putByte 4, .cancel, putByte 5]
      ∧ ∃ final, run (shardStep (.boot 0#64)) (FlatStore.init 64 .off 1#64)
          [putByte 3, .prepare 1 0, .mark 0 0, putByte 4, .cancel, putByte 5] = some final
        ∧ Sustained (.boot 0#64) final :=
  ⟨by decide +kernel, _, rfl, sustained_of_mergeRoom (.boot 0#64) (by decide) .off 1#64
    [putByte 3, .prepare 1 0, .mark 0 0, putByte 4, .cancel, putByte 5] (by decide +kernel) rfl⟩

/-- One key before the cut, as many new keys as a capture admits, and two more right after
it; then the migration is left to itself.
-/
def crowdedRun : List ShardEvent :=
  [putByte 3, .prepare 1 0, .mark 0 0] ++ (List.range 126).map (fun n => putByte (n + 4))
    ++ [.cancel, putByte 130, putByte 131]
    ++ List.replicate 8 (.call { tick := 0, call := .rehashStep })

/-- A migration step that changes nothing never completes the migration. -/
theorem rehashStep_stuck {stuck : Tables} (moving : stuck.old ≠ none)
    (fixed : (stuck.rehashStep env.hashKey).1 = stuck) (steps : Nat) (store : FlatStore)
    (here : store.tables = stuck)
    : ((fun store => store.rehashStep env)^[steps] store).tables.old ≠ none := by
  induction steps generalizing store with
  | zero => rw [Function.iterate_zero_apply, here]; exact moving
  | succ steps ih =>
    rw [Function.iterate_succ_apply]
    exact ih _ (by rw [rehashStep, here]; exact fixed)

/-- The crowded run, evaluated: no slot of the current table is empty, a migration step was
refused, and the next one changes nothing.
-/
theorem crowdedRun_ends
    : (run (shardStep (.boot 0#64)) (init 64 .off 1#64) crowdedRun).map (fun store =>
        (store.tables.cur.slots.all Slot.isLive, store.rehashRefused == 0,
          store.tables.old.isSome,
          decide ((store.tables.rehashStep (hashKeyMix 0#64)).1 = store.tables)))
      = some (true, false, true, true) := by
  decide +kernel

/-- Without the spare slot a merge runs full: probes find no empty slot, migration steps are
refused, and no number of them completes the migration.
-/
theorem merge_runs_full
    : roundPow2 64 ≠ 0
      ∧ ∃ final, run (shardStep (.boot 0#64)) (FlatStore.init 64 .off 1#64) crowdedRun = some final
        ∧ Slot.empty ∉ final.tables.cur.slots ∧ final.rehashRefused ≠ 0
        ∧ (∀ steps, ((fun store => store.rehashStep (.boot 0#64))^[steps] final).tables.old ≠ none)
        ∧ ¬ Sustained (.boot 0#64) final := by
  refine ⟨by decide, ?_⟩
  obtain ⟨final, ran, facts⟩ := Option.map_eq_some_iff.mp crowdedRun_ends
  simp only [Prod.mk.injEq, List.all_eq_true, beq_eq_false_iff_ne, decide_eq_true_eq] at facts
  obtain ⟨full, refused, moving, fixed⟩ := facts
  have occupied : Slot.empty ∉ final.tables.cur.slots := fun free => by
    cases full _ free
  exact ⟨final, ran, occupied, refused,
    fun steps => rehashStep_stuck (by simpa [Option.isSome_iff_ne_none] using moving) fixed steps
      final rfl,
    fun sustained => occupied (sustained.free .cur _ rfl)⟩

end FlatStore

end Thredis.Store
