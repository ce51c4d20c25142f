import Thredis.Store.ResizeRecords

/-! Runs of the owner of an armed shard: as long as a group's capacity and the cut of a
snapshot find a reserved record where they put a second table up, every migration has one.
-/

namespace Thredis.Store
open Thredis.Lib FlatStore

namespace ReadLocalStore

variable {env : StoreEnv} {store next : ReadLocalStore}

section

variable (reserved : store.Reserved) (h : BitVec 64)

include reserved

/-- Publishing an object puts up no table. -/
theorem Reserved.publish (object : KvObj)
    : (store.publish h object).2.Reserved := by
  have cleared : (store.clearOld h object.key).Reserved := by
    rw [ReadLocalStore.clearOld]
    split
    · rename_i old erased found
      exact (reserved.eraseIn found).withBase rfl
    · exact reserved
  rw [ReadLocalStore.publish]
  split
  · rename_i published inserted
    exact cleared.insertInto inserted
  · exact cleared

theorem Reserved.insert (object : KvObj)
    : (store.insert env h object).2.Reserved := by
  have resized : (store.insertResize env).2.Reserved := (tends_insertResize store).reserved reserved
  simp only [ReadLocalStore.insert]
  split
  · rename_i next refused
    rw [refused] at resized
    exact resized
  · rename_i next ready
    rw [ready] at resized
    split
    · exact resized
    · split
      · exact resized
      · have admitted : (next.admitObject env object).2.Reserved :=
          (tends_admitObject next object).1.reserved resized
        split
        · rename_i last refused
          rw [refused] at admitted
          exact admitted
        · rename_i given last granted
          rw [granted] at admitted
          exact admitted.publish h given

theorem Reserved.rewriteExpire (old : KvObj) (addr : Nat) (expireAtMs : Int)
    : (store.rewriteExpire env h old addr expireAtMs).2.Reserved := by
  rw [ReadLocalStore.rewriteExpire]
  split
  · exact reserved.withBase rfl
  · rename_i rest granted
    have drawn : (store.withBase { store.base with allocations := rest }).Reserved :=
      reserved.withBase rfl
    exact drawn.insert h _

end

/-- By induction over the steps. -/
theorem Reserved.rehashSteps (steps : Nat) (reserved : store.Reserved)
    : (store.rehashSteps env steps).Reserved := by
  induction steps generalizing store with
  | zero => exact reserved
  | succ steps ih =>
    rw [rehashSteps]
    split
    · rename_i moving
      exact ih (reserved.rehashStep moving)
    · exact reserved

section

variable (reserved : store.Reserved)

include reserved

theorem Reserved.beforeCapacity (additional : Nat)
    : (store.beforeCapacity env additional).Reserved := by
  rw [ReadLocalStore.beforeCapacity]
  split
  · exact reserved.rehashSteps (additional + 1)
  · exact reserved

/-- A group's capacity keeps the reservation if it finds a record where it installs a table. -/
theorem Reserved.atomicPrepareCapacity {additional : Nat}
    (covered : (store.beforeCapacity env additional).capacityWanted additional ≠ none
      → (store.beforeCapacity env additional).resizeRetirement = true)
    : (store.atomicPrepareCapacity env additional).2.Reserved := by
  have ready : (store.beforeCapacity env additional).Reserved := reserved.beforeCapacity additional
  rw [ReadLocalStore.atomicPrepareCapacity]
  split
  · exact ready
  · rename_i wanted starts
    split
    · exact ready.withBase rfl
    · exact { ready with record := fun _ => covered (by rw [starts]; exact Option.some_ne_none _) }

/-- The record of the merge is reserved before the capture is prepared. -/
theorem Reserved.snapshotPrepare (epoch : Nat) (cutMs : Int)
    : (store.snapshotPrepare env epoch cutMs).2.Reserved := by
  rw [ReadLocalStore.snapshotPrepare]
  split
  · exact reserved
  · split
    · rename_i moving
      exact reserved.rehashStep moving
    · rename_i still
      split
      · exact reserved
      · obtain ⟨asked, -⟩ := reserved.prepareResizeRetirement
        split
        · rename_i next refused
          rw [refused] at asked
          exact asked
        · rename_i next given
          have idle : next.base.rehashing ≠ true := by
            obtain ⟨rest, base⟩ := prepareResizeRetirement_base store
            rw [given] at base
            have same : next.base.rehashing = store.base.rehashing := by
              rw [show next.base = _ from base]
              rfl
            rw [same]
            exact still
          rw [given] at asked
          exact asked.withBase (snapshotPrepare_rehashing idle epoch cutMs)

/-- The cut keeps the reservation if it finds a record where it swaps the tables. -/
theorem Reserved.snapshotMark {shardId cutMs : Int}
    (covered : store.base.snapshot.prepared = true → store.resizeRetirement = true)
    : (store.withBase (store.base.snapshotMark shardId cutMs).2).Reserved := by
  rw [FlatStore.snapshotMark]
  split
  · exact reserved.withBase rfl
  · split
    · exact reserved.withBase rfl
    · rename_i ready
      simp only [Bool.or_eq_true, Bool.not_eq_true', not_or, Bool.not_eq_false] at ready
      exact { reserved with record := fun _ => covered ready.1.1 }

end

theorem foldl_retireObj (objects : List KvObj) (store : ReadLocalStore)
    : (objects.foldl retireObj store).base.rehashing = store.base.rehashing
      ∧ (store.Reserved → (objects.foldl retireObj store).Reserved)
      ∧ (objects.foldl retireObj store).deferResize = store.deferResize
      ∧ (objects.foldl retireObj store).aborted = store.aborted := by
  induction objects generalizing store with
  | nil => exact ⟨rfl, id, rfl, rfl⟩
  | cons object rest ih =>
    obtain ⟨same, kept, sink, running⟩ := ih (store.retireObj object)
    exact ⟨same, fun reserved => kept (reserved.retireObj object), sink, running⟩

section

variable (reserved : store.Reserved)

include reserved

/-- Without a second table none is needed. -/
theorem Reserved.clear : store.clear.Reserved := by
  obtain ⟨-, -, sink, running⟩ := foldl_retireObj store.base.tables.objects store
  exact ⟨sink.trans reserved.sink, nofun, running.trans reserved.running⟩

theorem Reserved.clearDuringSnapshot
    : store.clearDuringSnapshot.Reserved := by
  obtain ⟨same, kept, -, -⟩ := foldl_retireObj store.base.tables.objects store
  refine (kept reserved).withBase (Eq.trans ?_ same.symm)
  simp [FlatStore.rehashing, Tables.rehashing, FlatStore.clearDuringSnapshot]

-- Runs

/-- By the calls of the owner. -/
theorem Reserved.account {call : LedgerCall} (listed : call ≠ .rehashStep)
    (called : store.account env call = some next)
    : next.Reserved := by
  cases call with
  | insert object =>
    cases called
    exact reserved.insert _ object
  | tryOverwrite key value =>
    cases called
    exact reserved
  | erase key =>
    cases called
    exact (tends_erase store key).reserved reserved
  | find key =>
    cases called
    exact (tends_find store key).reserved reserved
  | setExpire key addr expireAtMs =>
    have found : (store.find env (env.hashKey key) key).2.Reserved :=
      (tends_find store key).reserved reserved
    cases called
    rw [setExpire]
    split
    · rename_i after missed
      rw [missed] at found
      exact found
    · rename_i old after hit
      rw [hit] at found
      exact found.rewriteExpire _ old addr expireAtMs
  | persist key addr =>
    have found : (store.find env (env.hashKey key) key).2.Reserved :=
      (tends_find store key).reserved reserved
    cases called
    rw [persist]
    split
    · rename_i after missed
      rw [missed] at found
      exact found
    · rename_i old after hit
      rw [hit] at found
      split
      · exact found
      · exact found.rewriteExpire _ old addr kNoTtlDeadline
  | activeExpire budget =>
    cases called
    exact (tends_activeExpire store budget).reserved reserved
  | rehashStep => exact absurd rfl listed
  | clear =>
    cases called
    exact reserved.clear
  | exchangeIn object | exchangeOut key =>
    obtain ⟨exchanged, placed, rfl⟩ := Option.map_eq_some_iff.mp called
    obtain ⟨result, swapped, rfl⟩ := Option.map_eq_some_iff.mp placed
    exact reserved.withBase (atomicExchangePhysical_rehashing swapped)
  | outside settings available =>
    cases called
    have settled : (store.withBase (store.base.resettle settings)).Reserved := reserved.withBase rfl
    exact { settled with }

/-- The two steps that put a second table up without asking for a record find one reserved:
a group's capacity where it is about to install its table, and the cut of a prepared capture.
-/
def RecordAtHand (env : StoreEnv) (store : ReadLocalStore) : ReadLocalEvent → Prop
  | .atomicPrepareCapacity additional =>
    (store.beforeCapacity env additional).capacityWanted additional ≠ none
    → (store.beforeCapacity env additional).resizeRetirement = true
  | .snapshotMark _ _ => store.base.snapshot.prepared = true → store.resizeRetirement = true
  | _ => True

instance (env : StoreEnv) (store : ReadLocalStore) (event : ReadLocalEvent)
    : Decidable (store.RecordAtHand env event) := by
  cases event <;> unfold RecordAtHand <;> infer_instance

/-- By the events; a table that goes up without asking finds its record at hand. -/
theorem Reserved.serve {event : ReadLocalEvent} (atHand : store.RecordAtHand env event)
    (served : store.serve env event = some next) : next.Reserved := by
  cases event with
  | call call =>
    by_cases step : call = .rehashStep
    · subst step
      obtain ⟨moving, rfl⟩ := guard_taken served
      exact reserved.rehashStep moving
    · have called : store.account env call = some next := by
        cases call with
        | rehashStep => exact absurd rfl step
        | _ => exact served
      exact reserved.account step called
  | clearDuringSnapshot =>
    cases served
    exact reserved.clearDuringSnapshot
  | atomicPrepareCapacity additional =>
    cases served
    exact reserved.atomicPrepareCapacity atHand
  | snapshotPrepare epoch cutMs =>
    cases served
    exact reserved.snapshotPrepare epoch cutMs
  | snapshotMark shardId cutMs =>
    cases served
    exact reserved.snapshotMark atHand
  | snapshotPrepareWrite key =>
    cases served
    exact reserved.withBase (capturing_rehashing.snapshotPrepareWrite _ _ _)
  | snapshotProgress byteBudget slotBudget =>
    cases served
    exact reserved.withBase (capturing_rehashing.snapshotProgress _ _ _)
  | snapshotTakeChunk =>
    cases served
    exact reserved.withBase rfl
  | snapshotHandoffComplete =>
    cases served
    exact reserved.withBase (capturing_rehashing.snapshotHandoffComplete _)
  | snapshotCancel =>
    cases served
    exact reserved.withBase rfl
  | rebindRetireSink available =>
    cases served
    exact { reserved with }

end

/-- From arming on, in every run whose group capacities and cuts find a record where they put
a second table up, a migrating store has its record reserved and the abort is not reached.
-/
theorem record_reserved_in_every_run (env : StoreEnv) (initialCap : Nat) (maxmemory : Maxmemory)
    (seed : BitVec 64) (events : List ReadLocalEvent) (store : ReadLocalStore)
    (atHand : EachStep (ReadLocalStore.serve env) (RecordAtHand env)
      (ReadLocalStore.init initialCap maxmemory seed true) events)
    (ran : run (ReadLocalStore.serve env) (ReadLocalStore.init initialCap maxmemory seed true)
      events = some store)
    : (store.base.rehashing = true → store.resizeRetirement = true) ∧ store.aborted = false := by
  have start : (ReadLocalStore.init initialCap maxmemory seed true).Reserved := ⟨rfl, nofun, rfl⟩
  have kept : ∀ (state : ReadLocalStore) (event : ReadLocalEvent) (next : ReadLocalStore),
      state.Reserved → state.RecordAtHand env event → state.serve env event = some next
      → next.Reserved :=
    fun _ _ _ reserved allowed served => reserved.serve allowed served
  have final := run_invariant_of_eachStep kept start atHand ran
  exact ⟨final.record, final.running⟩

/-- A capture of an empty shard, up to the completion of its handoff. -/
def emptyCapture : List ReadLocalEvent :=
  [.snapshotPrepare 1 0, .snapshotMark 0 0, .snapshotProgress 4096 4096, .snapshotTakeChunk,
    .snapshotHandoffComplete]

theorem record_reserved_after_empty_capture
    : ∃ store, run (ReadLocalStore.serve (.boot 0#64)) (ReadLocalStore.init 64 .off 1#64 true)
        emptyCapture = some store
      ∧ store.base.rehashing = true
      ∧ (store.base.rehashing = true → store.resizeRetirement = true)
      ∧ store.aborted = false := by
  refine ⟨_, rfl, by decide +kernel, ?_⟩
  exact record_reserved_in_every_run (.boot 0#64) 64 .off 1#64 emptyCapture _
    (by decide +kernel) rfl

/-- The table a first group asks for uses the record up when its migration ends; the table of a
second, larger group has none.
-/
def twoGroupCapacities : List ReadLocalEvent :=
  [ReadLocalEvent.atomicPrepareCapacity 45] ++ List.replicate 8 (ReadLocalEvent.call .rehashStep)
    ++ [ReadLocalEvent.atomicPrepareCapacity 90]
    ++ List.replicate 16 (ReadLocalEvent.call .rehashStep)

theorem second_group_capacity_aborts
    : (run (ReadLocalStore.serve (.boot 0#64)) (ReadLocalStore.init 64 .off 1#64 true)
        twoGroupCapacities).map ReadLocalStore.aborted = some true := by
  decide +kernel

end ReadLocalStore

end Thredis.Store
