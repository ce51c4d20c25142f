import Thredis.Store.LedgerRuns

/-! The entry points of an armed store that can put a second table next to the current one:
ordinary resizes, the capacity a group prepares, and the cut of a snapshot.
-/

namespace Thredis.Store

/-- The doubling loop of `atomic_prepare_capacity`, on its remaining doublings; `none` beyond
32-bit capacities.
-/
def wantedCap : Nat → Nat → Nat → Option Nat
  | 0, _, _ => none
  | steps + 1, need, wanted =>
    if need * 100 < wanted * kLoadPct then some wanted
    else if kUInt32Max < wanted * 2 then none
    else wantedCap steps need (wanted * 2)

namespace ReadLocalStore

variable (env : StoreEnv)

/-- Up to `steps` migration steps, while there is something to migrate. -/
def rehashSteps : Nat → ReadLocalStore → ReadLocalStore
  | 0, store => store
  | steps + 1, store =>
    if store.base.rehashing then rehashSteps steps (store.rehashStep env) else store

variable (store : ReadLocalStore)

variable (additional : Nat)

def beforeCapacity : ReadLocalStore :=
  if store.base.rehashing && !store.base.snapshot.active then
    store.rehashSteps env (additional + 1)
  else store

/-- The capacity of the table `atomic_prepare_capacity` installs, if it installs one. -/
def capacityWanted : Option Nat :=
  let cur := store.base.tables.cur
  if store.base.rehashing then none
  else if (cur.live + cur.tombs + additional) * 100 < cur.cap * kLoadPct then none
  else if store.base.snapshot.prepared then none
  else wantedCap 33 (cur.live + additional) cur.cap

/-- What `atomic_prepare_capacity` answers where it installs no table. -/
def capacityFits : Bool :=
  let cur := store.base.tables.cur
  if store.base.rehashing then
    decide (cur.live + cur.tombs + store.base.tables.oldLive + additional < cur.cap)
  else if (cur.live + cur.tombs + additional) * 100 < cur.cap * kLoadPct then true
  else store.base.snapshot.prepared && decide (cur.live + cur.tombs + additional < cur.cap)

def atomicPrepareCapacity : Bool × ReadLocalStore :=
  let ready := store.beforeCapacity env additional
  match ready.capacityWanted additional with
  | none => (ready.capacityFits additional, ready)
  | some wanted =>
    match drawAllocation ready.base.allocations with
    | (false, rest) => (false, ready.withBase { ready.base with allocations := rest })
    | (true, rest) =>
      (true, ready.withBase { ready.base with
        tables := { cur := .fresh wanted, old := some ready.base.tables.cur, rehashPos := 0 }
        allocations := rest })

/-- `snapshot_prepare` of an armed store: the record of the merge is reserved first. -/
def snapshotPrepare (epoch : Nat) (cutMs : Int)
    : SnapshotWriteResult × ReadLocalStore :=
  if store.base.snapshot.active then (.error, store)
  else if store.base.rehashing then (.pending, store.rehashStep env)
  else if store.base.snapshot.prepared then (.ready, store)
  else
    match store.prepareResizeRetirement with
    | (false, store) => (.error, store)
    | (true, store) =>
      let prepared := store.base.snapshotPrepare env epoch cutMs
      (prepared.1, store.withBase prepared.2)

def clearDuringSnapshot : ReadLocalStore :=
  let emptied := store.base.tables.objects.foldl retireObj store
  let wiped := store.base.clearDuringSnapshot
  emptied.withBase { emptied.base with tables := wiped.tables, expires := wiped.expires }

end ReadLocalStore

/-- What the owner of an armed shard does to its store. The flush picks its form by the
capture; `rebindRetireSink` is the handoff to another owner's sink.
-/
inductive ReadLocalEvent where
  | call (call : LedgerCall)
  | clearDuringSnapshot
  | atomicPrepareCapacity (additional : Nat)
  | snapshotPrepare (epoch : Nat) (cutMs : Int)
  | snapshotMark (shardId cutMs : Int)
  | snapshotPrepareWrite (key : Slice)
  | snapshotProgress (byteBudget slotBudget : Nat)
  | snapshotTakeChunk
  | snapshotHandoffComplete
  | snapshotCancel
  | rebindRetireSink (available : Allocations)

def ReadLocalStore.serve (env : StoreEnv) (store : ReadLocalStore)
    : ReadLocalEvent → Option ReadLocalStore
  -- every caller of `rehash_step` asks `rehashing` first
  | .call .rehashStep => if store.base.rehashing then some (store.rehashStep env) else none
  | .call call => store.account env call
  | .clearDuringSnapshot => some store.clearDuringSnapshot
  | .atomicPrepareCapacity additional => some (store.atomicPrepareCapacity env additional).2
  | .snapshotPrepare epoch cutMs => some (store.snapshotPrepare env epoch cutMs).2
  | .snapshotMark shardId cutMs =>
    some (store.withBase (store.base.snapshotMark shardId cutMs).2)
  | .snapshotPrepareWrite key =>
    some (store.withBase (store.base.snapshotPrepareWrite env (env.hashKey key) key).2)
  | .snapshotProgress byteBudget slotBudget =>
    some (store.withBase (store.base.snapshotProgress env byteBudget slotBudget))
  | .snapshotTakeChunk => some (store.withBase store.base.snapshotTakeChunk.2)
  | .snapshotHandoffComplete => some (store.withBase store.base.snapshotHandoffComplete)
  | .snapshotCancel => some (store.withBase store.base.snapshotCancel)
  | .rebindRetireSink available => some { store with available := available }

end Thredis.Store
