import Thredis.Store.AtomicMvcc
import Thredis.Store.ExpireIndex
import Thredis.Store.FlatTables

/-! The store of one shard, unarmed: its state, the bookkeeping around the two tables, the
start of a resize and the erase every deletion goes through.
-/

namespace Thredis.Store

-- State

inductive MaxmemoryPolicy where
  | noEviction | allKeysRandom | allKeysLru | allKeysLfu
  | volatileRandom | volatileLru | volatileLfu | volatileTtl
  deriving DecidableEq, Repr

def MaxmemoryPolicy.isLru : MaxmemoryPolicy → Bool
  | .allKeysLru | .volatileLru => true
  | _ => false

def MaxmemoryPolicy.isLfu : MaxmemoryPolicy → Bool
  | .allKeysLfu | .volatileLfu => true
  | _ => false

def MaxmemoryPolicy.isVolatile : MaxmemoryPolicy → Bool
  | .volatileRandom | .volatileLru | .volatileLfu | .volatileTtl => true
  | _ => false

/-- `maxmemory_enabled_`, `maxmemory_limit_`, `maxmemory_policy_` and `maxmemory_samples_`. -/
structure Maxmemory where
  enabled : Bool
  limit : Nat
  policy : MaxmemoryPolicy
  samples : Nat
  deriving DecidableEq, Repr

def Maxmemory.off : Maxmemory :=
  { enabled := false, limit := 0, policy := .noEviction, samples := 5 }

/-- An outstanding read of an object's bytes by an io thread, by the object's address; a
removed object stays here until the read ends.
-/
structure Borrow where
  ptr : Nat
  refs : Nat
  retired : Option KvObj
  deriving DecidableEq, Repr

structure Ledger where
  objBytes : Nat
  pendingBytes : Nat
  borrows : List Borrow
  deriving DecidableEq, Repr

structure Sampler where
  randomState : BitVec 64
  cursor : Nat
  deriving DecidableEq, Repr

structure Counters where
  expired : Nat
  evicted : Nat
  rehashes : Nat
  reapLagMax : Nat
  deriving DecidableEq, Repr

structure SnapshotChunk where
  sid : Int
  sequence : Nat
  flags : Nat
  bytes : List UInt8
  deriving DecidableEq, Repr

/-- `snapshot_record_` while active: what is left of the record's bytes to emit. -/
structure SnapshotRecordState where
  preimage : Bool
  slot : Nat
  rest : List UInt8
  deriving DecidableEq, Repr

/-- The capture of a snapshot; `newCap` is the capacity of `snapshot_new_tab_`, if any. -/
structure SnapshotState where
  prepared : Bool
  active : Bool
  failed : Bool
  finished : Bool
  newCap : Option Nat
  epoch : Nat
  cutMs : Int
  shardId : Int
  pos : Nat
  sequence : Nat
  build : Option SnapshotChunk
  ready : Option SnapshotChunk
  record : Option SnapshotRecordState
  preimages : Nat
  deriving DecidableEq, Repr

def SnapshotState.idle : SnapshotState :=
  { prepared := false, active := false, failed := false, finished := false, newCap := none
    epoch := 0, cutMs := 0, shardId := -1, pos := 0, sequence := 0, build := none, ready := none
    record := none, preimages := 0 }

/-- The pending records and script intents of the shard, and the cut the owner reads at. -/
structure AtomicPending where
  entries : List AtomicEntry
  scriptIntents : List (BitVec 64 × Slice)
  readEpoch : Nat
  readOriginConnId : Nat
  versionBytes : Nat
  gaugeUnderflows : Nat
  cleanupFast : Nat
  cleanupSlow : Nat
  promotions : Nat
  recordsFreed : Nat
  deriving DecidableEq, Repr

def AtomicPending.idle : AtomicPending :=
  { entries := [], scriptIntents := [], readEpoch := 0, readOriginConnId := 0, versionBytes := 0
    gaugeUnderflows := 0, cleanupFast := 0, cleanupSlow := 0, promotions := 0, recordsFreed := 0 }

/-- What the store reads but does not own: the key hash chosen at boot, the decision words of
the groups, and the payload `begin_save` and `read_save` produce for an object (`none` when
the type's hook refuses).
-/
structure StoreEnv where
  hashKey : Slice → BitVec 64
  words : DecisionWords
  snapshotImage : KvObj → Option (UInt8 × List UInt8)

def StoreEnv.boot (seed : BitVec 64) : StoreEnv :=
  { hashKey := hashKeyMix seed
    words := fun _ => { epoch := 0, aborted := false }
    snapshotImage := fun object => if object.type = .string then some (0, object.value) else none }

/-- A `FlatStore` with `read_local_enabled_` off. `deletes` is the log `aof_.record_delete`
appends to, `allocations` the allocator's coming answers. `rehashRefused` and `expireRefused`
are not in the source: they count the early returns of `rehash_step` and the deadlines the
expire index did not take.
-/
structure FlatStore where
  tables : Tables
  ledger : Ledger
  expires : ExpireIndex
  cachedNowMs : Int
  cachedLruClock : Nat
  noTouch : Bool
  maxmemory : Maxmemory
  sampler : Sampler
  counters : Counters
  deletes : List Slice
  snapshot : SnapshotState
  atomics : AtomicPending
  allocations : Allocations
  rehashRefused : Nat
  expireRefused : Nat
  deriving DecidableEq, Repr

/-- `round_pow2` on the loop's remaining doublings; zero when the result does not fit. -/
def roundPow2From : Nat → Nat → Nat → Nat
  | 0, _, _ => 0
  | steps + 1, p, v =>
    if v ≤ p then p
    else if kUInt32Max < p * 2 then 0
    else roundPow2From steps (p * 2) v

def roundPow2 (v : Nat) : Nat := roundPow2From 32 kMinCap v

def kSlotOverheadPerKey : Nat := 12

def kSizeMax : Nat := 2 ^ 64 - 1

def FlatStore.init (initialCap : Nat) (maxmemory : Maxmemory) (seed : BitVec 64) : FlatStore :=
  { tables := { cur := .fresh (roundPow2 initialCap), old := none, rehashPos := 0 }
    ledger := { objBytes := 0, pendingBytes := 0, borrows := [] }
    expires := .init
    cachedNowMs := 0, cachedLruClock := 0, noTouch := false
    maxmemory := maxmemory
    sampler := { randomState := seed, cursor := 0 }
    counters := { expired := 0, evicted := 0, rehashes := 0, reapLagMax := 0 }
    deletes := []
    snapshot := .idle
    atomics := .idle
    allocations := []
    rehashRefused := 0
    expireRefused := 0 }

/-- The registry entry of an object's bytes; only string bytes are ever lent. -/
def Ledger.borrowed (ledger : Ledger) (object : KvObj) : Bool :=
  decide (object.type = .string) && decide (object.enc ≠ .int)
    && ledger.borrows.any (fun borrow => borrow.ptr == object.addr)

/-- `retire_obj`: the object's bytes leave the account; a borrowed object is retained. -/
def Ledger.retire (ledger : Ledger) (object : KvObj) : Ledger :=
  let bytes := kvobjSize object
  if ledger.borrowed object then
    { objBytes := ledger.objBytes - bytes
      pendingBytes := ledger.pendingBytes + bytes
      borrows := ledger.borrows.map (fun borrow =>
        if borrow.ptr = object.addr then { borrow with retired := some object } else borrow) }
  else { ledger with objBytes := ledger.objBytes - bytes }

def Ledger.charge (ledger : Ledger) (object : KvObj) : Ledger :=
  { ledger with objBytes := ledger.objBytes + kvobjSize object }

namespace FlatStore

variable (env : StoreEnv) (store : FlatStore)

def rehashing : Bool := store.tables.rehashing

def size : Nat := store.tables.size

def accountedBytes : Nat :=
  let objects := store.ledger.objBytes + store.atomics.versionBytes
  if (kSizeMax - objects) / kSlotOverheadPerKey < store.size then kSizeMax
  else objects + store.size * kSlotOverheadPerKey

variable (h : BitVec 64)

def untrackExpire : FlatStore :=
  { store with expires := (store.expires.erase h).2 }

/-- `track_expire`; no caller looks at its answer. -/
def trackExpire (object : KvObj) : FlatStore :=
  if 0 ≤ object.expireAtMs then
    let inserted := store.expires.insert h store.allocations
    { store with
      expires := inserted.2.1
      allocations := inserted.2.2
      expireRefused := store.expireRefused + (!inserted.1).toNat }
  else if store.expires.size = 0 then store
  else store.untrackExpire h

def countExpired (expired : Bool) : FlatStore :=
  { store with
    counters := { store.counters with expired := store.counters.expired + expired.toNat } }

def recordDelete (key : Slice) : FlatStore :=
  { store with deletes := store.deletes ++ [key] }

def atomicHasRecord (key : Slice) : Bool :=
  atomicKeyPending h key store.atomics.entries

def atomicHasScriptIntent (key : Slice) : Bool :=
  store.atomics.scriptIntents.contains (h, key)

def atomicNeedsVersion (key : Slice) : Bool :=
  store.atomicHasRecord h key || store.atomicHasScriptIntent h key

/-- `erase_in`: the removed object and the store without it. -/
def eraseIn (side : Side) (h : BitVec 64) (key : Slice)
    : Option (KvObj × FlatStore) :=
  (store.tables.eraseIn side h key).map (fun erased =>
    (erased.1, { store.untrackExpire h with
                 tables := erased.2, ledger := store.ledger.retire erased.1 }))

/-- `insert_into(0, ..)` of a newly published object: a displaced object is retired, and the
new one charged and tracked.
-/
def insertFresh (object : KvObj) : Option FlatStore :=
  (store.tables.insertCur h object).map (fun placed =>
    ({ store with
       tables := placed.2
       ledger := (placed.1.elim store.ledger store.ledger.retire).charge object }.countExpired
         (placed.1.any
           (fun (current : KvObj) => current.deadlineElapsed store.cachedNowMs))).trackExpire
      h object)

def rehashStep : FlatStore :=
  let stepped := store.tables.rehashStep env.hashKey
  { store with
    tables := stepped.1
    ledger := stepped.2.1.foldl Ledger.retire store.ledger
    rehashRefused := store.rehashRefused + stepped.2.2.toNat }

def startRehash (newcap : Nat) : Bool × FlatStore :=
  if store.rehashing then (true, store)
  else
    match drawAllocation store.allocations with
    | (false, rest) => (false, { store with allocations := rest })
    | (true, rest) =>
      (true, { store with
               tables := store.tables.demote newcap
               allocations := rest
               counters := { store.counters with rehashes := store.counters.rehashes + 1 } })

/-- The capacity a grow asks for: doubled only when the live set alone justifies it. -/
def growCap (table : Table) : Nat :=
  if table.cap * kLoadPct ≤ table.live * 200 then table.cap * 2 else table.cap

def maybeStartGrow : Bool × FlatStore :=
  let cur := store.tables.cur
  if (cur.live + cur.tombs + 1) * 100 < cur.cap * kLoadPct then (true, store)
  else if store.snapshot.prepared then (true, store)
  else if kUInt32Max < growCap cur then (false, store)
  else store.startRehash (growCap cur)

def maybeStartShrink : FlatStore :=
  let cur := store.tables.cur
  if store.rehashing || decide (cur.cap ≤ kMinCap) then store
  else if cur.cap * kLoadPct < cur.live * 400 then store
  else if store.snapshot.prepared then store
  else (store.startRehash (cur.cap / 2)).2

def eraseDone (now : Int) (erased : KvObj × FlatStore) : Bool × FlatStore :=
  let expired := erased.1.deadlineElapsed now
  (!expired, erased.2.maybeStartShrink.countExpired expired)

/-- `erase`: whether an unexpired object was removed. -/
def erase (key : Slice) : Bool × FlatStore :=
  let store := if store.rehashing && !store.snapshot.active then store.rehashStep env else store
  match store.eraseIn .cur h key with
  | some erased => eraseDone store.cachedNowMs erased
  | none =>
    match store.eraseIn .old h key with
    | some erased => eraseDone store.cachedNowMs erased
    | none => (false, store)

end FlatStore

end Thredis.Store
