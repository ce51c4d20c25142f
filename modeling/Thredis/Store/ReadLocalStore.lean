import Thredis.Store.FlatSnapshot

/-! The store of one shard, armed for foreign readers: published objects are immutable and
leave through a retire sink, every resize reserves the record its completion hands over, and
lazy expiry waits for room in the sink.
-/

namespace Thredis.Store

/-- A `FlatStore` with `read_local_enabled_` on. `resizeRetirement` is the reserved record of
`ReadLocalStoreState`, `deferResize` whether the sink has that callback, `available` the
sink's coming answers. `retired` and `retiredTables` count what went to the sink; `aborted` is
set where the source calls `std::abort`.
-/
structure ReadLocalStore where
  base : FlatStore
  resizeRetirement : Bool
  deferResize : Bool
  available : Allocations
  retired : List KvObj
  retiredTables : Nat
  aborted : Bool
  deriving DecidableEq, Repr

namespace ReadLocalStore

variable (env : StoreEnv)

/-- A freshly constructed store, armed: `prepare_read_local` reserves the first record. -/
def init (initialCap : Nat) (maxmemory : Maxmemory) (seed : BitVec 64) (deferResize : Bool)
    : ReadLocalStore :=
  { base := .init initialCap maxmemory seed, resizeRetirement := true, deferResize := deferResize
    available := [], retired := [], retiredTables := 0, aborted := false }

variable (store : ReadLocalStore)

def withBase (base : FlatStore) : ReadLocalStore :=
  { store with base := base }

def readRetirementAvailable : Bool × ReadLocalStore :=
  let answered := drawAllocation store.available
  (answered.1, { store with available := answered.2 })

/-- `retire_obj_read_local`: the bytes leave the account, the object goes to the sink. -/
def retireObj (object : KvObj) : ReadLocalStore :=
  { store with
    base := { store.base with
      ledger := { store.base.ledger with
        objBytes := store.base.ledger.objBytes - kvobjSize object } }
    retired := store.retired ++ [object] }

variable (h : BitVec 64)

/-- `insert_into_read_local` on the current table: the bytes of the object are charged also
when it only moves.
-/
def insertInto (object : KvObj) (trackExpire : Bool)
    : Option ReadLocalStore :=
  (store.base.tables.insertCur h object).map (fun placed =>
    let expired := trackExpire
      && placed.1.any (fun (current : KvObj) => current.deadlineElapsed store.base.cachedNowMs)
    let written := store.withBase ({ store.base with tables := placed.2 }.countExpired expired)
    let tracked :=
      if trackExpire then written.withBase (written.base.trackExpire h object) else written
    let retired := placed.1.elim tracked tracked.retireObj
    retired.withBase { retired.base with ledger := retired.base.ledger.charge object })

def eraseIn (side : Side) (h : BitVec 64) (key : Slice)
    : Option (KvObj × ReadLocalStore) :=
  (store.base.tables.eraseIn side h key).map (fun erased =>
    (erased.1,
      (store.withBase { store.base.untrackExpire h with tables := erased.2 }).retireObj erased.1))

def prepareResizeRetirement : Bool × ReadLocalStore :=
  if store.resizeRetirement then (true, store)
  else
    match drawAllocation store.base.allocations with
    | (granted, rest) =>
      (granted, { store.withBase { store.base with allocations := rest } with
                  resizeRetirement := granted })

/-- `start_rehash_read_local`: the table, then the record of its completion. -/
def startRehash (newcap : Nat) : Bool × ReadLocalStore :=
  if store.base.rehashing then (true, store)
  else
    match drawAllocation store.base.allocations with
    | (false, rest) => (false, store.withBase { store.base with allocations := rest })
    | (true, rest) =>
      match (store.withBase { store.base with allocations := rest }).prepareResizeRetirement with
      | (false, store) => (false, store)
      | (true, store) =>
        (true, store.withBase { store.base with
          tables := store.base.tables.demote newcap
          counters := { store.base.counters with
            rehashes := store.base.counters.rehashes + 1 } })

/-- The migration loop: the object is published in the current table before its old slot is
withdrawn, and the charge of the insert is taken back.
-/
def moveSlots : Nat → ReadLocalStore → ReadLocalStore × Bool
  | 0, store => (store, false)
  | count + 1, store =>
    match store.base.tables.old with
    | none => (store, false)
    | some old =>
      match old.slots[store.base.tables.rehashPos]? with
      | some (.live word) =>
        match store.insertInto (env.hashKey word.obj.key) word.obj false with
        | none => (store, true)
        | some placed =>
          moveSlots count (placed.withBase { placed.base with
            tables := { placed.base.tables with
              old := some (old.kill store.base.tables.rehashPos)
              rehashPos := store.base.tables.rehashPos + 1 }
            ledger := { placed.base.ledger with
              objBytes := placed.base.ledger.objBytes - kvobjSize word.obj } })
      | _ =>
        moveSlots count (store.withBase { store.base with
          tables := { store.base.tables with
            rehashPos := store.base.tables.rehashPos + 1 } })

/-- The end of a migration: the drained table goes to the sink with the reserved record. A
sink that defers resizes needs one.
-/
def finishRehash : ReadLocalStore :=
  if store.base.tables.oldCap ≤ store.base.tables.rehashPos then
    { store.withBase { store.base with
        tables := { store.base.tables with old := none, rehashPos := 0 } } with
      resizeRetirement := store.resizeRetirement && !store.deferResize
      retiredTables := store.retiredTables + 1
      aborted := store.aborted || store.deferResize && !store.resizeRetirement }
  else store

def rehashStep : ReadLocalStore :=
  let tables := store.base.tables
  let count := min (tables.rehashPos + kRehashSlotsPerOp) tables.oldCap - tables.rehashPos
  match store.moveSlots env count with
  | (moved, true) =>
    moved.withBase { moved.base with rehashRefused := moved.base.rehashRefused + 1 }
  | (moved, false) => moved.finishRehash

def maybeStartGrow : Bool × ReadLocalStore :=
  let cur := store.base.tables.cur
  if (cur.live + cur.tombs + 1) * 100 < cur.cap * kLoadPct then (true, store)
  else if store.base.snapshot.prepared then (true, store)
  else if kUInt32Max < FlatStore.growCap cur then (false, store)
  else store.startRehash (FlatStore.growCap cur)

def maybeStartShrink : ReadLocalStore :=
  let cur := store.base.tables.cur
  if store.base.rehashing || decide (cur.cap ≤ kMinCap) then store
  else if cur.cap * kLoadPct < cur.live * 400 then store
  else if store.base.snapshot.prepared then store
  else (store.startRehash (cur.cap / 2)).2

def eraseDone (now : Int) (erased : KvObj × ReadLocalStore) : Bool × ReadLocalStore :=
  let expired := erased.1.deadlineElapsed now
  let shrunk := erased.2.maybeStartShrink
  (!expired, shrunk.withBase (shrunk.base.countExpired expired))

def erase (key : Slice) : Bool × ReadLocalStore :=
  let store :=
    if store.base.rehashing && !store.base.snapshot.active then store.rehashStep env else store
  match store.eraseIn .cur h key with
  | some erased => eraseDone store.base.cachedNowMs erased
  | none =>
    match store.eraseIn .old h key with
    | some erased => eraseDone store.base.cachedNowMs erased
    | none => (false, store)

def makeRoomLoop (protectedKey : Slice) (incomingBytes : Nat) (budget : Nat)
    (store : ReadLocalStore) : Bool × ReadLocalStore :=
  FlatStore.Evictor.loop env { base := base, withBase := withBase
                               erase := fun store key => store.erase env (env.hashKey key) key }
    protectedKey (FlatStore.projectedBytes env · protectedKey incomingBytes) budget store

def makeRoomFor (protectedKey : Slice) (incomingBytes : Nat)
    : Bool × ReadLocalStore :=
  if store.base.snapshot.active then (true, store)
  else if store.base.projectedBytes env protectedKey incomingBytes
      ≤ store.base.maxmemory.limit then (true, store)
  else if store.base.maxmemory.policy = .noEviction then (false, store)
  else makeRoomLoop env protectedKey incomingBytes kEvictionsPerOp store

/-- `live_or_expire`: a dead object stays resident while the sink has no room for it. -/
def liveOrExpire (side : Side) (h : BitVec 64) (key : Slice) (object : KvObj)
    : Option KvObj × ReadLocalStore :=
  if !object.deadlineElapsed store.base.cachedNowMs then (some object, store)
  else if store.base.snapshot.active && side == .old then (none, store)
  else
    match store.readRetirementAvailable with
    | (false, store) => (none, store)
    | (true, store) =>
      let logged := store.withBase (store.base.recordDelete key)
      let erased := ((logged.eraseIn side h key).map (fun erased => erased.2)).getD logged
      (none, erased.withBase (erased.base.countExpired true))

def lookupIn (side : Side) (h : BitVec 64) (key : Slice)
    : Option KvObj × ReadLocalStore :=
  match store.base.tables.findIn side h key with
  | some object => store.liveOrExpire side h key object
  | none => (none, store)

def lookup (key : Slice)
    : Option KvObj × ReadLocalStore :=
  match store.lookupIn .cur h key with
  | (some object, store) => (some object, store)
  | (none, store) => store.lookupIn .old h key

def findValue (key : Slice)
    : Option KvObj × ReadLocalStore :=
  if store.base.atomics.entries.isEmpty then store.lookup h key
  else (store.base.atomicResolve env h key store.base.atomics.readEpoch, store)

def find (key : Slice)
    : Option KvObj × ReadLocalStore :=
  match store.findValue env h key with
  | (none, store) => (none, store)
  | (some object, store) =>
    if store.base.maxmemory.enabled && !store.base.noTouch then
      let touched := store.base.touch h key object
      (some touched.1, store.withBase touched.2)
    else (some object, store)

def insertResize : Bool × ReadLocalStore :=
  if store.base.rehashing then
    if store.base.snapshot.active then (true, store) else (true, store.rehashStep env)
  else store.maybeStartGrow

def admitObject (object : KvObj) : Option KvObj × ReadLocalStore :=
  if store.base.maxmemory.enabled && !store.base.snapshot.active then
    match store.makeRoomFor env object.key (kvobjSize object) with
    | (false, store) => (none, store)
    | (true, store) =>
      (some (if object.evictionMeta = 0 then store.base.initializeMeta object else object), store)
  else (some object, store)

def clearOld (key : Slice) : ReadLocalStore :=
  match store.eraseIn .old h key with
  | some (old, erased) =>
    erased.withBase (erased.base.countExpired (old.deadlineElapsed store.base.cachedNowMs))
  | none => store

def publish (object : KvObj)
    : InsertResult × ReadLocalStore :=
  match (store.clearOld h object.key).insertInto h object true with
  | some published => (.inserted, published)
  | none => (.failed, store.clearOld h object.key)

def insert (object : KvObj)
    : InsertResult × ReadLocalStore :=
  let capturing := store.base.capturing
  match store.insertResize env with
  | (false, store) => (.failed, store)
  | (true, store) =>
    if store.base.preparedFull h object.key then (.failed, store)
    else if capturing && store.base.captureFull h object.key then (.failed, store)
    else
      match store.admitObject env object with
      | (none, store) => (.maxmemoryOom, store)
      | (some object, store) => store.publish h object

def rewriteExpire (old : KvObj) (addr : Nat) (expireAtMs : Int)
    : TtlResult × ReadLocalStore :=
  match drawAllocation store.base.allocations with
  | (false, rest) => (.oom, store.withBase { store.base with allocations := rest })
  | (true, rest) =>
    let fresh := kvobjReheader old addr expireAtMs
    let replacement :=
      if store.base.maxmemory.enabled then fresh.setEvictionMeta old.evictionMeta else fresh
    let stored := (store.withBase { store.base with allocations := rest }).insert env h replacement
    (stored.1.report, stored.2)

/-- `set_expire_read_local`: a published object is never changed in place. -/
def setExpire (key : Slice) (addr : Nat) (expireAtMs : Int)
    : TtlResult × ReadLocalStore :=
  match store.find env h key with
  | (none, store) => (.missing, store)
  | (some old, store) => store.rewriteExpire env h old addr expireAtMs

def persist (key : Slice) (addr : Nat)
    : TtlResult × ReadLocalStore :=
  match store.find env h key with
  | (none, store) => (.missing, store)
  | (some old, store) =>
    if old.deadline < 0 then (.noChange, store)
    else store.rewriteExpire env h old addr kNoTtlDeadline

def expireVisit : Nat × ReadLocalStore :=
  match store.base.findHash env h with
  | none => (0, store.withBase (store.base.untrackExpire h))
  | some object =>
    if !object.hasTtlSlot then (0, store.withBase (store.base.untrackExpire h))
    else if store.base.atomicHasRecord h object.key then (0, store)
    else if object.deadline < 0 then (0, store.withBase (store.base.untrackExpire h))
    else if store.base.cachedNowMs < object.deadline then (0, store)
    else
      match store.readRetirementAvailable with
      | (false, store) => (1, store)
      | (true, store) =>
        let logged := store.withBase (store.base.recordDelete object.key)
        let erased := (logged.eraseIn .cur h object.key).or (logged.eraseIn .old h object.key)
        match erased with
        | none => (0, logged)
        | some (_, erased) =>
          (1, erased.withBase
            ((erased.base.noteActiveExpireReap object.deadline).countExpired true))

def expireLoop : Nat → Nat → ReadLocalStore → Nat × ReadLocalStore
  | 0, removed, store => (removed, store)
  | budget + 1, removed, store =>
    match store.base.expires.sampleNext with
    | none => (removed, store)
    | some (none, index) =>
      expireLoop budget removed (store.withBase { store.base with expires := index })
    | some (some h, index) =>
      let visited := (store.withBase { store.base with expires := index }).expireVisit env h
      expireLoop budget (removed + visited.1) visited.2

def activeExpire (budget : Nat) : Nat × ReadLocalStore :=
  if store.base.snapshot.active then (0, store)
  else
    let resizing := store.base.rehashing
    let stepped := if resizing then store.rehashStep env else store
    let moved :=
      if stepped.base.expires.migrating then
        stepped.withBase { stepped.base with
          expires := ExpireIndex.migrate ExpireIndex.kMigrateSlotsPerOp stepped.base.expires }
      else stepped
    let swept := expireLoop env budget resizing.toNat moved
    (swept.1 + swept.2.base.expires.migrating.toNat, swept.2)

/-- `clear_read_local`: the reserved record goes with the tables. -/
def clear : ReadLocalStore :=
  let drawn := drawAllocation store.base.allocations
  let fresh := if drawn.1 then Table.fresh 1024 else Table.fresh store.base.tables.cur.cap
  let emptied := store.base.tables.objects.foldl retireObj store
  { emptied.withBase { emptied.base with
      tables := { cur := fresh, old := none, rehashPos := 0 }
      expires := store.base.expires.clear
      allocations := drawn.2 } with
    resizeRetirement := false
    retiredTables := store.retiredTables + drawn.1.toNat + store.base.rehashing.toNat }

end ReadLocalStore

end Thredis.Store
