import Thredis.Store.FlatStore

/-! The owner's operations on the store: eviction and admission, lookups with lazy expiry,
inserts, in-place overwrites, deadlines, the active expiry cycle and the flush.
-/

namespace Thredis.Store

inductive InsertResult where
  | inserted | maxmemoryOom | failed
  deriving DecidableEq, Repr

inductive OverwriteResult where
  | updated | notPossible | maxmemoryOom
  deriving DecidableEq, Repr

inductive TtlResult where
  | missing | noChange | updated | oom | maxmemoryOom
  deriving DecidableEq, Repr

def InsertResult.report : InsertResult → TtlResult
  | .inserted => .updated
  | .maxmemoryOom => .maxmemoryOom
  | .failed => .oom

def kEvictionsPerOp : Nat := 16

def kSampleProbeAttempts : Nat := 16

/-- An object reached through the parked predecessors of a record. -/
def AtomicKey.mapParked (f : KvObj → KvObj) (occurrence : AtomicKey) : AtomicKey :=
  { occurrence with parked := occurrence.parked.map f }

def AtomicEntry.mapParked (f : KvObj → KvObj) (entry : AtomicEntry) : AtomicEntry :=
  { entry with
    keys := entry.keys.map (AtomicKey.mapParked f)
    covers := by
      intro occurrence member
      obtain ⟨source, held, rfl⟩ := List.mem_map.mp member
      exact entry.covers source held }

namespace FlatStore

variable (env : StoreEnv) (store : FlatStore)

variable (h : BitVec 64)

/-- A mutation through a pointer to `object`: the resident object of the key if the pointer
is to it, else the parked predecessors it points to.
-/
def modifyObject (key : Slice) (object : KvObj) (f : KvObj → KvObj) : FlatStore :=
  if (store.tables.resident h key).any (fun held => held.addr == object.addr) then
    { store with tables := store.tables.modify h key f }
  else
    { store with
      atomics := { store.atomics with
        entries := store.atomics.entries.map (AtomicEntry.mapParked (fun parked =>
            if parked.addr = object.addr then f parked else parked)) } }

/-- `next_random`: xorshift64*. -/
def nextRandom : BitVec 64 × FlatStore :=
  let x := store.sampler.randomState
  let x := x ^^^ (x >>> 12)
  let x := x ^^^ (x <<< 25)
  let x := x ^^^ (x >>> 27)
  (x * 2685821657736338717#64, { store with sampler := { store.sampler with randomState := x } })

variable (object : KvObj)

def initializeMeta : KvObj :=
  if store.maxmemory.policy.isLru then object.setEvictionMeta store.cachedLruClock
  else if store.maxmemory.policy.isLfu then object.setEvictionMeta 5
  else object

/-- The access count an LFU touch leaves, and whether it had to draw. -/
def touchCount : Nat × FlatStore :=
  let count := if object.evictionMeta = 0 then 5 else object.evictionMeta
  let denominator := (count - 5) * 10 + 1
  if count < 31 then
    let drawn := store.nextRandom
    (if drawn.1.toNat % denominator = 0 then count + 1 else count, drawn.2)
  else (count, store)

/-- `touch`: the object as the access leaves it, and the store. -/
def touch (key : Slice) (object : KvObj)
    : KvObj × FlatStore :=
  if store.maxmemory.policy.isLru then
    let bits := store.cachedLruClock
    (object.setEvictionMeta bits,
      store.modifyObject h key object (fun held => held.setEvictionMeta bits))
  else if store.maxmemory.policy.isLfu then
    let counted := store.touchCount object
    (object.setEvictionMeta counted.1,
      counted.2.modifyObject h key object (fun held => held.setEvictionMeta counted.1))
  else (object, store)

def objectAt (pos : Nat) : Option KvObj :=
  let slot :=
    if pos < store.tables.cur.cap then store.tables.cur.slots[pos]?
    else store.tables.old.bind (fun old => old.slots[pos - store.tables.cur.cap]?)
  match slot with
  | some (.live word) => some word.obj
  | _ => none

def totalCap : Nat := store.tables.cur.cap + store.tables.oldCap

def randomProbe : Option KvObj × FlatStore :=
  let drawn := store.nextRandom
  (drawn.2.objectAt (drawn.1.toNat % store.totalCap), drawn.2)

def cursorProbe : Option KvObj × FlatStore :=
  let pos := if store.totalCap ≤ store.sampler.cursor then 0 else store.sampler.cursor
  (store.objectAt pos, { store with sampler := { store.sampler with cursor := pos + 1 } })

/-- A bounded number of probes, up to the first that meets an object. -/
def probeAttempts (probe : FlatStore → Option KvObj × FlatStore)
    : Nat → FlatStore → Option KvObj × FlatStore
  | 0, store => (none, store)
  | attempts + 1, store =>
    match probe store with
    | (some object, store) => (some object, store)
    | (none, store) => probeAttempts probe attempts store

def randomAllkeysCandidate : Option KvObj × FlatStore :=
  if store.totalCap = 0 ∨ store.size = 0 then (none, store)
  else
    match probeAttempts randomProbe kSampleProbeAttempts store with
    | (some object, drawn) => (some object, drawn)
    | (none, drawn) => probeAttempts cursorProbe kSampleProbeAttempts drawn

def findHash : Option KvObj :=
  (store.tables.cur.findHashIn env.hashKey h).or
    (store.tables.old.bind (fun old => old.findHashIn env.hashKey h))

def randomVolatileCandidate : Option KvObj × FlatStore :=
  let drawn := store.nextRandom
  let sampled := drawn.2.expires.randomHash drawn.1 kSampleProbeAttempts
  let store := { drawn.2 with expires := sampled.2 }
  match sampled.1 with
  | none => (none, store)
  | some hash =>
    match store.findHash env hash with
    | none => (none, store)
    | some object =>
      if object.deadline < 0 then (none, store.untrackExpire hash) else (some object, store)

def candidate : Option KvObj × FlatStore :=
  if store.maxmemory.policy.isVolatile then store.randomVolatileCandidate env
  else store.randomAllkeysCandidate

def scoreWith (age : Nat) (random : BitVec 64) : Nat := age * 2 ^ 56 + random.toNat % 2 ^ 56

/-- The score of a candidate; `none` under the policy that evicts nothing. An LFU candidate
forgets one access by competing.
-/
def score : Option Nat × FlatStore :=
  match store.maxmemory.policy with
  | .allKeysRandom | .volatileRandom =>
    let drawn := store.nextRandom
    (some drawn.1.toNat, drawn.2)
  | .allKeysLru | .volatileLru =>
    let drawn := store.nextRandom
    let age := (store.cachedLruClock + 256 - object.evictionMeta) % 32
    (some (scoreWith age drawn.1), drawn.2)
  | .allKeysLfu | .volatileLfu =>
    let count := object.evictionMeta - 1
    let aged :=
      if object.evictionMeta = 0 then store
      else store.modifyObject (env.hashKey object.key) object.key object
        (fun held => held.setEvictionMeta count)
    let drawn := aged.nextRandom
    (some (scoreWith (31 - count) drawn.1), drawn.2)
  | .volatileTtl => (some (kSizeMax - (object.deadline % 2 ^ 64).toNat), store)
  | .noEviction => (none, store)

structure VictimSearch where
  best : Option (KvObj × Nat)
  seen : List Nat
  deriving DecidableEq, Repr

def chooseVictimLoop (protectedKey : Slice)
    : Nat → VictimSearch → FlatStore → Option KvObj × FlatStore
  | 0, search, store => (search.best.map (fun best => best.1), store)
  | samples + 1, search, store =>
    match store.candidate env with
    | (none, store) => chooseVictimLoop protectedKey samples search store
    | (some object, store) =>
      if object.key = protectedKey then chooseVictimLoop protectedKey samples search store
      else if store.atomicNeedsVersion (env.hashKey object.key) object.key then
        chooseVictimLoop protectedKey samples search store
      else if search.seen.contains object.addr then
        chooseVictimLoop protectedKey samples search store
      else
        match store.score env object with
        | (none, store) => (none, store)
        | (some score, store) =>
          let better := search.best.all (fun best => decide (best.2 < score))
          chooseVictimLoop protectedKey samples
            { best := if better then some (object, score) else search.best
              seen := object.addr :: search.seen } store

variable (protectedKey : Slice)

def chooseVictim : Option KvObj × FlatStore :=
  chooseVictimLoop env protectedKey store.maxmemory.samples { best := none, seen := [] } store

def projectedBytes (key : Slice) (incomingBytes : Nat) : Nat :=
  let used := store.accountedBytes
  let add := fun used => if kSizeMax - used < incomingBytes then kSizeMax else used + incomingBytes
  match store.tables.resident (env.hashKey key) key with
  | some old => add (used - kvobjSize old)
  | none =>
    if kSizeMax - kSlotOverheadPerKey < used then kSizeMax else add (used + kSlotOverheadPerKey)

def countEvicted (live : Bool) : FlatStore :=
  { store with
    counters := { store.counters with evicted := store.counters.evicted + live.toNat } }

/-- What the eviction loop does to the store of either mode: its flat store, and `erase`. -/
structure Evictor (σ : Type) where
  base : σ → FlatStore
  withBase : σ → FlatStore → σ
  erase : σ → Slice → Bool × σ

/-- The eviction loop of `make_room_for` and `budget_admit`, over the bytes each of them holds
against the limit.
-/
def Evictor.loop {σ : Type} (evictor : Evictor σ) (protectedKey : Slice) (bytes : FlatStore → Nat)
    : Nat → σ → Bool × σ
  | 0, state =>
    (decide (bytes (evictor.base state) ≤ (evictor.base state).maxmemory.limit), state)
  | budget + 1, state =>
    if bytes (evictor.base state) ≤ (evictor.base state).maxmemory.limit then (true, state)
    else
      match (evictor.base state).chooseVictim env protectedKey with
      | (none, store) => (false, evictor.withBase state store)
      | (some victim, store) =>
        let logged := evictor.withBase state (store.recordDelete victim.key)
        let erased := evictor.erase logged victim.key
        if (evictor.base erased.2).size = (evictor.base logged).size then (false, erased.2)
        else
          evictor.loop protectedKey bytes budget
            (evictor.withBase erased.2 ((evictor.base erased.2).countEvicted erased.1))

def evictLoop (bytes : FlatStore → Nat) (budget : Nat) (store : FlatStore)
    : Bool × FlatStore :=
  Evictor.loop env { base := id, withBase := fun _ store => store
                     erase := fun store key => store.erase env (env.hashKey key) key }
    protectedKey bytes budget store

/-- Their common part behind the guards. -/
def reclaim (bytes : FlatStore → Nat) (store : FlatStore)
    : Bool × FlatStore :=
  if bytes store ≤ store.maxmemory.limit then (true, store)
  else if store.maxmemory.policy = .noEviction then (false, store)
  else evictLoop env protectedKey bytes kEvictionsPerOp store

def makeRoomFor (incomingBytes : Nat) : Bool × FlatStore :=
  if store.snapshot.active then (true, store)
  else reclaim env protectedKey (projectedBytes env · protectedKey incomingBytes) store

/-- `budget_admit`: the gate of a growth command, which asks for the bytes held now. -/
def budgetAdmit : Bool × FlatStore :=
  if !store.maxmemory.enabled then (true, store)
  else if store.snapshot.active then (true, store)
  else reclaim env protectedKey accountedBytes store

/-- `live_or_expire`: an object past its deadline is no answer. It is removed on the spot,
except from the frozen table of a capture.
-/
def liveOrExpire (side : Side) (h : BitVec 64) (key : Slice) (object : KvObj)
    : Option KvObj × FlatStore :=
  if !object.deadlineElapsed store.cachedNowMs then (some object, store)
  else if store.snapshot.active && side == .old then (none, store)
  else
    let logged := store.recordDelete key
    let erased := (logged.eraseIn side h key).map (fun erased => erased.2)
    (none, (erased.getD logged).countExpired true)

def lookupIn (side : Side) (h : BitVec 64) (key : Slice)
    : Option KvObj × FlatStore :=
  match store.tables.findIn side h key with
  | some object => store.liveOrExpire side h key object
  | none => (none, store)

def lookup (key : Slice) : Option KvObj × FlatStore :=
  match store.lookupIn .cur h key with
  | (some object, store) => (some object, store)
  | (none, store) => store.lookupIn .old h key

/-- `find_without_touch`: a dead object in the current table ends the lookup. -/
def findWithoutTouch (key : Slice)
    : Option KvObj × FlatStore :=
  match store.tables.findIn .cur h key with
  | some object => store.liveOrExpire .cur h key object
  | none => store.lookupIn .old h key

def atomicResolve (key : Slice) (snapshot : Nat)
    : Option KvObj :=
  (atomicResolveEntries env.words store.cachedNowMs
    { originConnId := store.atomics.readOriginConnId, snapshot := snapshot }
    store.atomics.entries h key (store.tables.resident h key)).value

def findValue (key : Slice) : Option KvObj × FlatStore :=
  if store.atomics.entries.isEmpty then store.lookup h key
  else (store.atomicResolve env h key store.atomics.readEpoch, store)

def find (key : Slice) : Option KvObj × FlatStore :=
  match store.findValue env h key with
  | (none, store) => (none, store)
  | (some object, store) =>
    if store.maxmemory.enabled && !store.noTouch then
      let touched := store.touch h key object
      (some touched.1, touched.2)
    else (some object, store)

def capturing : Bool := store.rehashing && store.snapshot.active

/-- The resize work an insert does first; `false` when a resize is due and cannot start. -/
def insertResize : Bool × FlatStore :=
  if store.rehashing then
    if store.snapshot.active then (true, store) else (true, store.rehashStep env)
  else store.maybeStartGrow

/-- A prepared table is not resized: a new key is refused when it would fill the table. -/
def preparedFull (key : Slice) : Bool :=
  decide (store.tables.cur.cap ≤ store.tables.cur.live + store.tables.cur.tombs + 1)
    && store.snapshot.prepared && (store.tables.findIn .cur h key).isNone

/-- During a capture a new key is refused once both tables no longer fit the current one. -/
def captureFull (key : Slice) : Bool :=
  !((store.tables.findIn .cur h key).isSome || (store.tables.findIn .old h key).isSome)
    && decide (store.tables.cur.cap
        ≤ store.tables.cur.live + store.tables.cur.tombs + store.tables.oldLive + 1)

def admitObject : Option KvObj × FlatStore :=
  if store.maxmemory.enabled && !store.snapshot.active then
    match store.makeRoomFor env object.key (kvobjSize object) with
    | (false, store) => (none, store)
    | (true, store) =>
      (some (if object.evictionMeta = 0 then store.initializeMeta object else object), store)
  else (some object, store)

/-- Any copy of the key in the old table goes first. -/
def clearOld (key : Slice) : FlatStore :=
  match store.eraseIn .old h key with
  | some (old, erased) => erased.countExpired (old.deadlineElapsed store.cachedNowMs)
  | none => store

def publish (object : KvObj) : InsertResult × FlatStore :=
  match (store.clearOld h object.key).insertFresh h object with
  | some published => (.inserted, published)
  | none => (.failed, store.clearOld h object.key)

/-- The part of an insert behind its capacity checks. -/
def insertAdmitted (object : KvObj)
    : InsertResult × FlatStore :=
  match store.admitObject env object with
  | (none, store) => (.maxmemoryOom, store)
  | (some object, store) => store.publish h object

def insert (object : KvObj) : InsertResult × FlatStore :=
  let capturing := store.capturing
  match store.insertResize env with
  | (false, store) => (.failed, store)
  | (true, store) =>
    if store.preparedFull h object.key then (.failed, store)
    else if capturing && store.captureFull h object.key then (.failed, store)
    else store.insertAdmitted env h object

/-- The tests of `try_overwrite` on the object found. -/
def overwritable (value : Slice) : Bool :=
  decide (object.enc = .raw) && !object.hasTtlSlot && decide (value.length ≤ kEmbedThreshold)
    && decide (goodSize (kvobjAllocSize object.key.length value.length false .raw)
        = kvobjCapacity object)
    && !store.ledger.borrowed object

def overwriteValue (key : Slice) (object : KvObj) (value : Slice) : FlatStore :=
  let fresh := { object with value := value }
  { store.modifyObject h key object (fun held => { held with value := value }) with
    ledger :=
      if value.length = object.value.length then store.ledger
      else { store.ledger with
             objBytes := store.ledger.objBytes - kvobjSize object + kvobjSize fresh } }

def tryOverwrite (key value : Slice)
    : OverwriteResult × FlatStore :=
  match store.findWithoutTouch h key with
  | (none, store) => (.notPossible, store)
  | (some object, store) =>
    if !store.overwritable object value then (.notPossible, store)
    else if store.maxmemory.enabled then
      let want := kvobjAllocSize object.key.length value.length false .raw
      match store.makeRoomFor env key (goodSize want) with
      | (false, store) => (.maxmemoryOom, store)
      | (true, store) =>
        let touched := store.touch h key object
        (.updated, touched.2.overwriteValue h key touched.1 value)
    else (.updated, store.overwriteValue h key object value)

/-- `rewrite_expire`: a fresh header with a deadline slot replaces the object. `addr` is the
block the allocator would return.
-/
def rewriteExpire (old : KvObj) (addr : Nat) (expireAtMs : Int)
    : TtlResult × FlatStore :=
  match drawAllocation store.allocations with
  | (false, rest) => (.oom, { store with allocations := rest })
  | (true, rest) =>
    let fresh := kvobjReheader old addr expireAtMs
    let replacement :=
      if store.maxmemory.enabled then fresh.setEvictionMeta old.evictionMeta else fresh
    let stored := { store with allocations := rest }.insert env h replacement
    (stored.1.report, stored.2)

def setExpire (key : Slice) (addr : Nat) (expireAtMs : Int)
    : TtlResult × FlatStore :=
  match store.find env h key with
  | (none, store) => (.missing, store)
  | (some old, store) =>
    if old.hasTtlSlot then
      (.updated,
        (store.modifyObject h key old (fun held => held.setExpireAtMs expireAtMs)).trackExpire
          h (old.setExpireAtMs expireAtMs))
    else store.rewriteExpire env h old addr expireAtMs

def persist (key : Slice) : TtlResult × FlatStore :=
  match store.find env h key with
  | (none, store) => (.missing, store)
  | (some old, store) =>
    if old.deadline < 0 then (.noChange, store)
    else
      (.updated, (store.modifyObject h key old
          (fun held => held.setExpireAtMs kNoTtlDeadline)).untrackExpire h)

def noteActiveExpireReap (deadline : Int) : FlatStore :=
  if deadline < 0 ∨ store.cachedNowMs ≤ deadline then store
  else
    let lag := min (store.cachedNowMs - deadline).toNat kUInt32Max
    { store with
      counters := { store.counters with reapLagMax := max store.counters.reapLagMax lag } }

def expireVisit : Nat × FlatStore :=
  match store.findHash env h with
  | none => (0, store.untrackExpire h)
  | some object =>
    if !object.hasTtlSlot then (0, store.untrackExpire h)
    else if store.atomicHasRecord h object.key then (0, store)
    else if object.deadline < 0 then (0, store.untrackExpire h)
    else if store.cachedNowMs < object.deadline then (0, store)
    else
      let logged := store.recordDelete object.key
      let erased := (logged.eraseIn .cur h object.key).or (logged.eraseIn .old h object.key)
      match erased with
      | none => (0, logged)
      | some (_, erased) =>
        (1, (erased.noteActiveExpireReap object.deadline).countExpired true)

/-- The sampling loop over the expire index; the visit may change the index under it. -/
def expireLoop : Nat → Nat → FlatStore → Nat × FlatStore
  | 0, removed, store => (removed, store)
  | budget + 1, removed, store =>
    match store.expires.sampleNext with
    | none => (removed, store)
    | some (none, index) => expireLoop budget removed { store with expires := index }
    | some (some h, index) =>
      let visited := { store with expires := index }.expireVisit env h
      expireLoop budget (removed + visited.1) visited.2

def activeExpire (budget : Nat) : Nat × FlatStore :=
  if store.snapshot.active then (0, store)
  else
    let resizing := store.rehashing
    let stepped := if resizing then store.rehashStep env else store
    let moved :=
      if stepped.expires.migrating then
        { stepped with
          expires := ExpireIndex.migrate ExpireIndex.kMigrateSlotsPerOp stepped.expires }
      else stepped
    let swept := expireLoop env budget resizing.toNat moved
    (swept.1 + swept.2.expires.migrating.toNat, swept.2)

/-- `clear`: every object is retired; without a fresh table the current one is zeroed. -/
def clear : FlatStore :=
  let drawn := drawAllocation store.allocations
  let fresh := if drawn.1 then Table.fresh 1024 else Table.fresh store.tables.cur.cap
  { store with
    tables := { cur := fresh, old := none, rehashPos := 0 }
    ledger := store.tables.objects.foldl Ledger.retire store.ledger
    expires := store.expires.clear
    allocations := drawn.2 }

def setCachedNowMs (now : Int) : FlatStore := { store with cachedNowMs := now }

end FlatStore

end Thredis.Store
