import Thredis.Store.FlatOps

/-! The capture of a snapshot by the shard owner: the table prepared ahead of the cut, the
swap at the cut, pre-images of keys about to be written, the bounded traversal of the frozen
table, and the hand-off or cancellation that turns it into an ordinary old table.
-/

namespace Thredis.Store

inductive SnapshotWriteResult where
  | ready | pending | error
  deriving DecidableEq, Repr

def kSnapshotChunkBytes : Nat := 64 * 1024

def kSnapshotRecordTag : Nat := 0x44434552

def snapshotFrameBegin : Nat := 1

def snapshotFrameEnd : Nat := 2

/-- The low `count` bytes of a word, little endian. -/
def putBytes : Nat → Nat → List UInt8
  | 0, _ => []
  | count + 1, value => UInt8.ofNat (value % 256) :: putBytes count (value / 256)

def KvType.code : KvType → Nat
  | .string => 0
  | .hash => 1
  | .list => 2
  | .set => 3
  | .zset => 4
  | .stream => 5

/-- A record: its 32-byte header, the key and the payload. -/
def snapshotRecordBytes (object : KvObj) (encoding : UInt8) (payload : List UInt8)
    : List UInt8 :=
  putBytes 4 kSnapshotRecordTag
    ++ [UInt8.ofNat object.type.code, encoding, 0, 0]
    ++ putBytes 4 object.key.length ++ putBytes 4 0
    ++ putBytes 8 payload.length ++ putBytes 8 (object.expireAtMs % 2 ^ 64).toNat
    ++ object.key ++ payload

namespace FlatStore

variable (env : StoreEnv) (store : FlatStore)

/-- `snapshot_prepare`: a running rehash is finished step by step before the post-cut table
is allocated.
-/
def snapshotPrepare (epoch : Nat) (cutMs : Int)
    : SnapshotWriteResult × FlatStore :=
  if store.snapshot.active then (.error, store)
  else if store.rehashing then (.pending, store.rehashStep env)
  else if store.snapshot.prepared then (.ready, store)
  else
    let wanted := store.tables.cur.cap * 2
    if kUInt32Max < wanted then (.error, store)
    else
      let cap := roundPow2 wanted
      if cap = 0 then (.error, store)
      else
        match drawAllocation store.allocations with
        | (false, rest) => (.error, { store with allocations := rest })
        | (true, rest) =>
          (.ready, { store with
                     allocations := rest
                     snapshot := { store.snapshot with
                       newCap := some cap, epoch := epoch, cutMs := cutMs, prepared := true } })

def makeSnapshotChunk (flags : Nat) : Option SnapshotChunk × FlatStore :=
  match drawAllocation store.allocations with
  | (true, rest) =>
    (some { sid := store.snapshot.shardId, sequence := store.snapshot.sequence, flags := flags
            bytes := [] },
      { store with
        allocations := rest
        snapshot := { store.snapshot with sequence := store.snapshot.sequence + 1 } })
  | (false, rest) =>
    (none, { store with
             allocations := rest
             snapshot := { store.snapshot with failed := true } })

def snapshotSwap (newCap : Nat) (shardId cutMs : Int) : FlatStore :=
  { store with
    tables := { cur := .fresh newCap, old := some store.tables.cur, rehashPos := 0 }
    snapshot := { store.snapshot with
      newCap := none, prepared := false, active := true, shardId := shardId, cutMs := cutMs
      pos := 0, sequence := 0, failed := false, finished := false, ready := none
      record := none } }

def snapshotMark (shardId cutMs : Int) : Bool × FlatStore :=
  match store.snapshot.newCap with
  | none => (false, store)
  | some newCap =>
    if !store.snapshot.prepared || store.snapshot.active || store.rehashing then (false, store)
    else
      let made := (store.snapshotSwap newCap shardId cutMs).makeSnapshotChunk snapshotFrameBegin
      (made.1.isSome, { made.2 with snapshot := { made.2.snapshot with build := made.1 } })

def snapshotStartRecord (object : KvObj) (slot : Nat) (preimage : Bool)
    : Bool × FlatStore :=
  match env.snapshotImage object with
  | none => (false, { store with snapshot := { store.snapshot with failed := true } })
  | some (encoding, payload) =>
    (true, { store with
             snapshot := { store.snapshot with
               record := some { preimage := preimage, slot := slot
                                rest := snapshotRecordBytes object encoding payload } } })

def rewriteFrozen (slot : Nat) (mark : Bool) : FlatStore :=
  match store.tables.old with
  | none => store
  | some old =>
    { store with
      tables := store.tables.put .old
        (old.rewriteAt slot (fun word => { word with mark := mark })) }

def frozenWord (slot : Nat) : Option Word :=
  match store.tables.old.bind (fun old => old.slots[slot]?) with
  | some (.live word) => some word
  | _ => none

/-- `snapshot_prepare_write`: the gate a write passes before it may change a frozen key. -/
def snapshotPrepareWrite (h : BitVec 64) (key : Slice)
    : SnapshotWriteResult × FlatStore :=
  if !store.snapshot.active then (.ready, store)
  else if store.snapshot.failed then (.error, store)
  else if (store.tables.findIn .cur h key).isSome then (.ready, store)
  else
    match store.tables.old.bind (fun old => old.findSlotIn h key) with
    | none => (.ready, store)
    | some (slot, object) =>
      if slot < store.snapshot.pos || (store.frozenWord slot).any (fun word => word.mark) then
        (.ready, store)
      else if object.deadlineElapsed store.snapshot.cutMs then
        (.ready, store.rewriteFrozen slot true)
      else if store.snapshot.record.isSome then (.pending, store)
      else
        match store.snapshotStartRecord env object slot true with
        | (false, store) => (.error, store)
        | (true, store) =>
          (.pending, { store with
                       snapshot := { store.snapshot with
                         preimages := store.snapshot.preimages + 1 } })

def snapshotSeal (flags : Nat) : FlatStore :=
  match store.snapshot.build, store.snapshot.ready with
  | some chunk, none =>
    { store with
      snapshot := { store.snapshot with
        build := none, ready := some { chunk with flags := chunk.flags ||| flags } } }
  | _, _ => store

def snapshotChunk (flags : Nat) : Option SnapshotChunk × FlatStore :=
  match store.snapshot.build with
  | some chunk => (some chunk, store)
  | none => store.makeSnapshotChunk flags

def snapshotFill (chunk : SnapshotChunk) (bytes : List UInt8) : FlatStore :=
  let filled := { chunk with bytes := chunk.bytes ++ bytes }
  let built := { store with snapshot := { store.snapshot with build := some filled } }
  if filled.bytes.length = kSnapshotChunkBytes then built.snapshotSeal 0 else built

/-- The emitting loop: chunks are filled within the budget until one is sealed. Returns the
bytes left of the record and of the budget; `turns` bounds the chunks touched.
-/
def snapshotEmit : Nat → List UInt8 → Nat → FlatStore → List UInt8 × Nat × FlatStore
  | 0, rest, budget, store => (rest, budget, store)
  | turns + 1, rest, budget, store =>
    if rest.isEmpty || budget == 0 || store.snapshot.ready.isSome || store.snapshot.failed then
      (rest, budget, store)
    else
      match store.snapshotChunk 0 with
      | (none, store) => (rest, budget, store)
      | (some chunk, store) =>
        let take := min (min rest.length budget) (kSnapshotChunkBytes - chunk.bytes.length)
        snapshotEmit turns (rest.drop take) (budget - take)
          (store.snapshotFill chunk (rest.take take))

/-- `snapshot_progress_record`: the budget left and the store. -/
def snapshotProgressRecord (record : SnapshotRecordState) (budget : Nat)
    : Nat × FlatStore :=
  match snapshotEmit (budget + 1) record.rest budget store with
  | (rest, budget, store) =>
    if !rest.isEmpty || store.snapshot.ready.isSome then
      (budget, { store with
                 snapshot := { store.snapshot with record := some { record with rest := rest } } })
    else
      let store := { store with snapshot := { store.snapshot with record := none } }
      if record.preimage then (budget, store.rewriteFrozen record.slot true)
      else
        (budget, { store with
                   snapshot := { store.snapshot with pos := store.snapshot.pos + 1 } })

def snapshotFinishStream : FlatStore :=
  if store.snapshot.finished || store.snapshot.ready.isSome || store.snapshot.record.isSome then
    store
  else
    match store.snapshotChunk 0 with
    | (none, store) => store
    | (some chunk, store) =>
      let built := { store with snapshot := { store.snapshot with build := some chunk } }
      let sealed := built.snapshotSeal snapshotFrameEnd
      { sealed with snapshot := { sealed.snapshot with finished := true } }

def snapshotVisit : FlatStore :=
  let slot := store.snapshot.pos
  let passed := fun (store : FlatStore) =>
    { store with snapshot := { store.snapshot with pos := store.snapshot.pos + 1 } }
  match store.frozenWord slot with
  | none => passed store
  | some word =>
    if word.mark then passed (store.rewriteFrozen slot false)
    else if word.obj.deadlineElapsed store.snapshot.cutMs then passed store
    else (store.snapshotStartRecord env word.obj slot false).2

/-- The loop of `snapshot_progress`, over byte and slot budgets; each turn visits a slot or
emits bytes, so `turns` of one more than both budgets is never used up.
-/
def snapshotProgressLoop : Nat → Nat → Nat → FlatStore → FlatStore
  | 0, _, _, store => store
  | turns + 1, bytes, slots, store =>
    if bytes == 0 || store.snapshot.ready.isSome || store.snapshot.failed then store
    else
      match store.snapshot.record with
      | some record =>
        match store.snapshotProgressRecord record bytes with
        | (left, store) =>
          if store.snapshot.record.isSome || store.snapshot.ready.isSome then store
          else snapshotProgressLoop turns left slots store
      | none =>
        if store.tables.oldCap ≤ store.snapshot.pos then store.snapshotFinishStream
        else
          match slots with
          | 0 => store
          | slots + 1 => snapshotProgressLoop turns bytes slots (store.snapshotVisit env)

def snapshotProgress (byteBudget slotBudget : Nat) : FlatStore :=
  if !store.snapshot.active || store.snapshot.failed || store.snapshot.ready.isSome then store
  else snapshotProgressLoop env (2 * (byteBudget + slotBudget) + 2) byteBudget slotBudget store

def snapshotTakeChunk : Option SnapshotChunk × FlatStore :=
  (store.snapshot.ready, { store with snapshot := { store.snapshot with ready := none } })

def snapshotHandoffComplete : FlatStore :=
  if !store.snapshot.finished then store
  else
    { store with
      snapshot := { store.snapshot with
        active := false, shardId := -1, build := none, ready := none, record := none } }

def snapshotCancel : FlatStore :=
  { store with
    snapshot := { store.snapshot with
      newCap := none, prepared := false, active := false, failed := false, finished := false
      build := none, ready := none, record := none, shardId := -1 } }

/-- `clear_during_snapshot`: both tables keep their slots; every object becomes a tombstone. -/
def clearDuringSnapshot : FlatStore :=
  let wipe := fun (table : Table) =>
    { slots := table.slots.map (fun slot =>
        match slot with
        | .live _ => .dead
        | other => other)
      live := 0, tombs := table.tombs + table.live : Table }
  { store with
    tables := { store.tables with
      cur := wipe store.tables.cur, old := store.tables.old.map wipe }
    ledger := store.tables.objects.foldl Ledger.retire store.ledger
    expires := store.expires.clear }

end FlatStore

end Thredis.Store
