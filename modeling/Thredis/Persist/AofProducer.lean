import Thredis.Persist.AofFormat

/-! A shard's `AofProducer`: how its records are cut into chunks, how groups wait for their
decision, and which chunks are handed to the writer.
-/

namespace Thredis.Persist

structure AofChunk where
  flags : BitVec 32
  bytes : Bytes
  /-- The decision of the group the chunk belongs to, set when the group is resolved. -/
  group : Option Nat
  groupTicketOffsets : List Nat
  groupFragmentLast : Bool
  deriving DecidableEq, Repr

/-- `make_chunk` and `make_group_chunk`. -/
def makeChunk (flags : BitVec 32) : AofChunk :=
  { flags := flags, bytes := [], group := none, groupTicketOffsets := [],
    groupFragmentLast := false }

def AofChunk.mark (flags : BitVec 32) (chunk : AofChunk) : AofChunk :=
  { chunk with flags := chunk.flags ||| flags }

def AofChunk.put (bytes : Bytes) (chunk : AofChunk) : AofChunk :=
  { chunk with bytes := chunk.bytes ++ bytes }

structure NumberedChunk where
  sequence : BitVec 32
  chunk : AofChunk
  deriving DecidableEq, Repr

def beginFlags (large : Bool) : BitVec 32 := if large then aofFrameLargeBegin else 0#32

/-- What the two cutting loops need of the place they fill: the chunk being built, `seal`, the
flags of a chunk begun while header and key are written, and what follows the seal of a full chunk.
-/
structure ChunkSink (σ : Type) where
  build : σ → Option AofChunk
  setBuild : AofChunk → σ → σ
  sealChunk : BitVec 32 → σ → σ
  freshFlags : Bool → σ → BitVec 32
  refill : σ → σ

variable {σ : Type}

def ChunkSink.building (sink : ChunkSink σ) (flags : BitVec 32) (state : σ) : AofChunk :=
  (sink.build state).getD (makeChunk flags)

/-- The loop of `emit` and `group_emit`. A turn seals a full chunk or takes at least one byte,
and no two turns in a row seal, so twice the length bounds the turns.
-/
def ChunkSink.emitLoop (sink : ChunkSink σ) (large : Bool) : Nat → Bytes → σ → σ
  | 0, _, state => state
  | turns + 1, bytes, state =>
    if bytes = [] then state
    else
      let chunk := sink.building (sink.freshFlags large state) state
      let room := kAofChunkBytes - chunk.bytes.length
      if room = 0 then sink.emitLoop large turns bytes (sink.refill (sink.sealChunk 0#32 state))
      else
        let filled := chunk.put (bytes.take room)
        let rest := bytes.drop room
        let next := sink.setBuild filled state
        sink.emitLoop large turns rest
          (if large ∧ filled.bytes.length = kAofChunkBytes ∧ rest ≠ [] then sink.sealChunk 0#32 next
          else next)

/-- `emit` and `group_emit`. -/
def ChunkSink.emit (sink : ChunkSink σ) (large : Bool) (bytes : Bytes) (state : σ) : σ :=
  sink.emitLoop large (2 * bytes.length) bytes state

/-- How many bytes `read_save` writes into a destination: at least one, at most `capacity`. -/
def readSaveWrites (progress : List Nat) (capacity : Nat) : Nat :=
  match progress with
  | [] => capacity
  | wanted :: _ => min capacity (max 1 wanted)

/-- The value loop of `record_bytes` and `record_group_bytes`; `progress` is what the successive
`read_save` calls write.
-/
def ChunkSink.streamLoop (sink : ChunkSink σ) : Nat → List Nat → Bytes → σ → σ
  | 0, _, _, state => state
  | turns + 1, progress, value, state =>
    if value = [] then state
    else
      let chunk := sink.building 0#32 state
      let room := kAofChunkBytes - chunk.bytes.length
      if room = 0 then
        sink.streamLoop turns progress value (sink.refill (sink.sealChunk 0#32 state))
      else
        let written := readSaveWrites progress (min room value.length)
        sink.streamLoop turns progress.tail (value.drop written)
          (sink.setBuild (chunk.put (value.take written)) state)

def ChunkSink.stream (sink : ChunkSink σ) (progress : List Nat) (value : Bytes) (state : σ) : σ :=
  sink.streamLoop (2 * value.length) progress value state

/-- The header, the key and the value of a record, one after the other. -/
def ChunkSink.write (sink : ChunkSink σ) (record : AofRecord) (progress : List Nat) (state : σ)
    : σ :=
  let large := decide (kAofChunkBytes < record.bytes.length)
  sink.stream progress record.payload
    (sink.emit large record.key (sink.emit large record.header state))

structure AofGroupDecision where
  /-- The commit ticket, 0 until the group commits. -/
  ticket : BitVec 64
  aborted : Bool
  deriving DecidableEq, Repr

structure PendingGroup where
  decision : Nat
  build : Option AofChunk
  chunks : List AofChunk
  deriving DecidableEq, Repr

def PendingGroup.seal (flags : BitVec 32) (group : PendingGroup) : PendingGroup :=
  match group.build with
  | none => group
  | some chunk => { group with build := none, chunks := group.chunks ++ [chunk.mark flags] }

def PendingGroup.sink : ChunkSink PendingGroup where
  build := PendingGroup.build
  setBuild chunk group := { group with build := some chunk }
  sealChunk := PendingGroup.seal
  freshFlags large group := beginFlags (large && group.chunks.isEmpty)
  refill := id

def PendingGroup.roomFor (record : AofRecord) (group : PendingGroup) : PendingGroup × AofChunk :=
  let large := decide (kAofChunkBytes < record.bytes.length)
  let crowded := group.build.any fun chunk =>
    decide (kAofChunkBytes < chunk.bytes.length + record.bytes.length)
  let group := if large || crowded then group.seal 0#32 else group
  let chunk := group.build.getD (makeChunk (beginFlags large))
  if kAofChunkBytes - chunk.bytes.length < kAofRecordHeaderBytes then
    (PendingGroup.seal 0#32 { group with build := some chunk }, makeChunk (beginFlags large))
  else (group, chunk)

def AofRecord.ticketed (ticket : BitVec 64) (record : AofRecord) : AofRecord :=
  { record with group := ticket }

def AofChunk.noteTicket (chunk : AofChunk) : AofChunk :=
  { chunk with groupTicketOffsets := chunk.groupTicketOffsets ++ [chunk.bytes.length + 32] }

def PendingGroup.putRecord (staged : AofRecord) (progress : List Nat) (chunk : AofChunk)
    (group : PendingGroup) : PendingGroup :=
  let group := PendingGroup.sink.write staged progress { group with build := some chunk.noteTicket }
  if kAofChunkBytes < staged.bytes.length then group.seal aofFrameLargeEnd else group

def PendingGroup.recordGroupBytes (record : AofRecord) (progress : List Nat)
    (group : PendingGroup) : PendingGroup :=
  let staged := record.ticketed 0#64
  let place := group.roomFor staged
  place.1.putRecord staged progress place.2

inductive StagedItem where
  | plain (chunk : AofChunk)
  | group (pending : PendingGroup)
  deriving DecidableEq, Repr

def StagedItem.onGroup (change : PendingGroup → PendingGroup) : StagedItem → StagedItem
  | .plain chunk => .plain chunk
  | .group pending => .group (change pending)

def PendingGroup.finish (group : PendingGroup) : PendingGroup :=
  let sealed := group.seal 0#32
  { sealed with
    chunks := sealed.chunks.modify (sealed.chunks.length - 1)
      fun chunk => { chunk with groupFragmentLast := true } }

/-- The ticket written over eight bytes of the chunk; `none` when they lie outside it. -/
def patchTicket (ticket : BitVec 64) (bytes : Bytes) (offset : Nat) : Option Bytes :=
  if bytes.length < offset + 8 then none
  else some (bytes.take offset ++ (snapshotPutU64 ticket ++ bytes.drop (offset + 8)))

def AofChunk.resolve (decision : Nat) (ticket : BitVec 64) (chunk : AofChunk) : Option AofChunk :=
  (chunk.groupTicketOffsets.foldlM (patchTicket ticket) chunk.bytes).map fun bytes =>
    { chunk with group := some decision, bytes := bytes }

structure AofProducer where
  sequence : BitVec 32
  timestampSecond : Int
  build : Option AofChunk
  ready : List NumberedChunk
  staged : List StagedItem
  /-- The place of `active_group_` in `staged`. -/
  activeGroup : Option Nat
  /-- What was handed to `post_chunk` so far. -/
  posted : List NumberedChunk
  deriving DecidableEq, Repr

def AofProducer.init (sequence : BitVec 32) : AofProducer :=
  { sequence := sequence, timestampSecond := -1, build := none, ready := [], staged := [],
    activeGroup := none, posted := [] }

def AofProducer.makeReady (chunk : AofChunk) (producer : AofProducer) : AofProducer :=
  { producer with
    ready := producer.ready ++ [⟨producer.sequence, chunk⟩], sequence := producer.sequence + 1 }

/-- `post_ready` when the channel accepts that many chunks. -/
def AofProducer.postReady (accepted : Nat) (producer : AofProducer) : AofProducer :=
  { producer with
    posted := producer.posted ++ producer.ready.take accepted
    ready := producer.ready.drop accepted }

/-- A sealed chunk goes to `ready` unless something is staged before it. -/
def AofProducer.enqueue (chunk : AofChunk) (producer : AofProducer) : AofProducer :=
  if producer.staged = [] then producer.makeReady chunk
  else { producer with staged := producer.staged ++ [.plain chunk] }

variable (context : Bool)

/-- `seal`. With an owner context it repeats `post_ready` until everything ready is posted. -/
def AofProducer.seal (flags : BitVec 32) (producer : AofProducer)
    : AofProducer :=
  match producer.build with
  | none => producer
  | some chunk =>
    let producer := AofProducer.enqueue (chunk.mark flags) { producer with build := none }
    if context then producer.postReady producer.ready.length else producer

def AofProducer.sink : ChunkSink AofProducer where
  build := AofProducer.build
  setBuild chunk producer := { producer with build := some chunk }
  sealChunk := AofProducer.seal context
  freshFlags large _ := beginFlags large
  refill producer := { producer with build := some (makeChunk 0#32) }

/-- `record_bytes` behind its timestamp. -/
def AofProducer.recordBytes (record : AofRecord) (progress : List Nat) (producer : AofProducer)
    : AofProducer :=
  let large := decide (kAofChunkBytes < record.bytes.length)
  let crowded := producer.build.any fun chunk =>
    decide (kAofChunkBytes < chunk.bytes.length + record.bytes.length)
  let producer := if large || crowded then producer.seal context 0#32 else producer
  let chunk := producer.build.getD (makeChunk (beginFlags large))
  let producer := (AofProducer.sink context).write record progress
    { producer with build := some chunk }
  if large then producer.seal context aofFrameLargeEnd else producer

def timestampRecord (second : Int) : AofRecord :=
  { kind := AofRecordKind.timestamp.code, type := 0, encoding := 0, key := [], payload := []
    expire := -1, group := .ofInt 64 second
    keySized := noBytes_sized, payloadSized := noBytes_sized }

/-- The timestamp that goes before a record, if any: `clock` is the time in milliseconds when
timestamps are enabled.
-/
def AofProducer.dueTimestamp (clock : Option Int) (producer : AofProducer) : Option Int :=
  match clock with
  | none => none
  | some nowMs =>
    if nowMs.tdiv 1000 = producer.timestampSecond then none else some (nowMs.tdiv 1000)

def AofProducer.maybeTimestamp (clock : Option Int) (producer : AofProducer)
    : AofProducer :=
  match producer.dueTimestamp clock with
  | none => producer
  | some second =>
    AofProducer.recordBytes context (timestampRecord second) []
      { producer with timestampSecond := second }

/-- `begin_group`; nested groups fail the manager. -/
def AofProducer.beginGroup (decision : Nat) (producer : AofProducer) : Option AofProducer :=
  match producer.activeGroup with
  | some _ => none
  | none =>
    let producer := producer.seal false 0#32
    some { producer with
        staged := producer.staged ++ [.group { decision := decision, build := none, chunks := [] }]
        activeGroup := some producer.staged.length }

variable (producer : AofProducer)

def AofProducer.active : Option PendingGroup :=
  match producer.activeGroup.bind fun place => producer.staged[place]? with
  | some (.group pending) => some pending
  | _ => none

def AofProducer.onActive (change : PendingGroup → PendingGroup) (producer : AofProducer)
    : AofProducer :=
  match producer.activeGroup with
  | none => producer
  | some place => { producer with staged := producer.staged.modify place (.onGroup change) }

/-- `finish_group`; a group without chunks fails the manager. -/
def AofProducer.finishGroup : Option AofProducer :=
  match producer.active with
  | none => none
  | some pending =>
    if (pending.seal 0#32).chunks = [] then none
    else some { producer.onActive PendingGroup.finish with activeGroup := none }

/-- The loop of `resolve_groups` over what is staged; `none` when a ticket offset is refused. -/
def AofProducer.resolveItems (decisions : Nat → AofGroupDecision)
    : List StagedItem → AofProducer → Option AofProducer
  | [], producer => some { producer with staged := [] }
  | .plain chunk :: rest, producer => resolveItems decisions rest (producer.makeReady chunk)
  | .group pending :: rest, producer =>
    if (decisions pending.decision).aborted then resolveItems decisions rest producer
    else if (decisions pending.decision).ticket = 0#64 then
      some { producer with staged := .group pending :: rest }
    else do
      let chunks ← pending.chunks.mapM
        (AofChunk.resolve pending.decision (decisions pending.decision).ticket)
      resolveItems decisions rest (chunks.foldl (fun so chunk => so.makeReady chunk) producer)

/-- `flush`: what is built is sealed, groups are resolved, and the channel takes `accepted` of the
ready chunks. While a group is under construction nothing is resolved or posted.
-/
def AofProducer.flush (decisions : Nat → AofGroupDecision) (accepted : Nat)
    (producer : AofProducer) : Option AofProducer :=
  let producer := producer.seal false 0#32
  match producer.activeGroup with
  | some _ => some producer
  | none => (resolveItems decisions producer.staged producer).map (postReady accepted)

def AofProducer.hasPending : Bool :=
  producer.build.isSome || !producer.ready.isEmpty || !producer.staged.isEmpty

/-- A producer with the decisions its groups share. `calls` are the records it was asked to log,
in call order, each with the decision of its group.
-/
structure ProducerState where
  producer : AofProducer
  decisions : Nat → AofGroupDecision
  calls : List (Option Nat × AofRecord)

inductive ProducerEvent where
  /-- `record_post_image`, `record_post_image_buffered`, `record_delete` and `record_flush`. -/
  | record (context : Bool) (clock : Option Int) (record : AofRecord) (progress : List Nat)
  | beginGroup (decision : Nat)
  | groupRecord (record : AofRecord) (progress : List Nat)
  | finishGroup
  | commit (decision : Nat) (ticket : BitVec 64)
  | abort (decision : Nat)
  | flush (accepted : Nat)

namespace ProducerState

def init (sequence : BitVec 32) : ProducerState :=
  { producer := .init sequence, decisions := fun _ => ⟨0#64, false⟩, calls := [] }

def decided (state : ProducerState) (decision : Nat) : Bool :=
  (state.decisions decision).aborted || decide ((state.decisions decision).ticket ≠ 0#64)

/-- The owner closes a group before its next plain record; a decision is made once. -/
def step (state : ProducerState) : ProducerEvent → Option ProducerState
  | .record context clock record progress =>
    if state.producer.activeGroup.isSome then none
    else
      let stamps := (state.producer.dueTimestamp clock).toList.map
        fun second => (none, timestampRecord second)
      some { state with
          producer := (state.producer.maybeTimestamp context clock).recordBytes context record
            progress
          calls := state.calls ++ stamps ++ [(none, record)] }
  | .beginGroup decision =>
    (state.producer.beginGroup decision).map fun producer => { state with producer := producer }
  | .groupRecord record progress =>
    state.producer.active.map fun pending =>
      { state with
        producer := state.producer.onActive (PendingGroup.recordGroupBytes record progress)
        calls := state.calls ++ [(some pending.decision, record)] }
  | .finishGroup =>
    state.producer.finishGroup.map fun producer => { state with producer := producer }
  | .commit decision ticket =>
    if state.decided decision ∨ ticket = 0#64 then none
    else some { state with decisions := Function.update state.decisions decision ⟨ticket, false⟩ }
  | .abort decision =>
    if state.decided decision then none
    else some { state with decisions := Function.update state.decisions decision ⟨0#64, true⟩ }
  | .flush accepted =>
    (state.producer.flush state.decisions accepted).map fun producer =>
      { state with producer := producer }

end ProducerState

end Thredis.Persist
