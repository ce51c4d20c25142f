import Thredis.Persist.AofFraming

/-! What a producer hands to the writer over a whole run: its chunks frame the records of the
calls in call order, aborted groups left out, as long as every plain record's header and key fit
one chunk.
-/

namespace Thredis.Persist

open Thredis.Lib List

variable (decisions : Nat → AofGroupDecision)

def settle : Option Nat × AofRecord → Option AofRecord
  | (none, record) => some record
  | (some decision, record) =>
    if (decisions decision).aborted then none
    else some (record.ticketed (decisions decision).ticket)

def Settled (calls : List (Option Nat × AofRecord)) : Prop :=
  ∀ call ∈ calls, ∀ decision, call.1 = some decision
    → (decisions decision).aborted = true ∨ (decisions decision).ticket ≠ 0#64

def plainCalls (records : List AofRecord) : List (Option Nat × AofRecord) :=
  records.map fun record => (none, record)

def groupCalls (decision : Nat) (records : List AofRecord) : List (Option Nat × AofRecord) :=
  records.map fun record => (some decision, record)

theorem settle_plainCalls (records : List AofRecord)
    : (plainCalls records).filterMap (settle decisions) = records := by
  induction records with
  | nil => rfl
  | cons record rest ih => simpa [plainCalls, settle] using ih

variable {decisions : Nat → AofGroupDecision} {decision : Nat}

theorem settle_groupCalls (kept : (decisions decision).aborted = false) (records : List AofRecord)
    : (groupCalls decision records).filterMap (settle decisions)
      = records.map (.ticketed (decisions decision).ticket) := by
  induction records with
  | nil => rfl
  | cons record rest ih => simpa [groupCalls, settle, kept] using ih

theorem settle_groupCalls_aborted
    (aborted : (decisions decision).aborted = true) (records : List AofRecord)
    : (groupCalls decision records).filterMap (settle decisions) = [] := by
  induction records with
  | nil => rfl
  | cons record rest ih => simp [groupCalls, settle, aborted]

theorem Settled.append
    {front back : List (Option Nat × AofRecord)} (first : Settled decisions front)
    (second : Settled decisions back) : Settled decisions (front ++ back) := by
  intro call among
  rcases mem_append.mp among with early | late
  · exact first call early
  · exact second call late

theorem settled_plainCalls (decisions : Nat → AofGroupDecision) (records : List AofRecord)
    : Settled decisions (plainCalls records) := by
  intro call among decision grouped
  obtain ⟨record, _, rfl⟩ := mem_map.mp among
  exact absurd grouped (by simp)

theorem settled_groupCalls
    (settled : (decisions decision).aborted = true ∨ (decisions decision).ticket ≠ 0#64)
    (records : List AofRecord) : Settled decisions (groupCalls decision records) := by
  intro call among other grouped
  obtain ⟨record, _, rfl⟩ := mem_map.mp among
  cases grouped
  exact settled

def AofProducer.numbered (producer : AofProducer) : List NumberedChunk :=
  producer.posted ++ producer.ready

/-- (Consecutive first chunks) says that the chunks are numbered in order from `first`. -/
def Consecutive (first : BitVec 32) (chunks : List NumberedChunk) : Prop :=
  ∀ place chunk, chunks[place]? = some chunk → chunk.sequence = first + .ofNat 32 place

structure AofProducer.InSequence (first : BitVec 32) (producer : AofProducer) : Prop where
  consecutive : Consecutive first producer.numbered
  next : producer.sequence = first + .ofNat 32 producer.numbered.length

namespace AofProducer

@[simp]
theorem makeReady_numbered (producer : AofProducer) (chunk : AofChunk)
    : (producer.makeReady chunk).numbered = producer.numbered ++ [⟨producer.sequence, chunk⟩] := by
  simp [makeReady, numbered]

@[simp]
theorem postReady_numbered (producer : AofProducer) (accepted : Nat)
    : (producer.postReady accepted).numbered = producer.numbered := by
  simp [postReady, numbered]

variable {first : BitVec 32} {producer start : AofProducer}

theorem InSequence.makeReady (counted : producer.InSequence first) (chunk : AofChunk)
    : (producer.makeReady chunk).InSequence first where
  consecutive := by
    intro place numbered found
    rw [makeReady_numbered] at found
    by_cases inside : place < producer.numbered.length
    · rw [getElem?_append_left inside] at found
      exact counted.consecutive place numbered found
    · rw [getElem?_append_right (not_lt.mp inside), getElem?_singleton] at found
      obtain ⟨_, rfl⟩ := guard_taken found
      have atEnd : place = producer.numbered.length := by omega
      rw [atEnd]
      exact counted.next
  next := by
    rw [makeReady_numbered, length_append, BitVec.ofNat_add, ← BitVec.add_assoc, ← counted.next]
    rfl

theorem InSequence.postReady (counted : producer.InSequence first) (accepted : Nat)
    : (producer.postReady accepted).InSequence first where
  consecutive := by
    rw [postReady_numbered]
    exact counted.consecutive
  next := by
    rw [postReady_numbered]
    exact counted.next

/-- (Queued start first cut producer) says that since `start` the chunks `cut` were sealed: they
are numbered at once, or wait behind what was already staged.
-/
structure Queued (start : AofProducer) (first : BitVec 32) (cut : List AofChunk)
    (producer : AofProducer) : Prop where
  active : producer.activeGroup = start.activeGroup
  counted : producer.InSequence first
  direct : start.staged = [] → producer.staged = []
    ∧ producer.numbered.map (·.chunk) = start.numbered.map (·.chunk) ++ cut
  behind : start.staged ≠ [] → producer.staged = start.staged ++ cut.map .plain
    ∧ producer.numbered.map (·.chunk) = start.numbered.map (·.chunk)

theorem Queued.refl (counted : start.InSequence first)
    : Queued start first [] start :=
  ⟨rfl, counted, fun empty => ⟨empty, by simp⟩, fun _ => by simp⟩

variable {cut : List AofChunk}

section

variable (queued : Queued start first cut producer)

include queued

/-- Only the queues matter, not the chunk being built. -/
theorem Queued.setBuild (build : Option AofChunk)
    : Queued start first cut { producer with build } :=
  { queued with counted := ⟨queued.counted.consecutive, queued.counted.next⟩ }

theorem Queued.enqueue (chunk : AofChunk)
    : Queued start first (cut ++ [chunk]) (producer.enqueue chunk) := by
  by_cases empty : start.staged = []
  · obtain ⟨stagedEq, numberedEq⟩ := queued.direct empty
    have ready : producer.enqueue chunk = producer.makeReady chunk := if_pos stagedEq
    rw [ready]
    exact ⟨queued.active, queued.counted.makeReady chunk,
      fun _ => ⟨stagedEq, by simp [numberedEq]⟩, absurd empty⟩
  · obtain ⟨stagedEq, numberedEq⟩ := queued.behind empty
    have waits : producer.enqueue chunk
        = { producer with staged := producer.staged ++ [.plain chunk] } :=
      if_neg (by simp [stagedEq, empty])
    rw [waits]
    exact ⟨queued.active, { queued.counted with },
      fun none => absurd none empty, fun _ => ⟨by simp [stagedEq], numberedEq⟩⟩

theorem Queued.postReady (accepted : Nat)
    : Queued start first cut (producer.postReady accepted) :=
  ⟨queued.active, queued.counted.postReady accepted,
    fun empty => by rw [postReady_numbered]; exact queued.direct empty,
    fun some => by rw [postReady_numbered]; exact queued.behind some⟩

/-- `seal` queues the chunk being built. -/
theorem Queued.seal {chunk : AofChunk} (built : producer.build = some chunk) (context : Bool)
    (flags : BitVec 32)
    : Queued start first (cut ++ [chunk.mark flags]) (producer.seal context flags) := by
  have enqueued := (queued.setBuild none).enqueue (chunk.mark flags)
  simp only [AofProducer.seal, built]
  split
  · exact enqueued.postReady _
  · exact enqueued

end

theorem enqueue_build (producer : AofProducer) (chunk : AofChunk)
    : (producer.enqueue chunk).build = producer.build := by
  unfold enqueue
  split <;> rfl

@[simp]
theorem seal_build (producer : AofProducer) (context : Bool) (flags : BitVec 32)
    : (producer.seal context flags).build = none := by
  unfold AofProducer.seal
  split
  · assumption
  · split
    · exact enqueue_build _ _
    · exact enqueue_build _ _

theorem sink_lawful (start : AofProducer) (first : BitVec 32) (context : Bool)
    : (sink context).Lawful (Queued start first) where
  build_setBuild _ _ := rfl
  build_seal flags producer := seal_build producer context flags
  building_refill _ _ := .inr rfl
  emitted_setBuild _ _ _ queued := queued.setBuild _
  emitted_seal _ _ flags _ queued built := queued.seal built context flags
  emitted_refill _ _ queued := queued.setBuild _

end AofProducer

-- Queues that hold the calls

/-- (Laid items calls) says that the staged items hold the records of the calls: plain chunks
frame plain records, and each group is finished.
-/
inductive Laid : List StagedItem → List (Option Nat × AofRecord) → Prop
  | nil : Laid [] []
  | plain {chunks : List AofChunk} {records items rest}
      (framed : Framed records (chunks.map AofChunk.frame)) (onward : Laid items rest)
    : Laid (chunks.map .plain ++ items) (plainCalls records ++ rest)
  | group {pending : PendingGroup} {records items rest}
      (some : records ≠ []) (resolvable : Resolvable records pending.chunks)
      (onward : Laid items rest)
    : Laid (.group pending :: items) (groupCalls pending.decision records ++ rest)

theorem Laid.append {front back : List StagedItem} {before after : List (Option Nat × AofRecord)}
    (first : Laid front before) (second : Laid back after)
    : Laid (front ++ back) (before ++ after) := by
  induction first with
  | nil => exact second
  | plain framed _ ih =>
    rw [append_assoc, append_assoc]
    exact .plain framed ih
  | group some resolvable _ ih =>
    rw [append_assoc]
    exact .group some resolvable ih

variable {records : List AofRecord} {frames : List (BitVec 32 × Bytes)}

theorem Framed.of_nil (framed : Framed records frames) (empty : frames = []) : records = [] := by
  cases framed with
  | nil => rfl
  | whole | large => exact absurd empty (by simp)

theorem Framed.no_frames (framed : Framed records frames) (empty : records = []) : frames = [] := by
  cases framed with
  | nil => rfl
  | whole some => exact absurd (append_eq_nil_iff.mp empty).1 some
  | large => exact absurd empty (by simp)

theorem Laid.of_nil {items : List StagedItem} {calls : List (Option Nat × AofRecord)}
    (laid : Laid items calls) (empty : items = []) : calls = [] := by
  induction laid with
  | nil => rfl
  | plain framed _ ih =>
    obtain ⟨none, rest⟩ := append_eq_nil_iff.mp empty
    rw [framed.of_nil (by simpa using none), ih rest]
    rfl
  | group => exact absurd empty (by simp)

/-- (Holds first decisions calls producer) says that the numbered and the staged chunks hold
these calls: the numbered ones frame the records of settled calls, and the staged ones follow.
-/
def AofProducer.Holds (first : BitVec 32) (decisions : Nat → AofGroupDecision)
    (calls : List (Option Nat × AofRecord)) (producer : AofProducer) : Prop :=
  producer.InSequence first
  ∧ ∃ done waiting,
      calls = done ++ waiting ∧ Settled decisions done
      ∧ Framed (done.filterMap (settle decisions)) (producer.numbered.map (·.chunk.frame))
      ∧ Laid producer.staged waiting

/-- What is being built holds plain records that are not yet sealed. -/
def PlainOpen (kept : List AofRecord) : Option AofChunk → Prop
  | none => kept = []
  | some chunk =>
    kept ≠ [] ∧ chunk.flags = 0#32 ∧ chunk.bytes = kept.flatMap AofRecord.bytes
    ∧ chunk.bytes.length ≤ kAofChunkBytes

namespace AofProducer

variable {first : BitVec 32} {decisions : Nat → AofGroupDecision}
  {calls : List (Option Nat × AofRecord)}

variable {producer : AofProducer}

/-- Framed plain records that are queued join the calls held. -/
theorem Holds.queue {start : AofProducer} (holds : start.Holds first decisions calls)
    {cut : List AofChunk} (queued : Queued start first cut producer)
    (framed : Framed records (cut.map AofChunk.frame))
    : producer.Holds first decisions (calls ++ plainCalls records) := by
  obtain ⟨_, done, waiting, rfl, settled, doneFramed, laid⟩ := holds
  have frames (all : List NumberedChunk)
      : all.map (·.chunk.frame) = (all.map (·.chunk)).map AofChunk.frame := by
    rw [map_map]
    rfl
  refine ⟨queued.counted, ?_⟩
  by_cases empty : start.staged = []
  · obtain ⟨stagedEq, numberedEq⟩ := queued.direct empty
    refine ⟨done ++ plainCalls records, [], ?_, settled.append (settled_plainCalls _ _), ?_, ?_⟩
    · rw [laid.of_nil empty, append_nil, append_nil]
    · rw [filterMap_append, settle_plainCalls, frames, numberedEq, map_append, ← frames]
      exact doneFramed.append framed
    · rw [stagedEq]
      exact .nil
  · obtain ⟨stagedEq, numberedEq⟩ := queued.behind empty
    refine ⟨done, waiting ++ plainCalls records, by rw [append_assoc], settled, ?_, ?_⟩
    · rw [frames, numberedEq, ← frames]
      exact doneFramed
    · rw [stagedEq]
      have more : Laid (cut.map .plain ++ []) (plainCalls records ++ []) := .plain framed .nil
      rw [append_nil, append_nil] at more
      exact laid.append more

/-- `seal` between records queues what is being built. -/
theorem Holds.seal (holds : producer.Holds first decisions calls)
    {kept : List AofRecord} (holding : PlainOpen kept producer.build) (context : Bool)
    : (producer.seal context 0#32).Holds first decisions (calls ++ plainCalls kept)
      ∧ (producer.seal context 0#32).activeGroup = producer.activeGroup := by
  cases built : producer.build with
  | none =>
    have same : producer.seal context 0#32 = producer := by simp [AofProducer.seal, built]
    rw [built] at holding
    obtain rfl := holding
    rw [same]
    simpa [plainCalls] using holds
  | some chunk =>
    rw [built] at holding
    obtain ⟨some, unmarked, bytesEq, sized⟩ := holding
    have queued := (Queued.refl holds.1).seal built context 0#32
    have framed : Framed (kept ++ []) [chunk.frame] := .whole some unmarked bytesEq sized .nil
    rw [append_nil] at framed
    refine ⟨holds.queue queued ?_, queued.active⟩
    rw [AofChunk.mark_zero]
    exact framed

variable {record : AofRecord}

section

variable (holds : producer.Holds first decisions calls)

include holds

/-- A long record whose header and key fit a chunk is queued in framed chunks of its own. -/
theorem Holds.recordLong (long : kAofChunkBytes < record.bytes.length)
    (room : kAofRecordHeaderBytes + record.key.length ≤ kAofChunkBytes) (context : Bool)
    (progress : List Nat) {written : AofProducer} (writes : (sink context).write record progress
      { producer with build := some (makeChunk aofFrameLargeBegin) } = written)
    : (written.seal context aofFrameLargeEnd).Holds first decisions (calls ++ plainCalls [record])
      ∧ (written.seal context aofFrameLargeEnd).activeGroup = producer.activeGroup := by
  have start := (Queued.refl holds.1).setBuild (some (makeChunk aofFrameLargeBegin))
  obtain ⟨more, last, spilled, ends, queued⟩ :=
    (sink_lawful producer first context).write_spills_of_room
      (show (sink context).build { producer with build := some (makeChunk aofFrameLargeBegin) }
        = some (makeChunk aofFrameLargeBegin) from rfl) start record progress (by simpa using room)
  rw [writes] at ends queued
  have closed := queued.seal ends context aofFrameLargeEnd
  exact ⟨holds.queue closed (.of_spill long rfl rfl spilled), closed.active⟩

/-- A record that fits the chunk being built joins it. -/
theorem Holds.recordShort (kept : List AofRecord) (chunk : AofChunk) (unmarked : chunk.flags = 0#32)
    (bytesEq : chunk.bytes = kept.flatMap AofRecord.bytes)
    (room : chunk.bytes.length + record.bytes.length ≤ kAofChunkBytes) (context : Bool)
    (progress : List Nat) {written : AofProducer}
    (writes : (sink context).write record progress { producer with build := some chunk } = written)
    : written.Holds first decisions calls ∧ written.activeGroup = producer.activeGroup
      ∧ PlainOpen (kept ++ [record]) written.build := by
  have headed := record.bytes_length
  have start := (Queued.refl holds.1).setBuild (some chunk)
  obtain ⟨more, last, spilled, ends, queued⟩ :=
    (sink_lawful producer first context).write_spills_of_room
      (show (sink context).build { producer with build := some chunk } = some chunk
        from rfl) start record progress (by omega)
  rw [writes] at ends queued
  obtain ⟨rfl, rfl⟩ := spilled.of_room room
  have same := holds.queue queued Framed.nil
  have ends : written.build = some (chunk.put record.bytes) := ends
  refine ⟨by simpa [plainCalls] using same, queued.active, ?_⟩
  rw [ends]
  exact ⟨by simp, unmarked, by simp [bytesEq], by simpa using room⟩

/-- `record_bytes` adds its record to the calls held, in the queues or in the chunk being built. -/
theorem Holds.recordBytes {kept : List AofRecord} (holding : PlainOpen kept producer.build)
    (room : kAofRecordHeaderBytes + record.key.length ≤ kAofChunkBytes) (context : Bool)
    (progress : List Nat)
    : ∃ queued still,
        kept ++ [record] = queued ++ still
        ∧ (producer.recordBytes context record progress).Holds first decisions
            (calls ++ plainCalls queued)
        ∧ PlainOpen still (producer.recordBytes context record progress).build
        ∧ (producer.recordBytes context record progress).activeGroup = producer.activeGroup := by
  obtain ⟨sealedHolds, sealedActive⟩ := holds.seal holding context
  by_cases long : kAofChunkBytes < record.bytes.length
  · obtain ⟨recorded, active⟩ := sealedHolds.recordLong long room context progress rfl
    have recordedEq : producer.recordBytes context record progress
        = ((AofProducer.sink context).write record progress { producer.seal context 0#32 with
            build := some (makeChunk aofFrameLargeBegin) }).seal context aofFrameLargeEnd := by
      simp [AofProducer.recordBytes, long, beginFlags]
    rw [recordedEq]
    refine ⟨kept ++ [record], [], by simp, ?_, by simp [PlainOpen], active.trans sealedActive⟩
    simpa [plainCalls] using recorded
  have short := not_lt.mp long
  cases built : producer.build with
  | none =>
    rw [built] at holding
    obtain rfl := holding
    have recordedEq : producer.recordBytes context record progress
        = (sink context).write record progress
            { producer with build := some (makeChunk 0#32) } := by
      simp [AofProducer.recordBytes, long, built, beginFlags]
    obtain ⟨recorded, active, still⟩ := holds.recordShort [] (makeChunk 0#32) rfl rfl
      (by simpa using short) context progress recordedEq.symm
    exact ⟨[], [record], rfl, by simpa [plainCalls] using recorded, still, active⟩
  | some chunk =>
    by_cases crowded : kAofChunkBytes < chunk.bytes.length + record.bytes.length
    · have recordedEq : producer.recordBytes context record progress
          = (AofProducer.sink context).write record progress { producer.seal context 0#32 with
              build := some (makeChunk 0#32) } := by
        simp [AofProducer.recordBytes, long, built, crowded, beginFlags]
      obtain ⟨recorded, active, still⟩ := sealedHolds.recordShort [] (makeChunk 0#32) rfl rfl
        (by simpa using short) context progress recordedEq.symm
      exact ⟨kept, [record], rfl, recorded, still, active.trans sealedActive⟩
    · have recordedEq : producer.recordBytes context record progress
          = (AofProducer.sink context).write record progress
              { producer with build := some chunk } := by
        simp [AofProducer.recordBytes, long, built, crowded]
      rw [built] at holding
      obtain ⟨_, unmarked, bytesEq, _⟩ := holding
      obtain ⟨recorded, active, still⟩ := holds.recordShort kept chunk unmarked bytesEq
        (not_lt.mp crowded) context progress recordedEq.symm
      exact ⟨[], kept ++ [record], rfl, by simpa [plainCalls] using recorded, still, active⟩

end

def readyAll (chunks : List AofChunk) (producer : AofProducer) : AofProducer :=
  chunks.foldl (fun so chunk => so.makeReady chunk) producer

/-- Witness: induction over the chunks. -/
theorem readyAll_spec (chunks : List AofChunk) (counted : producer.InSequence first)
    : (readyAll chunks producer).InSequence first
      ∧ (readyAll chunks producer).numbered.map (·.chunk)
        = producer.numbered.map (·.chunk) ++ chunks
      ∧ (readyAll chunks producer).build = producer.build
      ∧ (readyAll chunks producer).activeGroup = producer.activeGroup := by
  induction chunks generalizing producer with
  | nil => exact ⟨counted, by simp [readyAll], rfl, rfl⟩
  | cons chunk rest ih =>
    obtain ⟨later, numberedEq, buildEq, activeEq⟩ := ih (counted.makeReady chunk)
    refine ⟨later, ?_, buildEq, activeEq⟩
    simpa [readyAll] using numberedEq

/-- Plain chunks at the front of what is staged are made ready. -/
theorem resolveItems_plain (decisions : Nat → AofGroupDecision) (chunks : List AofChunk)
    (items : List StagedItem) (producer : AofProducer)
    : resolveItems decisions (chunks.map .plain ++ items) producer
      = resolveItems decisions items (readyAll chunks producer) := by
  induction chunks generalizing producer with
  | nil => rfl
  | cons chunk rest ih => exact ih (producer.makeReady chunk)

/-- `resolve_groups` keeps the calls held, and no ticket offset is refused.
Witness: induction over what is staged. An aborted group settles to nothing, a committed one to
its framed chunks, and the first undecided one keeps everything behind it waiting.
-/
theorem resolveItems_holds {items : List StagedItem} {waiting : List (Option Nat × AofRecord)}
    (laid : Laid items waiting)
    {done : List (Option Nat × AofRecord)} (counted : producer.InSequence first)
    (settled : Settled decisions done)
    (framed : Framed (done.filterMap (settle decisions)) (producer.numbered.map (·.chunk.frame)))
    : ∃ resolved,
        resolveItems decisions items producer = some resolved
        ∧ resolved.Holds first decisions (done ++ waiting)
        ∧ resolved.build = producer.build ∧ resolved.activeGroup = producer.activeGroup := by
  have frames (all : List NumberedChunk)
      : all.map (·.chunk.frame) = (all.map (·.chunk)).map AofChunk.frame := by
    rw [map_map]
    rfl
  induction laid generalizing producer done with
  | nil =>
    exact ⟨_, rfl, ⟨{ counted with }, done, [], rfl, settled, framed, .nil⟩, rfl, rfl⟩
  | @plain chunks records items rest chunksFramed _ ih =>
    obtain ⟨ready, numberedEq, buildEq, activeEq⟩ := readyAll_spec chunks counted
    have more : Framed ((done ++ plainCalls records).filterMap (settle decisions))
        ((readyAll chunks producer).numbered.map (·.chunk.frame)) := by
      rw [filterMap_append, settle_plainCalls, frames, numberedEq, map_append, ← frames]
      exact framed.append chunksFramed
    obtain ⟨resolved, eq, holds, build, active⟩ :=
      ih ready (settled.append (settled_plainCalls _ _)) more
    rw [resolveItems_plain, ← append_assoc]
    exact ⟨resolved, eq, holds, build.trans buildEq, active.trans activeEq⟩
  | @group pending records items rest present resolvable onward ih =>
    rw [resolveItems]
    by_cases aborted : (decisions pending.decision).aborted = true
    · rw [if_pos aborted, ← append_assoc]
      refine ih counted (settled.append (settled_groupCalls (.inl aborted) records)) ?_
      rwa [filterMap_append, settle_groupCalls_aborted aborted, append_nil]
    rw [if_neg aborted]
    by_cases undecided : (decisions pending.decision).ticket = 0#64
    · rw [if_pos undecided]
      exact ⟨_, rfl, ⟨{ counted with }, done, _, rfl, settled, framed,
        .group present resolvable onward⟩, rfl, rfl⟩
    rw [if_neg undecided]
    obtain ⟨out, outEq, outFramed⟩ :=
      resolvable pending.decision (decisions pending.decision).ticket
    obtain ⟨ready, numberedEq, buildEq, activeEq⟩ := readyAll_spec out counted
    have more : Framed ((done ++ groupCalls pending.decision records).filterMap (settle decisions))
        ((readyAll out producer).numbered.map (·.chunk.frame)) := by
      rw [filterMap_append, settle_groupCalls (by simpa using aborted), frames, numberedEq,
        map_append, ← frames]
      exact framed.append outFramed
    obtain ⟨resolved, eq, holds, build, active⟩ :=
      ih ready (settled.append (settled_groupCalls (.inr undecided) records)) more
    rw [← append_assoc]
    refine ⟨resolved, ?_, holds, build.trans buildEq, active.trans activeEq⟩
    rw [outEq]
    exact eq

end AofProducer

end Thredis.Persist
