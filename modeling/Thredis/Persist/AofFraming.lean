import Thredis.Lib.Runs
import Thredis.Persist.AofChunking

/-! The framing of a record stream in chunks, and how the chunks of a group keep it when the
ticket is filled in.
-/

namespace Thredis.Persist

open Thredis.Lib PendingGroup AofChunk List

def AofChunk.frame (chunk : AofChunk) : BitVec 32 × Bytes := (chunk.flags, chunk.bytes)

@[simp]
theorem AofChunk.frame_fst (chunk : AofChunk) : chunk.frame.1 = chunk.flags := rfl

@[simp]
theorem AofChunk.frame_snd (chunk : AofChunk) : chunk.frame.2 = chunk.bytes := rfl

/-- (Framed records frames) says that the frames hold the records in order: records that fit a
chunk lie whole in unmarked chunks, and a longer record has a run of chunks of its own, of which
exactly the first is marked `LargeBegin` and exactly the last `LargeEnd`.
-/
inductive Framed : List AofRecord → List (BitVec 32 × Bytes) → Prop
  | nil : Framed [] []
  | whole {records rest frame frames} (some : records ≠ []) (unmarked : frame.1 = 0#32)
      (holds : frame.2 = records.flatMap AofRecord.bytes)
      (sized : frame.2.length ≤ kAofChunkBytes) (onward : Framed rest frames)
    : Framed (records ++ rest) (frame :: frames)
  | large {record rest first middle last frames} (long : kAofChunkBytes < record.bytes.length)
      (begins : first.1 = aofFrameLargeBegin) (unmarked : ∀ frame ∈ middle, frame.1 = 0#32)
      (ends : last.1 = aofFrameLargeEnd)
      (holds : (first :: middle ++ [last]).flatMap (·.2) = record.bytes)
      (sized : ∀ frame ∈ first :: middle ++ [last], frame.2.length ≤ kAofChunkBytes)
      (onward : Framed rest frames)
    : Framed (record :: rest) (first :: middle ++ last :: frames)

theorem Framed.append {front back : List AofRecord} {before after : List (BitVec 32 × Bytes)}
    (first : Framed front before) (second : Framed back after)
    : Framed (front ++ back) (before ++ after) := by
  induction first with
  | nil => exact second
  | whole some unmarked holds sized _ ih =>
    rw [append_assoc]
    exact .whole some unmarked holds sized ih
  | @large record rest begins middle last frames long isBegin unmarked isEnd holds sized _ ih =>
    have joined := Framed.large long isBegin unmarked isEnd holds sized ih
    simpa using joined

variable {records : List AofRecord} {frames : List (BitVec 32 × Bytes)}

/-- Framed chunks concatenate to the records. -/
theorem Framed.bytes_eq (framed : Framed records frames)
    : frames.flatMap (·.2) = records.flatMap AofRecord.bytes := by
  induction framed with
  | nil => rfl
  | whole some unmarked holds sized _ ih => simp [holds, ih]
  | large long isBegin unmarked isEnd holds sized _ ih =>
    rw [flatMap_cons, ← holds, ← ih]
    simp

theorem Framed.sized (framed : Framed records frames)
    : ∀ frame ∈ frames, frame.2.length ≤ kAofChunkBytes := by
  induction framed with
  | nil => simp
  | whole some unmarked holds sized _ ih => simpa using ⟨sized, fun a b => ih (a, b)⟩
  | large long isBegin unmarked isEnd holds sized _ ih =>
    intro frame among
    simp only [cons_append, mem_cons, mem_append] at among sized
    rcases among with rfl | inside | rfl | later
    · exact sized _ (.inl rfl)
    · exact sized _ (.inr (.inl inside))
    · exact sized _ (by simp)
    · exact ih frame later

variable {record : AofRecord} {last chunk : AofChunk}

/-- A marked first chunk, fresh chunks behind it, and the last of them marked as the end frame
one long record.
-/
theorem Framed.largeRun {first : BitVec 32 × Bytes} {middle : List AofChunk}
    (long : kAofChunkBytes < record.bytes.length) (isBegin : first.1 = aofFrameLargeBegin)
    (fresh : ∀ piece ∈ middle ++ [last], piece = (makeChunk 0#32).put piece.bytes)
    (holds : first.2 ++ (middle ++ [last]).flatMap (·.bytes) = record.bytes)
    (firstSized : first.2.length ≤ kAofChunkBytes)
    (sized : ∀ piece ∈ middle ++ [last], piece.bytes.length ≤ kAofChunkBytes)
    : Framed [record] (first :: (middle ++ [last.mark aofFrameLargeEnd]).map frame) := by
  have framed : Framed [record]
      (first :: middle.map frame ++ (last.mark aofFrameLargeEnd).frame :: []) := by
    refine .large long isBegin ?_ ?_ ?_ ?_ .nil
    · intro frame among
      obtain ⟨piece, inside, rfl⟩ := mem_map.mp among
      rw [fresh piece (by simp [inside])]
      rfl
    · rw [fresh last (by simp)]
      simp [mark, put, makeChunk]
    · rw [← holds]
      simp [flatMap_map, mark]
    · intro frame among
      simp only [cons_append, mem_cons, mem_append, mem_map] at among
      rcases among with rfl | ⟨piece, inside, rfl⟩ | rfl | never
      · exact firstSized
      · exact sized piece (by simp [inside])
      · exact sized last (by simp)
      · exact absurd never (by simp)
  rwa [map_append]

variable {cut : List AofChunk}

/-- The chunks a long record spills into, apart from the first. -/
theorem Spill.long {bytes : Bytes} (spilled : Spill chunk bytes cut last) (empty : chunk.bytes = [])
    (long : kAofChunkBytes < bytes.length)
    : ∃ front middle,
        cut = chunk.put front :: middle ∧ front.length = kAofChunkBytes
        ∧ (∀ piece ∈ middle ++ [last], piece = (makeChunk 0#32).put piece.bytes)
        ∧ front ++ (middle ++ [last]).flatMap (·.bytes) = bytes := by
  have holds := spilled.bytes_eq
  rcases spilled.shape with ⟨rfl, rfl⟩ | ⟨front, middle, rfl, brim, fresh, freshLast⟩
  · -- one chunk would be too small
    have short := spilled.sized (chunk.put bytes) (by simp)
    rw [put_bytes, length_append] at short
    omega
  · refine ⟨front, middle, rfl, by simpa [empty] using brim, ?_, by simpa using holds⟩
    intro piece among
    rcases mem_append.mp among with inside | atEnd
    · exact fresh piece inside
    · rw [mem_singleton.mp atEnd]
      exact freshLast

/-- A record that spills from a fresh chunk marked as its begin, and whose last chunk is marked as
its end, is framed.
-/
theorem Framed.of_spill {first : AofChunk}
    (long : kAofChunkBytes < record.bytes.length) (isBegin : first.flags = aofFrameLargeBegin)
    (empty : first.bytes = []) (spilled : Spill first record.bytes cut last)
    : Framed [record] ((cut ++ [last.mark aofFrameLargeEnd]).map frame) := by
  have sized := spilled.sized
  obtain ⟨front, middle, rfl, brim, fresh, holds⟩ := spilled.long empty long
  refine Framed.largeRun long isBegin fresh (by simpa [empty] using holds)
    (by simpa [empty] using brim.le) ?_
  intro piece among
  exact sized piece (mem_cons_of_mem _ among)

-- Filling in tickets

variable {ticket : BitVec 64}

theorem patchTicket_append {front out : Bytes} {offset : Nat}
    (patched : patchTicket ticket front offset = some out) (back : Bytes)
    : patchTicket ticket (front ++ back) offset = some (out ++ back)
      ∧ out.length = front.length := by
  unfold patchTicket at patched ⊢
  obtain ⟨inside, rfl⟩ := guard_passed patched
  rw [take_append_of_le_length (by omega), drop_append_of_le_length (by omega)]
  simp
  omega

/-- Tickets filled in at the front leave what stands behind.
Witness: induction over the offsets.
-/
theorem patchTickets_append {offsets : List Nat} {front out : Bytes}
    (patched : offsets.foldlM (patchTicket ticket) front = some out) (back : Bytes)
    : offsets.foldlM (patchTicket ticket) (front ++ back) = some (out ++ back)
      ∧ out.length = front.length := by
  induction offsets generalizing front with
  | nil =>
    cases patched
    exact ⟨rfl, rfl⟩
  | cons offset rest ih =>
    obtain ⟨next, here, later⟩ := Option.bind_eq_some_iff.mp patched
    obtain ⟨hereBack, hereLength⟩ := patchTicket_append here back
    obtain ⟨laterBack, laterLength⟩ := ih later
    rw [foldlM_cons, hereBack]
    exact ⟨laterBack, laterLength.trans hereLength⟩

@[simp]
theorem AofRecord.ticketed_bytes_length (record : AofRecord) (ticket : BitVec 64)
    : (record.ticketed ticket).bytes.length = record.bytes.length := by
  rfl

/-- The ticket stands 32 bytes into the record. -/
theorem AofRecord.patch (record : AofRecord) (ticket : BitVec 64) (front : Bytes)
    : patchTicket ticket (front ++ (record.ticketed 0#64).bytes) (front.length + 32)
      = some (front ++ (record.ticketed ticket).bytes) := by
  obtain ⟨before, sized, split⟩ : ∃ before : Bytes, before.length = 32 ∧ ∀ group,
      (record.ticketed group).bytes
        = before ++ (snapshotPutU64 group ++ (record.key ++ record.payload)) := by
    refine ⟨snapshotPutU32 kAofRecordTag ++ ([record.kind, record.type, record.encoding, 1]
      ++ (snapshotPutU32 (.ofNat 32 record.key.length)
      ++ (snapshotPutU32 (.ofNat 32 kAofRecordHeaderBytes)
      ++ (snapshotPutU64 (.ofNat 64 record.payload.length) ++ snapshotPutU64 record.expire)))),
      ?_, ?_⟩
    · simp
    · simp [bytes, header, ticketed]
  have here : (front ++ before).length = front.length + 32 := by
    rw [length_append, sized]
  have behind : (front ++ before ++ snapshotPutU64 0#64).length = front.length + 32 + 8 := by
    rw [length_append, here, snapshotPutU64_length]
  rw [split, split, ← append_assoc, patchTicket, if_neg, take_left' here,
    ← append_assoc _ (snapshotPutU64 0#64), drop_left' behind]
  · simp
  · rw [length_append, here, length_append, snapshotPutU64_length]
    omega

/-- (Resolvable records chunks) says that the chunks of a group frame its records, whatever
ticket it commits with.
-/
def Resolvable (records : List AofRecord) (chunks : List AofChunk) : Prop :=
  ∀ decision ticket, ∃ out,
    chunks.mapM (AofChunk.resolve decision ticket) = some out
    ∧ Framed (records.map (.ticketed ticket)) (out.map AofChunk.frame)

theorem Resolvable.nil : Resolvable [] [] := fun _ _ => ⟨[], rfl, .nil⟩

theorem Resolvable.append {front back : List AofRecord} {before after : List AofChunk}
    (first : Resolvable front before) (second : Resolvable back after)
    : Resolvable (front ++ back) (before ++ after) := by
  intro decision ticket
  obtain ⟨firstOut, firstEq, firstFramed⟩ := first decision ticket
  obtain ⟨secondOut, secondEq, secondFramed⟩ := second decision ticket
  refine ⟨firstOut ++ secondOut, ?_, ?_⟩
  · simp [firstEq, secondEq]
  · rw [map_append, map_append]
    exact firstFramed.append secondFramed

/-- A chunk that holds these records of a group and goes on. -/
structure OpenChunk (records : List AofRecord) (chunk : AofChunk) : Prop where
  unmarked : chunk.flags = 0#32
  sized : chunk.bytes.length ≤ kAofChunkBytes
  holds : chunk.bytes = (records.map (.ticketed 0#64)).flatMap AofRecord.bytes
  tickets : ∀ ticket, chunk.groupTicketOffsets.foldlM (patchTicket ticket) chunk.bytes
    = some ((records.map (.ticketed ticket)).flatMap AofRecord.bytes)

theorem OpenChunk.fresh : OpenChunk [] (makeChunk 0#32) where
  unmarked := rfl
  sized := by simp
  holds := rfl
  tickets _ := rfl

theorem OpenChunk.resolvable
    (holding : OpenChunk records chunk) (present : records ≠ []) : Resolvable records [chunk] := by
  intro decision ticket
  obtain ⟨patched, lengthEq⟩ := patchTickets_append (holding.tickets ticket) []
  refine ⟨[{ chunk with
      group := some decision
      bytes := (records.map (.ticketed ticket)).flatMap AofRecord.bytes }], ?_, ?_⟩
  · simp [resolve, holding.tickets ticket]
  · have framed : Framed (records.map (.ticketed ticket) ++ [])
        [(chunk.flags, (records.map (.ticketed ticket)).flatMap AofRecord.bytes)] :=
      .whole (by simpa using present) holding.unmarked rfl (by
        rw [lengthEq]
        exact holding.sized) .nil
    rw [append_nil] at framed
    exact framed

/-- A record that fits joins the records of the chunk. -/
theorem OpenChunk.snoc (holding : OpenChunk records chunk)
    (room : chunk.bytes.length + record.bytes.length ≤ kAofChunkBytes)
    : OpenChunk (records ++ [record]) { chunk with
          groupTicketOffsets := chunk.groupTicketOffsets ++ [chunk.bytes.length + 32]
          bytes := chunk.bytes ++ (record.ticketed 0#64).bytes } where
  unmarked := holding.unmarked
  sized := by simpa using room
  holds := by simp [holding.holds]
  tickets ticket := by
    obtain ⟨patched, lengthEq⟩ :=
      patchTickets_append (holding.tickets ticket) (record.ticketed 0#64).bytes
    rw [foldlM_append, patched]
    have last := record.patch ticket ((records.map (.ticketed ticket)).flatMap AofRecord.bytes)
    rw [lengthEq] at last
    simpa using last

/-- A large record of a group resolves to a framed one.
Witness: the header lies in the first chunk, where the ticket is patched, and the other chunks
have no ticket.
-/
theorem Resolvable.of_spill {first : AofChunk}
    (long : kAofChunkBytes < record.bytes.length) (isBegin : first.flags = aofFrameLargeBegin)
    (empty : first.bytes = []) (offsets : first.groupTicketOffsets = [32])
    (spilled : Spill first (record.ticketed 0#64).bytes cut last)
    : Resolvable [record] (cut ++ [last.mark aofFrameLargeEnd]) := by
  intro decision ticket
  have sized := spilled.sized
  obtain ⟨front, middle, rfl, brim, fresh, holds⟩ := spilled.long empty (by simpa using long)
  obtain ⟨patched, patchedEq⟩ : ∃ patched, patchTicket ticket front 32 = some patched :=
    ⟨_, if_neg (by rw [brim]; decide)⟩
  -- behind the first chunk nothing is patched
  have later : ∀ pieces : List AofChunk, (∀ piece ∈ pieces, piece.groupTicketOffsets = [])
      → pieces.mapM (resolve decision ticket)
        = some (pieces.map fun piece => { piece with group := some decision }) := by
    intro pieces
    induction pieces with
    | nil => exact fun _ => rfl
    | cons piece rest ih =>
      intro none
      simp [resolve, none piece (by simp), ih fun other among => none other (by simp [among])]
  have unticketed : ∀ piece ∈ middle ++ [last.mark aofFrameLargeEnd],
      piece.groupTicketOffsets = [] := by
    intro piece among
    rcases mem_append.mp among with inside | atEnd
    · rw [fresh piece (by simp [inside])]
      rfl
    · rw [mem_singleton.mp atEnd, fresh last (by simp)]
      rfl
  have resolved : (first.put front).resolve decision ticket
      = some { first with group := some decision, bytes := patched } := by
    simp [resolve, put, empty, offsets, patchedEq]
  have holding : patched ++ (middle ++ [last]).flatMap (·.bytes)
      = (record.ticketed ticket).bytes := by
    have whole := (patchTicket_append patchedEq ((middle ++ [last]).flatMap (·.bytes))).1
    have direct := record.patch ticket []
    rw [holds] at whole
    exact Option.some.inj (whole.symm.trans direct)
  refine ⟨{ first with group := some decision, bytes := patched }
    :: (middle ++ [last.mark aofFrameLargeEnd]).map
      fun piece => { piece with group := some decision }, ?_, ?_⟩
  · rw [cons_append, mapM_cons, resolved, later _ unticketed]
    rfl
  have framed : Framed [record.ticketed ticket]
      ((first.flags, patched) :: (middle ++ [last.mark aofFrameLargeEnd]).map frame) := by
    refine Framed.largeRun (by exact long) isBegin fresh holding ?_ ?_
    · rw [(patchTicket_append patchedEq []).2, brim]
    · intro piece among
      exact sized piece (mem_cons_of_mem _ among)
  rw [map_singleton, map_cons, map_map]
  exact framed

-- A group under construction

/-- (GroupHolds decision records group) says that the group was built from these records and
waits for this decision.
-/
def GroupHolds (decision : Nat) (records : List AofRecord) (group : PendingGroup) : Prop :=
  group.decision = decision
  ∧ ∃ closed kept,
    records = closed ++ kept ∧ Resolvable closed group.chunks
    ∧ match group.build with
      | none => kept = []
      | some chunk => OpenChunk kept chunk ∧ kept ≠ []

@[simp]
theorem PendingGroup.seal_decision (flags : BitVec 32) (group : PendingGroup)
    : (group.seal flags).decision = group.decision := by
  unfold PendingGroup.seal
  split <;> rfl

variable {decision : Nat} {group : PendingGroup}

/-- Sealing what a group has built closes all its records. -/
theorem GroupHolds.seal (holds : GroupHolds decision records group)
    : (group.seal 0#32).build = none ∧ Resolvable records (group.seal 0#32).chunks := by
  obtain ⟨_, closed, kept, rfl, resolvable, building⟩ := holds
  cases built : group.build with
  | none =>
    simp only [built] at building
    subst building
    simpa [PendingGroup.seal, built] using resolvable
  | some chunk =>
    simp only [built] at building
    simpa [PendingGroup.seal, built] using
      resolvable.append (building.1.resolvable building.2)

/-- Where a record's header goes: a fresh chunk for a long record, otherwise a chunk with room for
all of it.
-/
theorem GroupHolds.roomFor (holds : GroupHolds decision records group) (record : AofRecord)
    : ∃ closed kept,
        records = closed ++ kept ∧ Resolvable closed (group.roomFor record).1.chunks
        ∧ (group.roomFor record).1.decision = decision
        ∧ if kAofChunkBytes < record.bytes.length
          then kept = [] ∧ (group.roomFor record).2 = makeChunk aofFrameLargeBegin
          else OpenChunk kept (group.roomFor record).2
            ∧ (group.roomFor record).2.bytes.length + record.bytes.length ≤ kAofChunkBytes := by
  obtain ⟨sealedBuild, sealedAll⟩ := holds.seal
  obtain ⟨rfl, closed, kept, rfl, resolvable, building⟩ := holds
  have headed := record.bytes_length
  have wide : ¬kAofChunkBytes < kAofRecordHeaderBytes := by decide
  by_cases long : kAofChunkBytes < record.bytes.length
  · have place : group.roomFor record = (group.seal 0#32, makeChunk aofFrameLargeBegin) := by
      simp [roomFor, long, sealedBuild, beginFlags, wide]
    rw [place]
    exact ⟨closed ++ kept, [], by simp, sealedAll, by simp, by simp [long]⟩
  · simp only [if_neg long]
    cases built : group.build with
    | none =>
      simp only [built] at building
      subst building
      have place : group.roomFor record = (group, makeChunk 0#32) := by
        simp [roomFor, long, built, beginFlags, wide]
      rw [place]
      exact ⟨closed, [], rfl, resolvable, rfl, .fresh, by simpa using long⟩
    | some chunk =>
      simp only [built] at building
      by_cases crowded : kAofChunkBytes < chunk.bytes.length + record.bytes.length
      · have place : group.roomFor record = (group.seal 0#32, makeChunk 0#32) := by
          simp [roomFor, long, built, crowded, sealedBuild, beginFlags, wide]
        rw [place]
        exact ⟨closed ++ kept, [], by simp, sealedAll, by simp, .fresh, by simpa using long⟩
      · have roomy : ¬kAofChunkBytes - chunk.bytes.length < kAofRecordHeaderBytes := by omega
        have place : group.roomFor record = (group, chunk) := by
          simp [roomFor, long, built, crowded, roomy]
        rw [place]
        exact ⟨closed, kept, rfl, resolvable, rfl, building.1, not_lt.mp crowded⟩

/-- A long record in a fresh marked chunk closes the group's records so far and its own. -/
theorem GroupHolds.putLong {closed : List AofRecord}
    (resolvable : Resolvable closed group.chunks) (progress : List Nat)
    (long : kAofChunkBytes < record.bytes.length)
    : GroupHolds group.decision (closed ++ [record])
        (group.putRecord (record.ticketed 0#64) progress (makeChunk aofFrameLargeBegin)) := by
  generalize startEq
    : { group with build := some (makeChunk aofFrameLargeBegin).noteTicket } = start
  obtain ⟨more, last, spilled, ends, decisionEq, chunksEq⟩ :=
    (sink_lawful start).write_spills
      (show start.build = some (makeChunk aofFrameLargeBegin).noteTicket from startEq ▸ rfl)
      ⟨rfl, (append_nil _).symm⟩ (record.ticketed 0#64) progress (sink_unmarked _)
      (by simp [noteTicket])
  have framed : Resolvable [record] (more ++ [last.mark aofFrameLargeEnd]) :=
    .of_spill long rfl rfl rfl spilled
  unfold putRecord
  rw [startEq, if_pos (by simpa using long)]
  generalize sink.write (record.ticketed 0#64) progress start = written
    at ends decisionEq chunksEq ⊢
  have ends : written.build = some last := ends
  have decisionEq : written.decision = group.decision := by rw [decisionEq, ← startEq]
  have chunksEq : written.chunks = group.chunks ++ more := by
    rw [chunksEq, ← startEq]
    simp
  refine ⟨by simpa using decisionEq, closed ++ [record], [], by simp, ?_, ?_⟩
  · simpa [PendingGroup.seal, ends, chunksEq] using resolvable.append framed
  · simp [PendingGroup.seal, ends]

/-- A record joins the chunk that has room for it. -/
theorem GroupHolds.putShort {closed kept : List AofRecord}
    (resolvable : Resolvable closed group.chunks)
    (holding : OpenChunk kept chunk) (progress : List Nat)
    (room : chunk.bytes.length + record.bytes.length ≤ kAofChunkBytes)
    : GroupHolds group.decision (closed ++ kept ++ [record])
        (group.putRecord (record.ticketed 0#64) progress chunk) := by
  generalize startEq : { group with build := some chunk.noteTicket } = start
  obtain ⟨more, last, spilled, ends, decisionEq, chunksEq⟩ :=
    (sink_lawful start).write_spills
      (show start.build = some chunk.noteTicket from startEq ▸ rfl) ⟨rfl, (append_nil _).symm⟩
      (record.ticketed 0#64) progress (sink_unmarked _) holding.sized
  obtain ⟨rfl, rfl⟩ := spilled.of_room (by simpa [noteTicket] using room)
  unfold putRecord
  rw [startEq, if_neg (by rw [AofRecord.ticketed_bytes_length]; omega)]
  generalize sink.write (record.ticketed 0#64) progress start = written
    at ends decisionEq chunksEq ⊢
  have ends : written.build = some (chunk.noteTicket.put (record.ticketed 0#64).bytes) := ends
  have chunksEq : written.chunks = group.chunks := by
    rw [chunksEq, ← startEq]
    simp
  refine ⟨by rw [decisionEq, ← startEq], closed, kept ++ [record], by simp, by rwa [chunksEq], ?_⟩
  rw [ends]
  exact ⟨holding.snoc room, by simp⟩

/-- `record_group_bytes` adds its record to the group. -/
theorem GroupHolds.recordGroupBytes (holds : GroupHolds decision records group) (record : AofRecord)
    (progress : List Nat)
    : GroupHolds decision (records ++ [record]) (group.recordGroupBytes record progress) := by
  obtain ⟨closed, kept, rfl, resolvable, rfl, place⟩ := holds.roomFor (record.ticketed 0#64)
  rw [AofRecord.ticketed_bytes_length] at place
  simp only [recordGroupBytes]
  split at place
  · rename_i long
    obtain ⟨rfl, fresh⟩ := place
    rw [fresh, append_nil]
    exact .putLong resolvable progress long
  · exact .putShort resolvable place.1 progress place.2

/-- A chunk with the flag of a fragment's last chunk resolves to the same frame. -/
theorem resolve_flagLast {chunks out : List AofChunk}
    (resolved : chunks.mapM (resolve decision ticket) = some out) (place : Nat)
    : ∃ flagged, (chunks.modify place fun chunk => { chunk with groupFragmentLast := true }).mapM
          (resolve decision ticket) = some flagged
        ∧ flagged.map frame = out.map frame := by
  induction chunks generalizing out place with
  | nil => exact ⟨out, by simpa using resolved, rfl⟩
  | cons chunk rest ih =>
    rw [mapM_cons] at resolved
    obtain ⟨first, firstEq, later⟩ := Option.bind_eq_some_iff.mp resolved
    obtain ⟨others, othersEq, outEq⟩ := Option.bind_eq_some_iff.mp later
    cases outEq
    cases place with
    | zero =>
      refine ⟨{ first with groupFragmentLast := true } :: others, ?_, rfl⟩
      obtain ⟨bytes, patched, rfl⟩ := Option.map_eq_some_iff.mp firstEq
      simp [othersEq, resolve, patched]
    | succ place =>
      obtain ⟨flagged, flaggedEq, sameFrames⟩ := ih othersEq place
      exact ⟨first :: flagged, by simp [firstEq, flaggedEq], by simp [sameFrames]⟩

/-- A finished group frames its records whatever ticket it gets. -/
theorem GroupHolds.finish (holds : GroupHolds decision records group)
    : group.finish.decision = decision ∧ group.finish.build = none
      ∧ Resolvable records group.finish.chunks := by
  obtain ⟨sealedBuild, resolvable⟩ := holds.seal
  refine ⟨by simpa [PendingGroup.finish] using holds.1, sealedBuild, ?_⟩
  intro decision ticket
  obtain ⟨out, resolved, framed⟩ := resolvable decision ticket
  obtain ⟨flagged, flaggedEq, sameFrames⟩ :=
    resolve_flagLast resolved ((group.seal 0#32).chunks.length - 1)
  exact ⟨flagged, flaggedEq, by rwa [sameFrames]⟩

end Thredis.Persist
