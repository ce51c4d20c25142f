import Thredis.Lib.Runs
import Thredis.Persist.SnapshotFile

/-! The loader reads back exactly what the writer was given, and nothing from a file that was
cut short.
-/

namespace Thredis.Persist

open Thredis.Lib SnapshotWriter
open List (length_append append_assoc flatMap_cons ext_getElem? length_take take_append range)

def snapshotFrame (chunk : SnapshotChunk) : Bytes :=
  snapshotFrameHeader (.ofNat 32 chunk.sid.toNat) chunk ++ chunk.bytes

def shardPayload (chunks : List SnapshotChunk) (sid : Nat) : Bytes :=
  (chunks.filter (fun chunk => chunk.sid.toNat == sid)).flatMap SnapshotChunk.bytes

@[simp]
theorem snapshotFrameHeader_length (sid : BitVec 32) (chunk : SnapshotChunk)
    : (snapshotFrameHeader sid chunk).length = kSnapshotFrameHeaderBytes := by
  simp [snapshotFrameHeader, kSnapshotFrameHeaderBytes]

theorem snapshotFrame_length (chunk : SnapshotChunk)
    : (snapshotFrame chunk).length = kSnapshotFrameHeaderBytes + chunk.bytes.length := by
  simp [snapshotFrame]

theorem ShardSection.admitFrame_some {shard after : ShardSection} {sequence flags : BitVec 32}
    (admitted : shard.admitFrame sequence flags = some after)
    : sequence = shard.sequence ∧ shard.ended = false
      ∧ (flags &&& snapshotFrameBegin ≠ 0 ↔ shard.began = false)
      ∧ after = ⟨shard.sequence + 1, true, flags &&& snapshotFrameEnd ≠ 0⟩ := by
  obtain ⟨expected, admitted⟩ := Option.ite_none_left_eq_some.mp admitted
  simp only [not_or, not_not, Bool.not_eq_true] at expected
  refine ⟨expected.1, expected.2, ?_⟩
  split at admitted
  · rename_i begins
    obtain ⟨fresh, rfl⟩ := guard_passed admitted
    exact ⟨iff_of_true begins (by simpa using fresh), rfl⟩
  · rename_i continues
    obtain ⟨started, rfl⟩ := guard_taken admitted
    exact ⟨iff_of_false continues (by simp [started]), rfl⟩

/-- Behind a frame header the loader looks at the fields the writer put there. -/
theorem SnapshotScan.readFrame_header (scan : SnapshotScan) (sid : BitVec 32)
    (chunk : SnapshotChunk) {shard : ShardSection}
    (located : scan.progress[sid.toNat]? = some shard) (tail : Bytes)
    : scan.readFrame (snapshotFrameHeader sid chunk ++ tail)
      = if chunk.sequence ≠ shard.sequence ∨ shard.ended = true
            ∨ tail.length < chunk.bytes.length
            ∨ snapshotChecksum chunk.bytes ≠ snapshotChecksum (tail.take chunk.bytes.length) then
          .error "invalid snapshot frame"
        else if chunk.flags &&& snapshotFrameBegin ≠ 0 ∧ shard.began = true then
          .error "duplicate shard section"
        else if chunk.flags &&& snapshotFrameBegin = 0 ∧ shard.began = false then
          .error "shard section has no begin frame"
        else
          .ok (tail.drop chunk.bytes.length,
            { progress := scan.progress.set sid.toNat
                ⟨shard.sequence + 1, true, chunk.flags &&& snapshotFrameEnd ≠ 0⟩
              sections := scan.sections.modify sid.toNat (· ++ tail.take chunk.bytes.length)
              frames := scan.frames + 1 }) := by
  have enough : ¬ (snapshotFrameHeader sid chunk ++ tail).length < kSnapshotFrameHeaderBytes := by
    simp
  have payload : (snapshotFrameHeader sid chunk ++ tail).drop kSnapshotFrameHeaderBytes = tail :=
    List.drop_left' (snapshotFrameHeader_length sid chunk)
  have sidAt : snapshotGetU32 ((snapshotFrameHeader sid chunk ++ tail).drop 4) = sid := by
    simp [snapshotFrameHeader]
  have lengthAt : (snapshotGetU32 ((snapshotFrameHeader sid chunk ++ tail).drop 16)).toNat
      = chunk.bytes.length := by
    simpa [snapshotFrameHeader] using Nat.mod_eq_of_lt chunk.sized
  rw [readFrame, if_neg enough]
  simp only [payload, sidAt, lengthAt, located]
  simp [snapshotFrameHeader]

variable {scan : SnapshotScan} {chunk : SnapshotChunk}

/-- A frame the writer let through is read back as it was, by the tests it passed. -/
theorem SnapshotScan.readFrame_written
    {before after : ShardSection} (small : chunk.sid.toNat < 2 ^ 32)
    (located : scan.progress[chunk.sid.toNat]? = some before)
    (admitted : before.admitFrame chunk.sequence chunk.flags = some after) (rest : Bytes)
    : scan.readFrame (snapshotFrame chunk ++ rest)
      = .ok (rest,
          { progress := scan.progress.set chunk.sid.toNat after
            sections := scan.sections.modify chunk.sid.toNat (· ++ chunk.bytes)
            frames := scan.frames + 1 }) := by
  obtain ⟨numbered, running, opening, rfl⟩ := ShardSection.admitFrame_some admitted
  have sid : (BitVec.ofNat 32 chunk.sid.toNat).toNat = chunk.sid.toNat := by
    exact Nat.mod_eq_of_lt small
  have found : scan.progress[(BitVec.ofNat 32 chunk.sid.toNat).toNat]? = some before := by
    rwa [sid]
  rw [snapshotFrame, append_assoc, readFrame_header scan _ chunk found, if_neg, if_neg,
    if_neg, sid, List.take_left, List.drop_left]
  · rintro ⟨still, fresh⟩
    exact (opening.mpr fresh) still
  · rintro ⟨begins, started⟩
    rw [opening.mp begins] at started
    cases started
  · simp [numbered, running]

/-- A frame whose payload is cut short is refused. -/
theorem SnapshotScan.readFrame_cut {before : ShardSection} (small : chunk.sid.toNat < 2 ^ 32)
    (located : scan.progress[chunk.sid.toNat]? = some before) {tail : Bytes}
    (short : tail.length < chunk.bytes.length)
    : scan.readFrame (snapshotFrameHeader (.ofNat 32 chunk.sid.toNat) chunk ++ tail)
      = .error "invalid snapshot frame" := by
  have sid : (BitVec.ofNat 32 chunk.sid.toNat).toNat = chunk.sid.toNat := by
    exact Nat.mod_eq_of_lt small
  have found : scan.progress[(BitVec.ofNat 32 chunk.sid.toNat).toNat]? = some before := by
    rwa [sid]
  rw [readFrame_header scan _ chunk found, if_pos (Or.inr (Or.inr (Or.inl short)))]

-- The frames of a run

variable {writer final : SnapshotWriter}

theorem SnapshotWriter.writeFrameNormal_some {next : SnapshotWriter}
    (written : writer.writeFrameNormal chunk = some next)
    : ∃ before after,
        chunk.sid.toNat < writer.nshards.toNat
        ∧ writer.sections[chunk.sid.toNat]? = some before
        ∧ before.admitFrame chunk.sequence chunk.flags = some after
        ∧ next = { writer with
            sections := writer.sections.set chunk.sid.toNat after
            frameCount := writer.frameCount + 1
            endedShards :=
              if chunk.flags &&& snapshotFrameEnd ≠ 0 then writer.endedShards + 1
              else writer.endedShards
            file := writer.file ++ snapshotFrame chunk } := by
  obtain ⟨framed, valid, rfl⟩ := Option.map_eq_some_iff.mp written
  rw [validateFrame] at valid
  split at valid
  · cases valid
  · obtain ⟨before, located, valid⟩ := Option.bind_eq_some_iff.mp valid
    obtain ⟨after, admitted, valid⟩ := Option.bind_eq_some_iff.mp valid
    cases valid
    exact ⟨before, after, by omega, located, admitted, rfl⟩

variable {chunks : List SnapshotChunk}

/-- A run appends the frames of its chunks and changes no shard count. -/
theorem SnapshotWriter.run_file (ran : run writeFrameNormal writer chunks = some final)
    : final.file = writer.file ++ chunks.flatMap snapshotFrame
      ∧ final.nshards = writer.nshards := by
  induction chunks generalizing writer with
  | nil =>
    cases ran
    simp
  | cons chunk rest ih =>
    obtain ⟨next, written, tail⟩ := run_cons ran
    obtain ⟨before, after, -, -, -, rfl⟩ := writeFrameNormal_some written
    obtain ⟨appended, counted⟩ := ih tail
    exact ⟨by rw [appended, flatMap_cons, append_assoc], counted⟩

theorem shardPayload_cons (chunk : SnapshotChunk) (rest : List SnapshotChunk)
    (sections : List Bytes)
    : (sections.modify chunk.sid.toNat (· ++ chunk.bytes)).mapIdx
        (fun sid bytes => bytes ++ shardPayload rest sid)
      = sections.mapIdx (fun sid bytes => bytes ++ shardPayload (chunk :: rest) sid) := by
  apply ext_getElem?
  intro sid
  simp only [List.getElem?_mapIdx, List.getElem?_modify, shardPayload]
  by_cases own : chunk.sid.toNat = sid
  · cases sections[sid]? <;> simp [own]
  · cases sections[sid]? <;> simp [own]

/-- The loop takes the frames of a run one by one and stops behind them.
Witness: induction over the chunks; the loader's view of the shards follows the writer's.
-/
theorem SnapshotScan.readFrames_written (ran : run writeFrameNormal writer chunks = some final)
    (agrees : scan.progress = writer.sections)
    (counted : scan.frames = writer.frameCount) {behind : Bytes}
    (stops : snapshotGetU32 behind ≠ kSnapshotFrameTag) {turns : Nat}
    (enough : (chunks.flatMap snapshotFrame ++ behind).length ≤ turns)
    : scan.readFrames turns (chunks.flatMap snapshotFrame ++ behind)
      = .ok (behind,
          { progress := final.sections
            sections := scan.sections.mapIdx (fun sid bytes => bytes ++ shardPayload chunks sid)
            frames := final.frameCount }) := by
  induction chunks generalizing writer scan turns with
  | nil =>
    cases ran
    have same : scan.sections.mapIdx (fun sid bytes => bytes ++ shardPayload [] sid)
        = scan.sections :=
      ext_getElem? fun sid => by simp [shardPayload]
    rw [same, ← agrees, ← counted]
    cases turns with
    | zero => rfl
    | succ turns =>
      rw [List.flatMap_nil, List.nil_append, readFrames, if_neg (fun taken => stops taken.2)]
  | cons chunk rest ih =>
    obtain ⟨next, written, tail⟩ := run_cons ran
    obtain ⟨before, after, below, located, admitted, rfl⟩ := writeFrameNormal_some written
    have small := Nat.lt_trans below writer.nshards.isLt
    rw [flatMap_cons, append_assoc] at enough ⊢
    rw [length_append, snapshotFrame_length] at enough
    cases turns with
    | zero => simp [kSnapshotFrameHeaderBytes] at enough
    | succ turns =>
      have read := readFrame_written small (agrees ▸ located) admitted
        (rest.flatMap snapshotFrame ++ behind)
      have left : (rest.flatMap snapshotFrame ++ behind).length ≤ turns := by
        simp only [kSnapshotFrameHeaderBytes] at enough
        omega
      rw [readFrames, read, ← shardPayload_cons]
      exact ih tail (by rw [agrees]) (by rw [counted]) left

theorem SnapshotScan.readFrames_short (scan : SnapshotScan) (turns : Nat) {bytes : Bytes}
    (short : bytes.length < kSnapshotFooterBytes)
    : scan.readFrames turns bytes = .ok (bytes, scan) := by
  cases turns with
  | zero => rfl
  | succ turns => rw [readFrames, if_neg (fun taken => by omega)]

/-- In a file cut short the loop finds an error, or stops with less than a footer left.
Witness: induction over the chunks; the cut lies behind the first frame or inside it.
-/
theorem SnapshotScan.readFrames_cut
    (ran : run writeFrameNormal writer chunks = some final)
    (agrees : scan.progress = writer.sections) {footer : Bytes}
    (whole : footer.length = kSnapshotFooterBytes) {kept : Nat}
    (cut : kept < (chunks.flatMap snapshotFrame ++ footer).length) {turns : Nat}
    (enough : kept ≤ turns)
    : (∃ error, scan.readFrames turns ((chunks.flatMap snapshotFrame ++ footer).take kept)
        = .error error)
      ∨ ∃ rest next, scan.readFrames turns ((chunks.flatMap snapshotFrame ++ footer).take kept)
          = .ok (rest, next) ∧ rest.length < kSnapshotFooterBytes := by
  induction chunks generalizing writer scan kept turns with
  | nil =>
    rw [List.flatMap_nil, List.nil_append] at cut ⊢
    have short : (footer.take kept).length < kSnapshotFooterBytes := by
      rw [length_take]
      omega
    exact Or.inr ⟨_, scan, readFrames_short scan turns short, short⟩
  | cons chunk rest ih =>
    obtain ⟨next, written, tail⟩ := run_cons ran
    obtain ⟨before, after, below, located, admitted, rfl⟩ := writeFrameNormal_some written
    have small := Nat.lt_trans below writer.nshards.isLt
    rw [flatMap_cons, append_assoc] at cut ⊢
    rw [length_append] at cut
    by_cases inside : kept < kSnapshotFooterBytes
    · have short : ((snapshotFrame chunk ++ (rest.flatMap snapshotFrame ++ footer)).take
          kept).length < kSnapshotFooterBytes := by
        rw [length_take]
        omega
      exact Or.inr ⟨_, scan, readFrames_short scan turns short, short⟩
    · cases turns with
      | zero => exact absurd enough (by simp only [kSnapshotFooterBytes] at inside; omega)
      | succ turns =>
        by_cases within : kept < (snapshotFrame chunk).length
        · left
          have torn : (snapshotFrame chunk ++ (rest.flatMap snapshotFrame ++ footer)).take kept
              = snapshotFrameHeader (.ofNat 32 chunk.sid.toNat) chunk
                ++ chunk.bytes.take (kept - kSnapshotFrameHeaderBytes) := by
            rw [List.take_append_of_le_length (Nat.le_of_lt within), snapshotFrame,
              take_append, snapshotFrameHeader_length, List.take_of_length_le]
            exact Nat.not_lt.mp inside
          have short : (chunk.bytes.take (kept - kSnapshotFrameHeaderBytes)).length
              < chunk.bytes.length := by
            rw [snapshotFrame_length] at within
            rw [length_take]
            simp only [kSnapshotFooterBytes, kSnapshotFrameHeaderBytes] at inside within ⊢
            omega
          rw [torn, readFrames, readFrame_cut small (agrees ▸ located) short]
          exact ⟨_, rfl⟩
        · have longer := Nat.not_lt.mp within
          have read := readFrame_written small (agrees ▸ located) admitted
            ((rest.flatMap snapshotFrame ++ footer).take (kept - (snapshotFrame chunk).length))
          rw [take_append, List.take_of_length_le longer]
          rw [readFrames, read]
          refine ih tail (by rw [agrees]) (by omega) ?_
          rw [snapshotFrame_length, kSnapshotFrameHeaderBytes] at longer ⊢
          omega

-- Whole files

/-- The writer has one section a shard, counts the ended ones, and none ends unbegun. -/
structure SnapshotWriter.Counted (writer : SnapshotWriter) : Prop where
  sized : writer.sections.length = writer.nshards.toNat
  ended : writer.endedShards = .ofNat 32 (writer.sections.countP ShardSection.ended)
  opened : ∀ shard ∈ writer.sections, shard.ended = true → shard.began = true

theorem SnapshotWriter.Counted.start (nshards : BitVec 32) (cut : SnapshotCut)
    : (start nshards cut).Counted where
  sized := by simp [SnapshotWriter.start]
  ended := by simp [SnapshotWriter.start, List.countP_replicate]
  opened := by
    intro shard member closed
    rw [(List.mem_replicate.mp member).2] at closed
    cases closed

section

variable (counted : writer.Counted)

include counted

theorem SnapshotWriter.Counted.write {next : SnapshotWriter}
    (written : writer.writeFrameNormal chunk = some next)
    : next.Counted := by
  obtain ⟨before, after, below, located, admitted, rfl⟩ := writeFrameNormal_some written
  obtain ⟨-, running, -, rfl⟩ := ShardSection.admitFrame_some admitted
  obtain ⟨inside, same⟩ := List.getElem?_eq_some_iff.mp located
  refine ⟨by simpa using counted.sized, ?_, ?_⟩
  · simp only [List.countP_set inside, same, running, counted.ended]
    by_cases closes : chunk.flags &&& snapshotFrameEnd = 0#32
    · simp [closes]
    · simp [closes, BitVec.ofNat_add]
  · intro shard member closed
    rcases List.mem_or_eq_of_mem_set member with kept | rfl
    · exact counted.opened shard kept closed
    · rfl

theorem SnapshotWriter.Counted.run (ran : run writeFrameNormal writer chunks = some final)
    : final.Counted := by
  refine run_invariant ?_ counted ran
  intro state chunk next before written
  exact before.write written

/-- Once as many shards have ended as there are, every section is complete. -/
theorem SnapshotWriter.Counted.complete (finished : writer.endedShards = writer.nshards)
    : ∀ shard ∈ writer.sections, shard.began = true ∧ shard.ended = true := by
  have bound : writer.sections.countP ShardSection.ended ≤ writer.nshards.toNat := by
    rw [← counted.sized]
    exact List.countP_le_length
  have full : writer.sections.countP ShardSection.ended = writer.sections.length := by
    have words := congrArg BitVec.toNat (counted.ended.symm.trans finished)
    rw [BitVec.toNat_ofNat,
      Nat.mod_eq_of_lt (Nat.lt_of_le_of_lt bound writer.nshards.isLt)] at words
    rw [words, counted.sized]
  intro shard member
  have closed := List.countP_eq_length.mp full shard member
  exact ⟨counted.opened shard member closed, closed⟩

/-- The header and the footer are read back; between them the loader's view is the writer's. -/
theorem SnapshotScan.finish_written (finished : writer.endedShards = writer.nshards)
    (epoch : BitVec 64) (sections : List Bytes)
    : SnapshotScan.finish ⟨writer.sections, sections, writer.frameCount⟩ writer.nshards epoch
        (snapshotFooterBody writer.nshards epoch writer.frameCount
          ++ snapshotPutU64 (snapshotChecksum
            (snapshotFooterBody writer.nshards epoch writer.frameCount)))
      = .ok sections := by
  have body : (snapshotFooterBody writer.nshards epoch writer.frameCount).length = 24 := by
    simp [snapshotFooterBody]
  have complete : (writer.sections.any fun shard => !shard.began || !shard.ended) = false := by
    rw [List.any_eq_false]
    intro shard member
    obtain ⟨began, ended⟩ := counted.complete finished shard member
    simp [began, ended]
  rw [finish, if_neg, if_neg (by rw [complete]; exact Bool.false_ne_true)]
  rw [List.take_left' body]
  simp [snapshotFooterBody, kSnapshotFooterBytes]

end

section

variable (nshards : BitVec 32) (cut : SnapshotCut)

theorem snapshotHeaderBody_length
    : (snapshotHeaderBody nshards cut).length = 64 := by
  simp [snapshotHeaderBody, kSnapshotFileMagic]

theorem SnapshotWriter.start_length
    : (start nshards cut).file.length = kSnapshotFileHeaderBytes := by
  simp [start, snapshotHeaderBody_length, kSnapshotFileHeaderBytes]

/-- The words of the writer's file header, where the loader looks for them. -/
theorem SnapshotWriter.start_words (tail : Bytes)
    : let file := (start nshards cut).file ++ tail
      file.take 8 = kSnapshotFileMagic
      ∧ snapshotGetU32 (file.drop 8) = kSnapshotFormatVersion
      ∧ snapshotGetU32 (file.drop 12) = .ofNat 32 kSnapshotFileHeaderBytes
      ∧ snapshotGetU32 (file.drop 16) = nshards
      ∧ snapshotGetU32 (file.drop 20) = cut.hashKind
      ∧ snapshotGetU64 (file.drop 24) = cut.epoch
      ∧ snapshotGetU64 (file.drop 32) = cut.cutMs
      ∧ snapshotGetU64 (file.drop 40) = cut.hashSeed
      ∧ snapshotGetU64 (file.drop 48) = cut.sipK0
      ∧ snapshotGetU64 (file.drop 56) = cut.sipK1
      ∧ snapshotGetU64 (file.drop 64) = snapshotChecksum (file.take 64) := by
  have body : ((start nshards cut).file ++ tail).take 64
      = snapshotHeaderBody nshards cut := by
    rw [start, append_assoc, List.take_left' (snapshotHeaderBody_length nshards cut)]
  dsimp only
  rw [body]
  simp only [start]
  simp [snapshotHeaderBody, kSnapshotFileMagic]

end

/-- Behind the writer's file header the loader goes on to the frames. -/
theorem snapshotReadPlan_header (nshards expected : BitVec 32) (cut : SnapshotCut) {tail : Bytes}
    (enough : kSnapshotFooterBytes ≤ tail.length)
    : snapshotReadPlan ((start nshards cut).file ++ tail) expected
      = if nshards ≠ expected then .error "snapshot shard count does not match --shards"
        else
          match SnapshotScan.readFrames (kSnapshotFileHeaderBytes + tail.length) (.start nshards)
              tail with
          | .error error => .error error
          | .ok (footer, scan) =>
            match scan.finish nshards cut.epoch footer with
            | .error error => .error error
            | .ok sections =>
              .ok { shardCount := nshards, hashKind := cut.hashKind, epoch := cut.epoch
                    cutMs := cut.cutMs, hashSeed := cut.hashSeed, sipK0 := cut.sipK0
                    sipK1 := cut.sipK1, sections := sections } := by
  have length : ((start nshards cut).file ++ tail).length
      = kSnapshotFileHeaderBytes + tail.length := by
    rw [length_append, start_length]
  have frames : ((start nshards cut).file ++ tail).drop kSnapshotFileHeaderBytes
      = tail := List.drop_left' (start_length nshards cut)
  obtain ⟨magic, version, size, count, kind, epoch, cutMs, seed, k0, k1, sum⟩ :=
    start_words nshards cut tail
  have valid : ¬ (kSnapshotFileHeaderBytes + tail.length
      < kSnapshotFileHeaderBytes + kSnapshotFooterBytes) := by omega
  simp only [snapshotReadPlan, length, frames, magic, version, size, count, kind, epoch, cutMs,
    seed, k0, k1, sum, valid, Nat.not_lt.mpr cut.known, ne_eq]
  rfl

def snapshotFooter (nshards : BitVec 32) (epoch frameCount : BitVec 64) : Bytes :=
  snapshotFooterBody nshards epoch frameCount
    ++ snapshotPutU64 (snapshotChecksum (snapshotFooterBody nshards epoch frameCount))

variable (nshards : BitVec 32) (epoch frameCount : BitVec 64)

theorem snapshotFooter_length
    : (snapshotFooter nshards epoch frameCount).length = kSnapshotFooterBytes := by
  simp [snapshotFooter, snapshotFooterBody, kSnapshotFooterBytes]

theorem snapshotFooter_stops
    : snapshotGetU32 (snapshotFooter nshards epoch frameCount) ≠ kSnapshotFrameTag := by
  simp [snapshotFooter, snapshotFooterBody, kSnapshotFooterTag, kSnapshotFrameTag]

section

variable {nshards : BitVec 32} {cut : SnapshotCut}
    (written : run writeFrameNormal (.start nshards cut) chunks = some writer)

include written

/-- A finished file is read to its end: the loop takes the frames, the footer matches. -/
theorem snapshotReadPlan_complete (ended : writer.endedShards = writer.nshards)
    : snapshotReadPlan ((start nshards cut).file
          ++ (chunks.flatMap snapshotFrame
            ++ snapshotFooter writer.nshards cut.epoch writer.frameCount)) nshards
      = .ok { shardCount := nshards, hashKind := cut.hashKind, epoch := cut.epoch
              cutMs := cut.cutMs, hashSeed := cut.hashSeed, sipK0 := cut.sipK0
              sipK1 := cut.sipK1
              sections := (range nshards.toNat).map (shardPayload chunks) } := by
  have counts : writer.nshards = nshards := (run_file written).2
  have counted := (SnapshotWriter.Counted.start nshards cut).run written
  have agrees : (SnapshotScan.start nshards).progress = (start nshards cut).sections := rfl
  have read := SnapshotScan.readFrames_written written agrees rfl
    (snapshotFooter_stops writer.nshards cut.epoch writer.frameCount)
    (Nat.le_add_left _ kSnapshotFileHeaderBytes)
  have sections : (SnapshotScan.start nshards).sections.mapIdx
        (fun sid bytes => bytes ++ shardPayload chunks sid)
      = (range nshards.toNat).map (shardPayload chunks) := by
    apply ext_getElem?
    intro sid
    by_cases inside : sid < nshards.toNat
    · simp [SnapshotScan.start, inside]
    · simp [SnapshotScan.start, inside]
  have finished := SnapshotScan.finish_written counted ended cut.epoch
    ((range nshards.toNat).map (shardPayload chunks))
  rw [counts] at finished
  rw [snapshotReadPlan_header nshards nshards cut (by simp [snapshotFooter_length]),
    if_neg (by simp), read, sections, counts]
  simp [snapshotFooter, finished]

/-- A file cut short is refused. -/
theorem snapshotReadPlan_cut {footer : Bytes} (whole : footer.length = kSnapshotFooterBytes)
    {kept : Nat}
    (short : kept < ((start nshards cut).file ++ (chunks.flatMap snapshotFrame ++ footer)).length)
    (expected : BitVec 32)
    : ∃ error, snapshotReadPlan (((start nshards cut).file
        ++ (chunks.flatMap snapshotFrame ++ footer)).take kept) expected = .error error := by
  have header := start_length nshards cut
  by_cases headless : kept < kSnapshotFileHeaderBytes + kSnapshotFooterBytes
  · have length : (((start nshards cut).file
        ++ (chunks.flatMap snapshotFrame ++ footer)).take kept).length
        < kSnapshotFileHeaderBytes + kSnapshotFooterBytes := by
      rw [length_take]
      omega
    exact ⟨_, if_pos (Or.inl length)⟩
  · rw [length_append] at short
    rw [take_append, header, List.take_of_length_le (by omega)]
    have enough : kSnapshotFooterBytes
        ≤ ((chunks.flatMap snapshotFrame ++ footer).take
          (kept - kSnapshotFileHeaderBytes)).length := by
      rw [length_take]
      omega
    rw [snapshotReadPlan_header nshards expected cut enough]
    split
    · exact ⟨_, rfl⟩
    · have agrees : (SnapshotScan.start nshards).progress
          = (start nshards cut).sections := rfl
      have torn : kept - kSnapshotFileHeaderBytes
          < (chunks.flatMap snapshotFrame ++ footer).length := by omega
      have turns : kept - kSnapshotFileHeaderBytes ≤ kSnapshotFileHeaderBytes
          + ((chunks.flatMap snapshotFrame ++ footer).take
            (kept - kSnapshotFileHeaderBytes)).length := by
        rw [length_take]
        omega
      rcases SnapshotScan.readFrames_cut written agrees whole torn turns
        with ⟨error, failed⟩ | ⟨rest, next, stopped, left⟩
      · rw [failed]
        exact ⟨error, rfl⟩
      · rw [stopped]
        have refused : next.finish nshards cut.epoch rest
            = .error "snapshot has no valid completion footer" :=
          if_pos (Or.inl (Nat.ne_of_lt left))
        refine ⟨"snapshot has no valid completion footer", ?_⟩
        simp [refused]

end

/-- Written through to its footer, a file gives every shard its own payloads back; cut anywhere
before that, it gives an error.
-/
theorem snapshot_file_round_trip (nshards : BitVec 32) (cut : SnapshotCut)
    (chunks : List SnapshotChunk) (writer : SnapshotWriter) (file : Bytes)
    (written : run SnapshotWriter.writeFrameNormal (.start nshards cut) chunks = some writer)
    (finished : writer.finishFileNormal cut.epoch = some file)
    : snapshotReadPlan file nshards
        = .ok { shardCount := nshards, hashKind := cut.hashKind, epoch := cut.epoch
                cutMs := cut.cutMs, hashSeed := cut.hashSeed, sipK0 := cut.sipK0
                sipK1 := cut.sipK1
                sections := (List.range nshards.toNat).map (shardPayload chunks) }
      ∧ ∀ (kept : Nat) (expected : BitVec 32), kept < file.length
        → ∃ error, snapshotReadPlan (file.take kept) expected = .error error := by
  obtain ⟨ended, rfl⟩ := guard_taken finished
  rw [(run_file written).1, append_assoc]
  constructor
  · exact snapshotReadPlan_complete written ended
  · intro kept expected short
    exact snapshotReadPlan_cut written (snapshotFooter_length _ _ _) short expected

def interleavedChunks : List SnapshotChunk :=
  [⟨1, 0, 1, [7, 8], by decide⟩, ⟨0, 0, 3, [], noBytes_sized⟩, ⟨1, 1, 2, [9], by decide⟩]

def plainCut : SnapshotCut := ⟨4, 1000, 0, 11, 12, 13, plainHash_known⟩

theorem snapshot_file_round_trip_interleaved
    : ∃ writer file,
        run SnapshotWriter.writeFrameNormal (.start 2 plainCut) interleavedChunks = some writer
        ∧ writer.finishFileNormal plainCut.epoch = some file
        ∧ snapshotReadPlan file 2
          = .ok { shardCount := 2, hashKind := 0, epoch := 4, cutMs := 1000, hashSeed := 11
                  sipK0 := 12, sipK1 := 13, sections := [[], [7, 8, 9]] } := by
  refine ⟨_, _, rfl, rfl, ?_⟩
  exact (snapshot_file_round_trip 2 plainCut interleavedChunks _ _ rfl rfl).1

end Thredis.Persist
