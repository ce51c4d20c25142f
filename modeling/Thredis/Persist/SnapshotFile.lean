import Thredis.Persist.Format

/-! The snapshot file: the frames the one writer appends, and the boot loader's reading of them.
Frames of different shards interleave; within one shard they are numbered, the first one begins
the shard's section and the last one ends it.
-/

namespace Thredis.Persist

def kSnapshotFileMagic : Bytes := [84, 79, 77, 79, 83, 78, 80, 0]

def kSnapshotFormatVersion : BitVec 32 := 1

def kSnapshotFileHeaderBytes : Nat := 80

def kSnapshotFrameHeaderBytes : Nat := 32

def kSnapshotFooterBytes : Nat := 32

def kSnapshotFrameTag : BitVec 32 := 0x4d415246

def kSnapshotFooterTag : BitVec 32 := 0x454e4f44

def snapshotFrameBegin : BitVec 32 := 1

def snapshotFrameEnd : BitVec 32 := 2

/-- A chunk as the writer receives it. Chunks are filled up to `kSnapshotChunkBytes`, far below
what the length word of a frame can hold.
-/
structure SnapshotChunk where
  sid : Int
  sequence : BitVec 32
  flags : BitVec 32
  bytes : Bytes
  sized : bytes.length < 2 ^ 32

/-- What both sides keep of one shard: the next frame number and the two ends of its section. -/
structure ShardSection where
  sequence : BitVec 32
  began : Bool
  ended : Bool
  deriving DecidableEq, Repr

structure SnapshotCut where
  epoch : BitVec 64
  cutMs : BitVec 64
  hashKind : BitVec 32
  hashSeed : BitVec 64
  sipK0 : BitVec 64
  sipK1 : BitVec 64
  /-- `HashKind` has two members. -/
  known : hashKind.toNat ≤ 1

structure SnapshotWriter where
  nshards : BitVec 32
  sections : List ShardSection
  frameCount : BitVec 64
  endedShards : BitVec 32
  file : Bytes

variable (nshards : BitVec 32)

def snapshotHeaderBody (cut : SnapshotCut) : Bytes :=
  kSnapshotFileMagic ++ (snapshotPutU32 kSnapshotFormatVersion
    ++ (snapshotPutU32 (.ofNat 32 kSnapshotFileHeaderBytes)
    ++ (snapshotPutU32 nshards ++ (snapshotPutU32 cut.hashKind ++ (snapshotPutU64 cut.epoch
    ++ (snapshotPutU64 cut.cutMs ++ (snapshotPutU64 cut.hashSeed
    ++ (snapshotPutU64 cut.sipK0 ++ snapshotPutU64 cut.sipK1))))))))

def SnapshotWriter.start (cut : SnapshotCut) : SnapshotWriter :=
  let body := snapshotHeaderBody nshards cut
  { nshards := nshards, sections := List.replicate nshards.toNat ⟨0, false, false⟩
    frameCount := 0, endedShards := 0
    file := body ++ (snapshotPutU64 (snapshotChecksum body) ++ List.replicate 8 0) }

/-- The frame header `validate_frame` fills in. -/
def snapshotFrameHeader (sid : BitVec 32) (chunk : SnapshotChunk) : Bytes :=
  snapshotPutU32 kSnapshotFrameTag ++ (snapshotPutU32 sid ++ (snapshotPutU32 chunk.sequence
    ++ (snapshotPutU32 chunk.flags ++ (snapshotPutU32 (.ofNat 32 chunk.bytes.length)
    ++ (snapshotPutU64 (snapshotChecksum chunk.bytes) ++ List.replicate 4 0)))))

def ShardSection.admitFrame (shard : ShardSection) (sequence flags : BitVec 32)
    : Option ShardSection :=
  if sequence ≠ shard.sequence ∨ shard.ended = true then none
  else if flags &&& snapshotFrameBegin ≠ 0 then
    if shard.began = true then none
    else some ⟨shard.sequence + 1, true, flags &&& snapshotFrameEnd ≠ 0⟩
  else if shard.began = true then
    some ⟨shard.sequence + 1, true, flags &&& snapshotFrameEnd ≠ 0⟩
  else none

variable (writer : SnapshotWriter)

/-- `validate_frame`: the frame header and the state after it, or a refusal. -/
def SnapshotWriter.validateFrame (chunk : SnapshotChunk)
    : Option (Bytes × SnapshotWriter) :=
  if chunk.sid < 0 ∨ writer.nshards.toNat ≤ chunk.sid.toNat then none
  else do
    let before ← writer.sections[chunk.sid.toNat]?
    let after ← before.admitFrame chunk.sequence chunk.flags
    some (snapshotFrameHeader (.ofNat 32 chunk.sid.toNat) chunk, { writer with
        sections := writer.sections.set chunk.sid.toNat after
        frameCount := writer.frameCount + 1
        endedShards :=
          if chunk.flags &&& snapshotFrameEnd ≠ 0 then writer.endedShards + 1
          else writer.endedShards })

def SnapshotWriter.writeFrameNormal (chunk : SnapshotChunk)
    : Option SnapshotWriter :=
  (writer.validateFrame chunk).map fun framed =>
    { framed.2 with file := framed.2.file ++ (framed.1 ++ chunk.bytes) }

def snapshotFooterBody (epoch frameCount : BitVec 64) : Bytes :=
  snapshotPutU32 kSnapshotFooterTag
    ++ (snapshotPutU32 nshards ++ (snapshotPutU64 epoch ++ snapshotPutU64 frameCount))

/-- `finish_file_normal`, which `writer_pass` calls once every shard has ended. -/
def SnapshotWriter.finishFileNormal (epoch : BitVec 64)
    : Option Bytes :=
  if writer.endedShards = writer.nshards then
    let body := snapshotFooterBody writer.nshards epoch writer.frameCount
    some (writer.file ++ (body ++ snapshotPutU64 (snapshotChecksum body)))
  else none

structure SnapshotLoadPlan where
  shardCount : BitVec 32
  hashKind : BitVec 32
  epoch : BitVec 64
  cutMs : BitVec 64
  hashSeed : BitVec 64
  sipK0 : BitVec 64
  sipK1 : BitVec 64
  sections : List Bytes
  deriving DecidableEq, Repr

structure SnapshotScan where
  progress : List ShardSection
  sections : List Bytes
  frames : BitVec 64
  deriving DecidableEq, Repr

/-- One turn of the frame loop; the bytes start at the frame. -/
def SnapshotScan.readFrame (scan : SnapshotScan) (bytes : Bytes)
    : Except String (Bytes × SnapshotScan) :=
  if bytes.length < kSnapshotFrameHeaderBytes then .error "truncated snapshot frame"
  else
    let sid := (snapshotGetU32 (bytes.drop 4)).toNat
    let seq := snapshotGetU32 (bytes.drop 8)
    let flags := snapshotGetU32 (bytes.drop 12)
    let len := (snapshotGetU32 (bytes.drop 16)).toNat
    let checksum := snapshotGetU64 (bytes.drop 20)
    let payload := bytes.drop kSnapshotFrameHeaderBytes
    match scan.progress[sid]? with
    | none => .error "invalid snapshot frame"
    | some shard =>
      if seq ≠ shard.sequence ∨ shard.ended = true ∨ payload.length < len
          ∨ checksum ≠ snapshotChecksum (payload.take len) then
        .error "invalid snapshot frame"
      else if flags &&& snapshotFrameBegin ≠ 0 ∧ shard.began = true then
        .error "duplicate shard section"
      else if flags &&& snapshotFrameBegin = 0 ∧ shard.began = false then
        .error "shard section has no begin frame"
      else
        .ok (payload.drop len,
          { progress :=
              scan.progress.set sid ⟨shard.sequence + 1, true, flags &&& snapshotFrameEnd ≠ 0⟩
            sections := scan.sections.modify sid (· ++ payload.take len)
            frames := scan.frames + 1 })

/-- The frame loop; every turn takes a frame header at least, so the bytes bound the turns. -/
def SnapshotScan.readFrames : Nat → SnapshotScan → Bytes → Except String (Bytes × SnapshotScan)
  | 0, scan, bytes => .ok (bytes, scan)
  | turns + 1, scan, bytes =>
    if kSnapshotFooterBytes ≤ bytes.length ∧ snapshotGetU32 bytes = kSnapshotFrameTag then
      match scan.readFrame bytes with
      | .error error => .error error
      | .ok (rest, next) => next.readFrames turns rest
    else .ok (bytes, scan)

def SnapshotScan.start (shardCount : BitVec 32) : SnapshotScan :=
  { progress := List.replicate shardCount.toNat ⟨0, false, false⟩
    sections := List.replicate shardCount.toNat []
    frames := 0 }

def SnapshotScan.finish (scan : SnapshotScan) (shardCount : BitVec 32) (epoch : BitVec 64)
    (footer : Bytes) : Except String (List Bytes) :=
  if footer.length ≠ kSnapshotFooterBytes ∨ snapshotGetU32 footer ≠ kSnapshotFooterTag
      ∨ snapshotGetU32 (footer.drop 4) ≠ shardCount
      ∨ snapshotGetU64 (footer.drop 8) ≠ epoch
      ∨ snapshotGetU64 (footer.drop 16) ≠ scan.frames
      ∨ snapshotGetU64 (footer.drop 24) ≠ snapshotChecksum (footer.take 24) then
    .error "snapshot has no valid completion footer"
  else if scan.progress.any (fun shard => !shard.began || !shard.ended) then
    .error "incomplete shard section"
  else .ok scan.sections

/-- `snapshot_read_plan` on the bytes of the file. -/
def snapshotReadPlan (file : Bytes) (expectedShards : BitVec 32)
    : Except String SnapshotLoadPlan :=
  let shardCount := snapshotGetU32 (file.drop 16)
  let hashKind := snapshotGetU32 (file.drop 20)
  let epoch := snapshotGetU64 (file.drop 24)
  if file.length < kSnapshotFileHeaderBytes + kSnapshotFooterBytes
      ∨ file.take 8 ≠ kSnapshotFileMagic
      ∨ snapshotGetU32 (file.drop 8) ≠ kSnapshotFormatVersion
      ∨ snapshotGetU32 (file.drop 12) ≠ .ofNat 32 kSnapshotFileHeaderBytes
      ∨ snapshotGetU64 (file.drop 64) ≠ snapshotChecksum (file.take 64) then
    .error "invalid snapshot header"
  else if shardCount ≠ expectedShards then
    .error "snapshot shard count does not match --shards"
  else if 1 < hashKind.toNat then
    .error "snapshot uses an unknown hash kind"
  else
    match SnapshotScan.readFrames file.length (.start shardCount)
        (file.drop kSnapshotFileHeaderBytes) with
    | .error error => .error error
    | .ok (footer, scan) =>
      match scan.finish shardCount epoch footer with
      | .error error => .error error
      | .ok sections =>
        .ok { shardCount := shardCount, hashKind := hashKind, epoch := epoch
              cutMs := snapshotGetU64 (file.drop 32)
              hashSeed := snapshotGetU64 (file.drop 40)
              sipK0 := snapshotGetU64 (file.drop 48)
              sipK1 := snapshotGetU64 (file.drop 56)
              sections := sections }

end Thredis.Persist
