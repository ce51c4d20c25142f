import Thredis.Persist.AofFormat

/-! Reading an increment file back: the frame loop with its torn tail, the group-commit records,
the shard streams, and what a shard's load applies.
-/

namespace Thredis.Persist

/-- The large record being read, with where the file, its section and its numbering stood. -/
structure AofLarge where
  sid : Nat
  filePos : Nat
  sectionSize : Nat
  sequence : BitVec 32
  deriving DecidableEq, Repr

/-- The state of the frame loop of `aof_read_plan`. -/
structure AofScan where
  nextSequence : List (BitVec 32)
  sections : List Bytes
  controlSection : Bytes
  large : Option AofLarge
  valid : Nat
  deriving DecidableEq, Repr

inductive AofTurn where
  | torn
  | failed (error : String)
  | took (rest : Bytes) (next : AofScan)
  deriving DecidableEq, Repr

structure AofFrameHead where
  sid : BitVec 32
  sequence : BitVec 32
  flags : BitVec 32
  length : Nat
  checksum : BitVec 64
  deriving DecidableEq, Repr

def readFrameHead (bytes : Bytes) : AofFrameHead :=
  { sid := snapshotGetU32 (bytes.drop 4), sequence := snapshotGetU32 (bytes.drop 8)
    flags := snapshotGetU32 (bytes.drop 12), length := (snapshotGetU32 (bytes.drop 16)).toNat
    checksum := snapshotGetU64 (bytes.drop 24) }

variable (scan : AofScan)

/-- The tests on the large-record flags, with the large record after the frame's begin. -/
def AofScan.enterLarge (head : AofFrameHead) (pos : Nat)
    : Except String (Option AofLarge) :=
  match scan.large with
  | none =>
    if head.flags &&& aofFrameLargeEnd ≠ 0 then
      .error "AOF large record ends without a begin"
    else if head.flags &&& aofFrameLargeBegin ≠ 0 then
      if head.sid = kAofControlSid then .error "AOF control record cannot be large"
      else
        .ok (some { sid := head.sid.toNat, filePos := pos
                    sectionSize := (scan.sections.getD head.sid.toNat []).length
                    sequence := head.sequence })
    else .ok none
  | some large =>
    if head.sid.toNat ≠ large.sid ∨ head.flags &&& aofFrameLargeBegin ≠ 0 then
      .error "interleaved AOF large record"
    else .ok (some large)

/-- The frame's bytes join their stream; the frame that ends a large record closes it. -/
def AofScan.append (head : AofFrameHead) (large : Option AofLarge) (payload : Bytes) (after : Nat)
    : AofScan :=
  let control := head.sid = kAofControlSid
  let left := if head.flags &&& aofFrameLargeEnd ≠ 0 then none else large
  { nextSequence :=
      if control then scan.nextSequence
      else scan.nextSequence.set head.sid.toNat (head.sequence + 1)
    sections :=
      if control then scan.sections else scan.sections.modify head.sid.toNat (· ++ payload)
    controlSection := if control then scan.controlSection ++ payload else scan.controlSection
    large := left
    valid := if left.isNone then after else scan.valid }

/-- One turn of the frame loop at file position `pos`; the bytes start at the frame. -/
def AofScan.readFrame (pos : Nat) (bytes : Bytes) : AofTurn :=
  if bytes.length < kAofFrameHeaderBytes then .torn
  else if snapshotGetU32 bytes ≠ kAofFrameTag
      ∨ snapshotGetU32 (bytes.drop 20) ≠ .ofNat 32 kAofFrameHeaderBytes
      ∨ snapshotGetU64 (bytes.drop 32) ≠ snapshotChecksum (bytes.take 32) then
    .failed "invalid AOF frame header"
  else
    let head := readFrameHead bytes
    let control := head.sid = kAofControlSid
    let payload := bytes.drop kAofFrameHeaderBytes
    if (¬ control ∧ scan.nextSequence[head.sid.toNat]? ≠ some head.sequence)
        ∨ (control ∧ (head.sequence ≠ 0 ∨ head.flags ≠ 0)) then
      .failed "invalid AOF shard frame sequence"
    else if payload.length < head.length then .torn
    else if head.checksum ≠ snapshotChecksum (payload.take head.length) then
      .failed "invalid AOF frame checksum"
    else if control ∧ scan.large.isSome then
      .failed "AOF control record interleaves a large record"
    else
      match scan.enterLarge head pos with
      | .error error => .failed error
      | .ok large =>
        .took (payload.drop head.length) (scan.append head large (payload.take head.length)
            (pos + kAofFrameHeaderBytes + head.length))

/-- The frame loop over a file of `size` bytes, and whether it met a torn frame; every turn takes
a frame header at least, so the bytes bound the turns.
-/
def AofScan.readFrames (size : Nat) : Nat → AofScan → Bytes → Except String (Bool × AofScan)
  | 0, scan, _ => .ok (false, scan)
  | turns + 1, scan, bytes =>
    if bytes = [] then .ok (false, scan)
    else
      match scan.readFrame (size - bytes.length) bytes with
      | .torn => .ok (true, scan)
      | .failed error => .error error
      | .took rest next => next.readFrames size turns rest

/-- What the loop leaves of an unfinished large record is taken back. -/
def AofScan.rollBack : AofScan :=
  match scan.large with
  | none => scan
  | some large =>
    { scan with
      sections := scan.sections.modify large.sid (·.take large.sectionSize)
      nextSequence := scan.nextSequence.set large.sid large.sequence
      large := none
      valid := large.filePos }

/-- The test of one entry of a participant vector. -/
def namesFragment (nextSequence : List (BitVec 32)) (sid sequence : BitVec 32) : Bool :=
  match nextSequence[sid.toNat]? with
  | none => false
  | some next => sequence < next

/-- The participant vector of a group-commit record. -/
def readDependencies : Nat → Bytes → List (BitVec 32 × BitVec 32)
  | 0, _ => []
  | count + 1, bytes =>
    (snapshotGetU32 bytes, snapshotGetU32 (bytes.drop 4)) :: readDependencies count (bytes.drop 8)

/-- The tests on one record of the control stream. -/
def checkGroupCommit (nextSequence : List (BitVec 32)) (committed : List (BitVec 64))
    (record : AofRecord) : Except String Unit :=
  let count := (snapshotGetU32 record.payload).toNat
  if record.kind ≠ AofRecordKind.groupCommit.code ∨ record.key.length ≠ 0 ∨ record.group = 0
      ∨ record.payload.length < 4 then
    .error "invalid AOF GCMT record"
  else if count = 0 ∨ record.payload.length ≠ 4 + count * 8 then
    .error "invalid AOF GCMT participant vector"
  else if (readDependencies count (record.payload.drop 4)).all
      (fun named => namesFragment nextSequence named.1 named.2) then
    if committed.contains record.group then .error "duplicate AOF GCMT ticket" else .ok ()
  else .error "AOF GCMT names a missing shard fragment"

/-- The loop over the control stream: the committed tickets, oldest first. -/
def readControl (nextSequence : List (BitVec 32))
    : Nat → Bytes → List (BitVec 64) → Except String (List (BitVec 64))
  | 0, _, committed => .ok committed
  | turns + 1, bytes, committed =>
    if bytes = [] then .ok committed
    else
      match parseRecordBounds bytes with
      | .error error => .error error
      | .ok (record, rest) =>
        match checkGroupCommit nextSequence committed record with
        | .error error => .error error
        | .ok () => readControl nextSequence turns rest (committed ++ [record.group])

def AofRecord.isGroupFragment (record : AofRecord) : Bool :=
  record.kind = AofRecordKind.groupPut.code || record.kind = AofRecordKind.groupDel.code

/-- The loop over one shard stream: its records, all of a known kind. -/
def readStream : Nat → Bytes → Except String (List AofRecord)
  | 0, _ => .ok []
  | turns + 1, bytes =>
    if bytes = [] then .ok []
    else
      match parseRecordBounds bytes with
      | .error error => .error error
      | .ok (record, rest) =>
        if record.kind < AofRecordKind.put.code
            ∨ AofRecordKind.groupDel.code < record.kind then
          .error "unknown AOF record kind"
        else if record.isGroupFragment ∧ record.group = 0 then
          .error "AOF group fragment has no ticket"
        else
          match readStream turns rest with
          | .error error => .error error
          | .ok records => .ok (record :: records)

/-- The shard streams in turn. -/
def readStreams : List Bytes → Except String (List (List AofRecord))
  | [] => .ok []
  | stream :: rest =>
    match readStream stream.length stream with
    | .error error => .error error
    | .ok records =>
      match readStreams rest with
      | .error error => .error error
      | .ok others => .ok (records :: others)

structure AofReplayPlan where
  shardCount : BitVec 32
  hashKind : BitVec 32
  hashSeed : BitVec 64
  sipK0 : BitVec 64
  sipK1 : BitVec 64
  replayedRecords : Nat
  groupsSkipped : Nat
  nextSequence : List (BitVec 32)
  sections : List Bytes
  controlSection : Bytes
  committedGroups : List (BitVec 64)
  deriving DecidableEq, Repr

def AofScan.start (shardCount : BitVec 32) (initialSequences : Option (List (BitVec 32)))
    : AofScan :=
  { nextSequence :=
      match initialSequences with
      | some starts =>
        if starts.length = shardCount.toNat then starts else List.replicate shardCount.toNat 0
      | none => List.replicate shardCount.toNat 0
    sections := List.replicate shardCount.toNat []
    controlSection := [], large := none, valid := kAofFileHeaderBytes }

def AofScan.readRecords
    : Except String (List (BitVec 64) × List (List AofRecord)) :=
  match readControl scan.nextSequence scan.controlSection.length scan.controlSection [] with
  | .error error => .error error
  | .ok committed =>
    match readStreams scan.sections with
    | .error error => .error error
    | .ok streams => .ok (committed, streams)

/-- `aof_read_plan` on the bytes of an existing file: the plan, and the size the file is left at.
-/
def aofReadPlan (file : Bytes) (expectedShards : BitVec 32) (truncateTail : Bool)
    (initialSequences : Option (List (BitVec 32))) : Except String (AofReplayPlan × Nat) :=
  let shardCount := snapshotGetU32 (file.drop 16)
  let hashKind := snapshotGetU32 (file.drop 20)
  if file.length < kAofFileHeaderBytes ∨ file.take 8 ≠ kAofFileMagic
      ∨ snapshotGetU32 (file.drop 8) ≠ kAofFileVersion
      ∨ snapshotGetU32 (file.drop 12) ≠ .ofNat 32 kAofFileHeaderBytes
      ∨ snapshotGetU64 (file.drop 64) ≠ snapshotChecksum (file.take 64) then
    .error "invalid AOF header"
  else if shardCount ≠ expectedShards then .error "AOF shard count does not match --shards"
  else if 1 < hashKind.toNat then .error "AOF uses an unknown hash kind"
  else
    match AofScan.readFrames file.length file.length (.start shardCount initialSequences)
        (file.drop kAofFileHeaderBytes) with
    | .error error => .error error
    | .ok (torn, scan) =>
      let kept := scan.rollBack
      let cut := torn || scan.large.isSome
      if cut = true ∧ truncateTail = false then .error "truncated AOF tail"
      else
        match kept.readRecords with
        | .error error => .error error
        | .ok (committed, streams) =>
          .ok
            ({ shardCount := shardCount, hashKind := hashKind
               hashSeed := snapshotGetU64 (file.drop 32)
               sipK0 := snapshotGetU64 (file.drop 40)
               sipK1 := snapshotGetU64 (file.drop 48)
               replayedRecords := committed.length + streams.flatten.length
               groupsSkipped := streams.flatten.countP (fun record =>
                 record.isGroupFragment && !committed.contains record.group)
               nextSequence := kept.nextSequence, sections := kept.sections
               controlSection := kept.controlSection, committedGroups := committed },
              if cut then kept.valid else file.length)

end Thredis.Persist
