import Thredis.Persist.Format

/-! The increment file of the append-only log: records, the frames that carry them, and the file
header.
-/

namespace Thredis.Persist

open List

def kAofFileMagic : Bytes := [84, 79, 77, 79, 65, 79, 70, 0]

def kAofFileVersion : BitVec 32 := 1

def kAofFileHeaderBytes : Nat := 80

def kAofFrameHeaderBytes : Nat := 40

def kAofFrameTag : BitVec 32 := 0x4d524641

def kAofRecordHeaderBytes : Nat := 40

def kAofRecordTag : BitVec 32 := 0x43524f41

def kAofChunkBytes : Nat := 64 * 1024

def aofFrameLargeBegin : BitVec 32 := 1

def aofFrameLargeEnd : BitVec 32 := 2

/-- The shard id of the physical control stream. -/
def kAofControlSid : BitVec 32 := 0xffffffff

inductive AofRecordKind where
  | put
  | del
  | flush
  | timestamp
  | groupPut
  | groupDel
  | groupCommit
  deriving DecidableEq, Repr

def AofRecordKind.code : AofRecordKind → UInt8
  | .put => 1
  | .del => 2
  | .flush => 3
  | .timestamp => 4
  | .groupPut => 5
  | .groupDel => 6
  | .groupCommit => 7

/-- The fields of a record as they stand in the file. A record the code accepts has a key and a
payload of at most `UINT32_MAX` bytes.
-/
@[ext]
structure AofRecord where
  kind : UInt8
  type : UInt8
  encoding : UInt8
  key : Bytes
  payload : Bytes
  expire : BitVec 64
  group : BitVec 64
  keySized : key.length < 2 ^ 32
  payloadSized : payload.length < 2 ^ 32
  deriving DecidableEq, Repr

def AofRecord.header (record : AofRecord) : Bytes :=
  snapshotPutU32 kAofRecordTag ++ ([record.kind, record.type, record.encoding, 1]
    ++ (snapshotPutU32 (.ofNat 32 record.key.length)
    ++ (snapshotPutU32 (.ofNat 32 kAofRecordHeaderBytes)
    ++ (snapshotPutU64 (.ofNat 64 record.payload.length)
    ++ (snapshotPutU64 record.expire ++ snapshotPutU64 record.group)))))

def AofRecord.bytes (record : AofRecord) : Bytes :=
  record.header ++ (record.key ++ record.payload)

structure AofFrame where
  sid : BitVec 32
  sequence : BitVec 32
  flags : BitVec 32
  bytes : Bytes
  sized : bytes.length < 2 ^ 32
  deriving DecidableEq, Repr

structure AofPiece where
  bytes : Bytes
  sized : bytes.length < 2 ^ 32
  deriving DecidableEq, Repr

def AofFrame.headerBody (frame : AofFrame) : Bytes :=
  snapshotPutU32 kAofFrameTag ++ (snapshotPutU32 frame.sid ++ (snapshotPutU32 frame.sequence
    ++ (snapshotPutU32 frame.flags ++ (snapshotPutU32 (.ofNat 32 frame.bytes.length)
    ++ (snapshotPutU32 (.ofNat 32 kAofFrameHeaderBytes)
    ++ snapshotPutU64 (snapshotChecksum frame.bytes))))))

def AofFrame.header (frame : AofFrame) : Bytes :=
  frame.headerBody ++ snapshotPutU64 (snapshotChecksum frame.headerBody)

def AofFrame.encode (frame : AofFrame) : Bytes := frame.header ++ frame.bytes

structure AofFileIdentity where
  createdMs : BitVec 64
  hashKind : BitVec 32
  hashSeed : BitVec 64
  sipK0 : BitVec 64
  sipK1 : BitVec 64
  /-- `HashKind` has two members. -/
  known : hashKind.toNat ≤ 1

def aofHeaderBody (nshards : BitVec 32) (identity : AofFileIdentity) : Bytes :=
  kAofFileMagic ++ (snapshotPutU32 kAofFileVersion
    ++ (snapshotPutU32 (.ofNat 32 kAofFileHeaderBytes)
    ++ (snapshotPutU32 nshards ++ (snapshotPutU32 identity.hashKind
    ++ (snapshotPutU64 identity.createdMs ++ (snapshotPutU64 identity.hashSeed
    ++ (snapshotPutU64 identity.sipK0 ++ (snapshotPutU64 identity.sipK1
    ++ List.replicate 8 0))))))))

def aofHeader (nshards : BitVec 32) (identity : AofFileIdentity) : Bytes :=
  aofHeaderBody nshards identity
    ++ (snapshotPutU64 (snapshotChecksum (aofHeaderBody nshards identity)) ++ List.replicate 8 0)

/-- `parse_record_bounds` at the front of the bytes, with the bytes behind the record. -/
def parseRecordBounds (stream : Bytes) : Except String (AofRecord × Bytes) :=
  if stream.length < kAofRecordHeaderBytes then .error "truncated AOF record"
  else if snapshotGetU32 stream ≠ kAofRecordTag ∨ stream[7]? ≠ some 1
      ∨ snapshotGetU32 (stream.drop 12) ≠ .ofNat 32 kAofRecordHeaderBytes then
    .error "invalid AOF record header"
  else
    let keyLen := (snapshotGetU32 (stream.drop 8)).toNat
    let payloadLen := (snapshotGetU64 (stream.drop 16)).toNat
    let data := stream.drop kAofRecordHeaderBytes
    if sizes : payloadLen < 2 ^ 32 ∧ keyLen + payloadLen ≤ data.length then
      .ok
        ({ kind := stream.getD 4 0, type := stream.getD 5 0, encoding := stream.getD 6 0
           key := data.take keyLen, payload := (data.drop keyLen).take payloadLen
           expire := snapshotGetU64 (stream.drop 24), group := snapshotGetU64 (stream.drop 32)
           keySized := by
             rw [List.length_take]
             have := (snapshotGetU32 (stream.drop 8)).isLt
             omega
           payloadSized := by
             rw [List.length_take]
             omega },
          data.drop (keyLen + payloadLen))
    else .error "invalid AOF record lengths"

variable (record : AofRecord)

@[simp]
theorem AofRecord.header_length
    : record.header.length = kAofRecordHeaderBytes := by
  simp [header, kAofRecordHeaderBytes]

theorem AofRecord.bytes_length
    : record.bytes.length = kAofRecordHeaderBytes + record.key.length + record.payload.length := by
  simp [bytes, Nat.add_assoc]

/-- The words of a record's header, where the parser looks for them. -/
theorem AofRecord.words (rest : Bytes)
    : let stream := record.bytes ++ rest
      snapshotGetU32 stream = kAofRecordTag
      ∧ stream.getD 4 0 = record.kind ∧ stream.getD 5 0 = record.type
      ∧ stream.getD 6 0 = record.encoding ∧ stream[7]? = some 1
      ∧ (snapshotGetU32 (stream.drop 8)).toNat = record.key.length
      ∧ snapshotGetU32 (stream.drop 12) = .ofNat 32 kAofRecordHeaderBytes
      ∧ (snapshotGetU64 (stream.drop 16)).toNat = record.payload.length
      ∧ snapshotGetU64 (stream.drop 24) = record.expire
      ∧ snapshotGetU64 (stream.drop 32) = record.group
      ∧ stream.drop kAofRecordHeaderBytes = record.key ++ (record.payload ++ rest) := by
  have keyLen : record.key.length % 2 ^ 32 = record.key.length := Nat.mod_eq_of_lt record.keySized
  have payloadLen : record.payload.length % 2 ^ 64 = record.payload.length :=
    Nat.mod_eq_of_lt (Nat.lt_trans record.payloadSized (by decide))
  have data : (record.bytes ++ rest).drop kAofRecordHeaderBytes
      = record.key ++ (record.payload ++ rest) := by
    rw [bytes, append_assoc, drop_left' record.header_length, append_assoc]
  refine ⟨?_, ?_, ?_, ?_, ?_, ?_, ?_, ?_, ?_, ?_, data⟩
  · simp [bytes, header]
  · simp [bytes, header]
  · simp [bytes, header, getElem?_append]
  · simp [bytes, header, getElem?_append]
  · simp [bytes, header, getElem?_append]
  · simpa [bytes, header] using keyLen
  · simp [bytes, header]
  · simpa [bytes, header] using payloadLen
  · simp [bytes, header]
  · simp [bytes, header]

/-- A record is parsed back from its encoding, whatever follows it. -/
theorem parseRecordBounds_bytes (rest : Bytes)
    : parseRecordBounds (record.bytes ++ rest) = .ok (record, rest) := by
  obtain ⟨tag, kind, type, encoding, version, keyLen, size, payloadLen, expire, group, data⟩ :=
    record.words rest
  have enough : ¬ (record.bytes ++ rest).length < kAofRecordHeaderBytes := by
    rw [length_append, record.bytes_length]
    omega
  have valid : ¬ (snapshotGetU32 (record.bytes ++ rest) ≠ kAofRecordTag
      ∨ (record.bytes ++ rest)[7]? ≠ some 1
      ∨ snapshotGetU32 ((record.bytes ++ rest).drop 12) ≠ .ofNat 32 kAofRecordHeaderBytes) := by
    simp [tag, version, size]
  have sizes : (snapshotGetU64 ((record.bytes ++ rest).drop 16)).toNat < 2 ^ 32
      ∧ (snapshotGetU32 ((record.bytes ++ rest).drop 8)).toNat
          + (snapshotGetU64 ((record.bytes ++ rest).drop 16)).toNat
        ≤ ((record.bytes ++ rest).drop kAofRecordHeaderBytes).length := by
    rw [payloadLen, data]
    refine ⟨record.payloadSized, ?_⟩
    simp only [length_append]
    omega
  rw [parseRecordBounds]
  rw [dif_pos sizes]
  refine congrArg Except.ok (Prod.ext (AofRecord.ext kind type encoding ?_ ?_ expire group) ?_)
  · simp [data, keyLen]
  · simp [data, keyLen, payloadLen]
  · simp [data, keyLen, payloadLen]

theorem AofRecord.bytes_append_ne_nil (rest : Bytes)
    : record.bytes ++ rest ≠ [] := by
  intro empty
  have length := congrArg length empty
  rw [length_append, record.bytes_length] at length
  simp [kAofRecordHeaderBytes] at length

end Thredis.Persist
