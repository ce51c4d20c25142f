import Thredis.Persist.AofReplay

/-! What a well-behaved log holds: whole records in one frame, large records in a run of frames of
their own, and group commits behind the fragments they name.
-/

namespace Thredis.Persist

/-- What the writer appends as a whole. -/
inductive AofEntry where
  | records (sid : Nat) (held : List AofRecord)
      (sized : (held.flatMap AofRecord.bytes).length < 2 ^ 32)
  | large (sid : Nat) (record : AofRecord) (first second : AofPiece) (others : List AofPiece)
      (cut : (first :: second :: others).flatMap AofPiece.bytes = record.bytes)
  | commit (ticket : BitVec 64) (dependencies : List (BitVec 32 × BitVec 32))
      (sized : dependencies.length < 2 ^ 28)

def dependencyBytes (dependencies : List (BitVec 32 × BitVec 32)) : Bytes :=
  snapshotPutU32 (.ofNat 32 dependencies.length)
    ++ dependencies.flatMap (fun named => snapshotPutU32 named.1 ++ snapshotPutU32 named.2)

theorem dependencyBytes_length (dependencies : List (BitVec 32 × BitVec 32))
    : (dependencyBytes dependencies).length = 4 + dependencies.length * 8 := by
  induction dependencies with
  | nil => simp [dependencyBytes]
  | cons named rest ih =>
    simp only [dependencyBytes, List.length_append, snapshotPutU32_length, List.flatMap_cons,
      List.length_cons] at ih ⊢
    omega

def groupCommitRecord (ticket : BitVec 64) (dependencies : List (BitVec 32 × BitVec 32))
    (sized : dependencies.length < 2 ^ 28) : AofRecord :=
  { kind := AofRecordKind.groupCommit.code, type := 0, encoding := 0, key := []
    payload := dependencyBytes dependencies, expire := -1, group := ticket
    keySized := noBytes_sized
    payloadSized := by
      rw [dependencyBytes_length]
      omega }

def largeTail (sid : Nat) : BitVec 32 → AofPiece → List AofPiece → List AofFrame
  | sequence, piece, [] =>
    [{ sid := .ofNat 32 sid, sequence := sequence, flags := aofFrameLargeEnd
       bytes := piece.bytes, sized := piece.sized }]
  | sequence, piece, next :: others =>
    { sid := .ofNat 32 sid, sequence := sequence, flags := 0
      bytes := piece.bytes, sized := piece.sized }
      :: largeTail sid (sequence + 1) next others

variable (numbers : List (BitVec 32))

/-- The frames of an entry, numbered from the shards' next frame numbers. -/
def AofEntry.frames : AofEntry → List AofFrame
  | .records sid held sized =>
    [{ sid := .ofNat 32 sid, sequence := numbers.getD sid 0, flags := 0
       bytes := held.flatMap AofRecord.bytes, sized := sized }]
  | .large sid _ first second others _ =>
    { sid := .ofNat 32 sid, sequence := numbers.getD sid 0, flags := aofFrameLargeBegin
      bytes := first.bytes, sized := first.sized }
      :: largeTail sid (numbers.getD sid 0 + 1) second others
  | .commit ticket dependencies sized =>
    [{ sid := kAofControlSid, sequence := 0, flags := 0
       bytes := (groupCommitRecord ticket dependencies sized).bytes
       sized := by
         rw [AofRecord.bytes_length]
         have := dependencyBytes_length dependencies
         simp only [groupCommitRecord, kAofRecordHeaderBytes, List.length_nil]
         omega }]

/-- The shards' next frame numbers behind an entry. -/
def AofEntry.advance : AofEntry → List (BitVec 32)
  | .records sid _ _ => numbers.modify sid (· + 1)
  | .large sid _ _ _ others _ => numbers.modify sid (· + .ofNat 32 (others.length + 2))
  | .commit _ _ _ => numbers

def aofFrames : List (BitVec 32) → List AofEntry → List AofFrame
  | _, [] => []
  | numbers, entry :: rest => entry.frames numbers ++ aofFrames (entry.advance numbers) rest

variable (entries : List AofEntry)

def aofLog : Bytes :=
  (aofFrames numbers entries).flatMap AofFrame.encode

def aofAdvance : List (BitVec 32) :=
  entries.foldl AofEntry.advance numbers

def AofEntry.recordsOf (sid : Nat) : AofEntry → List AofRecord
  | .records owner held _ => if owner = sid then held else []
  | .large owner record _ _ _ _ => if owner = sid then [record] else []
  | .commit _ _ _ => []

def shardRecords (sid : Nat) : List AofRecord :=
  entries.flatMap (AofEntry.recordsOf sid)

def shardStream (sid : Nat) : Bytes :=
  (shardRecords entries sid).flatMap AofRecord.bytes

def groupCommits : List AofEntry → List (BitVec 64 × List (BitVec 32 × BitVec 32))
  | [] => []
  | .commit ticket dependencies _ :: rest => (ticket, dependencies) :: groupCommits rest
  | _ :: rest => groupCommits rest

def AofRecord.Streamed (record : AofRecord) : Prop :=
  AofRecordKind.put.code ≤ record.kind ∧ record.kind ≤ AofRecordKind.groupDel.code
  ∧ (record.isGroupFragment = true → record.group ≠ 0)

/-- Whether an entry brings a fragment of the group. -/
def AofEntry.HasFragment (ticket : BitVec 64) (entry : AofEntry) : Prop :=
  ∃ sid, ∃ record ∈ entry.recordsOf sid, record.isGroupFragment = true ∧ record.group = ticket

/-- The writer's grammar, for logs numbered from `numbers`. -/
structure AofGrammar (numbers : List (BitVec 32)) (entries : List AofEntry) : Prop where
  shards : ∀ entry ∈ entries, match entry with
    | .records sid _ _ | .large sid _ _ _ _ _ => sid < numbers.length
    | .commit _ _ _ => True
  streamed : ∀ entry ∈ entries, ∀ sid, ∀ record ∈ entry.recordsOf sid, record.Streamed
  named : ∀ before ticket dependencies sized after,
    entries = before ++ .commit ticket dependencies sized :: after
    → ticket ≠ 0 ∧ dependencies ≠ []
      ∧ ∀ named ∈ dependencies, named.1.toNat < numbers.length
        ∧ ∃ frame ∈ aofFrames numbers before,
          frame.sid = named.1 ∧ frame.sequence = named.2
  fragments : ∀ before ticket dependencies sized after,
    entries = before ++ .commit ticket dependencies sized :: after
    → ∀ entry ∈ after, ¬ entry.HasFragment ticket
  distinct : ((groupCommits entries).map Prod.fst).Nodup

variable (numbers : List (BitVec 32)) (front back : List AofEntry)

/-- A log goes on from the frame numbers the one before it left, by induction over that. -/
theorem aofFrames_append
    : aofFrames numbers (front ++ back)
      = aofFrames numbers front ++ aofFrames (aofAdvance numbers front) back := by
  induction front generalizing numbers with
  | nil => rfl
  | cons entry rest ih =>
    rw [List.cons_append, aofFrames, aofFrames, ih, List.append_assoc]
    rfl

theorem aofAdvance_append
    : aofAdvance numbers (front ++ back) = aofAdvance (aofAdvance numbers front) back :=
  List.foldl_append

theorem aofLog_append
    : aofLog numbers (front ++ back)
      = aofLog numbers front ++ aofLog (aofAdvance numbers front) back := by
  rw [aofLog, aofFrames_append, List.flatMap_append]
  rfl

/-- Numbering changes no number of shards. -/
theorem aofAdvance_length (entries : List AofEntry)
    : (aofAdvance numbers entries).length = numbers.length := by
  induction entries generalizing numbers with
  | nil => rfl
  | cons entry rest ih =>
    have one : (entry.advance numbers).length = numbers.length := by
      cases entry with
      | records sid held sized | large sid record first second others cut => simp [AofEntry.advance]
      | commit ticket dependencies sized => rfl
    exact (ih _).trans one

end Thredis.Persist
