import Thredis.Persist.AofGrammar

/-! The frame loop over a log: an entry that is whole in the file is taken, one that is not is
taken back.
-/

namespace Thredis.Persist

open List

variable (frame : AofFrame)

def AofFrame.head : AofFrameHead :=
  { sid := frame.sid, sequence := frame.sequence, flags := frame.flags
    length := frame.bytes.length, checksum := snapshotChecksum frame.bytes }

theorem AofFrame.headerBody_length : frame.headerBody.length = 32 := by
  simp [headerBody]

@[simp]
theorem AofFrame.header_length
    : frame.header.length = kAofFrameHeaderBytes := by
  simp [header, headerBody_length, kAofFrameHeaderBytes]

theorem AofFrame.encode_length
    : frame.encode.length = kAofFrameHeaderBytes + frame.bytes.length := by
  simp [encode]

/-- The words of a frame header, where the loop looks for them. -/
theorem AofFrame.words (tail : Bytes)
    : let bytes := frame.header ++ tail
      snapshotGetU32 bytes = kAofFrameTag
      ∧ snapshotGetU32 (bytes.drop 20) = .ofNat 32 kAofFrameHeaderBytes
      ∧ snapshotGetU64 (bytes.drop 32) = snapshotChecksum (bytes.take 32)
      ∧ readFrameHead bytes = frame.head
      ∧ bytes.drop kAofFrameHeaderBytes = tail := by
  have body : (frame.header ++ tail).take 32 = frame.headerBody := by
    rw [header, append_assoc, take_left' frame.headerBody_length]
  have sum : snapshotGetU64 ((frame.header ++ tail).drop 32)
      = snapshotChecksum frame.headerBody := by
    rw [header, append_assoc, drop_left' frame.headerBody_length, snapshotGetU64_put]
  have payload : (frame.header ++ tail).drop kAofFrameHeaderBytes = tail :=
    drop_left' frame.header_length
  have length : frame.bytes.length % 2 ^ 32 = frame.bytes.length := Nat.mod_eq_of_lt frame.sized
  refine ⟨?_, ?_, by rw [sum, body], ?_, payload⟩
  · simp [header, headerBody]
  · simp [header, headerBody]
  · simp only [readFrameHead, head, AofFrameHead.mk.injEq]
    refine ⟨?_, ?_, ?_, ?_, ?_⟩
    · simp [header, headerBody]
    · simp [header, headerBody]
    · simp [header, headerBody]
    · simpa [header, headerBody] using length
    · simp [header, headerBody]

/-- The frame carries the number its stream expects; a control frame carries none. -/
def AofFrame.Expected (scan : AofScan) : Prop :=
  if frame.sid = kAofControlSid then
    frame.sequence = 0 ∧ frame.flags = 0 ∧ scan.large = none
  else scan.nextSequence[frame.sid.toNat]? = some frame.sequence

variable {scan : AofScan} {frame : AofFrame}

section

variable (pos : Nat) (expected : frame.Expected scan)

include expected

/-- Behind a whole header with the expected number, the payload decides. -/
theorem AofScan.readFrame_header (tail : Bytes)
    : scan.readFrame pos (frame.header ++ tail)
      = if tail.length < frame.bytes.length then .torn
        else if snapshotChecksum frame.bytes
            ≠ snapshotChecksum (tail.take frame.bytes.length) then
          .failed "invalid AOF frame checksum"
        else
          match scan.enterLarge frame.head pos with
          | .error error => .failed error
          | .ok large =>
            .took (tail.drop frame.bytes.length)
              (scan.append frame.head large (tail.take frame.bytes.length)
                (pos + kAofFrameHeaderBytes + frame.bytes.length)) := by
  obtain ⟨tag, size, sum, head, payload⟩ := frame.words tail
  have enough : ¬ (frame.header ++ tail).length < kAofFrameHeaderBytes := by
    rw [length_append, frame.header_length]
    omega
  have numbered : ¬ ((¬ frame.head.sid = kAofControlSid
        ∧ scan.nextSequence[frame.head.sid.toNat]? ≠ some frame.head.sequence)
      ∨ (frame.head.sid = kAofControlSid
        ∧ (frame.head.sequence ≠ 0 ∨ frame.head.flags ≠ 0))) := by
    rw [AofFrame.Expected] at expected
    split at expected
    · rename_i control
      simp [AofFrame.head, control, expected.1, expected.2.1]
    · rename_i shard
      simp [AofFrame.head, shard, expected]
  have apart : ¬ (frame.head.sid = kAofControlSid ∧ scan.large.isSome = true) := by
    rintro ⟨control, busy⟩
    have same : frame.sid = kAofControlSid := control
    rw [AofFrame.Expected, if_pos same] at expected
    rw [expected.2.2] at busy
    cases busy
  rw [readFrame, if_neg enough, if_neg (by simp [tag, size, sum])]
  simp only [head]
  rw [if_neg numbered, if_neg apart]
  rfl

theorem AofScan.readFrame_took {large : Option AofLarge}
    (entered : scan.enterLarge frame.head pos = .ok large) (rest : Bytes)
    : scan.readFrame pos (frame.encode ++ rest)
      = .took rest (scan.append frame.head large frame.bytes
          (pos + kAofFrameHeaderBytes + frame.bytes.length)) := by
  rw [AofFrame.encode, append_assoc, readFrame_header pos expected, entered]
  simp

/-- A frame that is not whole in the file is torn. -/
theorem AofScan.readFrame_torn {kept : Nat} (short : kept < frame.encode.length)
    : scan.readFrame pos (frame.encode.take kept) = .torn := by
  by_cases headless : kept < kAofFrameHeaderBytes
  · refine if_pos ?_
    rw [length_take]
    omega
  · rw [AofFrame.encode_length] at short
    rw [AofFrame.encode, take_append, take_of_length_le (by simp; omega),
      readFrame_header pos expected, if_pos]
    rw [length_take, AofFrame.header_length]
    omega

end

def AofScan.readAll (size : Nat) (scan : AofScan) (bytes : Bytes)
    : Except String (Bool × AofScan) :=
  scan.readFrames size bytes.length bytes

variable {bytes : Bytes}

theorem AofScan.readFrame_shrinks {next : AofScan} {pos : Nat} {rest : Bytes}
    (taken : scan.readFrame pos bytes = .took rest next) : rest.length < bytes.length := by
  revert taken
  fun_cases scan.readFrame pos bytes with
  | case8 enough =>
    rintro ⟨rfl⟩
    rw [length_drop, length_drop]
    simp only [kAofFrameHeaderBytes] at enough ⊢
    omega
  | _ => nofun

variable {size : Nat}

/-- More turns than bytes change nothing. -/
theorem AofScan.readFrames_eq {turns : Nat} (enough : bytes.length ≤ turns)
    : scan.readFrames size turns bytes = scan.readAll size bytes := by
  induction turns using Nat.strong_induction_on generalizing scan bytes with
  | _ turns ih =>
    rw [readAll]
    cases bytes with
    | nil => cases turns <;> simp [readFrames]
    | cons first others =>
      cases turns with
      | zero => simp at enough
      | succ turns =>
        rw [length_cons] at enough ⊢
        rw [readFrames, readFrames, if_neg (by simp), if_neg (by simp)]
        cases turn : scan.readFrame (size - (first :: others).length) (first :: others) with
        | torn | failed error => rfl
        | took rest next =>
          have shrinks := readFrame_shrinks turn
          rw [length_cons] at shrinks
          dsimp only
          rw [ih turns (by omega) (by omega), ih others.length (by omega) (by omega)]

theorem AofScan.readAll_nil (size : Nat) (scan : AofScan)
    : scan.readAll size [] = .ok (false, scan) := rfl

theorem AofScan.readAll_took {next : AofScan} {rest : Bytes}
    (taken : scan.readFrame (size - bytes.length) bytes = .took rest next)
    : scan.readAll size bytes = next.readAll size rest := by
  have shrinks := readFrame_shrinks taken
  cases bytes with
  | nil => simp at shrinks
  | cons first others =>
    rw [readAll, length_cons, readFrames, taken]
    exact readFrames_eq (by rw [length_cons] at shrinks; omega)

theorem AofScan.readAll_torn (filled : bytes ≠ [])
    (torn : scan.readFrame (size - bytes.length) bytes = .torn)
    : scan.readAll size bytes = .ok (true, scan) := by
  cases bytes with
  | nil => exact absurd rfl filled
  | cons first others => rw [readAll, length_cons, readFrames, if_neg (by simp), torn]

/-- The loop stops at a frame that is not whole. -/
theorem AofScan.readAll_cut (size : Nat)
    (expected : frame.Expected scan) {kept : Nat} (short : kept < frame.encode.length)
    : scan.readAll size (frame.encode.take kept) = .ok (kept != 0, scan) := by
  cases kept with
  | zero => rfl
  | succ kept =>
    refine readAll_torn ?_ (readFrame_torn _ expected short)
    intro none
    have length := congrArg length none
    rw [length_take, length_nil] at length
    omega

end Thredis.Persist
