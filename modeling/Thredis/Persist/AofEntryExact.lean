import Thredis.Persist.AofScanExact

/-! The frame loop over whole and over torn entries. -/

namespace Thredis.Persist

open List AofEntry

def AofEntry.stream (entry : AofEntry) (sid : Nat) : Bytes :=
  (entry.recordsOf sid).flatMap AofRecord.bytes

def AofEntry.control : AofEntry → Bytes
  | .commit ticket dependencies sized => (groupCommitRecord ticket dependencies sized).bytes
  | _ => []

def AofEntry.encode (numbers : List (BitVec 32)) (entry : AofEntry) : Bytes :=
  (entry.frames numbers).flatMap AofFrame.encode

def AofScan.absorb (scan : AofScan) (entry : AofEntry) : AofScan :=
  { nextSequence := entry.advance scan.nextSequence
    sections := scan.sections.mapIdx (fun sid bytes => bytes ++ entry.stream sid)
    controlSection := scan.controlSection ++ entry.control
    large := none
    valid := scan.valid + (entry.encode scan.nextSequence).length }

structure AofScan.Between (size : Nat) (scan : AofScan) (bytes : Bytes) : Prop where
  large : scan.large = none
  sized : scan.sections.length = scan.nextSequence.length
  shards : scan.nextSequence.length < 2 ^ 32
  here : scan.valid + bytes.length = size

def AofEntry.Owned (shards : Nat) : AofEntry → Prop
  | .records sid _ _ | .large sid _ _ _ _ _ => sid < shards
  | .commit _ _ _ => True

theorem mapIdx_modify (sections : List Bytes) (sid : Nat) (extra : Bytes)
    : sections.mapIdx (fun owner bytes => bytes ++ if sid = owner then extra else [])
      = sections.modify sid (· ++ extra) := by
  apply ext_getElem?
  intro owner
  by_cases own : sid = owner
  · cases sections[owner]? <;> simp [own]
  · cases sections[owner]? <;> simp [own]

theorem modify_getD_set (numbers : List (BitVec 32)) (sid : Nat) (step : BitVec 32)
    (inside : sid < numbers.length)
    : numbers.set sid (numbers.getD sid 0 + step) = numbers.modify sid (· + step) := by
  apply ext_getElem?
  intro owner
  by_cases own : sid = owner
  · subst own
    simp [inside]
  · simp [own]

variable {sid size count : Nat}

theorem sid_ne_control {shards : Nat} (inside : sid < shards) (few : shards < 2 ^ 32)
    : BitVec.ofNat 32 sid ≠ kAofControlSid ∧ (BitVec.ofNat 32 sid).toNat = sid := by
  have small : (BitVec.ofNat 32 sid).toNat = sid := by
    exact Nat.mod_eq_of_lt (by omega)
  refine ⟨?_, small⟩
  intro same
  have words := congrArg BitVec.toNat same
  have control : kAofControlSid.toNat = 2 ^ 32 - 1 := rfl
  omega

variable {scan : AofScan} {frame : AofFrame}

section

variable (owner : frame.sid = .ofNat 32 sid) (inside : sid < scan.nextSequence.length)
  (few : scan.nextSequence.length < 2 ^ 32)
  (numbered : frame.sequence = scan.nextSequence.getD sid 0)

include owner inside few numbered

theorem AofScan.expected_shard : frame.Expected scan := by
  obtain ⟨other, small⟩ := sid_ne_control inside few
  rw [AofFrame.Expected, owner, if_neg other, small, numbered]
  simp [getElem?_eq_getElem inside]

/-- A frame's bytes join the stream of its shard. -/
theorem AofScan.append_shard (large : Option AofLarge) (after : Nat)
    : scan.append frame.head large frame.bytes after
      = { nextSequence := scan.nextSequence.modify sid (· + 1)
          sections := scan.sections.modify sid (· ++ frame.bytes)
          controlSection := scan.controlSection
          large := if frame.flags &&& aofFrameLargeEnd ≠ 0 then none else large
          valid :=
            if (if frame.flags &&& aofFrameLargeEnd ≠ 0 then none else large).isNone then after
            else scan.valid } := by
  obtain ⟨other, small⟩ := sid_ne_control inside few
  have notControl : ¬ frame.head.sid = kAofControlSid := by
    rw [AofFrame.head, owner]
    exact other
  have index : frame.head.sid.toNat = sid := by
    rw [AofFrame.head, owner]
    exact small
  have number : frame.head.sequence = scan.nextSequence.getD sid 0 := numbered
  rw [append]
  simp only [notControl, index, number, modify_getD_set _ _ _ inside]
  rfl

end

variable {rest read : Bytes}

/-- A frame of whole records. -/
theorem AofScan.readAll_records {held : List AofRecord}
    {sized : (held.flatMap AofRecord.bytes).length < 2 ^ 32}
    (between : scan.Between size ((records sid held sized).encode scan.nextSequence ++ rest))
    (inside : sid < scan.nextSequence.length)
    : scan.readAll size ((records sid held sized).encode scan.nextSequence ++ rest)
      = (scan.absorb (.records sid held sized)).readAll size rest := by
  let frame : AofFrame :=
    { sid := .ofNat 32 sid, sequence := scan.nextSequence.getD sid 0, flags := 0
      bytes := held.flatMap AofRecord.bytes, sized }
  have encoded : (records sid held sized).encode scan.nextSequence = frame.encode := append_nil _
  have expected : frame.Expected scan := expected_shard rfl inside between.shards rfl
  have entered (pos : Nat) : scan.enterLarge frame.head pos = .ok none := by
    simp [enterLarge, between.large, AofFrame.head, frame]
  have here := between.here
  rw [encoded] at here ⊢
  rw [readAll_took (readFrame_took _ expected (entered _) rest),
    append_shard rfl inside between.shards rfl]
  congr 1
  rw [absorb, encoded]
  rw [length_append, frame.encode_length] at here
  have streamed : scan.sections.mapIdx
      (fun owner bytes => bytes ++ (records sid held sized).stream owner)
      = scan.sections.modify sid (· ++ frame.bytes) := by
    rw [← mapIdx_modify]
    congr 1
    funext owner bytes
    rw [stream, recordsOf]
    by_cases own : sid = owner <;> simp [own, frame]
  rw [streamed]
  simp only [AofEntry.advance, AofEntry.control]
  rw [length_append, frame.encode_length]
  simp
  omega

/-- A group commit joins the control stream. -/
theorem AofScan.readAll_commit {ticket : BitVec 64}
    {dependencies : List (BitVec 32 × BitVec 32)} {sized : dependencies.length < 2 ^ 28}
    (between : scan.Between size
      ((commit ticket dependencies sized).encode scan.nextSequence ++ rest))
    : scan.readAll size ((commit ticket dependencies sized).encode scan.nextSequence
        ++ rest)
      = (scan.absorb (.commit ticket dependencies sized)).readAll size rest := by
  obtain ⟨frame, framed, control, number, flags, payload⟩ : ∃ frame : AofFrame,
      (commit ticket dependencies sized).frames scan.nextSequence = [frame]
      ∧ frame.sid = kAofControlSid ∧ frame.sequence = 0 ∧ frame.flags = 0
      ∧ frame.bytes = (groupCommitRecord ticket dependencies sized).bytes :=
    ⟨_, rfl, rfl, rfl, rfl, rfl⟩
  have encoded : (commit ticket dependencies sized).encode scan.nextSequence
      = frame.encode := by
    rw [encode, framed]
    exact append_nil _
  have expected : frame.Expected scan := by
    rw [AofFrame.Expected, if_pos control]
    exact ⟨number, flags, between.large⟩
  have entered (pos : Nat) : scan.enterLarge frame.head pos = .ok none := by
    simp [enterLarge, between.large, AofFrame.head, flags]
  have here := between.here
  rw [encoded] at here ⊢
  rw [length_append, frame.encode_length] at here
  rw [readAll_took (readFrame_took _ expected (entered _) rest)]
  congr 1
  have streamed : scan.sections.mapIdx
      (fun owner bytes => bytes ++ (commit ticket dependencies sized).stream owner)
      = scan.sections := by
    apply ext_getElem?
    simp [AofEntry.stream, AofEntry.recordsOf]
  rw [absorb, encoded, streamed, append]
  simp only [AofFrame.head, control, AofEntry.advance, AofEntry.control]
  rw [length_append, frame.encode_length, payload]
  rw [payload] at here
  simp
  omega

-- Large records

/-- The loop's state inside a large record, behind `count` of its frames. -/
def AofScan.during (scan : AofScan) (sid count : Nat) (read : Bytes) : AofScan :=
  { nextSequence := scan.nextSequence.modify sid (· + .ofNat 32 count)
    sections := scan.sections.modify sid (· ++ read)
    controlSection := scan.controlSection
    large := some
      { sid := sid, filePos := scan.valid, sectionSize := (scan.sections.getD sid []).length
        sequence := scan.nextSequence.getD sid 0 }
    valid := scan.valid }

/-- What one more frame does to the numbers and to the stream. -/
theorem AofScan.during_succ (scan : AofScan) (sid count : Nat) (read bytes : Bytes)
    : (scan.during sid count read).nextSequence.modify sid (· + 1)
        = (scan.during sid (count + 1) (read ++ bytes)).nextSequence
      ∧ (scan.during sid count read).sections.modify sid (· ++ bytes)
        = (scan.during sid (count + 1) (read ++ bytes)).sections := by
  simp only [during, modify_modify_eq]
  constructor
  · congr 1
    funext number
    simp [BitVec.ofNat_add, BitVec.add_assoc]
  · congr 1
    funext stream
    simp

theorem AofScan.during_number (scan : AofScan) (count : Nat) (read : Bytes)
    (inside : sid < scan.nextSequence.length)
    : (scan.during sid count read).nextSequence.getD sid 0
      = scan.nextSequence.getD sid 0 + .ofNat 32 count := by
  simp [during, getElem?_eq_getElem inside]

/-- What the loop took of an unfinished large record is given back. -/
theorem AofScan.during_rollBack (count : Nat) (read : Bytes)
    (idle : scan.large = none) (inside : sid < scan.nextSequence.length)
    (sized : scan.sections.length = scan.nextSequence.length)
    : (scan.during sid count read).rollBack = scan := by
  have sections : (scan.sections.modify sid (· ++ read)).modify sid
      (·.take (scan.sections.getD sid []).length) = scan.sections := by
    apply ext_getElem?
    intro owner
    by_cases own : sid = owner
    · subst own
      simp [getElem?_eq_getElem (sized ▸ inside)]
    · simp [own]
  have numbers : (scan.nextSequence.modify sid (· + .ofNat 32 count)).set sid
      (scan.nextSequence.getD sid 0) = scan.nextSequence := by
    apply ext_getElem?
    intro owner
    by_cases own : sid = owner
    · subst own
      simp [inside]
    · simp [own]
  rw [rollBack]
  simp only [during, sections, numbers]
  rw [← idle]

def largeTailBytes (sid : Nat) (sequence : BitVec 32) (piece : AofPiece) (others : List AofPiece)
    : Bytes :=
  (largeTail sid sequence piece others).flatMap AofFrame.encode

theorem largeTailBytes_cons (sid : Nat) (number : BitVec 32) (count : Nat)
    (piece next : AofPiece) (others : List AofPiece)
    : largeTailBytes sid (number + .ofNat 32 count) piece (next :: others)
      = AofFrame.encode
          { sid := .ofNat 32 sid, sequence := number + .ofNat 32 count, flags := 0
            bytes := piece.bytes, sized := piece.sized }
        ++ largeTailBytes sid (number + .ofNat 32 (count + 1)) next others := by
  rw [BitVec.ofNat_add, ← BitVec.add_assoc]
  rfl

section

variable (owner : frame.sid = .ofNat 32 sid) (inside : sid < scan.nextSequence.length)
  (few : scan.nextSequence.length < 2 ^ 32)

include inside few

section

include owner

section

variable (numbered : frame.sequence = scan.nextSequence.getD sid 0 + .ofNat 32 count)

include numbered

/-- One more frame of the large record. -/
theorem AofScan.during_append (unfinished : frame.flags = 0) (after : Nat)
    : (scan.during sid count read).append frame.head (scan.during sid count read).large
        frame.bytes after
      = scan.during sid (count + 1) (read ++ frame.bytes) := by
  rw [append_shard owner (by simpa [during] using inside) (by simpa [during] using few)
    (by rw [numbered, during_number _ _ _ inside])]
  have unclosed : ¬ frame.flags &&& aofFrameLargeEnd ≠ 0 := by simp [unfinished]
  obtain ⟨numbers, sections⟩ := scan.during_succ sid count read frame.bytes
  rw [if_neg unclosed, numbers, sections]
  rfl

/-- The frame that ends the large record. -/
theorem AofScan.during_finish (finished : frame.flags = aofFrameLargeEnd) (after : Nat)
    : (scan.during sid count read).append frame.head (scan.during sid count read).large
        frame.bytes after
      = { scan.during sid (count + 1) (read ++ frame.bytes) with
          large := none, valid := after } := by
  rw [append_shard owner (by simpa [during] using inside) (by simpa [during] using few)
    (by rw [numbered, during_number _ _ _ inside])]
  have closed : frame.flags &&& aofFrameLargeEnd ≠ 0 := by
    rw [finished]
    decide
  obtain ⟨numbers, sections⟩ := scan.during_succ sid count read frame.bytes
  rw [if_pos closed, numbers, sections]
  rfl

theorem AofScan.during_expected : frame.Expected (scan.during sid count read) :=
  expected_shard owner (by simpa [during] using inside) (by simpa [during] using few)
    (by rw [numbered, during_number _ _ _ inside])

end

theorem AofScan.during_enters (later : frame.flags &&& aofFrameLargeBegin = 0) (pos : Nat)
    : (scan.during sid count read).enterLarge frame.head pos
      = .ok (scan.during sid count read).large := by
  obtain ⟨other, small⟩ := sid_ne_control inside few
  simp [enterLarge, during, AofFrame.head, owner, small, later]

/-- The first frame of a large record. -/
theorem AofScan.enter_during (idle : scan.large = none)
    (numbered : frame.sequence = scan.nextSequence.getD sid 0)
    (begins : frame.flags = aofFrameLargeBegin)
    : ∃ large, scan.enterLarge frame.head scan.valid = .ok large
      ∧ ∀ after, scan.append frame.head large frame.bytes after
        = scan.during sid 1 frame.bytes := by
  obtain ⟨other, small⟩ := sid_ne_control inside few
  refine ⟨some { sid, filePos := scan.valid
                 sectionSize := (scan.sections.getD sid []).length
                 sequence := scan.nextSequence.getD sid 0 }, ?_, ?_⟩
  · rw [enterLarge, idle]
    simp only [AofFrame.head, begins, owner, small, numbered]
    rw [if_neg (by decide), if_pos (by decide), if_neg other]
  · intro after
    rw [append_shard owner inside few numbered, begins]
    rfl

end

/-- The frames behind the first one are read to the end of the large record. -/
theorem AofScan.during_readAll (piece : AofPiece) (others : List AofPiece) (count : Nat)
    (read rest : Bytes)
    (fits : (largeTailBytes sid (scan.nextSequence.getD sid 0 + .ofNat 32 count) piece others
      ++ rest).length ≤ size)
    : (scan.during sid count read).readAll size
        (largeTailBytes sid (scan.nextSequence.getD sid 0 + .ofNat 32 count) piece others ++ rest)
      = AofScan.readAll size { scan.during sid (count + others.length + 1)
              (read ++ (piece :: others).flatMap AofPiece.bytes) with
            large := none, valid := size - rest.length } rest := by
  induction others generalizing piece count read with
  | nil =>
    rw [largeTailBytes, largeTail, flatMap_cons, flatMap_nil, append_nil] at fits ⊢
    rw [readAll_took (readFrame_took _ (during_expected rfl inside few rfl)
      (during_enters rfl inside few (by simp; decide) _) rest),
      during_finish rfl inside few rfl rfl]
    have after (encoded : Bytes) (one : encoded.length = kAofFrameHeaderBytes + piece.bytes.length)
        (short : (encoded ++ rest).length ≤ size)
        : size - (encoded ++ rest).length + kAofFrameHeaderBytes + piece.bytes.length
          = size - rest.length := by
      rw [length_append] at short ⊢
      omega
    rw [after _ (AofFrame.encode_length _) fits]
    simp
  | cons next others ih =>
    rw [largeTailBytes_cons, append_assoc] at fits ⊢
    rw [readAll_took (readFrame_took _ (during_expected rfl inside few rfl)
      (during_enters rfl inside few (by simp) _) _),
      during_append rfl inside few rfl rfl,
      ih next (count + 1) (read ++ piece.bytes) (by rw [length_append] at fits; omega)]
    have counted : count + 1 + others.length + 1 = count + (next :: others).length + 1 := by
      rw [length_cons]
      omega
    simp [counted]

/-- A large record cut behind its first frame is left unfinished. -/
theorem AofScan.during_readAll_cut (size : Nat) (piece : AofPiece) (others : List AofPiece)
    (count : Nat) (read : Bytes) (kept : Nat)
    (short : kept < (largeTailBytes sid (scan.nextSequence.getD sid 0 + .ofNat 32 count) piece
      others).length)
    : ∃ torn count' read', (scan.during sid count read).readAll size
        ((largeTailBytes sid (scan.nextSequence.getD sid 0 + .ofNat 32 count) piece others).take
          kept)
      = .ok (torn, scan.during sid count' read') := by
  induction others generalizing piece count read kept with
  | nil =>
    rw [largeTailBytes, largeTail, flatMap_cons, flatMap_nil, append_nil]
      at short ⊢
    exact ⟨_, count, read, readAll_cut _ (during_expected rfl inside few rfl) short⟩
  | cons next others ih =>
    rw [largeTailBytes_cons] at short ⊢
    obtain ⟨frame, framed⟩ : ∃ frame : AofFrame, frame = { piece with
          sid := .ofNat 32 sid, sequence := scan.nextSequence.getD sid 0 + .ofNat 32 count
          flags := 0 } := ⟨_, rfl⟩
    have owner : frame.sid = .ofNat 32 sid := by rw [framed]
    have numbered : frame.sequence = scan.nextSequence.getD sid 0 + .ofNat 32 count := by
      rw [framed]
    have plain : frame.flags = 0 := by rw [framed]
    rw [← framed] at short ⊢
    rw [length_append] at short
    rw [take_append]
    by_cases first : kept < frame.encode.length
    · rw [Nat.sub_eq_zero_of_le first.le, take_zero, append_nil]
      exact ⟨_, count, read, readAll_cut _ (during_expected owner inside few numbered) first⟩
    · rw [take_of_length_le (by omega),
        readAll_took (readFrame_took _ (during_expected owner inside few numbered)
          (during_enters owner inside few (by simp [plain]) _) _),
        during_append owner inside few numbered plain]
      exact ih next (count + 1) _ _ (by omega)

end

section

variable {record : AofRecord} {first second : AofPiece} {others : List AofPiece}
  (cut : (first :: second :: others).flatMap AofPiece.bytes = record.bytes)

/-- The frames of a large record: the one that begins it, and the tail. -/
theorem AofEntry.encode_large (numbers : List (BitVec 32))
    : ∃ frame : AofFrame, (large sid record first second others cut).encode numbers
        = frame.encode ++ largeTailBytes sid (numbers.getD sid 0 + .ofNat 32 1) second others
      ∧ frame.sid = .ofNat 32 sid ∧ frame.sequence = numbers.getD sid 0
      ∧ frame.flags = aofFrameLargeBegin ∧ frame.bytes = first.bytes :=
  ⟨{ first with
      sid := .ofNat 32 sid, sequence := numbers.getD sid 0, flags := aofFrameLargeBegin },
    rfl, rfl, rfl, rfl, rfl⟩

variable {cut}

/-- A large record in its own run of frames. -/
theorem AofScan.readAll_large
    (between : scan.Between size
      ((AofEntry.large sid record first second others cut).encode scan.nextSequence ++ rest))
    (inside : sid < scan.nextSequence.length)
    : scan.readAll size ((AofEntry.large sid record first second others cut).encode
        scan.nextSequence ++ rest)
      = (scan.absorb (.large sid record first second others cut)).readAll size rest := by
  obtain ⟨frame, encoded, owner, numbered, begins, bytes⟩ := encode_large cut scan.nextSequence
  obtain ⟨large, entered, appended⟩ :=
    enter_during owner inside between.shards between.large numbered begins
  have here := between.here
  have position : size - (frame.encode ++ (largeTailBytes sid
      (scan.nextSequence.getD sid 0 + .ofNat 32 1) second others ++ rest)).length = scan.valid := by
    rw [← append_assoc, ← encoded]
    omega
  rw [encoded, append_assoc,
    readAll_took (readFrame_took _ (expected_shard owner inside between.shards numbered)
      (position ▸ entered) _), appended,
    during_readAll inside between.shards _ _ _ _ _ (by
      rw [encoded, append_assoc, length_append] at here
      omega)]
  congr 1
  have streamed : scan.sections.mapIdx (fun owner bytes =>
        bytes ++ (AofEntry.large sid record first second others cut).stream owner)
      = scan.sections.modify sid (· ++ record.bytes) := by
    rw [← mapIdx_modify]
    congr 1
    funext owner bytes
    rw [AofEntry.stream, AofEntry.recordsOf]
    by_cases own : sid = owner <;> simp [own]
  have read : frame.bytes ++ (second :: others).flatMap AofPiece.bytes = record.bytes := by
    rw [bytes, ← cut]
    rfl
  rw [absorb, streamed]
  simp only [during, read, AofScan.mk.injEq, AofEntry.advance, AofEntry.control, append_nil,
    true_and]
  refine ⟨by rw [Nat.add_comm 1], ?_⟩
  rw [length_append] at here
  omega

end

theorem AofEntry.advance_length (numbers : List (BitVec 32)) (entry : AofEntry)
    : (entry.advance numbers).length = numbers.length :=
  aofAdvance_length numbers [entry]

variable {entry : AofEntry}

section

variable (between : scan.Between size (entry.encode scan.nextSequence ++ rest))

include between

theorem AofScan.Between.absorb
    : (scan.absorb entry).Between size rest := by
  have here := between.here
  rw [length_append] at here
  exact
    { large := rfl
      sized := by
        show (scan.sections.mapIdx _).length = _
        rw [length_mapIdx, between.sized]
        exact (entry.advance_length _).symm
      shards := by
        show (entry.advance scan.nextSequence).length < _
        rw [entry.advance_length]
        exact between.shards
      here := by
        show scan.valid + _ + rest.length = size
        omega }

/-- An entry that is whole in the file is taken. -/
theorem AofScan.readAll_entry (owned : entry.Owned scan.nextSequence.length)
    : scan.readAll size (entry.encode scan.nextSequence ++ rest)
      = (scan.absorb entry).readAll size rest := by
  cases entry with
  | records sid held sized => exact readAll_records between owned
  | large sid record first second others cut => exact readAll_large between owned
  | commit ticket dependencies sized => exact readAll_commit between

end

/-- An entry that is not whole is taken back. -/
theorem AofScan.readAll_entry_cut {kept : Nat}
    (between : scan.Between size ((entry.encode scan.nextSequence).take kept))
    (owned : entry.Owned scan.nextSequence.length) (begun : 0 < kept)
    (short : kept < (entry.encode scan.nextSequence).length)
    : ∃ torn left, scan.readAll size ((entry.encode scan.nextSequence).take kept)
        = .ok (torn, left)
      ∧ left.rollBack = scan ∧ (torn || left.large.isSome) = true := by
  have idle : scan.rollBack = scan := by rw [rollBack, between.large]
  have single (frame : AofFrame) (expected : frame.Expected scan)
      (inFrame : kept < frame.encode.length)
      (encoded : (entry.encode scan.nextSequence).take kept = frame.encode.take kept)
      : ∃ torn left, scan.readAll size ((entry.encode scan.nextSequence).take kept)
          = .ok (torn, left)
        ∧ left.rollBack = scan ∧ (torn || left.large.isSome) = true := by
    rw [encoded]
    refine ⟨_, scan, readAll_cut size expected inFrame, idle, ?_⟩
    simp [Nat.ne_of_gt begun]
  cases entry with
  | records sid held sized =>
    rw [encode, frames, flatMap_cons, flatMap_nil, append_nil] at short single ⊢
    exact single _ (expected_shard rfl owned between.shards rfl) short rfl
  | commit ticket dependencies sized =>
    rw [encode, frames, flatMap_cons, flatMap_nil, append_nil] at short single ⊢
    refine single _ ?_ short rfl
    exact ⟨rfl, rfl, between.large⟩
  | large sid record first second others cut =>
    obtain ⟨frame, encoded, owner, numbered, begins, -⟩ := encode_large cut scan.nextSequence
    have expected := expected_shard owner owned between.shards numbered
    by_cases inFirst : kept < frame.encode.length
    · refine single frame expected inFirst ?_
      rw [encoded, take_append, Nat.sub_eq_zero_of_le inFirst.le, take_zero, append_nil]
    · obtain ⟨large, entered, appended⟩ :=
        enter_during owner owned between.shards between.large numbered begins
      have here := between.here
      rw [encoded, take_append, take_of_length_le (by omega)] at here
      rw [encoded, length_append] at short
      obtain ⟨torn, count, read, cut⟩ := during_readAll_cut owned between.shards size
        second others 1 frame.bytes (kept - frame.encode.length) (by omega)
      refine ⟨torn, scan.during sid count read, ?_,
        during_rollBack count read between.large owned between.sized, by simp [during]⟩
      rw [encoded, take_append, take_of_length_le (by omega),
        readAll_took (readFrame_took _ expected ((Nat.eq_sub_of_add_eq here) ▸ entered) _),
        appended, cut]

end Thredis.Persist
