import Thredis.Persist.AofEntryExact

/-! A log that is cut anywhere: the loop keeps the entries in front of the cut. -/

namespace Thredis.Persist

open List AofEntry AofRecord

/-- The entries that are whole in the first `kept` bytes of a log. -/
def keptEntries (numbers : List (BitVec 32)) : List AofEntry → Nat → List AofEntry
  | [], _ => []
  | entry :: rest, kept =>
    if (entry.encode numbers).length ≤ kept then
      entry :: keptEntries (entry.advance numbers) rest (kept - (entry.encode numbers).length)
    else []

def AofScan.absorbAll (scan : AofScan) (entries : List AofEntry) : AofScan :=
  entries.foldl AofScan.absorb scan

variable (numbers : List (BitVec 32))

theorem aofLog_cons (entry : AofEntry) (rest : List AofEntry)
    : aofLog numbers (entry :: rest)
      = entry.encode numbers ++ aofLog (entry.advance numbers) rest := by
  rw [aofLog, aofFrames, flatMap_append]
  rfl

theorem aofLog_singleton (entry : AofEntry)
    : aofLog numbers [entry] = entry.encode numbers :=
  (aofLog_cons numbers entry []).trans (append_nil _)

/-- The kept entries are a front of the log, and as long a one as the bytes allow. -/
theorem keptEntries_maximal (entries : List AofEntry) (kept : Nat)
    : ∃ lost, entries = keptEntries numbers entries kept ++ lost
      ∧ (aofLog numbers (keptEntries numbers entries kept)).length ≤ kept
      ∧ ∀ next ∈ lost.head?,
          kept < (aofLog numbers (keptEntries numbers entries kept ++ [next])).length := by
  induction entries generalizing numbers kept with
  | nil => exact ⟨[], rfl, Nat.zero_le _, by simp⟩
  | cons entry rest ih =>
    rw [keptEntries]
    split
    · obtain ⟨lost, split, fits, maximal⟩ :=
        ih (entry.advance numbers) (kept - (entry.encode numbers).length)
      refine ⟨lost, congrArg (entry :: ·) split, ?_, ?_⟩
      · rw [aofLog_cons, length_append]
        omega
      · intro next first
        rw [cons_append, aofLog_cons, length_append]
        have := maximal next first
        omega
    · refine ⟨entry :: rest, rfl, Nat.zero_le _, ?_⟩
      intro next first
      cases first
      rw [nil_append, aofLog_cons, length_append]
      omega

/-- The loop over a log cut at `kept` bytes leaves the state behind the kept entries.
Witness: induction over the entries; the first entry that is not whole is taken back.
-/
theorem AofScan.readAll_log {size kept : Nat} {scan : AofScan} {entries : List AofEntry}
    (between : scan.Between size ((aofLog scan.nextSequence entries).take kept))
    (owned : ∀ entry ∈ entries, entry.Owned scan.nextSequence.length)
    (short : kept ≤ (aofLog scan.nextSequence entries).length)
    : ∃ torn left, scan.readAll size ((aofLog scan.nextSequence entries).take kept)
        = .ok (torn, left)
      ∧ left.rollBack = scan.absorbAll (keptEntries scan.nextSequence entries kept)
      ∧ (torn || left.large.isSome) = decide
        ((aofLog scan.nextSequence
          (keptEntries scan.nextSequence entries kept)).length < kept) := by
  have idle (scan : AofScan) (closed : scan.large = none) : scan.rollBack = scan := by
    rw [rollBack, closed]
  induction entries generalizing scan kept with
  | nil =>
    refine ⟨false, scan, ?_, idle scan between.large, ?_⟩
    · simp [aofLog, aofFrames, readAll_nil]
    · simp [between.large, Nat.le_zero.mp short]
  | cons entry rest ih =>
    rw [aofLog_cons] at between short ⊢
    rw [keptEntries]
    by_cases whole : (entry.encode scan.nextSequence).length ≤ kept
    · rw [if_pos whole]
      rw [take_append, take_of_length_le whole] at between ⊢
      rw [readAll_entry between (owned entry mem_cons_self)]
      rw [length_append] at short
      obtain ⟨torn, left, read, rolled, cut⟩ := ih between.absorb (by
          intro later member
          show later.Owned (entry.advance scan.nextSequence).length
          rw [entry.advance_length]
          exact owned later (mem_cons_of_mem _ member))
        (show kept - (entry.encode scan.nextSequence).length
            ≤ (aofLog (entry.advance scan.nextSequence) rest).length by omega)
      refine ⟨torn, left, read, rolled, cut.trans ?_⟩
      have advanced : (scan.absorb entry).nextSequence = entry.advance scan.nextSequence := rfl
      rw [advanced, aofLog_cons, length_append]
      exact decide_eq_decide.mpr (by omega)
    · rw [if_neg whole]
      rw [take_append, Nat.sub_eq_zero_of_le (by omega), take_zero, append_nil] at between ⊢
      cases kept with
      | zero =>
        refine ⟨false, scan, by rw [take_zero, readAll_nil], idle scan between.large, ?_⟩
        simp [between.large]
      | succ kept =>
        obtain ⟨torn, left, read, rolled, cut⟩ := readAll_entry_cut between
          (owned entry mem_cons_self) (Nat.succ_pos kept) (by omega)
        refine ⟨torn, left, read, rolled, cut.trans ?_⟩
        simp [aofLog, aofFrames]

theorem AofScan.absorbAll_eq (scan : AofScan) (entries : List AofEntry) (idle : scan.large = none)
    : scan.absorbAll entries
      = { nextSequence := aofAdvance scan.nextSequence entries
          sections := scan.sections.mapIdx (fun sid bytes => bytes ++ shardStream entries sid)
          controlSection := scan.controlSection ++ entries.flatMap control
          large := none
          valid := scan.valid + (aofLog scan.nextSequence entries).length } := by
  induction entries generalizing scan with
  | nil =>
    have sections : scan.sections.mapIdx (fun sid bytes => bytes ++ shardStream [] sid)
        = scan.sections := by
      apply ext_getElem?
      simp [shardStream, shardRecords]
    rw [sections]
    simp only [absorbAll, foldl_nil, aofAdvance, flatMap_nil, append_nil, aofLog,
      aofFrames, length_nil, Nat.add_zero]
    rw [← idle]
  | cons entry rest ih =>
    have step : scan.absorbAll (entry :: rest) = (scan.absorb entry).absorbAll rest := rfl
    rw [step, ih (scan.absorb entry) rfl]
    simp only [absorb, AofScan.mk.injEq, aofLog_cons, length_append,
      flatMap_cons, append_assoc, Nat.add_assoc, and_true]
    refine ⟨rfl, ?_⟩
    rw [mapIdx_mapIdx]
    congr 1
    funext sid bytes
    simp [stream, shardStream, shardRecords]

/-- Every fragment the log's group commits name is below its shard's next frame number. -/
def Reached (nextSequence : List (BitVec 32)) (entries : List AofEntry) : Prop :=
  ∀ commit ∈ groupCommits entries, ∀ named ∈ commit.2,
    namesFragment nextSequence named.1 named.2 = true

instance (nextSequence : List (BitVec 32)) (entries : List AofEntry)
    : Decidable (Reached nextSequence entries) :=
  inferInstanceAs (Decidable (∀ commit ∈ groupCommits entries, ∀ named ∈ commit.2,
    namesFragment nextSequence named.1 named.2 = true))

theorem readDependencies_bytes (dependencies : List (BitVec 32 × BitVec 32)) (rest : Bytes)
    : readDependencies dependencies.length
        (dependencies.flatMap (fun named => snapshotPutU32 named.1 ++ snapshotPutU32 named.2)
          ++ rest)
      = dependencies := by
  induction dependencies with
  | nil => rfl
  | cons named others ih =>
    rw [length_cons, readDependencies]
    simp only [flatMap_cons, append_assoc, snapshotGetU32_put]
    have second := drop_snapshotPutU32 named.1 (snapshotPutU32 named.2
      ++ (others.flatMap (fun named => snapshotPutU32 named.1 ++ snapshotPutU32 named.2)
        ++ rest)) 0
    have third := drop_snapshotPutU32 named.1 (snapshotPutU32 named.2
      ++ (others.flatMap (fun named => snapshotPutU32 named.1 ++ snapshotPutU32 named.2)
        ++ rest)) 4
    have fourth := drop_snapshotPutU32 named.2
      (others.flatMap (fun named => snapshotPutU32 named.1 ++ snapshotPutU32 named.2) ++ rest) 0
    simp only [drop_zero] at second third fourth
    rw [second, third, fourth, ih, snapshotGetU32_put]

variable {dependencies : List (BitVec 32 × BitVec 32)} {sized : dependencies.length < 2 ^ 28}

variable (nextSequence : List (BitVec 32))

/-- The tests on a group-commit record come down to the fragments it names. -/
theorem checkGroupCommit_record (committed : List (BitVec 64)) {ticket : BitVec 64}
    (drawn : ticket ≠ 0) (filled : dependencies ≠ []) (fresh : ticket ∉ committed)
    : checkGroupCommit nextSequence committed (groupCommitRecord ticket dependencies sized)
      = if ∀ named ∈ dependencies, namesFragment nextSequence named.1 named.2 = true then .ok ()
        else .error "AOF GCMT names a missing shard fragment" := by
  have count : (snapshotGetU32 (dependencyBytes dependencies)).toNat = dependencies.length := by
    rw [dependencyBytes, snapshotGetU32_put]
    exact Nat.mod_eq_of_lt (by omega)
  have vector : readDependencies dependencies.length ((dependencyBytes dependencies).drop 4)
      = dependencies := by
    rw [dependencyBytes]
    simpa using readDependencies_bytes dependencies []
  have length := dependencyBytes_length dependencies
  have unseen : committed.contains ticket = false := by simpa using fresh
  rw [checkGroupCommit]
  simp only [groupCommitRecord, count, vector, length, unseen]
  rw [if_neg (by simpa using drawn), if_neg (by simp [filled])]
  simp

/-- The loop over the control stream at a commit record. -/
theorem readControl_commit {ticket : BitVec 64} {rest : List AofEntry} {turns : Nat}
    (enough : ((commit ticket dependencies sized :: rest).flatMap control).length ≤ turns)
    : ∃ fewer, (rest.flatMap control).length ≤ fewer ∧ ∀ committed,
        readControl nextSequence turns ((commit ticket dependencies sized :: rest).flatMap
          control) committed
        = match checkGroupCommit nextSequence committed
            (groupCommitRecord ticket dependencies sized) with
          | .error error => .error error
          | .ok () => readControl nextSequence fewer (rest.flatMap control)
              (committed ++ [ticket]) := by
  have bytes : (commit ticket dependencies sized :: rest).flatMap control
      = (groupCommitRecord ticket dependencies sized).bytes ++ rest.flatMap control := rfl
  rw [bytes, length_append, bytes_length, kAofRecordHeaderBytes] at enough
  obtain ⟨fewer, rfl⟩ : ∃ fewer, turns = fewer + 1 := ⟨turns - 1, by omega⟩
  refine ⟨fewer, by omega, fun committed => ?_⟩
  rw [bytes, readControl]
  simp only [parseRecordBounds_bytes]
  rfl

/-- The control stream of a log is accepted when its commits' fragments are all reached. -/
theorem readControl_log {entries : List AofEntry} (committed : List (BitVec 64)) {turns : Nat}
    (enough : (entries.flatMap control).length ≤ turns)
    (drawn : ∀ commit ∈ groupCommits entries, commit.1 ≠ 0 ∧ commit.2 ≠ [])
    (distinct : (committed ++ (groupCommits entries).map Prod.fst).Nodup)
    : readControl nextSequence turns (entries.flatMap control) committed
      = if Reached nextSequence entries then
          .ok (committed ++ (groupCommits entries).map Prod.fst)
        else .error "AOF GCMT names a missing shard fragment" := by
  induction entries generalizing committed turns with
  | nil =>
    rw [if_pos (by simp [Reached, groupCommits])]
    cases turns <;> simp [readControl, groupCommits]
  | cons entry rest ih =>
    cases entry with
    | records sid held sized => exact ih committed enough drawn distinct
    | large sid record first second others cut => exact ih committed enough drawn distinct
    | commit ticket dependencies sized =>
      have tickets : groupCommits (commit ticket dependencies sized :: rest)
          = (ticket, dependencies) :: groupCommits rest := rfl
      rw [tickets] at drawn distinct ⊢
      have fresh : ticket ∉ committed := by
        intro seen
        have apart := (nodup_append.mp distinct).2.2
        exact apart ticket seen ticket mem_cons_self rfl
      have own := drawn _ mem_cons_self
      obtain ⟨fewer, room, turn⟩ := readControl_commit nextSequence enough
      rw [turn, checkGroupCommit_record nextSequence committed own.1 own.2 fresh]
      have reached : Reached nextSequence (.commit ticket dependencies sized :: rest)
          ↔ (∀ named ∈ dependencies, namesFragment nextSequence named.1 named.2 = true)
            ∧ Reached nextSequence rest := by
        simp [Reached, tickets]
      by_cases named : ∀ named ∈ dependencies, namesFragment nextSequence named.1 named.2 = true
      · rw [if_pos named]
        rw [ih (committed ++ [ticket]) room
          (fun commit later => drawn commit (mem_cons_of_mem _ later))
          (by rw [← append_cons]; exact distinct)]
        have alone := reached.trans (and_iff_right named)
        simp [alone]
      · rw [if_neg named, if_neg (fun all => named (reached.mp all).1)]

/-- A stream of whole records is read to its end. -/
theorem readStream_records {records : List AofRecord} {turns : Nat}
    (enough : (records.flatMap bytes).length ≤ turns)
    (streamed : ∀ record ∈ records, record.Streamed)
    : readStream turns (records.flatMap bytes) = .ok records := by
  induction records generalizing turns with
  | nil => cases turns <;> rfl
  | cons record rest ih =>
    rw [flatMap_cons] at enough ⊢
    rw [length_append, bytes_length, kAofRecordHeaderBytes] at enough
    obtain ⟨turns, rfl⟩ : ∃ fewer, turns = fewer + 1 := ⟨turns - 1, by omega⟩
    obtain ⟨low, high, ticketed⟩ := streamed record mem_cons_self
    rw [readStream, if_neg (record.bytes_append_ne_nil _)]
    simp only [parseRecordBounds_bytes]
    rw [if_neg (not_or.mpr ⟨UInt8.not_lt.mpr low, UInt8.not_lt.mpr high⟩),
      if_neg (fun ⟨fragment, unticketed⟩ => ticketed fragment unticketed),
      ih (by omega) (fun later member => streamed later (mem_cons_of_mem _ member))]

theorem readStreams_records {streams : List (List AofRecord)}
    (streamed : ∀ records ∈ streams, ∀ record ∈ records, record.Streamed)
    : readStreams (streams.map (fun records => records.flatMap bytes)) = .ok streams := by
  induction streams with
  | nil => rfl
  | cons records rest ih =>
    rw [map_cons, readStreams,
      readStream_records le_rfl (streamed records mem_cons_self),
      ih (fun later member => streamed later (mem_cons_of_mem _ member))]

end Thredis.Persist
