import Thredis.Persist.AofLoad
import Thredis.Persist.AofLogExact

/-! Reading back any prefix of a log: what is kept, what a group's fragments do, and what may be
appended behind it.
-/

namespace Thredis.Persist

open List AofScan AofRecord AofEntry

section

variable (nshards : BitVec 32) (identity : AofFileIdentity)

theorem aofHeaderBody_length
    : (aofHeaderBody nshards identity).length = 64 := by
  simp [aofHeaderBody, kAofFileMagic]

theorem aofHeader_length
    : (aofHeader nshards identity).length = kAofFileHeaderBytes := by
  simp [aofHeader, aofHeaderBody_length, kAofFileHeaderBytes]

/-- The words of the file header, where the reader looks for them. -/
theorem aofHeader_words (tail : Bytes)
    : let file := aofHeader nshards identity ++ tail
      file.take 8 = kAofFileMagic
      ∧ snapshotGetU32 (file.drop 8) = kAofFileVersion
      ∧ snapshotGetU32 (file.drop 12) = .ofNat 32 kAofFileHeaderBytes
      ∧ snapshotGetU32 (file.drop 16) = nshards
      ∧ snapshotGetU32 (file.drop 20) = identity.hashKind
      ∧ snapshotGetU64 (file.drop 32) = identity.hashSeed
      ∧ snapshotGetU64 (file.drop 40) = identity.sipK0
      ∧ snapshotGetU64 (file.drop 48) = identity.sipK1
      ∧ snapshotGetU64 (file.drop 64) = snapshotChecksum (file.take 64) := by
  have body : (aofHeader nshards identity ++ tail).take 64 = aofHeaderBody nshards identity := by
    rw [aofHeader, append_assoc, take_left' (aofHeaderBody_length nshards identity)]
  dsimp only
  rw [body]
  simp only [aofHeader]
  simp [aofHeaderBody, kAofFileMagic]

end

variable (nshards : BitVec 32)

def aofPlanWith (identity : AofFileIdentity) (start : List (BitVec 32)) (entries : List AofEntry)
    (committed : List (BitVec 64)) (streams : List (List AofRecord))
    : AofReplayPlan :=
  { shardCount := nshards, hashKind := identity.hashKind, hashSeed := identity.hashSeed
    sipK0 := identity.sipK0, sipK1 := identity.sipK1
    replayedRecords := committed.length + streams.flatten.length
    groupsSkipped := streams.flatten.countP (fun record =>
      record.isGroupFragment && !committed.contains record.group)
    nextSequence := aofAdvance start entries
    sections := (List.range nshards.toNat).map (shardStream entries)
    controlSection := entries.flatMap AofEntry.control
    committedGroups := committed }

def aofPlanOf (identity : AofFileIdentity) (start : List (BitVec 32)) (entries : List AofEntry)
    : AofReplayPlan :=
  aofPlanWith nshards identity start entries ((groupCommits entries).map Prod.fst)
    ((List.range nshards.toNat).map (shardRecords entries))

def aofFile (identity : AofFileIdentity) (start : List (BitVec 32)) (entries : List AofEntry)
    : Bytes :=
  aofHeader nshards identity ++ aofLog start entries

theorem groupCommits_append (front back : List AofEntry)
    : groupCommits (front ++ back) = groupCommits front ++ groupCommits back := by
  induction front with
  | nil => rfl
  | cons entry rest ih =>
    cases entry with
    | records sid held sized | large sid record first second others cut => exact ih
    | commit ticket dependencies sized => exact congrArg ((ticket, dependencies) :: ·) ih

variable {entries lost : List AofEntry} {ticket : BitVec 64}

variable {dependencies : List (BitVec 32 × BitVec 32)}

theorem groupCommits_split (member : (ticket, dependencies) ∈ groupCommits entries)
    : ∃ before sized after, entries = before ++ .commit ticket dependencies sized :: after := by
  induction entries with
  | nil => cases member
  | cons entry rest ih =>
    cases entry with
    | records sid held sized | large sid record first second others cut =>
      obtain ⟨before, sizedCommit, after, split⟩ := ih member
      exact ⟨_ :: before, sizedCommit, after, congrArg (_ :: ·) split⟩
    | commit own named sized =>
      cases member with
      | head => exact ⟨[], sized, rest, rfl⟩
      | tail _ later =>
        obtain ⟨before, sizedCommit, after, split⟩ := ih later
        exact ⟨_ :: before, sizedCommit, after, congrArg (_ :: ·) split⟩

variable {numbers start : List (BitVec 32)}

theorem AofGrammar.front {front back : List AofEntry}
    (grammar : AofGrammar numbers (front ++ back)) : AofGrammar numbers front where
  shards := fun entry member => grammar.shards entry (mem_append_left _ member)
  streamed := fun entry member => grammar.streamed entry (mem_append_left _ member)
  named := by
    intro before ticket dependencies sized after split
    refine grammar.named before ticket dependencies sized (after ++ back) ?_
    rw [split, append_assoc, cons_append]
  fragments := by
    intro before ticket dependencies sized after split entry member
    refine grammar.fragments before ticket dependencies sized (after ++ back) ?_ entry
      (mem_append_left _ member)
    rw [split, append_assoc, cons_append]
  distinct := by
    have distinct := grammar.distinct
    rw [groupCommits_append, map_append] at distinct
    exact (nodup_append.mp distinct).1

section

variable (grammar : AofGrammar numbers entries)

include grammar

theorem AofGrammar.owned
    : ∀ entry ∈ entries, entry.Owned numbers.length := by
  intro entry member
  have inside := grammar.shards entry member
  cases entry with
  | records sid held sized | large sid record first second others cut => exact inside
  | commit ticket dependencies sized => trivial

theorem AofGrammar.drawn
    : ∀ commit ∈ groupCommits entries, commit.1 ≠ 0 ∧ commit.2 ≠ [] := by
  intro commit member
  obtain ⟨before, sized, after, split⟩ := groupCommits_split member
  have named := grammar.named before _ _ sized after split
  exact ⟨named.1, named.2.1⟩

theorem AofGrammar.shardRecords_streamed (sid : Nat)
    : ∀ record ∈ shardRecords entries sid, record.Streamed := by
  intro record member
  obtain ⟨entry, inLog, held⟩ := mem_flatMap.mp member
  exact grammar.streamed entry inLog sid record held

end

-- Reading a cut file

theorem AofScan.start_nextSequence_length (nshards : BitVec 32)
    (initial : Option (List (BitVec 32)))
    : (AofScan.start nshards initial).nextSequence.length = nshards.toNat := by
  cases initial with
  | none => simp [start]
  | some starts =>
    simp only [start]
    split
    · assumption
    · simp

variable {nshards : BitVec 32} {initial : Option (List (BitVec 32))}

section

variable {scan : AofScan} (opened : scan = .start nshards initial)

include opened

/-- The records behind the frames of a log that keeps the grammar. -/
theorem AofScan.absorbAll_readRecords (grammar : AofGrammar scan.nextSequence entries)
    : (scan.absorbAll entries).readRecords
      = if Reached (aofAdvance scan.nextSequence entries) entries then
          .ok ((groupCommits entries).map Prod.fst,
            (List.range nshards.toNat).map (shardRecords entries))
        else .error "AOF GCMT names a missing shard fragment" := by
  have sections : scan.sections.mapIdx (fun sid bytes => bytes ++ shardStream entries sid)
      = ((range nshards.toNat).map (shardRecords entries)).map
        (fun records => records.flatMap bytes) := by
    apply ext_getElem (by simp [opened, start])
    simp [opened, start, shardStream]
  have streams : readStreams (((range nshards.toNat).map (shardRecords entries)).map
        (fun records => records.flatMap bytes))
      = .ok ((range nshards.toNat).map (shardRecords entries)) := by
    apply readStreams_records
    intro records member
    obtain ⟨sid, inside, rfl⟩ := mem_map.mp member
    exact grammar.shardRecords_streamed sid
  have control := readControl_log (aofAdvance scan.nextSequence entries) [] le_rfl
    grammar.drawn (by exact grammar.distinct)
  rw [absorbAll_eq _ _ (by rw [opened]; rfl), readRecords]
  simp only [sections, streams]
  have empty : scan.controlSection = [] := by rw [opened]; rfl
  rw [empty, nil_append, control]
  by_cases reached : Reached (aofAdvance scan.nextSequence entries) entries
  · simp [if_pos reached]
  · simp [if_neg reached]

variable {kept : Nat}

/-- A file cut behind `kept` bytes of its log: what is left to read are the records of the kept
entries.
-/
theorem aofReadPlan_frames (identity : AofFileIdentity)
    (owned : ∀ entry ∈ entries, entry.Owned scan.nextSequence.length)
    (short : kept ≤ (aofLog scan.nextSequence entries).length)
    : aofReadPlan ((aofFile nshards identity scan.nextSequence
          entries).take (kAofFileHeaderBytes + kept)) nshards true initial
      = match (scan.absorbAll (keptEntries
          scan.nextSequence entries kept)).readRecords with
        | .error error => .error error
        | .ok (committed, streams) =>
          .ok (aofPlanWith nshards identity scan.nextSequence
              (keptEntries scan.nextSequence entries kept) committed
              streams,
            (aofFile nshards identity scan.nextSequence
              (keptEntries scan.nextSequence entries kept)).length) := by
  obtain ⟨lost, split, fits, maximal⟩ := keptEntries_maximal scan.nextSequence entries kept
  generalize held : keptEntries scan.nextSequence entries kept = front
    at split fits ⊢
  generalize log : (aofLog scan.nextSequence entries).take kept = tail
  have length : tail.length = kept := by
    rw [← log, length_take]
    omega
  have cutFile : (aofFile nshards identity scan.nextSequence
      entries).take (kAofFileHeaderBytes + kept) = aofHeader nshards identity ++ tail := by
    rw [aofFile, ← aofHeader_length nshards identity, take_length_add_append, log]
  have between : scan.Between (kAofFileHeaderBytes + kept) tail :=
    { large := by rw [opened]; rfl
      sized := by
        rw [opened, start_nextSequence_length]
        simp [start]
      shards := by
        rw [opened, start_nextSequence_length]
        exact nshards.isLt
      here := by
        rw [opened]
        exact congrArg (kAofFileHeaderBytes + ·) length }
  obtain ⟨torn, left, read, rolled, cut⟩ := readAll_log (log ▸ between) owned short
  rw [log] at read
  rw [held] at rolled cut
  obtain ⟨magic, version, size, count, kind, seed, k0, k1, sum⟩ :=
    aofHeader_words nshards identity tail
  have whole : (aofHeader nshards identity ++ tail).length = kAofFileHeaderBytes + kept := by
    rw [length_append, aofHeader_length, length]
  have frames : (aofHeader nshards identity ++ tail).drop kAofFileHeaderBytes = tail :=
    drop_left' (aofHeader_length nshards identity)
  have loop : readFrames (kAofFileHeaderBytes + kept) (kAofFileHeaderBytes + kept)
      scan tail = .ok (torn, left) :=
    (readFrames_eq (by omega)).trans read
  have valid : ¬ kAofFileHeaderBytes + kept < kAofFileHeaderBytes := by omega
  have known : ¬ 1 < identity.hashKind.toNat := not_lt.mpr identity.known
  subst opened
  rw [cutFile, aofReadPlan]
  simp only [whole, frames, count, kind, seed, k0, k1, sum, valid, known,
    ne_eq, loop, rolled, Bool.true_eq_false, and_false]
  cases ((start nshards initial).absorbAll front).readRecords with
  | error error => rfl
  | ok found =>
    rw [absorbAll_eq _ _ rfl, cut]
    refine congrArg Except.ok (Prod.ext ?_ ?_)
    · simp only [aofPlanWith, AofReplayPlan.mk.injEq, true_and, and_true]
      refine ⟨?_, nil_append _⟩
      apply ext_getElem (by simp [start])
      simp [start]
    · rw [aofFile, length_append, aofHeader_length]
      simp only [decide_eq_true_eq]
      split
      · rfl
      · omega

end

/-- The plan read from a file cut behind `kept` bytes of its log. -/
theorem aofReadPlan_cut (identity : AofFileIdentity)
    (starts : start = (AofScan.start nshards initial).nextSequence)
    (grammar : AofGrammar start entries) (short : kept ≤ (aofLog start entries).length)
    : aofReadPlan ((aofFile nshards identity start entries).take (kAofFileHeaderBytes + kept))
        nshards true initial
      = if Reached (aofAdvance start (keptEntries start entries kept))
            (keptEntries start entries kept) then
          .ok (aofPlanOf nshards identity start (keptEntries start entries kept),
            (aofFile nshards identity start (keptEntries start entries kept)).length)
        else .error "AOF GCMT names a missing shard fragment" := by
  generalize opened : AofScan.start nshards initial = scan at starts
  subst starts
  obtain ⟨lost, split, -, -⟩ := keptEntries_maximal scan.nextSequence entries kept
  rw [aofReadPlan_frames opened.symm identity grammar.owned short]
  generalize keptEntries scan.nextSequence entries kept = front at split ⊢
  have grammarKept := (split ▸ grammar).front
  rw [absorbAll_readRecords opened.symm grammarKept]
  by_cases reached : Reached (aofAdvance scan.nextSequence front) front
  · simp only [if_pos reached]
    rfl
  · simp [if_neg reached]

def fragmentsOf (ticket : BitVec 64) (records : List AofRecord) : List AofRecord :=
  records.filter (fun record => record.isGroupFragment && record.group == ticket)

/-- Loading the plan's shards applies the fragments the log holds of a group on every shard, or on
none.
-/
def AofReplayPlan.AllOrNone (plan : AofReplayPlan) (entries : List AofEntry) : Prop :=
  ∀ (V : Type) (env : AofLoadEnv V) (ticket : BitVec 64),
    (∀ sid applied, aofLoadShard env plan sid = .ok applied
      → fragmentsOf ticket (applied.map Prod.fst)
        = fragmentsOf ticket (shardRecords entries sid))
    ∨ (∀ sid applied, aofLoadShard env plan sid = .ok applied
      → fragmentsOf ticket (applied.map Prod.fst) = [])

theorem length_le_flatMap_bytes (records : List AofRecord)
    : records.length ≤ (records.flatMap bytes).length := by
  induction records with
  | nil => exact le_rfl
  | cons record rest ih =>
    rw [flatMap_cons, length_append, record.bytes_length, kAofRecordHeaderBytes, length_cons]
    omega

/-- A shard that loads applies every record of its stream but the ones passed over. -/
theorem aofLoadShard_applied {V : Type} {env : AofLoadEnv V} {plan : AofReplayPlan} {shards : Nat}
    {sid : Nat} {applied : List (AofRecord × AofEffect V)}
    (streams : plan.sections = (List.range shards).map (shardStream entries))
    (loaded : aofLoadShard env plan sid = .ok applied)
    : applied.map Prod.fst
      = (shardRecords entries sid).filter (isApplied plan.committedGroups) := by
  rw [aofLoadShard, streams, getElem?_map] at loaded
  cases inRange : (range shards)[sid]? with
  | none => simp only [inRange, Option.map_none, reduceCtorEq] at loaded
  | some index =>
    simp only [inRange] at loaded
    obtain ⟨_, same⟩ := List.getElem?_eq_some_iff.mp inRange
    rw [getElem_range] at same
    subst same
    exact aofLoadRecords_applied _ (length_le_flatMap_bytes _) loaded

theorem AofRecord.fragment_isApplied {committed : List (BitVec 64)} {record : AofRecord}
    (fragment : record.isGroupFragment = true)
    : record.isApplied committed = committed.contains record.group := by
  have kinds : record.kind = AofRecordKind.groupPut.code
      ∨ record.kind = AofRecordKind.groupDel.code := by
    simpa [isGroupFragment] using fragment
  rcases kinds with kind | kind <;>
    simp [isApplied, isGroupFragment, kind, AofRecordKind.code]

/-- A committed group's fragments are all applied, an uncommitted one's are not. -/
theorem fragmentsOf_applied (ticket : BitVec 64) (committed : List (BitVec 64))
    (records : List AofRecord)
    : fragmentsOf ticket (records.filter (isApplied committed))
      = if committed.contains ticket then fragmentsOf ticket records else [] := by
  rw [fragmentsOf, filter_filter]
  have one (record : AofRecord)
      : ((record.isGroupFragment && record.group == ticket) && record.isApplied committed)
        = ((record.isGroupFragment && record.group == ticket) && committed.contains ticket) := by
    cases fragment : record.isGroupFragment with
    | false => simp
    | true =>
      rw [fragment_isApplied fragment]
      by_cases own : record.group = ticket
      · rw [own]
      · rw [beq_false_of_ne own]
        rfl
  simp only [one]
  split
  · rename_i member
    simp only [member, Bool.and_true]
    rfl
  · rename_i absent
    simp only [Bool.eq_false_of_not_eq_true absent, Bool.and_false, filter_false]

variable {front : List AofEntry}

/-- No fragment of a committed group lies behind the kept part. -/
theorem AofGrammar.fragments_kept (grammar : AofGrammar numbers (front ++ lost))
    (committed : ticket ∈ (groupCommits front).map Prod.fst) (sid : Nat)
    : fragmentsOf ticket (shardRecords (front ++ lost) sid)
      = fragmentsOf ticket (shardRecords front sid) := by
  obtain ⟨⟨drawn, dependencies⟩, member, rfl⟩ := mem_map.mp committed
  obtain ⟨before, sized, after, split⟩ := groupCommits_split member
  have none : fragmentsOf drawn (shardRecords lost sid) = [] := by
    apply filter_eq_nil_iff.mpr
    intro record held fragment
    obtain ⟨entry, inLost, own⟩ := mem_flatMap.mp held
    have whole : front ++ lost = before ++ .commit drawn dependencies sized :: (after ++ lost) := by
      rw [split, append_assoc, cons_append]
    have same : record.isGroupFragment = true ∧ record.group = drawn := by
      simpa using fragment
    exact grammar.fragments before drawn dependencies sized _ whole entry
      (mem_append_right _ inLost) ⟨sid, record, own, same.1, same.2⟩
  rw [shardRecords, flatMap_append, fragmentsOf, filter_append]
  exact (congrArg (_ ++ ·) none).trans (append_nil _)

theorem AofGrammar.allOrNone {identity : AofFileIdentity} (grammar : AofGrammar numbers entries)
    (split : entries = front ++ lost)
    : (aofPlanOf nshards identity numbers front).AllOrNone entries := by
  intro V env ticket
  subst split
  by_cases committed : ticket ∈ (groupCommits front).map Prod.fst
  · refine .inl fun sid applied loaded => ?_
    rw [aofLoadShard_applied rfl loaded, fragmentsOf_applied, grammar.fragments_kept committed]
    exact if_pos (contains_iff_mem.mpr committed)
  · refine .inr fun sid applied loaded => ?_
    rw [aofLoadShard_applied rfl loaded, fragmentsOf_applied]
    exact if_neg (fun member => committed (contains_iff_mem.mp member))

-- Prefixes and continuations

/-- The reader succeeds on the file cut behind `kept` bytes of its log: the file is left at the end
of the last whole entry, the sections hold the records in front of it, and groups are whole.
-/
def RecoversPrefix (nshards : BitVec 32) (identity : AofFileIdentity)
    (initial : Option (List (BitVec 32))) (entries : List AofEntry) (kept : Nat) : Prop :=
  let start := (AofScan.start nshards initial).nextSequence
  ∃ plan front lost, entries = front ++ lost
    ∧ (aofLog start front).length ≤ kept
    ∧ (∀ next ∈ lost.head?, kept < (aofLog start (front ++ [next])).length)
    ∧ aofReadPlan ((aofFile nshards identity start entries).take (kAofFileHeaderBytes + kept))
        nshards true initial
      = .ok (plan, (aofFile nshards identity start front).length)
    ∧ plan.sections = (List.range nshards.toNat).map (shardStream front)
    ∧ plan.AllOrNone entries

/-- Entries numbered from the plan's next frame numbers, behind what the reader left of the file,
make a file that is read to its end.
-/
def AcceptsContinuation (nshards : BitVec 32) (identity : AofFileIdentity)
    (initial : Option (List (BitVec 32))) (entries : List AofEntry) (kept : Nat)
    (more : List AofEntry) : Prop :=
  let start := (AofScan.start nshards initial).nextSequence
  let cut := (aofFile nshards identity start entries).take (kAofFileHeaderBytes + kept)
  ∃ plan size, aofReadPlan cut nshards true initial = .ok (plan, size)
    ∧ ∃ next, aofReadPlan (cut.take size ++ aofLog plan.nextSequence more) nshards true initial
        = .ok (next, size + (aofLog plan.nextSequence more).length)

theorem keptEntries_all (numbers : List (BitVec 32)) (entries : List AofEntry)
    : keptEntries numbers entries (aofLog numbers entries).length = entries := by
  induction entries generalizing numbers with
  | nil => rfl
  | cons entry rest ih =>
    rw [aofLog_cons, length_append, keptEntries, if_pos (Nat.le_add_right _ _),
      Nat.add_sub_cancel_left, ih]

/-- A whole log is accepted exactly when every named fragment is reached at its end. -/
theorem aofReadPlan_whole (identity : AofFileIdentity)
    (starts : start = (AofScan.start nshards initial).nextSequence)
    (grammar : AofGrammar start entries)
    : aofReadPlan (aofFile nshards identity start entries) nshards true initial
      = if Reached (aofAdvance start entries) entries then
          .ok (aofPlanOf nshards identity start entries,
            (aofFile nshards identity start entries).length)
        else .error "AOF GCMT names a missing shard fragment" := by
  have cut := aofReadPlan_cut identity starts grammar le_rfl
  rw [keptEntries_all] at cut
  rwa [take_of_length_le (by
    rw [aofFile, length_append, aofHeader_length])] at cut

theorem aofFile_append (nshards : BitVec 32) (identity : AofFileIdentity)
    (start : List (BitVec 32)) (front back : List AofEntry)
    : aofFile nshards identity start (front ++ back)
      = aofFile nshards identity start front ++ aofLog (aofAdvance start front) back := by
  rw [aofFile, aofLog_append]
  rfl

/-- The bytes of the kept entries are what the reader leaves of the file. -/
theorem aofFile_take_kept (nshards : BitVec 32) (identity : AofFileIdentity)
    (split : entries = front ++ lost) (fits : (aofLog start front).length ≤ kept)
    : ((aofFile nshards identity start entries).take (kAofFileHeaderBytes + kept)).take
        (aofFile nshards identity start front).length
      = aofFile nshards identity start front := by
  have inside : (aofFile nshards identity start front).length ≤ kAofFileHeaderBytes + kept := by
    rw [aofFile, length_append, aofHeader_length]
    omega
  rw [split, take_take, Nat.min_eq_left inside, aofFile_append, take_left]

/-- Every prefix of a log is recovered, and may be continued, exactly while the numbers of the
fragments its group commits name stay below their shards' next frame numbers.
Witness: `aofReadPlan_cut` for the prefix, `aofReadPlan_whole` for the continued file.
-/
theorem prefix_recovers_iff_reached (nshards : BitVec 32) (identity : AofFileIdentity)
    (initial : Option (List (BitVec 32))) (entries more : List AofEntry) (kept : Nat)
    (grammar : AofGrammar (AofScan.start nshards initial).nextSequence entries)
    (short : kept ≤ (aofLog (AofScan.start nshards initial).nextSequence entries).length)
    (continued : AofGrammar (AofScan.start nshards initial).nextSequence
      (keptEntries (AofScan.start nshards initial).nextSequence entries kept ++ more))
    : let start := (AofScan.start nshards initial).nextSequence
      let front := keptEntries start entries kept
      (RecoversPrefix nshards identity initial entries kept
        ∧ AcceptsContinuation nshards identity initial entries kept more)
      ↔ Reached (aofAdvance start front) front
        ∧ Reached (aofAdvance start (front ++ more)) (front ++ more) := by
  intro start front
  obtain ⟨lost, split, fits, maximal⟩ := keptEntries_maximal start entries kept
  have read := aofReadPlan_cut identity rfl grammar short
  have whole := aofReadPlan_whole identity rfl continued
  have left := aofFile_take_kept nshards identity split fits
  rw [aofFile_append, length_append] at whole
  constructor
  · intro ⟨⟨_, _, _, _, _, _, accepted, _, _⟩, found, size, again, next, appended⟩
    have reached : Reached (aofAdvance start front) front := by
      by_contra unreached
      rw [read, if_neg unreached] at accepted
      cases accepted
    refine ⟨reached, ?_⟩
    rw [read, if_pos reached] at again
    cases again
    by_contra unreached
    rw [left] at appended
    rw [if_neg unreached] at whole
    exact absurd (whole.symm.trans appended) (by simp)
  · rintro ⟨reached, further⟩
    rw [if_pos reached] at read
    rw [if_pos further] at whole
    refine ⟨⟨_, front, lost, split, fits, maximal, read, rfl, ?_⟩, _, _, read,
      aofPlanOf nshards identity start (front ++ more), ?_⟩
    · exact grammar.allOrNone split
    · rw [left]
      exact whole

def plainIdentity : AofFileIdentity :=
  { createdMs := 0, hashKind := 0, hashSeed := 0, sipK0 := 0, sipK1 := 0
    known := plainHash_known }

theorem oneFragment_key : ([107] : Bytes).length < 2 ^ 32 := by decide

theorem oneFragment_payload : ([118] : Bytes).length < 2 ^ 32 := by decide

def oneFragment : AofRecord :=
  { kind := AofRecordKind.groupPut.code, type := 0, encoding := 0, key := [107], payload := [118]
    expire := -1, group := 1, keySized := oneFragment_key, payloadSized := oneFragment_payload }

theorem oneFragment_framed : ([oneFragment].flatMap AofRecord.bytes).length < 2 ^ 32 := by decide

variable (number : BitVec 32)

theorem oneDependency_sized : [((0 : BitVec 32), number)].length < 2 ^ 28 :=
  Nat.lt_of_sub_eq_succ rfl

def oneGroup : List AofEntry :=
  [.records 0 [oneFragment] oneFragment_framed,
    .commit 1 [(0, number)] (oneDependency_sized number)]

theorem oneGroup_split {number : BitVec 32} {before after : List AofEntry}
    {sized : dependencies.length < 2 ^ 28}
    (split : oneGroup number = before ++ .commit ticket dependencies sized :: after)
    : before = [.records 0 [oneFragment] (by decide)] ∧ ticket = 1
      ∧ dependencies = [(0, number)] ∧ after = [] := by
  cases before with
  | nil => cases split
  | cons first rest =>
    cases rest with
    | nil =>
      cases split
      exact ⟨rfl, rfl, rfl, rfl⟩
    | cons second rest =>
      have length := congrArg length split
      simp [oneGroup] at length

theorem oneGroup_grammar : AofGrammar [number] (oneGroup number) where
  shards := by
    intro entry member
    rcases mem_pair.mp member with rfl | rfl
    · exact Nat.zero_lt_one
    · trivial
  streamed := by
    intro entry member sid record held
    rcases mem_pair.mp member with rfl | rfl
    · have only : record = oneFragment := by
        rw [recordsOf] at held
        split at held
        · exact mem_singleton.mp held
        · cases held
      subst only
      exact ⟨by decide, by decide, fun _ => by decide⟩
    · cases held
  named := by
    intro before ticket dependencies sized after split
    obtain ⟨rfl, rfl, rfl, rfl⟩ := oneGroup_split split
    refine ⟨by decide, by simp, ?_⟩
    intro named member
    rw [mem_singleton.mp member]
    exact ⟨Nat.zero_lt_one, _, mem_singleton.mpr rfl, rfl, rfl⟩
  fragments := by
    intro before ticket dependencies sized after split entry member
    obtain ⟨-, -, -, rfl⟩ := oneGroup_split split
    cases member
  distinct := by simp [oneGroup, groupCommits]

/-- The group's fragment takes 82 bytes of the log, its commit 92. -/
theorem oneGroup_encode_length (sized : [(0, number)].length < 2 ^ 28)
    : (encode [number] (.records 0 [oneFragment] (by decide))).length = 82
      ∧ (encode [number + 1] (.commit 1 [(0, number)] sized)).length = 92 := by
  simp [encode, frames, AofFrame.encode_length, bytes_length,
    oneFragment, groupCommitRecord, dependencyBytes_length, kAofFrameHeaderBytes,
    kAofRecordHeaderBytes]

theorem oneGroup_kept
    : keptEntries [0] (oneGroup 0) 100 = [.records 0 [oneFragment] (by decide)] := by
  obtain ⟨fragment, commit⟩ := oneGroup_encode_length 0 (by decide)
  rw [oneGroup, keptEntries, if_pos (by decide)]
  have cut : ¬ (encode [0 + 1] (.commit 1 [(0, 0)] (by decide))).length ≤ 100 - 82 := by
    decide
  exact congrArg _ (if_neg cut)

/-- At the end of the group's log its fragment is reached while the shard's number has not wrapped.
-/
theorem oneGroup_reached_iff
    : Reached (aofAdvance [number] (oneGroup number)) (oneGroup number) ↔ number < number + 1 := by
  simp [Reached, oneGroup, groupCommits, aofAdvance, advance, namesFragment]

theorem prefix_recovers_cut_commit
    : RecoversPrefix 1 plainIdentity (some [0]) (oneGroup 0) 100
      ∧ AcceptsContinuation 1 plainIdentity (some [0]) (oneGroup 0) 100
        [.commit 1 [(0, 0)] (by decide)] := by
  have starts : (start 1 (some [0])).nextSequence = [0] := rfl
  obtain ⟨fragment, commit⟩ := oneGroup_encode_length 0 (by decide)
  have short : 100 ≤ (aofLog [0] (oneGroup 0)).length := by
    rw [oneGroup, aofLog_cons, length_append, aofLog_cons, length_append]
    exact Nat.le_trans (by decide) (Nat.add_le_add_left (Nat.le_add_right_of_le commit.ge) 82)
  have exact := prefix_recovers_iff_reached 1 plainIdentity (some [0]) (oneGroup 0)
    [.commit 1 [(0, 0)] (by decide)] 100
  simp only [starts, oneGroup_kept] at exact
  refine (exact (oneGroup_grammar 0) short (oneGroup_grammar 0)).mpr ⟨?_, ?_⟩
  · simp [Reached, groupCommits]
  · exact (oneGroup_reached_iff 0).mpr (by decide)

/-- A shard whose frame numbers wrap behind a fragment makes the reader refuse the whole file. -/
theorem wrapped_fragment_rejected
    : AofGrammar (AofScan.start 1 (some [0xffffffff])).nextSequence (oneGroup 0xffffffff)
      ∧ aofReadPlan (aofFile 1 plainIdentity [0xffffffff] (oneGroup 0xffffffff)) 1 true
          (some [0xffffffff])
        = .error "AOF GCMT names a missing shard fragment" := by
  refine ⟨oneGroup_grammar _, ?_⟩
  have starts : ([0xffffffff] : List (BitVec 32))
      = (start 1 (some [0xffffffff])).nextSequence := rfl
  have read := aofReadPlan_whole plainIdentity starts (oneGroup_grammar 0xffffffff)
  rw [if_neg (mt (oneGroup_reached_iff 0xffffffff).mp (by decide))] at read
  exact read

end Thredis.Persist
