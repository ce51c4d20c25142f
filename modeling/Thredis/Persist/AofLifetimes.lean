import Thredis.Lib.Runs
import Thredis.Persist.AofTruncation

/-! Server lifetimes over one increment file: boot, appends under the tickets the lifetime draws,
and a stop or crash that keeps a prefix of the file.
-/

namespace Thredis.Persist

open Thredis.Lib List AofEntry AofScan

/-- An entry of the log with the groups its records belong to: one for each record, or the one
group a commit commits. The owner of a plain record means nothing.
-/
structure OwnedEntry where
  entry : AofEntry
  owners : List Nat

def OwnedEntry.recordsOf (sid : Nat) (owned : OwnedEntry) : List (AofRecord × Nat) :=
  (owned.entry.recordsOf sid).zip owned.owners

def ownedRecords (log : List OwnedEntry) (sid : Nat) : List (AofRecord × Nat) :=
  log.flatMap (OwnedEntry.recordsOf sid)

def OwnedEntry.commits (owned : OwnedEntry) : List (Nat × BitVec 64) :=
  match owned.entry with
  | .commit ticket _ _ => owned.owners.map (fun group => (group, ticket))
  | _ => []

def ownedCommits (log : List OwnedEntry) : List (Nat × BitVec 64) :=
  log.flatMap OwnedEntry.commits

/-- A server over its increment file. `log` says what the bytes are and `drawn` which group drew
which ticket in this lifetime; the code keeps neither.
-/
structure AofServer where
  file : Bytes
  nextSequence : List (BitVec 32)
  commitSeq : BitVec 64
  booted : Nat
  groups : Nat
  drawn : List (Nat × BitVec 64)
  log : List OwnedEntry

inductive LifetimeEvent where
  | reserve (tickets : Nat)
  | append (owned : OwnedEntry)
  | crash (kept : Nat)

def AofServer.init (nshards : BitVec 32) (identity : AofFileIdentity)
    (initial : Option (List (BitVec 32))) : AofServer :=
  { file := aofHeader nshards identity
    nextSequence := (AofScan.start nshards initial).nextSequence
    commitSeq := 0, booted := kAofFileHeaderBytes, groups := 0, drawn := [], log := [] }

variable (server : AofServer)

def AofServer.draw : AofServer :=
  { server with
    commitSeq := server.commitSeq + 1
    groups := server.groups + 1
    drawn := (server.groups, server.commitSeq + 1) :: server.drawn }

/-- What the lifetime may append: whole entries for its own shards, fragments under the tickets
their groups drew, and one commit for each group.
-/
def AofServer.mayAppend (owned : OwnedEntry) : Bool :=
  match owned.entry with
  | .records sid held _ =>
    sid < server.nextSequence.length && owned.owners.length == held.length
      && (held.zip owned.owners).all (fun own =>
        !own.1.isGroupFragment || server.drawn.contains (own.2, own.1.group))
  | .large sid record _ _ _ _ =>
    sid < server.nextSequence.length && owned.owners.length == 1
      && ([record].zip owned.owners).all (fun own =>
        !own.1.isGroupFragment || server.drawn.contains (own.2, own.1.group))
  | .commit ticket _ _ =>
    match owned.owners with
    | [group] =>
      server.drawn.contains (group, ticket)
        && !((ownedCommits server.log).map Prod.fst).contains group
    | _ => false

/-- The entries of the log that are whole in the first `kept` bytes of the file. -/
def keptLog (start : List (BitVec 32)) (log : List OwnedEntry) (kept : Nat) : List OwnedEntry :=
  log.take (keptEntries start (log.map OwnedEntry.entry) (kept - kAofFileHeaderBytes)).length

/-- The lifetimes of one file. A crash keeps the bytes the lifetime found and any prefix of what it
appended; the next boot reads them, and a file it refuses has no next lifetime. The ticket counter
starts at zero in every lifetime.
-/
def AofServer.step (nshards : BitVec 32) (initial : Option (List (BitVec 32)))
    (server : AofServer) : LifetimeEvent → Option AofServer
  | .reserve tickets => some (AofServer.draw^[tickets] server)
  | .append owned =>
    if server.mayAppend owned then
      some { server with
        file := server.file ++ owned.entry.encode server.nextSequence
        nextSequence := owned.entry.advance server.nextSequence
        log := server.log ++ [owned] }
    else none
  | .crash kept =>
    if server.booted ≤ kept ∧ kept ≤ server.file.length then
      match aofReadPlan (server.file.take kept) nshards true initial with
      | .error _ => none
      | .ok (plan, size) =>
        some { server with
          file := (server.file.take kept).take size
          nextSequence := plan.nextSequence
          commitSeq := 0
          booted := size
          drawn := []
          log := keptLog (AofScan.start nshards initial).nextSequence server.log kept }
    else none

/-- The boot over the first `kept` bytes of the file does not take two groups for one: no duplicate
ticket is reported, and a fragment is applied only where its own group's commit is in the file.
-/
def AofServer.BootsSoundly (nshards : BitVec 32) (initial : Option (List (BitVec 32)))
    (server : AofServer) (kept : Nat) : Prop :=
  let log := keptLog (AofScan.start nshards initial).nextSequence server.log kept
  aofReadPlan (server.file.take kept) nshards true initial ≠ .error "duplicate AOF GCMT ticket"
  ∧ ∀ plan size, aofReadPlan (server.file.take kept) nshards true initial = .ok (plan, size)
    → ∀ (V : Type) (env : AofLoadEnv V) sid applied, aofLoadShard env plan sid = .ok applied
      → let owned := (ownedRecords log sid).filter (fun own => own.1.isApplied plan.committedGroups)
        applied.map Prod.fst = owned.map Prod.fst
        ∧ ∀ own ∈ owned, own.1.isGroupFragment = true
          → own.2 ∈ (ownedCommits log).map Prod.fst

/-- No record of the log carries the ticket and no group of this lifetime holds it. -/
def AofServer.Unused (ticket : BitVec 64) : Prop :=
  ticket ∉ server.drawn.map Prod.snd
  ∧ ticket ∉ (ownedCommits server.log).map Prod.snd
  ∧ ∀ sid, ∀ own ∈ ownedRecords server.log sid,
      own.1.isGroupFragment = true → own.1.group ≠ ticket

/-- The tickets a step draws are not in the file the lifetime runs on. -/
def DrawsUnused : LifetimeEvent → Prop
  | .reserve tickets => ∀ drawn < tickets,
      (AofServer.draw^[drawn] server).Unused ((AofServer.draw^[drawn] server).commitSeq + 1)
  | _ => True

-- Which refusals there are

theorem parseRecordBounds_not_duplicate (stream : Bytes)
    : parseRecordBounds stream ≠ .error "duplicate AOF GCMT ticket" := by
  intro refused
  unfold parseRecordBounds at refused
  split at refused
  · simp at refused
  · split at refused
    · simp at refused
    · dsimp only at refused
      split at refused <;> simp at refused

/-- A shard stream has other errors than the control stream. -/
theorem readStream_not_duplicate (turns : Nat) (bytes : Bytes)
    : readStream turns bytes ≠ .error "duplicate AOF GCMT ticket" := by
  induction turns generalizing bytes with
  | zero => simp [readStream]
  | succ turns ih =>
    rw [readStream]
    split
    · simp
    · split
      · rename_i error parsed
        intro refused
        cases refused
        exact parseRecordBounds_not_duplicate bytes parsed
      · rename_i record rest parsed
        split
        · simp
        · split
          · simp
          · split
            · rename_i error later
              intro refused
              exact ih rest (later.trans refused)
            · simp

theorem readStreams_not_duplicate (streams : List Bytes)
    : readStreams streams ≠ .error "duplicate AOF GCMT ticket" := by
  induction streams with
  | nil => simp [readStreams]
  | cons stream rest ih =>
    rw [readStreams]
    split
    · rename_i error read
      intro refused
      cases refused
      exact readStream_not_duplicate _ _ read
    · split
      · rename_i error later
        intro refused
        exact ih (later.trans refused)
      · simp

/-- The error names a ticket that was committed before. -/
theorem checkGroupCommit_duplicate {nextSequence : List (BitVec 32)}
    {committed : List (BitVec 64)} {record : AofRecord}
    (refused : checkGroupCommit nextSequence committed record = .error "duplicate AOF GCMT ticket")
    : record.group ∈ committed := by
  unfold checkGroupCommit at refused
  dsimp only at refused
  split at refused
  · simp at refused
  · split at refused
    · simp at refused
    · split at refused
      · split at refused
        · rename_i member
          exact contains_iff_mem.mp member
        · simp at refused
      · simp at refused

/-- The control stream of a log with distinct tickets: no duplicate is reported, and what is read
are the log's tickets.
-/
theorem readControl_distinct (nextSequence : List (BitVec 32)) {entries : List AofEntry}
    (committed : List (BitVec 64)) {turns : Nat} (enough : (entries.flatMap control).length ≤ turns)
    (distinct : (committed ++ (groupCommits entries).map Prod.fst).Nodup)
    : readControl nextSequence turns (entries.flatMap control) committed
        ≠ .error "duplicate AOF GCMT ticket"
      ∧ ∀ found, readControl nextSequence turns (entries.flatMap control) committed
          = .ok found → found = committed ++ (groupCommits entries).map Prod.fst := by
  induction entries generalizing committed turns with
  | nil => cases turns <;> simp [readControl, groupCommits]
  | cons entry rest ih =>
    cases entry with
    | records sid held sized => exact ih committed enough distinct
    | large sid record first second others cut => exact ih committed enough distinct
    | commit ticket dependencies sized =>
      have fresh : ticket ∉ committed := by
        intro seen
        exact (nodup_append.mp distinct).2.2 ticket seen ticket mem_cons_self rfl
      obtain ⟨fewer, room, turn⟩ := readControl_commit nextSequence enough
      rw [turn]
      cases checked : checkGroupCommit nextSequence committed
          (groupCommitRecord ticket dependencies sized) with
      | error error =>
        refine ⟨fun refused => fresh ?_, by simp⟩
        cases refused
        exact checkGroupCommit_duplicate checked
      | ok _ =>
        have later := ih (committed ++ [ticket]) room (by rwa [← append_cons])
        rw [← append_cons] at later
        exact later

/-- The records of a log with distinct tickets. -/
theorem AofScan.absorbAll_readRecords_distinct {scan : AofScan} {entries : List AofEntry}
    (idle : scan.large = none) (empty : scan.controlSection = [])
    (distinct : ((groupCommits entries).map Prod.fst).Nodup)
    : (scan.absorbAll entries).readRecords ≠ .error "duplicate AOF GCMT ticket"
      ∧ ∀ committed streams, (scan.absorbAll entries).readRecords = .ok (committed, streams)
        → committed = (groupCommits entries).map Prod.fst := by
  obtain ⟨unrefused, tickets⟩ := readControl_distinct (aofAdvance scan.nextSequence entries) []
    le_rfl (by rwa [nil_append])
  rw [absorbAll_eq _ _ idle, readRecords]
  simp only [empty, nil_append] at tickets ⊢
  cases control : readControl (aofAdvance scan.nextSequence entries)
      (entries.flatMap control).length (entries.flatMap control) [] with
  | error error =>
    refine ⟨?_, by simp⟩
    intro refused
    cases refused
    exact unrefused control
  | ok found =>
    cases streams : readStreams
        (scan.sections.mapIdx fun sid bytes => bytes ++ shardStream entries sid) with
    | error error =>
      refine ⟨?_, by simp⟩
      intro refused
      cases refused
      exact readStreams_not_duplicate _ streams
    | ok records =>
      refine ⟨by simp, ?_⟩
      intro committed others read
      cases read
      exact tickets found control

-- The log behind the bytes

/-- The log names the group with the ticket, in a commit or in a fragment. -/
def Binds (log : List OwnedEntry) (group : Nat) (ticket : BitVec 64) : Prop :=
  (group, ticket) ∈ ownedCommits log
  ∨ ∃ sid record, (record, group) ∈ ownedRecords log sid
    ∧ record.isGroupFragment = true ∧ record.group = ticket

def OwnedEntry.Aligned (owned : OwnedEntry) : Prop :=
  match owned.entry with
  | .records _ held _ => owned.owners.length = held.length
  | .large _ _ _ _ _ _ | .commit _ _ _ => owned.owners.length = 1

/-- What holds in every state of every history: the file is the encoding of the log, every group is
committed once, and a ticket stands for one group.
-/
structure AofServer.Inv (nshards : BitVec 32) (identity : AofFileIdentity)
    (initial : Option (List (BitVec 32))) (server : AofServer) : Prop where
  file : server.file = aofFile nshards identity (AofScan.start nshards initial).nextSequence
    (server.log.map OwnedEntry.entry)
  numbers : server.nextSequence = aofAdvance (AofScan.start nshards initial).nextSequence
    (server.log.map OwnedEntry.entry)
  headed : kAofFileHeaderBytes ≤ server.booted
  owned : ∀ entry ∈ server.log.map OwnedEntry.entry,
    entry.Owned (AofScan.start nshards initial).nextSequence.length
  aligned : ∀ owned ∈ server.log, owned.Aligned
  once : ((ownedCommits server.log).map Prod.fst).Nodup
  single : ∀ group other ticket, (group, ticket) ∈ server.drawn ∨ Binds server.log group ticket
    → (other, ticket) ∈ server.drawn ∨ Binds server.log other ticket → group = other

section
variable {nshards : BitVec 32} {identity : AofFileIdentity} {initial : Option (List (BitVec 32))}
  {server next : AofServer}

variable {log : List OwnedEntry}

theorem Binds.take {count group : Nat} {ticket : BitVec 64}
    (binds : Binds (log.take count) group ticket) : Binds log group ticket := by
  rcases binds with committed | ⟨sid, record, held, fragment, own⟩
  · obtain ⟨owned, inFront, member⟩ := mem_flatMap.mp committed
    exact .inl (mem_flatMap.mpr ⟨owned, mem_of_mem_take inFront, member⟩)
  · obtain ⟨owned, inFront, member⟩ := mem_flatMap.mp held
    exact .inr ⟨sid, record,
      mem_flatMap.mpr ⟨owned, mem_of_mem_take inFront, member⟩, fragment, own⟩

variable {owned : OwnedEntry}

/-- A binding of a longer log is an old one, or the new entry's. -/
theorem Binds.append {group : Nat}
    {ticket : BitVec 64} (binds : Binds (log ++ [owned]) group ticket)
    : Binds log group ticket ∨ Binds [owned] group ticket := by
  simp only [Binds, ownedCommits, ownedRecords, flatMap_append, mem_append] at binds ⊢
  rcases binds with (before | new) | ⟨sid, record, before | new, fragment, own⟩
  · exact .inl (.inl before)
  · exact .inr (.inl new)
  · exact .inl (.inr ⟨sid, record, before, fragment, own⟩)
  · exact .inr (.inr ⟨sid, record, new, fragment, own⟩)

theorem AofServer.Inv.init
    : (AofServer.init nshards identity initial).Inv nshards identity initial where
  file := (append_nil _).symm
  numbers := rfl
  headed := le_rfl
  owned := by simp [AofServer.init]
  aligned := by simp [AofServer.init]
  once := by simp [AofServer.init, ownedCommits]
  single := by simp [AofServer.init, Binds, ownedCommits, ownedRecords]

theorem AofServer.Inv.draw (inv : server.Inv nshards identity initial)
    (unused : server.Unused (server.commitSeq + 1)) : server.draw.Inv nshards identity initial := by
  refine { inv with single := ?_ }
  have apart (group : Nat) (ticket : BitVec 64)
      (known : (group, ticket) ∈ server.drawn ∨ Binds server.log group ticket)
      : ticket ≠ server.commitSeq + 1 := by
    obtain ⟨undrawn, uncommitted, unnamed⟩ := unused
    rintro rfl
    rcases known with drawn | committed | ⟨sid, record, held, fragment, own⟩
    · exact undrawn (mem_map.mpr ⟨_, drawn, rfl⟩)
    · exact uncommitted (mem_map.mpr ⟨_, committed, rfl⟩)
    · exact unnamed sid _ held fragment own
  have known (group : Nat) (ticket : BitVec 64)
      (holds : (group, ticket) ∈ server.draw.drawn ∨ Binds server.draw.log group ticket)
      : (group = server.groups ∧ ticket = server.commitSeq + 1)
        ∨ ((group, ticket) ∈ server.drawn ∨ Binds server.log group ticket) := by
    rcases holds with drawn | binds
    · rcases mem_cons.mp drawn with own | before
      · exact .inl (Prod.mk.inj own)
      · exact .inr (.inl before)
    · exact .inr (.inr binds)
  intro group other ticket first second
  rcases known group ticket first with ⟨own, drawn⟩ | before
  · rcases known other ticket second with ⟨same, _⟩ | earlier
    · rw [own, same]
    · exact absurd drawn (apart other ticket earlier)
  · rcases known other ticket second with ⟨_, drawn⟩ | earlier
    · exact absurd drawn (apart group ticket before)
    · exact inv.single group other ticket before earlier

/-- By induction over the tickets drawn. -/
theorem AofServer.Inv.reserve (inv : server.Inv nshards identity initial) (tickets : Nat)
    (unused : ∀ drawn < tickets,
      (AofServer.draw^[drawn] server).Unused ((AofServer.draw^[drawn] server).commitSeq + 1))
    : (AofServer.draw^[tickets] server).Inv nshards identity initial := by
  induction tickets with
  | zero => exact inv
  | succ tickets ih =>
    rw [Function.iterate_succ_apply']
    exact (ih fun drawn fewer => unused drawn (Nat.lt_succ_of_lt fewer)).draw
      (unused tickets (Nat.lt_succ_self _))

/-- What an entry brings that the lifetime may append. -/
theorem AofServer.mayAppend_true (allowed : server.mayAppend owned = true)
    : owned.entry.Owned server.nextSequence.length ∧ owned.Aligned
      ∧ (∀ group ticket, Binds [owned] group ticket → (group, ticket) ∈ server.drawn)
      ∧ (owned.commits.map Prod.fst).Nodup
      ∧ ∀ group ∈ owned.commits.map Prod.fst, group ∉ (ownedCommits server.log).map Prod.fst := by
  obtain ⟨entry, owners⟩ := owned
  -- the records of one entry, under whichever shard they are read
  have fragments (records : List AofRecord) (each : (records.zip owners).all (fun own =>
        !own.1.isGroupFragment || server.drawn.contains (own.2, own.1.group)) = true)
      (held : ∀ sid, entry.recordsOf sid = records ∨ entry.recordsOf sid = [])
      (plain : OwnedEntry.commits ⟨entry, owners⟩ = [])
      : ∀ group ticket, Binds [⟨entry, owners⟩] group ticket → (group, ticket) ∈ server.drawn := by
    intro group ticket binds
    rcases binds with committed | ⟨sid, record, member, fragment, own⟩
    · rw [ownedCommits, flatMap_singleton, plain] at committed
      cases committed
    · rw [ownedRecords, flatMap_singleton, OwnedEntry.recordsOf] at member
      rcases held sid with same | none
      · have one := all_eq_true.mp each (record, group) (same ▸ member)
        rw [fragment, own] at one
        simpa using one
      · rw [none] at member
        cases member
  cases entry with
  | records sid held sized =>
    simp only [mayAppend, Bool.and_eq_true, decide_eq_true_eq, beq_iff_eq] at allowed
    refine ⟨allowed.1.1, allowed.1.2, fragments held allowed.2 ?_ rfl, nodup_nil,
      by simp [OwnedEntry.commits]⟩
    intro owner
    rw [recordsOf]
    split
    · exact .inl rfl
    · exact .inr rfl
  | large sid record first second others cut =>
    simp only [mayAppend, Bool.and_eq_true, decide_eq_true_eq, beq_iff_eq] at allowed
    refine ⟨allowed.1.1, allowed.1.2, fragments [record] allowed.2 ?_ rfl, nodup_nil,
      by simp [OwnedEntry.commits]⟩
    intro owner
    rw [recordsOf]
    split
    · exact .inl rfl
    · exact .inr rfl
  | commit ticket dependencies sized =>
    simp only [mayAppend] at allowed
    split at allowed
    · rw [Bool.and_eq_true] at allowed
      refine ⟨trivial, rfl, ?_, nodup_singleton _, ?_⟩
      · intro other drawn binds
        rcases binds with committed | ⟨sid, record, member, _, _⟩
        · rw [mem_singleton.mp committed]
          exact contains_iff_mem.mp allowed.1
        · cases member
      · intro other member
        rw [mem_singleton.mp member]
        intro seen
        rw [contains_iff_mem.mpr seen] at allowed
        exact absurd allowed.2 (by decide)
    · exact absurd allowed (by decide)

/-- File and log grow by one entry, under tickets its groups drew. -/
theorem AofServer.Inv.append (inv : server.Inv nshards identity initial)
    (allowed : server.mayAppend owned = true)
    : AofServer.Inv nshards identity initial { server with
          file := server.file ++ owned.entry.encode server.nextSequence
          nextSequence := owned.entry.advance server.nextSequence
          log := server.log ++ [owned] } := by
  obtain ⟨inside, aligned, drawn, alone, fresh⟩ := mayAppend_true allowed
  have sizes : server.nextSequence.length
      = (start nshards initial).nextSequence.length := by
    rw [inv.numbers, aofAdvance_length]
  have commits : ownedCommits (server.log ++ [owned])
      = ownedCommits server.log ++ owned.commits := by
    rw [ownedCommits, flatMap_append, flatMap_singleton]
    rfl
  exact { inv with
      file := by
        rw [map_append, aofFile_append, ← inv.file, ← inv.numbers]
        rw [map_singleton, aofLog_singleton]
      numbers := by
        rw [map_append, aofAdvance_append, ← inv.numbers]
        rfl
      owned := by
        intro entry member
        rw [map_append, mem_append] at member
        rcases member with before | new
        · exact inv.owned entry before
        · rw [map_singleton, mem_singleton] at new
          rw [new, ← sizes]
          exact inside
      aligned := by
        intro entry member
        rcases mem_append.mp member with before | new
        · exact inv.aligned entry before
        · rw [mem_singleton.mp new]
          exact aligned
      once := by
        rw [commits, map_append, nodup_append]
        refine ⟨inv.once, alone, ?_⟩
        intro group before other new same
        exact fresh other new (same ▸ before)
      single := by
        have known (group : Nat) (ticket : BitVec 64)
            (holds : (group, ticket) ∈ server.drawn ∨ Binds (server.log ++ [owned]) group ticket)
            : (group, ticket) ∈ server.drawn ∨ Binds server.log group ticket := by
          rcases holds with own | binds
          · exact .inl own
          · rcases binds.append with before | new
            · exact .inr before
            · exact .inl (drawn group ticket new)
        intro group other ticket first second
        exact inv.single group other ticket (known group ticket first) (known other ticket second) }

-- Boots

theorem keptLog_entries (start : List (BitVec 32)) (log : List OwnedEntry) (kept : Nat)
    : (keptLog start log kept).map OwnedEntry.entry
      = keptEntries start (log.map OwnedEntry.entry) (kept - kAofFileHeaderBytes) := by
  obtain ⟨lost, split, -, -⟩ := keptEntries_maximal start (log.map OwnedEntry.entry)
    (kept - kAofFileHeaderBytes)
  rw [keptLog, map_take]
  generalize keptEntries start (log.map OwnedEntry.entry) (kept - kAofFileHeaderBytes) = front
    at split ⊢
  rw [split, take_left]

theorem ownedCommits_tickets (aligned : ∀ owned ∈ log, owned.Aligned)
    : (groupCommits (log.map OwnedEntry.entry)).map Prod.fst = (ownedCommits log).map Prod.snd := by
  induction log with
  | nil => rfl
  | cons owned rest ih =>
    have tail := ih fun later member => aligned later (mem_cons_of_mem _ member)
    have own := aligned owned mem_cons_self
    obtain ⟨entry, owners⟩ := owned
    cases entry with
    | records sid held sized | large sid record first second others cut => exact tail
    | commit ticket dependencies sized =>
      obtain ⟨group, rfl⟩ := length_eq_one_iff.mp own
      exact congrArg (ticket :: ·) tail

theorem ownedRecords_records (aligned : ∀ owned ∈ log, owned.Aligned) (sid : Nat)
    : shardRecords (log.map OwnedEntry.entry) sid = (ownedRecords log sid).map Prod.fst := by
  induction log with
  | nil => rfl
  | cons owned rest ih =>
    have tail := ih fun later member => aligned later (mem_cons_of_mem _ member)
    have own := aligned owned mem_cons_self
    have head : (owned.recordsOf sid).map Prod.fst = owned.entry.recordsOf sid := by
      obtain ⟨entry, owners⟩ := owned
      rw [OwnedEntry.recordsOf, map_fst_zip]
      cases entry with
      | records owner held sized | large owner record first second others cut =>
        rw [recordsOf]
        split
        · exact own.ge
        · exact Nat.zero_le _
      | commit ticket dependencies sized => exact Nat.zero_le _
    rw [map_cons, shardRecords, flatMap_cons, ownedRecords, flatMap_cons, map_append, head]
    exact congrArg (_ ++ ·) tail

theorem keptLog_aligned (inv : server.Inv nshards identity initial) (kept : Nat)
    : ∀ owned ∈ keptLog (start nshards initial).nextSequence server.log kept,
        owned.Aligned :=
  fun owned member => inv.aligned owned (mem_of_mem_take member)

/-- A crash loses commits from the end only. -/
theorem keptLog_commits (start : List (BitVec 32)) (log : List OwnedEntry) (kept : Nat)
    : (ownedCommits (keptLog start log kept)).Sublist (ownedCommits log) := by
  rw [keptLog]
  generalize (keptEntries _ _ _).length = count
  nth_rewrite 2 [← take_append_drop count log]
  rw [ownedCommits, ownedCommits, flatMap_append]
  exact sublist_append_left _ _

/-- The tickets of what a boot keeps are distinct: each stands for one group, and a group commits
once.
-/
theorem AofServer.Inv.kept_distinct (inv : server.Inv nshards identity initial) (kept : Nat)
    : ((ownedCommits (keptLog (start nshards initial).nextSequence server.log kept)).map
        Prod.snd).Nodup := by
  have front := keptLog_commits (start nshards initial).nextSequence server.log kept
  refine (List.Nodup.of_map _ (inv.once.sublist (front.map _))).map_on ?_
  intro first firstMember second secondMember same
  have one := inv.single first.1 second.1 first.2 (.inr (.inl (front.subset firstMember)))
    (.inr (.inl (same ▸ front.subset secondMember)))
  exact Prod.ext one same

variable {kept : Nat}

section

variable (inv : server.Inv nshards identity initial)

include inv

section

variable (headed : kAofFileHeaderBytes ≤ kept) (short : kept ≤ server.file.length)

include headed short

/-- The boot over a prefix of the file, in terms of the kept log. -/
theorem AofServer.Inv.boot
    : let front := (keptLog (start nshards initial).nextSequence server.log kept)
      aofReadPlan (server.file.take kept) nshards true initial ≠ .error "duplicate AOF GCMT ticket"
      ∧ ∀ plan size, aofReadPlan (server.file.take kept) nshards true initial = .ok (plan, size)
        → plan.committedGroups = (ownedCommits front).map Prod.snd
          ∧ plan.sections = (range nshards.toNat).map (shardStream (front.map OwnedEntry.entry))
          ∧ plan.nextSequence = aofAdvance (start nshards initial).nextSequence
            (front.map OwnedEntry.entry)
          ∧ (server.file.take kept).take size = aofFile nshards identity
            (start nshards initial).nextSequence (front.map OwnedEntry.entry)
          ∧ kAofFileHeaderBytes ≤ size := by
  intro front
  obtain ⟨behind, rfl⟩ := Nat.exists_eq_add_of_le headed
  have entries := keptLog_entries (start nshards initial).nextSequence server.log
    (kAofFileHeaderBytes + behind)
  rw [Nat.add_sub_cancel_left] at entries
  have inLog : behind ≤ (aofLog (start nshards initial).nextSequence
      (server.log.map OwnedEntry.entry)).length := by
    rw [inv.file, aofFile, length_append, aofHeader_length] at short
    omega
  obtain ⟨lost, split, fits, -⟩ := keptEntries_maximal
    (start nshards initial).nextSequence (server.log.map OwnedEntry.entry) behind
  have read := aofReadPlan_frames rfl identity inv.owned inLog
  rw [← inv.file, ← entries] at read
  rw [← entries] at split fits
  have tickets : (groupCommits (front.map OwnedEntry.entry)).map Prod.fst
      = (ownedCommits front).map Prod.snd :=
    ownedCommits_tickets (keptLog_aligned inv _)
  have distinct : ((groupCommits (front.map OwnedEntry.entry)).map Prod.fst).Nodup := by
    rw [tickets]
    exact inv.kept_distinct _
  have idle : (start nshards initial).large = none := rfl
  obtain ⟨unrefused, committed⟩ := absorbAll_readRecords_distinct idle rfl distinct
  rw [read]
  cases records : ((start nshards initial).absorbAll (front.map OwnedEntry.entry)).readRecords with
  | error error =>
    refine ⟨?_, by simp⟩
    intro refused
    cases refused
    exact unrefused records
  | ok found =>
    obtain ⟨groups, streams⟩ := found
    refine ⟨by simp, ?_⟩
    intro plan size loaded
    cases loaded
    refine ⟨(committed groups streams records).trans tickets, rfl, rfl, ?_, ?_⟩
    · rw [inv.file]
      exact aofFile_take_kept nshards identity split fits
    · rw [aofFile, length_append]
      exact Nat.le_add_right _ _

/-- A ticket that stands for one group is neither doubled nor mistaken. -/
theorem AofServer.Inv.bootsSoundly
    : server.BootsSoundly nshards initial kept := by
  obtain ⟨unrefused, boots⟩ := inv.boot headed short
  refine ⟨unrefused, ?_⟩
  intro plan size read V env sid applied loaded owned
  obtain ⟨committed, sections, -, -, -⟩ := boots plan size read
  refine ⟨?_, ?_⟩
  · rw [aofLoadShard_applied sections loaded, ownedRecords_records (keptLog_aligned inv kept),
      filter_map]
    rfl
  · intro own member fragment
    obtain ⟨held, applies⟩ := mem_filter.mp member
    rw [AofRecord.fragment_isApplied fragment, committed, contains_iff_mem] at applies
    obtain ⟨commit, inFront, same⟩ := mem_map.mp applies
    have one := inv.single own.2 commit.1 own.1.group
      (.inr (Binds.take (.inr ⟨sid, own.1, held, fragment, rfl⟩)))
      (.inr (Binds.take (.inl (by rw [← same]; exact inFront))))
    exact mem_map.mpr ⟨_, inFront, one.symm⟩

/-- What the boot has read is the log of the next lifetime. -/
theorem AofServer.Inv.crash {plan : AofReplayPlan} {size : Nat}
    (read : aofReadPlan (server.file.take kept) nshards true initial = .ok (plan, size))
    : AofServer.Inv nshards identity initial { server with
          file := (server.file.take kept).take size
          nextSequence := plan.nextSequence
          commitSeq := 0
          booted := size
          drawn := []
          log := keptLog (start nshards initial).nextSequence server.log kept } := by
  obtain ⟨-, boots⟩ := inv.boot headed short
  obtain ⟨-, -, numbers, file, sized⟩ := boots plan size read
  exact
    { file
      numbers
      headed := sized
      owned := by
        intro entry member
        obtain ⟨owned, inFront, same⟩ := mem_map.mp member
        exact inv.owned entry (mem_map.mpr ⟨owned, mem_of_mem_take inFront, same⟩)
      aligned := keptLog_aligned inv kept
      once := inv.once.sublist ((keptLog_commits _ _ kept).map _)
      single := by
        intro group other ticket first second
        rcases first with drawn | binds
        · cases drawn
        · rcases second with drawn | others
          · cases drawn
          · exact inv.single group other ticket (.inr binds.take) (.inr others.take) }

end

/-- By the events of a lifetime. -/
theorem AofServer.Inv.step {event : LifetimeEvent} (unused : DrawsUnused server event)
    (stepped : server.step nshards initial event = some next)
    : next.Inv nshards identity initial := by
  cases event with
  | reserve tickets =>
    cases stepped
    exact inv.reserve tickets unused
  | append owned =>
    obtain ⟨allowed, rfl⟩ := guard_taken stepped
    exact inv.append allowed
  | crash kept =>
    obtain ⟨within, stepped⟩ := Option.ite_none_right_eq_some.mp stepped
    split at stepped
    · cases stepped
    · rename_i plan size read
      cases stepped
      exact inv.crash (inv.headed.trans within.1) within.2 read

end

end

/-- In every history whose lifetimes draw tickets that are not yet in the file, no boot takes two
groups for one.
Witness: the run invariant, at whatever prefix the boot finds.
-/
theorem groups_kept_apart (nshards : BitVec 32) (identity : AofFileIdentity)
    (initial : Option (List (BitVec 32))) (events : List LifetimeEvent) (server : AofServer)
    (unused : EachStep (AofServer.step nshards initial) DrawsUnused
      (AofServer.init nshards identity initial) events)
    (ran : run (AofServer.step nshards initial) (AofServer.init nshards identity initial) events
      = some server)
    : ∀ kept, server.booted ≤ kept → kept ≤ server.file.length
        → server.BootsSoundly nshards initial kept := by
  have inv :=
    run_invariant_of_eachStep (fun _ _ _ held => held.step)
      AofServer.Inv.init unused ran
  intro kept found short
  exact inv.bootsSoundly (inv.headed.trans found) short

def oneCommit (group : Nat) (number : BitVec 32) : List LifetimeEvent :=
  [.reserve 1, .append ⟨.records 0 [oneFragment] oneFragment_framed, [group]⟩,
    .append ⟨.commit 1 [(0, number)] (oneDependency_sized number), [group]⟩]

def twoCommits : List OwnedEntry :=
  [⟨.records 0 [oneFragment] oneFragment_framed, [0]⟩, ⟨.commit 1 [(0, 0)] (by decide), [0]⟩,
    ⟨.records 0 [oneFragment] oneFragment_framed, [1]⟩, ⟨.commit 1 [(0, 1)] (by decide), [1]⟩]

def firstLifetime : AofServer :=
  { file := aofFile 1 plainIdentity [0] (oneGroup 0), nextSequence := [1], commitSeq := 1
    booted := kAofFileHeaderBytes, groups := 1, drawn := [(0, 1)], log := twoCommits.take 2 }

def secondLifetime : AofServer :=
  { firstLifetime with commitSeq := 0, booted := 254, drawn := [] }

theorem firstLifetime_runs
    : run (AofServer.step 1 none) (AofServer.init 1 plainIdentity none) (oneCommit 0 0)
      = some firstLifetime := by
  have file : (aofHeader 1 plainIdentity ++ encode [0] (.records 0 [oneFragment]
        (by decide))) ++ encode [1] (.commit 1 [(0, 0)] (by decide))
      = firstLifetime.file := by
    have advanced : advance [0] (.records 0 [oneFragment] (by decide)) = [1] := rfl
    rw [firstLifetime, aofFile, oneGroup, aofLog_cons, aofLog_singleton, advanced, append_assoc]
  have ran : run (AofServer.step 1 none) (AofServer.init 1 plainIdentity none) (oneCommit 0 0)
      = some { firstLifetime with
          file := (aofHeader 1 plainIdentity ++ encode [0] (.records 0 [oneFragment]
            (by decide))) ++ encode [1] (.commit 1 [(0, 0)] (by decide)) } := rfl
  rw [ran, file]

theorem firstLifetime_file_length : firstLifetime.file.length = 254 := by
  obtain ⟨fragment, commit⟩ := oneGroup_encode_length 0 (by decide)
  have advanced : advance [0] (.records 0 [oneFragment] (by decide)) = [0 + 1] := rfl
  rw [firstLifetime, aofFile, length_append, aofHeader_length, oneGroup, aofLog_cons,
    length_append, fragment, aofLog_singleton, advanced, commit, kAofFileHeaderBytes]

theorem firstLifetime_stops
    : firstLifetime.step 1 none (.crash 254) = some secondLifetime := by
  have starts : ([0] : List (BitVec 32)) = (start 1 none).nextSequence := rfl
  have read := aofReadPlan_whole plainIdentity starts (oneGroup_grammar 0)
  rw [if_pos ((oneGroup_reached_iff 0).mpr (by decide))] at read
  have bytes : (aofLog [0] (firstLifetime.log.map OwnedEntry.entry)).length
      = 254 - kAofFileHeaderBytes := by
    have file := firstLifetime_file_length
    have entries : firstLifetime.log.map OwnedEntry.entry = oneGroup 0 := rfl
    rw [firstLifetime, aofFile, length_append, aofHeader_length] at file
    rw [entries, ← file, Nat.add_sub_cancel_left]
  have log : keptLog (start 1 none).nextSequence firstLifetime.log 254
      = firstLifetime.log := by
    rw [keptLog, ← starts, ← bytes, keptEntries_all, length_map, take_length]
  have whole : firstLifetime.file.take 254 = firstLifetime.file := by
    rw [← firstLifetime_file_length, take_length]
  have within : firstLifetime.booted ≤ 254 ∧ 254 ≤ firstLifetime.file.length :=
    ⟨by decide, firstLifetime_file_length.ge⟩
  have boot : aofReadPlan firstLifetime.file 1 true none
      = .ok (aofPlanOf 1 plainIdentity [0] (oneGroup 0), firstLifetime.file.length) := read
  rw [AofServer.step, if_pos within, whole, boot, log]
  dsimp only
  rw [take_length, firstLifetime_file_length]
  rfl

theorem plainRecord_framed
    : ([{ oneFragment with kind := AofRecordKind.put.code, group := 0 }].flatMap
      AofRecord.bytes).length < 2 ^ 32 := by decide

def plainEntry : OwnedEntry :=
  ⟨.records 0 [{ oneFragment with kind := AofRecordKind.put.code, group := 0 }] plainRecord_framed,
    [0]⟩

/-- Witness: the group of the first lifetime stands alone behind a second one that draws nothing. -/
theorem oneCommit_kept_apart
    : ∃ server, run (AofServer.step 1 none) (AofServer.init 1 plainIdentity none)
          (oneCommit 0 0 ++ [.crash 254, .append plainEntry]) = some server
        ∧ (server.booted = 254 ∧ server.log.length = 3)
        ∧ ∀ kept, server.booted ≤ kept → kept ≤ server.file.length
          → server.BootsSoundly 1 none kept := by
  have ran : run (AofServer.step 1 none) (AofServer.init 1 plainIdentity none)
      (oneCommit 0 0 ++ [.crash 254, .append plainEntry])
        = run (AofServer.step 1 none) secondLifetime [.append plainEntry] := by
    rw [run_append, firstLifetime_runs, Option.bind_some, run, firstLifetime_stops,
      Option.bind_some]
  refine ⟨_, ran, ⟨rfl, rfl⟩, groups_kept_apart 1 plainIdentity none _ _ ?_ ran⟩
  refine ⟨?_, trivial, trivial, trivial, ?_⟩
  · intro drawn first
    rw [Nat.lt_one_iff.mp first]
    simp [AofServer.Unused, AofServer.init, ownedCommits, ownedRecords]
  · split
    · trivial
    · refine ⟨trivial, ?_⟩
      split <;> trivial

/-- The file of both lifetimes has two commits under ticket 1. -/
theorem twoCommits_rejected
    : aofReadPlan (aofFile 1 plainIdentity [0] (twoCommits.map OwnedEntry.entry)) 1 true none
      = .error "duplicate AOF GCMT ticket" := by
  have starts : (start 1 none).nextSequence = [0] := rfl
  have owned : ∀ entry ∈ twoCommits.map OwnedEntry.entry,
      entry.Owned (start 1 none).nextSequence.length := by
    rw [starts]
    simp [twoCommits, AofEntry.Owned]
  have read := aofReadPlan_frames rfl plainIdentity owned le_rfl
  have refused : ((start 1 none).absorbAll
      (twoCommits.map OwnedEntry.entry)).readRecords = .error "duplicate AOF GCMT ticket" := by
    decide +kernel
  rw [keptEntries_all] at read
  rw [take_of_length_le (by rw [aofFile, length_append, aofHeader_length])]
    at read
  exact read

/-- Both lifetimes draw ticket 1, and the boot behind them refuses the file. -/
theorem second_lifetime_redraws
    : ∃ server, run (AofServer.step 1 none) (AofServer.init 1 plainIdentity none)
          (oneCommit 0 0 ++ .crash 254 :: oneCommit 1 1) = some server
        ∧ aofReadPlan server.file 1 true none = .error "duplicate AOF GCMT ticket" := by
  have file : (secondLifetime.file ++ encode [1] (.records 0 [oneFragment] (by decide)))
        ++ encode [1 + 1] (.commit 1 [(0, 1)] (by decide))
      = aofFile 1 plainIdentity [0] (twoCommits.map OwnedEntry.entry) := by
    have advanced : aofAdvance [0] (oneGroup 0) = [1] := rfl
    have next : advance [1] (.records 0 [oneFragment] (by decide)) = [1 + 1] := rfl
    have halves : twoCommits.map OwnedEntry.entry = oneGroup 0 ++ [.records 0 [oneFragment]
      (by decide), .commit 1 [(0, 1)] (by decide)] := rfl
    have second : secondLifetime.file = aofFile 1 plainIdentity [0] (oneGroup 0) := rfl
    rw [halves, aofFile_append, advanced, aofLog_cons, aofLog_singleton, next, second,
      append_assoc]
  have ran : run (AofServer.step 1 none) secondLifetime (oneCommit 1 1)
      = some { firstLifetime with
          file := (secondLifetime.file ++ encode [1] (.records 0 [oneFragment]
            (by decide))) ++ encode [1 + 1] (.commit 1 [(0, 1)] (by decide))
          nextSequence := [1 + 1], booted := 254, groups := 2, drawn := [(1, 1)]
          log := twoCommits } := rfl
  rw [run_append, firstLifetime_runs, Option.bind_some, run, firstLifetime_stops,
    Option.bind_some, ran]
  refine ⟨_, rfl, ?_⟩
  dsimp only
  rw [file]
  exact twoCommits_rejected

end Thredis.Persist
