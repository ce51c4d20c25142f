import Thredis.Lib.Runs
import Thredis.Persist.AofRewrite

/-! Every directory a history of rewrites leaves can be booted from: what the manager would persist
and what is persisted both lead through existing files to the last record written.
-/

namespace Thredis.Persist

open Thredis.Lib List Option AofFileName AofManager AofDisk

-- Following the increments

/-- The increments read in turn from a record and frame numbers on: each was created at the numbers
its start vector says, and its frames carry the next records under the next numbers.
-/
def followIncrements (files : AofFileName → Option AofStored)
    : Nat → List (BitVec 32) → List AofFileName → List (List (BitVec 32))
      → Option (Nat × List (BitVec 32))
  | ordinal, numbers, [], [] => some (ordinal, numbers)
  | ordinal, numbers, name :: names, start :: starts =>
    match files name with
    | some (.increment rotation frames) =>
      if start = numbers ∧ rotation = numbers
          ∧ frames.map AofWritten.ordinal = List.range' ordinal frames.length then
        match readIncrement numbers frames with
        | .ok next => followIncrements files (ordinal + frames.length) next names starts
        | .error _ => none
      else none
    | _ => none
  | _, _, _, _ => none

section
variable {files files' : AofFileName → Option AofStored} {ordinal : Nat}
  {numbers : List (BitVec 32)}

variable {names : List AofFileName} {starts : List (List (BitVec 32))}
    {reached : Nat × List (BitVec 32)}

variable {name : AofFileName}

/-- What following a first increment has found in it. -/
theorem followIncrements_cons {start : List (BitVec 32)}
    (follows : followIncrements files ordinal numbers (name :: names) (start :: starts)
      = some reached)
    : ∃ frames next, start = numbers ∧ files name = some (.increment numbers frames)
      ∧ frames.map AofWritten.ordinal = List.range' ordinal frames.length
      ∧ readIncrement numbers frames = .ok next
      ∧ followIncrements files (ordinal + frames.length) next names starts = some reached := by
  unfold followIncrements at follows
  split at follows
  · rename_i rotation frames stored
    split at follows
    · rename_i agrees
      obtain ⟨rfl, rfl, ordinals⟩ := agrees
      split at follows
      · rename_i next read
        exact ⟨frames, next, rfl, stored, ordinals, read, follows⟩
      · cases follows
    · cases follows
  · cases follows

variable {frames : List AofWritten} {next : List (BitVec 32)}

theorem followIncrements_step (stored : files name = some (.increment numbers frames))
    (ordinals : frames.map AofWritten.ordinal = List.range' ordinal frames.length)
    (read : readIncrement numbers frames = .ok next)
    : followIncrements files ordinal numbers (name :: names) (numbers :: starts)
      = followIncrements files (ordinal + frames.length) next names starts := by
  rw [followIncrements]
  simp [stored, ordinals, read]

/-- Induction along the increments that are followed. -/
@[elab_as_elim]
theorem followIncrements_induction
    {motive : Nat → List (BitVec 32) → List AofFileName → List (List (BitVec 32)) → Prop}
    (done : motive reached.1 reached.2 [] [])
    (step : ∀ {ordinal numbers name names starts frames next},
      files name = some (.increment numbers frames)
      → frames.map AofWritten.ordinal = List.range' ordinal frames.length
      → readIncrement numbers frames = .ok next
      → motive (ordinal + frames.length) next names starts
      → motive ordinal numbers (name :: names) (numbers :: starts))
    (follows : followIncrements files ordinal numbers names starts = some reached)
    : motive ordinal numbers names starts := by
  induction names generalizing ordinal numbers starts with
  | nil =>
    cases starts with
    | nil =>
      cases follows
      exact done
    | cons start starts => cases follows
  | cons name names ih =>
    cases starts with
    | nil => cases follows
    | cons start starts =>
      obtain ⟨frames, next, rfl, stored, ordinals, read, tail⟩ := followIncrements_cons follows
      exact step stored ordinals read (ih tail)

section

variable (follows : followIncrements files ordinal numbers names starts = some reached)

include follows

/-- Only the files on the way matter. -/
theorem followIncrements_congr (same : ∀ name ∈ names, files' name = files name)
    : followIncrements files' ordinal numbers names starts = some reached := by
  revert same
  refine followIncrements_induction (fun _ => rfl) (fun stored ordinals read ih same => ?_) follows
  rw [followIncrements_step (same _ mem_cons_self ▸ stored) ordinals read]
  exact ih (fun later member => same later (mem_cons_of_mem _ member))

theorem followIncrements_length : names.length = starts.length :=
  followIncrements_induction rfl (fun _ _ _ ih => congrArg (· + 1) ih) follows

theorem followIncrements_stored
    : List.Forall₂ (fun name start => ∃ frames, files name = some (.increment start frames))
        names starts :=
  followIncrements_induction .nil (fun stored _ _ ih => .cons ⟨_, stored⟩ ih) follows

/-- Every record from the origin on is in one of the increments. -/
theorem followIncrements_holds {record : Nat} (behind : ordinal ≤ record)
    (before : record < reached.1)
    : ∃ name ∈ names, ∃ rotation frames, files name = some (.increment rotation frames)
        ∧ ∃ frame ∈ frames, frame.ordinal = record := by
  revert behind
  refine followIncrements_induction (fun behind => absurd before (Nat.not_lt.mpr behind)) ?_ follows
  intro ordinal numbers name names starts frames next stored ordinals _ ih behind
  by_cases here : record < ordinal + frames.length
  · have member : record ∈ frames.map AofWritten.ordinal := by
      rw [ordinals, mem_range'_1]
      exact ⟨behind, here⟩
    exact ⟨name, mem_cons_self, _, frames, stored, mem_map.mp member⟩
  · obtain ⟨later, member, found⟩ := ih (Nat.not_lt.mp here)
    exact ⟨later, mem_cons_of_mem _ member, found⟩

end

variable {numbers : List (BitVec 32)}

theorem readIncrement_length (read : readIncrement numbers frames = .ok next)
    : next.length = numbers.length := by
  induction frames generalizing numbers with
  | nil =>
    cases read
    rfl
  | cons frame frames ih =>
    rw [readIncrement] at read
    split at read
    · rw [ih read, length_set]
    · cases read

theorem followIncrements_numbers_length
    (follows : followIncrements files ordinal numbers names starts = some reached)
    : reached.2.length = numbers.length :=
  followIncrements_induction rfl (fun _ _ read ih => ih.trans (readIncrement_length read)) follows

/-- A chain can be cut between two names, by induction over the front. -/
theorem followIncrements_append {front back : List AofFileName}
    {frontStarts backStarts : List (List (BitVec 32))} (aligned : front.length = frontStarts.length)
    : followIncrements files ordinal numbers (front ++ back) (frontStarts ++ backStarts)
        = some reached
      ↔ ∃ between, followIncrements files ordinal numbers front frontStarts = some between
        ∧ followIncrements files between.1 between.2 back backStarts = some reached := by
  induction front generalizing ordinal numbers frontStarts with
  | nil =>
    rw [length_nil, eq_comm, length_eq_zero_iff] at aligned
    subst aligned
    exact ⟨fun follows => ⟨_, rfl, follows⟩, fun ⟨_, here, follows⟩ => by cases here; exact follows⟩
  | cons name front ih =>
    cases frontStarts with
    | nil => simp at aligned
    | cons start frontStarts =>
      have shorter : front.length = frontStarts.length := by simpa using aligned
      constructor
      · intro follows
        obtain ⟨frames, next, rfl, stored, ordinals, read, tail⟩ := followIncrements_cons follows
        obtain ⟨between, first, second⟩ := (ih shorter).mp tail
        exact ⟨between, (followIncrements_step stored ordinals read).trans first, second⟩
      · rintro ⟨between, first, second⟩
        obtain ⟨frames, next, rfl, stored, ordinals, read, tail⟩ := followIncrements_cons first
        exact (followIncrements_step stored ordinals read).trans
          ((ih shorter).mpr ⟨between, tail, second⟩)

/-- More frames are read from where the first ones left the numbers. -/
theorem readIncrement_append {more : List AofWritten}
    (read : readIncrement numbers frames = .ok next)
    : readIncrement numbers (frames ++ more) = readIncrement next more := by
  induction frames generalizing numbers with
  | nil =>
    cases read
    rfl
  | cons frame frames ih =>
    rw [readIncrement] at read
    rw [cons_append, readIncrement]
    split at read
    · rename_i expected
      rw [if_pos expected]
      exact ih read
    · cases read

end

-- Linked manifests

/-- The record and the frame numbers a manifest's increments go on from: those of its base. -/
def BaseAt (nshards : Nat) (files : AofFileName → Option AofStored) (active : Nat)
    (manifest : AofManifest) (origin : Nat × List (BitVec 32)) : Prop :=
  origin.2.length = nshards
  ∧ match manifest.baseName with
    | none => origin = (0, List.replicate nshards 0)
    | some name =>
      name = .base manifest.baseSequence ∧ 1 ≤ manifest.baseSequence
      ∧ manifest.baseSequence ≤ active
      ∧ ∃ epoch, files name = some (.base epoch manifest.baseSize origin.1 origin.2)

def incrementsFrom (first count : Nat) : List (Nat × AofFileName) :=
  (List.range' first count).map fun sequence => (sequence, .incr sequence)

/-- A manifest that leads from its base over consecutive increments to the active one, and through
their frames to the last record written.
-/
structure Linked (nshards : Nat) (files : AofFileName → Option AofStored) (active written : Nat)
    (numbers : List (BitVec 32)) (manifest : AofManifest) : Prop where
  listed : ∃ first count, 1 ≤ first ∧ first + count = active
    ∧ manifest.increments = incrementsFrom first (count + 1)
  follows : ∃ origin, BaseAt nshards files active manifest origin
    ∧ followIncrements files origin.1 origin.2 (manifest.increments.map Prod.snd)
      manifest.incrementStarts = some (written, numbers)

/-- The base a manifest names has the epoch it records. -/
def EpochTrue (files : AofFileName → Option AofStored) (manifest : AofManifest) : Prop :=
  ∀ name ∈ manifest.baseName, ∃ size covers numbers,
    files name = some (.base manifest.baseEpoch size covers numbers)

theorem incrementsFrom_succ (first count : Nat)
    : incrementsFrom first (count + 1)
      = incrementsFrom first count ++ [(first + count, .incr (first + count))] := by
  rw [incrementsFrom, incrementsFrom, range'_1_concat, map_append, map_singleton]

theorem incrementsFrom_names (first count : Nat)
    : (incrementsFrom first count).map Prod.snd = (List.range' first count).map .incr := by
  rw [incrementsFrom, List.map_map]
  rfl

section
variable {nshards active written : Nat} {files files' : AofFileName → Option AofStored}
  {numbers : List (BitVec 32)} {manifest : AofManifest}

theorem BaseAt.congr {origin : Nat × List (BitVec 32)}
    (based : BaseAt nshards files active manifest origin)
    (same : ∀ name ∈ manifest.baseName, files' name = files name)
    : BaseAt nshards files' active manifest origin := by
  refine ⟨based.1, ?_⟩
  have held := based.2
  split at held
  · exact held
  · rename_i name named
    obtain ⟨own, low, high, epoch, stored⟩ := held
    exact ⟨own, low, high, epoch, (same name named).trans stored⟩

theorem EpochTrue.congr (holds : EpochTrue files manifest)
    (same : ∀ name ∈ manifest.names, files' name = files name) : EpochTrue files' manifest := by
  intro name named
  obtain ⟨size, covers, numbers, stored⟩ := holds name named
  exact ⟨size, covers, numbers, (same name (mem_append_left _ (mem_toList.mpr named))).trans stored⟩

/-- One more frame in the active increment. -/
theorem followIncrements_write {ordinal sid : Nat} {origin start rotation : List (BitVec 32)}
    {frames : List AofWritten} {sequence : BitVec 32}
    (follows : followIncrements files ordinal origin [name] [start] = some (written, numbers))
    (stored : files name = some (.increment rotation frames))
    (numbered : numbers[sid]? = some sequence)
    (appended : files' name = some (.increment rotation (frames ++ [⟨sid, sequence, written⟩])))
    : followIncrements files' ordinal origin [name] [start]
      = some (written + 1, numbers.set sid (sequence + 1)) := by
  obtain ⟨held, next, rfl, here, ordinals, read, done⟩ := followIncrements_cons follows
  rw [stored] at here
  cases here
  cases done
  let frame : AofWritten := ⟨sid, sequence, ordinal + frames.length⟩
  have more : readIncrement start (frames ++ [frame]) = .ok (numbers.set sid (sequence + 1)) := by
    rw [readIncrement_append read, readIncrement, if_pos numbered]
    rfl
  have carried : (frames ++ [frame]).map AofWritten.ordinal
      = range' ordinal (frames ++ [frame]).length := by
    rw [map_append, ordinals, length_append, length_singleton, range'_1_concat]
    rfl
  rw [followIncrements_step appended carried more, length_append]
  rfl

theorem contiguous_range' (first count : Nat) : contiguous (List.range' first count) = true := by
  induction count generalizing first with
  | zero => rfl
  | succ count ih =>
    cases count with
    | zero => rfl
    | succ count =>
      have tail := ih (first + 1)
      rw [range'_succ] at tail ⊢
      rw [range'_succ, contiguous, tail]
      simp

/-- The manifest of a finished rewrite. -/
theorem Linked.replaced {epoch : BitVec 64} (commit : BitVec 64) {size covers : Nat}
    {cut start : List (BitVec 32)} (positive : 1 ≤ active)
    (stored : files (.base active) = some (.base epoch size covers cut))
    (sized : cut.length = nshards)
    (follows : followIncrements files covers cut [.incr active] [start] = some (written, numbers))
    : Linked nshards files active written numbers
        { baseName := some (.base active), baseSequence := active, baseEpoch := epoch
          baseCommit := commit, baseSize := size, increments := [(active, .incr active)]
          incrementStarts := [start] } :=
  { listed := ⟨active, 0, positive, rfl, rfl⟩
    follows := ⟨(covers, cut), ⟨sized, rfl, positive, Nat.le_refl _, epoch, stored⟩, follows⟩ }

section

variable (linked : Linked nshards files active written numbers manifest)

include linked

/-- Only the files a manifest names matter. -/
theorem Linked.congr (same : ∀ name ∈ manifest.names, files' name = files name)
    : Linked nshards files' active written numbers manifest := by
  refine ⟨linked.listed, ?_⟩
  obtain ⟨origin, based, follows⟩ := linked.follows
  refine ⟨origin, based.congr ?_, followIncrements_congr follows ?_⟩
  · intro name named
    exact same name (mem_append_left _ (mem_toList.mpr named))
  · intro name named
    exact same name (mem_append_right _ named)

/-- What a linked manifest names: its base, of a sequence up to the active one, and increments up to
the active one.
-/
theorem Linked.names_cases (named : name ∈ manifest.names)
    : (name = .base manifest.baseSequence ∧ manifest.baseName = some name
        ∧ manifest.baseSequence ≤ active)
      ∨ ∃ sequence, sequence ≤ active ∧ name = .incr sequence := by
  rcases mem_append.mp named with base | increment
  · have filled := mem_toList.mp base
    obtain ⟨origin, based, -⟩ := linked.follows
    have held := based.2
    rw [mem_def.mp filled] at held
    exact .inl ⟨held.1, filled, held.2.2.1⟩
  · obtain ⟨first, count, -, last, listed⟩ := linked.listed
    rw [listed, incrementsFrom_names] at increment
    obtain ⟨sequence, inRange, rfl⟩ := mem_map.mp increment
    rw [mem_range'_1] at inRange
    exact .inr ⟨sequence, by omega, rfl⟩

/-- The active increment, and where the frames in front of it lead. -/
theorem Linked.atActive
    : ∃ front starts start, manifest.increments = front ++ [(active, .incr active)]
      ∧ manifest.incrementStarts = starts ++ [start]
      ∧ (∀ entry ∈ front, ∃ sequence, sequence < active ∧ entry.2 = .incr sequence)
      ∧ ∃ origin ordinal, BaseAt nshards files active manifest origin
        ∧ start.length = nshards
        ∧ followIncrements files origin.1 origin.2 (front.map Prod.snd) starts
          = some (ordinal, start)
        ∧ followIncrements files ordinal start [.incr active] [start]
          = some (written, numbers) := by
  obtain ⟨first, count, low, last, listed⟩ := linked.listed
  obtain ⟨origin, based, follows⟩ := linked.follows
  have snoc : manifest.increments = incrementsFrom first count ++ [(active, .incr active)] := by
    rw [listed, incrementsFrom_succ, last]
  have aligned := followIncrements_length follows
  rw [snoc, map_append, length_append] at aligned
  rcases eq_nil_or_concat' manifest.incrementStarts with empty | ⟨starts, start, split⟩
  · rw [empty] at aligned
    simp at aligned
  · rw [split, length_append] at aligned
    have shorter := Nat.add_right_cancel aligned
    rw [snoc, split, map_append, followIncrements_append shorter] at follows
    obtain ⟨⟨ordinal, between⟩, front, back⟩ := follows
    obtain ⟨frames, next, rfl, -, -, -, -⟩ := followIncrements_cons back
    refine ⟨_, starts, start, snoc, split, ?_, origin, ordinal, based, ?_, front, back⟩
    · intro entry member
      obtain ⟨sequence, inRange, rfl⟩ := mem_map.mp member
      rw [mem_range'_1] at inRange
      exact ⟨sequence, by omega, rfl⟩
    · rw [followIncrements_numbers_length front]
      exact based.1

/-- A frame appended to the active increment is the last record of the chain. -/
theorem Linked.write {sid : Nat}
    {rotation : List (BitVec 32)} {frames : List AofWritten} {sequence : BitVec 32}
    (stored : files (.incr active) = some (.increment rotation frames))
    (numbered : numbers[sid]? = some sequence) (appended : files' (.incr active)
      = some (.increment rotation (frames ++ [⟨sid, sequence, written⟩])))
    (others : ∀ name, name ≠ .incr active → files' name = files name)
    : Linked nshards files' active (written + 1) (numbers.set sid (sequence + 1)) manifest := by
  obtain ⟨front, starts, start, split, splitStarts, older, origin, ordinal, based, -, before,
    last⟩ := linked.atActive
  refine ⟨linked.listed, origin, ?_, ?_⟩
  · apply based.congr
    intro name named
    apply others
    rintro rfl
    have held := based.2
    rw [mem_def.mp named] at held
    cases held.1
  · rw [split, splitStarts, map_append]
    apply (followIncrements_append (followIncrements_length before)).mpr
    refine ⟨(ordinal, start), followIncrements_congr before ?_,
      followIncrements_write last stored numbered appended⟩
    intro name member
    obtain ⟨entry, inFront, rfl⟩ := mem_map.mp member
    obtain ⟨sequence, lower, same⟩ := older entry inFront
    apply others
    rw [same]
    simp only [ne_eq, incr.injEq]
    omega

/-- The staged manifest of a rotation. -/
theorem Linked.rotate (created : files (.incr (active + 1)) = some (.increment numbers []))
    : Linked nshards files (active + 1) written numbers { manifest with
          increments := manifest.increments ++ [(active + 1, .incr (active + 1))]
          incrementStarts := manifest.incrementStarts ++ [numbers] } := by
  obtain ⟨first, count, low, last, listed⟩ := linked.listed
  obtain ⟨origin, based, follows⟩ := linked.follows
  refine ⟨⟨first, count + 1, low, by omega, ?_⟩, origin, ?_, ?_⟩
  · rw [listed, incrementsFrom_succ first (count + 1), ← Nat.add_assoc, last]
  · refine ⟨based.1, ?_⟩
    have held := based.2
    dsimp only
    split at held
    · exact held
    · exact ⟨held.1, held.2.1, Nat.le_succ_of_le held.2.2.1, held.2.2.2⟩
  · rw [map_append]
    apply (followIncrements_append (followIncrements_length follows)).mpr
    refine ⟨(written, numbers), follows, ?_⟩
    exact followIncrements_step created rfl rfl

/-- A linked manifest passes the tests of `read_manifest`. -/
theorem Linked.check
    : manifest.check = .ok () := by
  obtain ⟨first, count, low, last, listed⟩ := linked.listed
  obtain ⟨origin, based, follows⟩ := linked.follows
  have sequences : manifest.increments.map Prod.fst = range' first (count + 1) := by
    rw [listed, incrementsFrom, List.map_map]
    exact map_id _
  have names : manifest.increments.map Prod.snd = (range' first (count + 1)).map .incr := by
    rw [listed, incrementsFrom_names]
  have numbered : ¬ (manifest.baseName.isSome = true ∧ manifest.baseSequence = 0) := by
    rintro ⟨present, zero⟩
    obtain ⟨name, named⟩ := isSome_iff_exists.mp present
    have held := based.2
    rw [named] at held
    omega
  have positive : ¬ manifest.increments.any (fun entry => entry.1 == 0) = true := by
    rw [listed, incrementsFrom, List.any_map, List.any_eq_true]
    rintro ⟨sequence, inRange, zero⟩
    rw [mem_range'_1] at inRange
    simp at zero
    omega
  have filled : ¬ manifest.increments = [] := by
    rw [listed, incrementsFrom]
    simp
  have distinct : manifest.names.Nodup := by
    rw [AofManifest.names, names, nodup_append]
    refine ⟨?_, ?_, ?_⟩
    · cases manifest.baseName with
      | none => exact nodup_nil
      | some name => exact nodup_singleton _
    · exact List.Nodup.map (fun _ _ => incr.inj) nodup_range'
    · intro name base other increment same
      have held := based.2
      rw [mem_def.mp (mem_toList.mp base)] at held
      obtain ⟨sequence, -, rfl⟩ := mem_map.mp increment
      rw [held.1] at same
      cases same
  rw [AofManifest.check, if_neg numbered, if_neg positive, if_neg filled,
    if_neg (not_not.mpr distinct), if_neg (by rw [sequences, contiguous_range']; simp)]

end

variable {disk : AofDisk}

theorem Linked.checkBase (linked : Linked nshards disk.files active written numbers manifest)
    (epoch : EpochTrue disk.files manifest) : checkBase disk manifest = .ok () := by
  obtain ⟨origin, based, -⟩ := linked.follows
  have held := based.2
  rw [Persist.checkBase]
  cases named : manifest.baseName with
  | none => rfl
  | some name =>
    rw [named] at held
    obtain ⟨-, -, -, stamp, stored⟩ := held
    obtain ⟨size, covers, cut, same⟩ := epoch name named
    rw [stored] at same
    cases same
    simp [stored]

variable {reached : Nat × List (BitVec 32)} {starts : List (List (BitVec 32))}

/-- The recovery reads a chain to the numbers it leads to, by induction over it. -/
theorem readIncrements_follow {entries : List (Nat × AofFileName)} {ordinal : Nat}
    (sized : numbers.length = nshards)
    (follows : followIncrements disk.files ordinal numbers (entries.map Prod.snd) starts
      = some reached) (next : List (BitVec 32)) (filled : entries ≠ [])
    : readIncrements nshards disk next entries starts = .ok reached.2 := by
  induction entries generalizing ordinal numbers starts next with
  | nil => exact absurd rfl filled
  | cons entry entries ih =>
    cases starts with
    | nil => cases follows
    | cons start starts =>
      obtain ⟨frames, after, rfl, stored, ordinals, read, tail⟩ := followIncrements_cons follows
      rw [readIncrements, if_neg (not_not.mpr sized)]
      simp only [stored, read]
      cases entries with
      | nil =>
        cases starts with
        | nil =>
          cases tail
          rfl
        | cons start starts => cases tail
      | cons second entries =>
        exact ih (by rw [readIncrement_length read, sized]) tail after (by simp)

/-- A directory whose manifest is linked and has its base's epoch is recovered. -/
theorem Linked.recovers
    (linked : Linked nshards disk.files active written numbers (disk.view nshards))
    (epoch : EpochTrue disk.files (disk.view nshards))
    : aofReadRecovery nshards disk = .ok numbers := by
  obtain ⟨origin, based, follows⟩ := linked.follows
  cases persisted : disk.manifest with
  | none =>
    have fresh : disk.view nshards = .fresh nshards := by rw [view, persisted]; rfl
    rw [fresh] at based follows
    have start := based.2
    subst start
    obtain ⟨frames, next, -, stored, -, read, done⟩ := followIncrements_cons follows
    cases done
    rw [aofReadRecovery]
    simp only [persisted, stored, read]
  | some manifest =>
    have named : disk.view nshards = manifest := by rw [view, persisted]; rfl
    rw [named] at linked epoch based follows
    obtain ⟨first, count, -, -, listed⟩ := linked.listed
    rw [aofReadRecovery]
    simp only [persisted, linked.check, linked.checkBase epoch]
    apply readIncrements_follow based.1 follows
    rw [listed, incrementsFrom]
    simp

end

-- What a crash finds

/-- The directory holds a record: in the base the manifest names, or in one of its increments. -/
def AofDisk.Holds (disk : AofDisk) (manifest : AofManifest) (ordinal : Nat) : Prop :=
  (∃ name ∈ manifest.baseName, ∃ epoch size covers numbers,
    disk.files name = some (.base epoch size covers numbers) ∧ ordinal < covers)
  ∨ ∃ entry ∈ manifest.increments, ∃ rotation frames,
    disk.files entry.2 = some (.increment rotation frames)
    ∧ ∃ frame ∈ frames, frame.ordinal = ordinal

/-- A crash here loses nothing: the directory is accepted, its manifest says what is there, and the
files it names stay and hold every record.
-/
structure RewriteState.Recoverable (nshards : Nat) (state : RewriteState) : Prop where
  accepted : ∃ next, aofReadRecovery nshards state.disk = .ok next
  base : ∀ name ∈ (state.disk.view nshards).baseName, ∃ covers numbers, state.disk.files name
    = some (.base (state.disk.view nshards).baseEpoch (state.disk.view nshards).baseSize covers
      numbers)
  inOrder : contiguous ((state.disk.view nshards).increments.map Prod.fst) = true
  increments : List.Forall₂
    (fun entry start => ∃ frames, state.disk.files entry.2 = some (.increment start frames))
    (state.disk.view nshards).increments (state.disk.view nshards).incrementStarts
  kept : ∀ next stuck, ∀ name ∈ (state.disk.view nshards).names,
    ((AofManager.init (state.disk.view nshards) next).cleanupUnreferencedFiles state.disk
      stuck).files name = state.disk.files name
  records : ∀ ordinal < state.written, state.disk.Holds (state.disk.view nshards) ordinal

/-- The base of the rewrite in progress will hold the records below `covers`; the active increment
goes on from there.
-/
def RewriteState.CutAt (nshards : Nat) (state : RewriteState) (covers : Nat)
    (cut : List (BitVec 32)) : Prop :=
  cut.length = nshards
  ∧ followIncrements state.disk.files covers cut [.incr state.manager.activeIncrSequence]
      [state.manager.incrementStarts.getLastD []]
    = some (state.written, state.manager.nextSequence)

/-- The rewrite in progress: its target, and once marked its cut. -/
def RewriteState.Underway (nshards : Nat) (state : RewriteState) : RewritePhase → Prop
  | .started =>
    state.manager.rewriteTargetSequence = state.manager.activeIncrSequence + 1
    ∧ state.manager.rewriteBaseName = .base (state.manager.activeIncrSequence + 1)
  | .marked epoch covers cut =>
    state.manager.rewriteTargetSequence = state.manager.activeIncrSequence
    ∧ state.manager.rewriteBaseName = .base state.manager.activeIncrSequence
    ∧ epoch = state.manager.baseEpoch ∧ state.CutAt nshards covers cut
    ∧ .base state.manager.activeIncrSequence ∉ state.manager.manifest.names
    ∧ .base state.manager.activeIncrSequence ∉ (state.disk.view nshards).names
  | .published epoch =>
    state.manager.rewriteTargetSequence = state.manager.activeIncrSequence
    ∧ state.manager.rewriteBaseName = .base state.manager.activeIncrSequence
    ∧ epoch = state.manager.baseEpoch
    ∧ ∃ size covers cut, state.CutAt nshards covers cut
      ∧ state.disk.files (.base state.manager.activeIncrSequence)
        = some (.base epoch size covers cut)
  | .idle | .failing => True

/-- What the manager would persist and what is persisted are both linked to the active increment. -/
structure RewriteState.Inv (nshards : Nat) (state : RewriteState) : Prop where
  memory : Linked nshards state.disk.files state.manager.activeIncrSequence state.written
    state.manager.nextSequence state.manager.manifest
  persisted : Linked nshards state.disk.files state.manager.activeIncrSequence state.written
    state.manager.nextSequence (state.disk.view nshards)
  epoch : EpochTrue state.disk.files (state.disk.view nshards)
  underway : state.Underway nshards state.manager.phase

section
variable {nshards : Nat} {state next : RewriteState}
variable {files : AofFileName → Option AofStored} {numbers : List (BitVec 32)}

variable {name : AofFileName}

/-- The cleanup at boot spares what the manifest names. -/
theorem AofManager.init_cleanup (manifest : AofManifest) (next : List (BitVec 32)) (disk : AofDisk)
    (stuck : List AofFileName) (named : name ∈ manifest.names)
    : ((init manifest next).cleanupUnreferencedFiles disk stuck).files name = disk.files name := by
  have kept : (!(init manifest next).manifest.names.contains name) = false := by
    rw [Bool.not_eq_false', contains_iff_mem]
    exact named
  simp only [cleanupUnreferencedFiles, unlink, kept, Bool.false_eq_true, false_and, if_false]

/-- A linked manifest on disk is all a crash needs. -/
theorem RewriteState.Inv.recoverable (inv : state.Inv nshards) : state.Recoverable nshards := by
  obtain ⟨origin, based, follows⟩ := inv.persisted.follows
  obtain ⟨first, count, -, -, listed⟩ := inv.persisted.listed
  refine
    { accepted := ⟨_, inv.persisted.recovers inv.epoch⟩
      base := ?_
      inOrder := ?_
      increments := forall₂_map_left_iff.mp (followIncrements_stored follows)
      kept := fun next stuck name named => init_cleanup _ next _ stuck named
      records := ?_ }
  · intro name named
    obtain ⟨size, covers, numbers, stored⟩ := inv.epoch name named
    have held := based.2
    rw [mem_def.mp named] at held
    obtain ⟨-, -, -, epoch, same⟩ := held
    rw [stored] at same
    cases same
    exact ⟨_, _, stored⟩
  · rw [listed, incrementsFrom, List.map_map]
    exact (congrArg contiguous (map_id _)).trans (contiguous_range' _ _)
  · intro ordinal before
    by_cases behind : origin.1 ≤ ordinal
    · obtain ⟨_, named, found⟩ := followIncrements_holds follows behind before
      obtain ⟨entry, listed, rfl⟩ := mem_map.mp named
      exact .inr ⟨entry, listed, found⟩
    · have held := based.2
      split at held
      · rw [held] at behind
        exact absurd (Nat.zero_le _) behind
      · rename_i name named
        obtain ⟨-, -, -, epoch, stored⟩ := held
        exact .inl ⟨name, named, epoch, _, _, _, stored, by omega⟩

-- Steps

/-- A rotation starts from the epoch that is in the base file, and its manifest is renamed only
where `rewrite_mark` takes it as persisted.
-/
def MarksHonestly (state : RewriteState) : RewriteEvent → Prop
  | .mark _ _ (.rotated outcome) _ =>
    outcome ≠ .failedAfterRename ∧ EpochTrue state.disk.files state.manager.manifest
  | _ => True

variable {active written : Nat} {manifest : AofManifest}

section

variable (linked : Linked nshards files active written numbers manifest)

include linked

/-- The next increment's name is free. -/
theorem Linked.incr_not_mem
    : .incr (active + 1) ∉ manifest.names := by
  intro named
  rcases linked.names_cases named with ⟨base, -, -⟩ | ⟨sequence, older, same⟩
  · cases base
  · cases same
    omega

theorem Linked.base_not_mem
    : .base (active + 1) ∉ manifest.names := by
  intro named
  rcases linked.names_cases named with ⟨same, -, older⟩ | ⟨sequence, -, same⟩
  · have sequence := base.inj same
    omega
  · cases same

theorem Linked.aligned
    : manifest.increments.length = manifest.incrementStarts.length := by
  obtain ⟨origin, -, follows⟩ := linked.follows
  rw [← followIncrements_length follows, length_map]

theorem Linked.numbers_length
    : numbers.length = nshards := by
  obtain ⟨origin, based, follows⟩ := linked.follows
  exact (followIncrements_numbers_length follows).trans based.1

end

theorem AofDisk.put_same (disk : AofDisk) (name : AofFileName) (stored : AofStored)
    : (disk.put name stored).files name = some stored := if_pos rfl

theorem AofDisk.put_other (disk : AofDisk) {other : AofFileName} (stored : AofStored)
    (apart : other ≠ name) : (disk.put name stored).files other = disk.files other := if_neg apart

theorem RewriteState.Inv.write (inv : state.Inv nshards) {sid : Nat}
    (wrote : state.write sid = some next) : next.Inv nshards := by
  unfold RewriteState.write at wrote
  split at wrote
  · rename_i sequence rotation frames numbered stored
    cases wrote
    have appended := state.disk.put_same (.incr state.manager.activeIncrSequence)
      (.increment rotation (frames ++ [⟨sid, sequence, state.written⟩]))
    have others (name : AofFileName) (apart : name ≠ .incr state.manager.activeIncrSequence) :=
      state.disk.put_other (.increment rotation (frames ++ [⟨sid, sequence, state.written⟩])) apart
    have follows {covers : Nat} {origin start : List (BitVec 32)}
        (before : followIncrements state.disk.files covers origin
          [.incr state.manager.activeIncrSequence] [start]
          = some (state.written, state.manager.nextSequence)) :=
      followIncrements_write before stored numbered appended
    refine ⟨inv.memory.write stored numbered appended others,
      inv.persisted.write stored numbered appended others, ?_, ?_⟩
    · intro name named
      obtain ⟨size, covers, numbers, held⟩ := inv.epoch name named
      refine ⟨size, covers, numbers, (others name ?_).trans held⟩
      rintro rfl
      rw [stored] at held
      cases held
    · have underway := inv.underway
      generalize state.manager.phase = phase at underway ⊢
      cases phase with
      | idle | failing => trivial
      | started => exact underway
      | marked epoch covers cut =>
        obtain ⟨target, base, stamped, ⟨sized, before⟩, fresh⟩ := underway
        exact ⟨target, base, stamped, ⟨sized, follows before⟩, fresh⟩
      | published epoch =>
        obtain ⟨target, base, stamped, size, covers, cut, ⟨sized, before⟩, held⟩ := underway
        exact ⟨target, base, stamped, size, covers, cut, ⟨sized, follows before⟩,
          (others _ (by simp)).trans held⟩
  · cases wrote

/-- A directory that only lost or gained the next increment is as good as before. -/
theorem RewriteState.Inv.failed (inv : state.Inv nshards) {disk : AofDisk}
    (manifest : disk.manifest = state.disk.manifest)
    (others : ∀ name, name ≠ .incr (state.manager.activeIncrSequence + 1)
      → disk.files name = state.disk.files name)
    : RewriteState.Inv nshards { state with disk }.fail := by
  have view : disk.view nshards = state.disk.view nshards := by
    rw [view, view, manifest]
  have named {entries : AofManifest}
      (linked : Linked nshards state.disk.files state.manager.activeIncrSequence state.written
        state.manager.nextSequence entries)
      : ∀ name ∈ entries.names, disk.files name = state.disk.files name := by
    intro name member
    apply others
    rintro rfl
    exact linked.incr_not_mem member
  refine ⟨inv.memory.congr (named inv.memory), ?_, ?_, trivial⟩
  · show Linked nshards disk.files _ _ _ (disk.view nshards)
    rw [view]
    exact inv.persisted.congr (named inv.persisted)
  · show EpochTrue disk.files (disk.view nshards)
    rw [view]
    exact inv.epoch.congr (named inv.persisted)

theorem AofDisk.unlink_other (disk : AofDisk) {doomed : AofFileName → Bool}
    (stuck : List AofFileName) (spared : doomed name = false)
    : (disk.unlink doomed stuck).files name = disk.files name := by
  simp [unlink, spared]

/-- The rotation puts an empty increment behind both manifests. -/
theorem RewriteState.Inv.rotated (inv : state.Inv nshards) (epoch commit : BitVec 64)
    (stuck : List AofFileName) (started : state.manager.phase = .started)
    (honest : EpochTrue state.disk.files state.manager.manifest)
    : (state.rotate epoch commit .persisted stuck).Inv nshards := by
  have underway := inv.underway
  rw [started] at underway
  obtain ⟨target, base⟩ := underway
  have created := state.disk.put_same (.incr (state.manager.activeIncrSequence + 1))
    (.increment state.manager.nextSequence [])
  have named : ∀ name ∈ state.manager.manifest.names,
      (state.disk.put (.incr (state.manager.activeIncrSequence + 1))
        (.increment state.manager.nextSequence [])).files name = state.disk.files name := by
    intro name member
    apply put_other
    rintro rfl
    exact inv.memory.incr_not_mem member
  have staged := (inv.memory.congr named).rotate created
  have last : (state.manager.incrementStarts ++ [state.manager.nextSequence]).getLastD []
      = state.manager.nextSequence := by simp
  have fresh : .base (state.manager.activeIncrSequence + 1) ∉ state.manager.manifest.names
      ++ [incr (state.manager.activeIncrSequence + 1)] := by
    intro member
    rcases mem_append.mp member with old | new
    · exact inv.memory.base_not_mem old
    · cases mem_singleton.mp new
  have grown : state.manager.manifest.names
        ++ [incr (state.manager.activeIncrSequence + 1)]
      = state.manager.baseName.toList ++ (state.manager.increments
        ++ [(state.manager.activeIncrSequence + 1,
          incr (state.manager.activeIncrSequence + 1))]).map Prod.snd := by
    rw [map_append, ← append_assoc]
    rfl
  rw [grown] at fresh
  have aligned : state.manager.increments.length = state.manager.incrementStarts.length :=
    inv.memory.aligned
  simp only [rotate, persistManifest, AofManager.staged, length_append, aligned, target,
    length_singleton, ne_eq, not_true_eq_false, if_false]
  refine ⟨{ staged with }, staged, honest.congr named, rfl, base, rfl,
    ⟨inv.memory.numbers_length, ?_⟩, fresh, fresh⟩
  rw [last]
  exact followIncrements_step created rfl rfl

variable {stuck : List AofFileName}

/-- By where the mark ends: before the rename the old chain stands untouched. -/
theorem RewriteState.Inv.mark (inv : state.Inv nshards) {epoch commit : BitVec 64}
    {outcome : MarkOutcome} (honest : MarksHonestly state (.mark epoch commit outcome stuck))
    (marked : state.mark epoch commit outcome stuck = some next) : next.Inv nshards := by
  have untouched := inv.failed rfl fun _ _ => rfl
  obtain ⟨started, marked⟩ := ite_none_left_eq_some.mp marked
  have phase := not_not.mp started
  have underway := inv.underway
  rw [phase] at underway
  have gone : ∀ name, name ≠ .incr (state.manager.activeIncrSequence + 1)
      → ((state.disk.put (.incr state.manager.rewriteTargetSequence)
          (.increment state.manager.nextSequence [])).unlink
          (· == incr state.manager.rewriteTargetSequence) stuck).files name
        = state.disk.files name := by
    intro name apart
    rw [underway.1]
    rw [← state.disk.put_other _ apart]
    exact unlink_other _ _ (beq_false_of_ne apart)
  cases outcome with
  | undrained | unsynced | uncreated =>
    cases marked
    exact untouched
  | uninitialized =>
    dsimp only at marked
    split at marked
    · cases marked
      exact untouched
    · cases marked
      exact inv.failed rfl gone
  | rotated outcome =>
    dsimp only at marked
    split at marked
    · cases marked
      exact untouched
    · cases marked
      cases outcome with
      | persisted => exact inv.rotated epoch commit stuck phase honest.2
      | failedBeforeRename => simpa [rotate, persistManifest] using inv.failed (by rfl) gone
      | failedAfterRename => exact absurd rfl honest.1

/-- The new base stands beside the chain until a manifest names it. -/
theorem RewriteState.Inv.publish (inv : state.Inv nshards) {size : Nat}
    (published : state.publish size = some next) : next.Inv nshards := by
  unfold RewriteState.publish at published
  split at published
  · rename_i epoch covers cut phase
    cases published
    have underway := inv.underway
    rw [phase] at underway
    obtain ⟨target, base, stamped, ⟨sized, follows⟩, unnamed, unlisted⟩ := underway
    have others (name : AofFileName) (apart : name ≠ .base state.manager.activeIncrSequence)
        : (state.disk.put state.manager.rewriteBaseName (.base epoch size covers cut)).files name
          = state.disk.files name := by
      rw [base]
      exact state.disk.put_other _ apart
    refine ⟨inv.memory.congr fun name named => others name ?_,
      inv.persisted.congr fun name named => others name ?_,
      inv.epoch.congr fun name named => others name ?_, target, base, stamped, size, covers, cut,
      ⟨sized, followIncrements_congr follows ?_⟩, ?_⟩
    · exact fun same => unnamed (same ▸ named)
    · exact fun same => unlisted (same ▸ named)
    · exact fun same => unlisted (same ▸ named)
    · intro name member
      rw [mem_singleton.mp member]
      exact others _ (by simp)
    · rw [base]
      exact state.disk.put_same _ _
  · cases published

theorem Linked.getLastD
    (linked : Linked nshards files active written numbers manifest) (fallback : Nat × AofFileName)
    : manifest.increments.getLastD fallback = (active, .incr active) := by
  obtain ⟨front, -, -, split, -⟩ := linked.atActive
  rw [split]
  simp

section

variable (inv : state.Inv nshards)

include inv

/-- The manifest of the finished rewrite, on a directory that has its two files. -/
theorem RewriteState.Inv.replaced {epoch : BitVec 64}
    (phase : state.manager.phase = .published epoch)
    : ∃ size, (∃ covers cut, state.disk.files state.manager.rewriteBaseName
          = some (.base epoch size covers cut))
      ∧ ∀ files : AofFileName → Option AofStored,
        (∀ name ∈ (state.manager.replaced epoch size).names, files name = state.disk.files name)
        → Linked nshards files state.manager.activeIncrSequence state.written
            state.manager.nextSequence (state.manager.replaced epoch size)
          ∧ EpochTrue files (state.manager.replaced epoch size) := by
  have underway := inv.underway
  rw [phase] at underway
  obtain ⟨target, base, stamped, size, covers, cut, ⟨sized, follows⟩, stored⟩ := underway
  obtain ⟨first, count, low, last, -⟩ := inv.memory.listed
  have linked := Linked.replaced state.manager.baseCommit (by omega) stored sized follows
  have entries : state.manager.replaced epoch size
      = { baseName := some (.base state.manager.activeIncrSequence)
          baseSequence := state.manager.activeIncrSequence, baseEpoch := epoch
          baseCommit := state.manager.baseCommit, baseSize := size
          increments := [(state.manager.activeIncrSequence, .incr state.manager.activeIncrSequence)]
          incrementStarts := [state.manager.incrementStarts.getLastD []] } := by
    have active : state.manager.increments.getLastD (0, .incr 0) = _ :=
      inv.memory.getLastD (0, .incr 0)
    rw [AofManager.replaced, target, base, active]
  refine ⟨size, ⟨covers, cut, base ▸ stored⟩, ?_⟩
  intro files same
  rw [entries] at same ⊢
  refine ⟨linked.congr same, ?_⟩
  intro name named
  cases named
  exact ⟨size, covers, cut, (same _ mem_cons_self).trans stored⟩

/-- Named, the base leads over the active increment alone. -/
theorem RewriteState.Inv.complete {outcome : CompleteOutcome}
    (completed : state.complete outcome stuck = some next)
    : next.Inv nshards := by
  have untouched := inv.failed rfl fun _ _ => rfl
  unfold RewriteState.complete at completed
  split at completed
  · rename_i epoch stamp size covers cut phase found
    obtain ⟨same, ⟨covers, cut, stored⟩, linked⟩ := inv.replaced phase
    rw [found] at stored
    cases stored
    split at completed
    · cases completed
      exact untouched
    · cases outcome with
      | unstatted =>
        cases completed
        exact untouched
      | replaced outcome =>
        have unchanged := linked state.disk.files fun _ _ => rfl
        cases outcome with
        | failedBeforeRename =>
          cases completed
          exact untouched
        | failedAfterRename =>
          cases completed
          exact ⟨inv.memory, unchanged.1, unchanged.2, trivial⟩
        | persisted =>
          cases completed
          obtain ⟨replaced, stamped⟩ := linked
            (state.disk.unlink (fun name => state.manager.rewriteHistory.contains name
              && !(state.manager.replaced epoch size).names.contains name) stuck).files (by
            intro name named
            apply unlink_other
            rw [contains_iff_mem.mpr named, Bool.not_true, Bool.and_false])
          exact ⟨{ replaced with }, replaced, stamped, trivial⟩
  · cases completed
    exact untouched
  · cases completed

/-- The next process goes on from what the recovery has read. -/
theorem RewriteState.Inv.crash (booted : state.crash nshards stuck = some next)
    : next.Inv nshards := by
  have recovered := inv.persisted.recovers inv.epoch
  simp only [RewriteState.crash, recovered, some.injEq] at booted
  subst booted
  have named (name : AofFileName) (member : name ∈ (state.disk.view nshards).names) :=
    init_cleanup _ state.manager.nextSequence state.disk stuck member
  have active : (AofManager.init (state.disk.view nshards)
      state.manager.nextSequence).activeIncrSequence = state.manager.activeIncrSequence :=
    congrArg Prod.fst (inv.persisted.getLastD (1, .incr 1))
  refine ⟨?_, ?_, inv.epoch.congr named, trivial⟩
  · rw [active]
    exact inv.persisted.congr named
  · rw [active]
    exact inv.persisted.congr named

/-- By the events; only a mark needs its honesty. -/
theorem RewriteState.Inv.step {event : RewriteEvent} (honest : MarksHonestly state event)
    (stepped : state.step nshards event = some next)
    : next.Inv nshards := by
  cases event with
  | write sid => exact inv.write stepped
  | start =>
    obtain ⟨_, rfl⟩ := guard_passed stepped
    exact ⟨inv.memory, inv.persisted, inv.epoch, rfl, rfl⟩
  | mark epoch commit outcome stuck => exact inv.mark honest stepped
  | publish size => exact inv.publish stepped
  | complete outcome stuck => exact inv.complete stepped
  | abort =>
    obtain ⟨_, rfl⟩ := guard_taken stepped
    exact { inv with underway := trivial }
  | crash stuck => exact inv.crash stepped

end

theorem RewriteState.Inv.init (nshards : Nat) : (RewriteState.init nshards).Inv nshards := by
  have created : (RewriteState.init nshards).disk.files (.incr 1)
      = some (.increment (replicate nshards 0) []) := rfl
  have follows : followIncrements (RewriteState.init nshards).disk.files 0
      (replicate nshards 0) [.incr 1] [replicate nshards 0]
      = some (0, replicate nshards 0) := followIncrements_step created rfl rfl
  have linked : Linked nshards (RewriteState.init nshards).disk.files 1 0
      (replicate nshards 0) (.fresh nshards) :=
    { listed := ⟨1, 0, Nat.le_refl _, rfl, rfl⟩
      follows := ⟨(0, replicate nshards 0), ⟨length_replicate, rfl⟩, follows⟩ }
  exact ⟨linked, linked, nofun, trivial⟩

end

/-- In every history of rewrites whose rotations start from the base's own epoch and whose manifest
is not renamed behind the manager's back, a crash after any step loses nothing.
Witness: the run invariant.
-/
theorem rewrites_recoverable (nshards : Nat) (events : List RewriteEvent) (state : RewriteState)
    (honest : EachStep (RewriteState.step nshards) MarksHonestly (RewriteState.init nshards) events)
    (ran : run (RewriteState.step nshards) (RewriteState.init nshards) events = some state)
    : state.Recoverable nshards :=
  (run_invariant_of_eachStep (fun _ _ _ inv => inv.step)
    (RewriteState.Inv.init nshards) honest ran).recoverable

/-- One write and one rewrite that completes. -/
def oneRewrite : List RewriteEvent :=
  [.write 0, .start, .mark 1 0 (.rotated .persisted) [], .publish 100,
    .complete (.replaced .persisted) []]

theorem one_rewrite_recoverable
    : ∃ state, run (RewriteState.step 1) (RewriteState.init 1) oneRewrite = some state
        ∧ state.Recoverable 1 := by
  refine ⟨_, rfl, rewrites_recoverable 1 oneRewrite _ ?_ rfl⟩
  refine ⟨trivial, trivial, ⟨by decide, nofun⟩, trivial, trivial, trivial⟩

/-- Behind a rewrite that was aborted after its mark, the next rotation records the aborted epoch
for the old base, and the next boot refuses it.
-/
theorem aborted_epoch_refused
    : ∃ state, run (RewriteState.step 1) (RewriteState.init 1)
          (oneRewrite ++ [.start, .mark 2 0 (.rotated .persisted) [], .abort, .start,
            .mark 3 0 (.rotated .persisted) []]) = some state
        ∧ aofReadRecovery 1 state.disk
          = .error "AOF base metadata does not match the manifest" :=
  ⟨_, rfl, by decide +kernel⟩

end Thredis.Persist
