import Mathlib

/-! The append-only directory under rewrites: the manifest, the files it names, the rotation at the
mark, the new base, and the boot that reads them back.
-/

namespace Thredis.Persist

/-- `aof_base_name` and `aof_segment_name`: a name is its kind and its sequence. -/
inductive AofFileName where
  | base (sequence : Nat)
  | incr (sequence : Nat)
  deriving DecidableEq, Repr

structure AofWritten where
  sid : Nat
  sequence : BitVec 32
  ordinal : Nat
  deriving DecidableEq, Repr

/-- The files of the directory. A base holds the records below `covers`, written when the shards'
next frame numbers were `numbers`; `rotation` is what those numbers were when an increment was
created.
-/
inductive AofStored where
  | base (epoch : BitVec 64) (size : Nat) (covers : Nat) (numbers : List (BitVec 32))
  | increment (rotation : List (BitVec 32)) (frames : List AofWritten)
  deriving DecidableEq, Repr

/-- `AofManifestData`; no base name means no base. -/
structure AofManifest where
  baseName : Option AofFileName
  baseSequence : Nat
  baseEpoch : BitVec 64
  baseCommit : BitVec 64
  baseSize : Nat
  increments : List (Nat × AofFileName)
  incrementStarts : List (List (BitVec 32))
  deriving DecidableEq, Repr

structure AofDisk where
  files : AofFileName → Option AofStored
  manifest : Option AofManifest

def AofManifest.names (manifest : AofManifest) : List AofFileName :=
  manifest.baseName.toList ++ manifest.increments.map Prod.snd

def contiguous : List Nat → Bool
  | [] => true
  | [_] => true
  | first :: second :: rest => second == first + 1 && contiguous (second :: rest)

def AofManifest.check (manifest : AofManifest) : Except String Unit :=
  if manifest.baseName.isSome ∧ manifest.baseSequence = 0 then
    .error "invalid AOF manifest base entry"
  else if manifest.increments.any (fun entry => entry.1 == 0) then
    .error "invalid AOF manifest increment entry"
  else if manifest.increments = [] then .error "AOF manifest has no increment file"
  else if ¬ manifest.names.Nodup then .error "AOF manifest repeats a file name"
  else if ¬ contiguous (manifest.increments.map Prod.fst) then
    .error "AOF manifest increment sequences are not contiguous"
  else .ok ()

/-- The frame loop of `aof_read_plan` over an increment: the next frame numbers behind it. -/
def readIncrement : List (BitVec 32) → List AofWritten → Except String (List (BitVec 32))
  | numbers, [] => .ok numbers
  | numbers, frame :: rest =>
    if numbers[frame.sid]? = some frame.sequence then
      readIncrement (numbers.set frame.sid (frame.sequence + 1)) rest
    else .error "invalid AOF shard frame sequence"

variable (disk : AofDisk)

def checkBase (manifest : AofManifest) : Except String Unit :=
  match manifest.baseName with
  | none => .ok ()
  | some name =>
    match disk.files name with
    | some (.base epoch size _ _) =>
      if epoch ≠ manifest.baseEpoch ∨ size ≠ manifest.baseSize then
        .error "AOF base metadata does not match the manifest"
      else .ok ()
    | _ => .error "could not read AOF base snapshot"

/-- The loop over the increments; the last plan's next frame numbers. -/
def readIncrements (nshards : Nat) (disk : AofDisk)
    : List (BitVec 32) → List (Nat × AofFileName) → List (List (BitVec 32))
      → Except String (List (BitVec 32))
  | next, [], _ => .ok next
  | _, _ :: _, [] => .error "AOF manifest increment start vector has the wrong shard count"
  | _, entry :: entries, start :: starts =>
    if start.length ≠ nshards then
      .error "AOF manifest increment start vector has the wrong shard count"
    else
      match disk.files entry.2 with
      | some (.increment _ frames) =>
        match readIncrement start frames with
        | .error error => .error error
        | .ok next => readIncrements nshards disk next entries starts
      | _ => .error "AOF manifest increment file is missing"

/-- `aof_read_recovery`: the frame numbers the next lifetime goes on from. -/
def aofReadRecovery (nshards : Nat) (disk : AofDisk) : Except String (List (BitVec 32)) :=
  match disk.manifest with
  | none =>
    match disk.files (.incr 1) with
    | some (.increment _ frames) => readIncrement (List.replicate nshards 0) frames
    | some (.base _ _ _ _) => .error "invalid AOF header"
    | none => .ok (List.replicate nshards 0)
  | some manifest =>
    match manifest.check with
    | .error error => .error error
    | .ok () =>
      match checkBase disk manifest with
      | .error error => .error error
      | .ok () =>
        readIncrements nshards disk (List.replicate nshards 0) manifest.increments
          manifest.incrementStarts

-- The manager

/-- How far a rewrite has come. The rotation fixes the epoch of the new base, the records it covers
and the frame numbers at the cut.
-/
inductive RewritePhase where
  | idle
  | started
  | marked (epoch : BitVec 64) (covers : Nat) (numbers : List (BitVec 32))
  | published (epoch : BitVec 64)
  | failing
  deriving DecidableEq, Repr

/-- The members of `AofManager` that rewrites read and write. -/
structure AofManager where
  baseName : Option AofFileName
  baseSequence : Nat
  baseEpoch : BitVec 64
  baseCommit : BitVec 64
  baseSize : Nat
  increments : List (Nat × AofFileName)
  incrementStarts : List (List (BitVec 32))
  activeIncrSequence : Nat
  nextSequence : List (BitVec 32)
  rewriteTargetSequence : Nat
  rewriteBaseName : AofFileName
  rewriteHistory : List AofFileName
  phase : RewritePhase
  deriving DecidableEq, Repr

variable (manager : AofManager)

def AofManager.rewriteInProgress : Bool := manager.phase != .idle

def AofManager.manifest : AofManifest :=
  { baseName := manager.baseName, baseSequence := manager.baseSequence
    baseEpoch := manager.baseEpoch, baseCommit := manager.baseCommit
    baseSize := manager.baseSize, increments := manager.increments
    incrementStarts := manager.incrementStarts }

/-- The entries `init` starts from without a manifest. -/
def AofManifest.fresh (nshards : Nat) : AofManifest :=
  { baseName := none, baseSequence := 0, baseEpoch := 0, baseCommit := 0, baseSize := 0
    increments := [(1, .incr 1)], incrementStarts := [List.replicate nshards 0] }

def AofDisk.view (nshards : Nat) (disk : AofDisk) : AofManifest :=
  disk.manifest.getD (.fresh nshards)

/-- `AofManager::init` over what the recovery read. -/
def AofManager.init (manifest : AofManifest) (next : List (BitVec 32)) : AofManager :=
  { baseName := manifest.baseName, baseSequence := manifest.baseSequence
    baseEpoch := manifest.baseEpoch, baseCommit := manifest.baseCommit
    baseSize := manifest.baseSize, increments := manifest.increments
    incrementStarts := manifest.incrementStarts
    activeIncrSequence := (manifest.increments.getLastD (1, .incr 1)).1
    nextSequence := next, rewriteTargetSequence := 0, rewriteBaseName := .base 0
    rewriteHistory := [], phase := .idle }

/-- Names are unlinked, except where the call fails. -/
def AofDisk.unlink (doomed : AofFileName → Bool) (stuck : List AofFileName)
    : AofDisk :=
  { disk with
    files := fun name => if doomed name ∧ name ∉ stuck then none else disk.files name }

def AofManager.cleanupUnreferencedFiles (disk : AofDisk) (stuck : List AofFileName) : AofDisk :=
  disk.unlink (fun name => !manager.manifest.names.contains name) stuck

/-- How `persist_manifest` may end: after all its calls, at one before the rename took effect, or
at one behind it.
-/
inductive PersistOutcome where
  | persisted
  | failedBeforeRename
  | failedAfterRename
  deriving DecidableEq, Repr

/-- `persist_manifest`: what it returns, and the directory. -/
def persistManifest (manifest : AofManifest) (outcome : PersistOutcome)
    : Bool × AofDisk :=
  if manifest.increments.length ≠ manifest.incrementStarts.length then (false, disk)
  else
    match outcome with
    | .persisted => (true, { disk with manifest := some manifest })
    | .failedBeforeRename => (false, disk)
    | .failedAfterRename => (false, { disk with manifest := some manifest })

/-- Where `rewrite_mark` may end. -/
inductive MarkOutcome where
  | undrained
  | unsynced
  | uncreated
  | uninitialized
  | rotated (outcome : PersistOutcome)
  deriving DecidableEq, Repr

/-- Where `rewrite_complete` may end. -/
inductive CompleteOutcome where
  | unstatted
  | replaced (outcome : PersistOutcome)
  deriving DecidableEq, Repr

structure RewriteState where
  disk : AofDisk
  manager : AofManager
  written : Nat

inductive RewriteEvent where
  | write (sid : Nat)
  | start
  | mark (epoch commit : BitVec 64) (outcome : MarkOutcome) (stuck : List AofFileName)
  | publish (size : Nat)
  | complete (outcome : CompleteOutcome) (stuck : List AofFileName)
  | abort
  | crash (stuck : List AofFileName)
  deriving DecidableEq, Repr

def AofDisk.put (name : AofFileName) (stored : AofStored) : AofDisk :=
  { disk with files := fun other => if other = name then some stored else disk.files other }

variable (state : RewriteState)

def RewriteState.write (sid : Nat) : Option RewriteState :=
  match state.manager.nextSequence[sid]?,
      state.disk.files (.incr state.manager.activeIncrSequence) with
  | some sequence, some (.increment rotation frames) =>
    some
      { disk := state.disk.put (.incr state.manager.activeIncrSequence)
          (.increment rotation (frames ++ [⟨sid, sequence, state.written⟩]))
        manager := { state.manager with
          nextSequence := state.manager.nextSequence.set sid (sequence + 1) }
        written := state.written + 1 }
  | _, _ => none

/-- `maybe_start_rewrite`, up to the call of `start`. -/
def RewriteState.start : Option RewriteState :=
  if state.manager.rewriteInProgress then none
  else
    some { state with manager := { state.manager with
      phase := .started
      rewriteTargetSequence := state.manager.activeIncrSequence + 1
      rewriteBaseName := .base (state.manager.activeIncrSequence + 1) } }

def RewriteState.fail : RewriteState :=
  { state with manager := { state.manager with phase := .failing } }

/-- What `rewrite_mark` persists: the old entries with the new increment. -/
def AofManager.staged (manager : AofManager) : AofManifest :=
  { manager.manifest with
    increments := manager.increments
      ++ [(manager.rewriteTargetSequence, .incr manager.rewriteTargetSequence)]
    incrementStarts := manager.incrementStarts ++ [manager.nextSequence] }

/-- `rewrite_mark` behind the drained and synced old increment. -/
def RewriteState.rotate (epoch commit : BitVec 64) (outcome : PersistOutcome)
    (stuck : List AofFileName) : RewriteState :=
  let manager := state.manager
  let created := state.disk.put (.incr manager.rewriteTargetSequence)
    (.increment manager.nextSequence [])
  match persistManifest created manager.staged outcome with
  | (false, disk) =>
    { state with
      disk := disk.unlink (· == AofFileName.incr manager.rewriteTargetSequence) stuck }.fail
  | (true, disk) =>
    { state with
      disk := disk
      manager := { manager with
        rewriteHistory := manager.manifest.names
        increments := manager.staged.increments
        incrementStarts := manager.staged.incrementStarts
        activeIncrSequence := manager.rewriteTargetSequence
        baseEpoch := epoch
        baseCommit := commit
        phase := .marked epoch state.written manager.nextSequence } }

def RewriteState.mark (epoch commit : BitVec 64) (outcome : MarkOutcome)
    (stuck : List AofFileName) : Option RewriteState :=
  if state.manager.phase ≠ .started then none
  else
    match outcome with
    | .undrained | .unsynced | .uncreated => some state.fail
    | .uninitialized =>
      -- the header or its sync failed: the new increment is unlinked again
      if (state.disk.files (.incr state.manager.rewriteTargetSequence)).isSome then
        some state.fail
      else
        some { state with
          disk := (state.disk.put (.incr state.manager.rewriteTargetSequence)
            (.increment state.manager.nextSequence [])).unlink
            (· == AofFileName.incr state.manager.rewriteTargetSequence) stuck }.fail
    | .rotated outcome =>
      -- O_EXCL
      if (state.disk.files (.incr state.manager.rewriteTargetSequence)).isSome then
        some state.fail
      else some (state.rotate epoch commit outcome stuck)

/-- The capture's end: the finished base takes its final name. -/
def RewriteState.publish (size : Nat) : Option RewriteState :=
  match state.manager.phase with
  | .marked epoch covers numbers =>
    some { state with
      disk := state.disk.put state.manager.rewriteBaseName (.base epoch size covers numbers)
      manager := { state.manager with phase := .published epoch } }
  | _ => none

/-- What `rewrite_complete` persists: the new base with the active increment. -/
def AofManager.replaced (manager : AofManager) (epoch : BitVec 64) (size : Nat) : AofManifest :=
  { baseName := some manager.rewriteBaseName, baseSequence := manager.rewriteTargetSequence
    baseEpoch := epoch, baseCommit := manager.baseCommit, baseSize := size
    increments := [(manager.activeIncrSequence, (manager.increments.getLastD (0, .incr 0)).2)]
    incrementStarts := [manager.incrementStarts.getLastD []] }

def RewriteState.complete (outcome : CompleteOutcome) (stuck : List AofFileName)
    : Option RewriteState :=
  match state.manager.phase, state.disk.files state.manager.rewriteBaseName with
  | .published epoch, some (.base _ size _ _) =>
    if epoch ≠ state.manager.baseEpoch then some state.fail
    else
      match outcome with
      | .unstatted => some state.fail
      | .replaced outcome =>
        let manifest := state.manager.replaced epoch size
        match persistManifest state.disk manifest outcome with
        | (false, disk) => some { state with disk := disk }.fail
        | (true, disk) =>
          some { state with
            disk := disk.unlink (fun name => state.manager.rewriteHistory.contains name
              && !manifest.names.contains name) stuck
            manager := { state.manager with
              baseName := manifest.baseName
              baseSequence := manifest.baseSequence
              baseSize := size
              increments := manifest.increments
              incrementStarts := manifest.incrementStarts
              rewriteHistory := []
              phase := .idle } }
  | .published _, _ => some state.fail
  | _, _ => none

/-- `rewrite_abort`, reached through `abort_file`. -/
def RewriteState.abort : Option RewriteState :=
  if state.manager.rewriteInProgress then
    some { state with manager := { state.manager with phase := .idle, rewriteHistory := [] } }
  else none

/-- The process ends and the next one boots; a directory it refuses has no next process. -/
def RewriteState.crash (nshards : Nat) (state : RewriteState) (stuck : List AofFileName)
    : Option RewriteState :=
  match aofReadRecovery nshards state.disk with
  | .error _ => none
  | .ok next =>
    let manager := AofManager.init (state.disk.view nshards) next
    some { state with
      disk := manager.cleanupUnreferencedFiles state.disk stuck
      manager := manager }

def RewriteState.step (nshards : Nat) (state : RewriteState) : RewriteEvent → Option RewriteState
  | .write sid => state.write sid
  | .start => state.start
  | .mark epoch commit outcome stuck => state.mark epoch commit outcome stuck
  | .publish size => state.publish size
  | .complete outcome stuck => state.complete outcome stuck
  | .abort => state.abort
  | .crash stuck => state.crash nshards stuck

def RewriteState.init (nshards : Nat) : RewriteState :=
  { disk :=
      { files := fun name =>
          if name = .incr 1 then some (.increment (List.replicate nshards 0) []) else none
        manifest := none }
    manager := AofManager.init (.fresh nshards) (List.replicate nshards 0)
    written := 0 }

end Thredis.Persist
