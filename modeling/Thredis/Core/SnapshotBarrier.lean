import Mathlib

/-! The cut of a snapshot against cross-shard atomic groups. A group is admitted behind two loads
of the snapshot barrier, opens its apply window and queues one fragment on every participating
owner; the writer arms the barrier, waits until the window counters cancel, and then takes every
owner through freeze and mark.
-/

namespace Thredis.Core

/-- Where one fragment of a group is. An executed fragment keeps the last epoch its owner had
marked by then.
-/
inductive FragmentState where
  | unposted
  | queued
  | executed (mark : Nat)
  deriving DecidableEq, Repr

def FragmentState.isExecuted : FragmentState → Bool
  | .executed _ => true
  | _ => false

def FragmentState.before (epoch : Nat) : FragmentState → Bool
  | .executed mark => mark < epoch
  | _ => false

structure Fragment where
  owner : Nat
  state : FragmentState
  deriving DecidableEq, Repr

inductive GroupPc where
  | check
  | credit
  | recheck
  | build
  | opened
  | closed
  | torn
  | refused
  deriving DecidableEq, Repr

structure AtomicGroup where
  ownerIo : Nat
  fragments : List Fragment
  pc : GroupPc
  deriving DecidableEq, Repr

inductive SnapshotOwnerState where
  | none
  | preparing
  | prepared
  | frozen
  | marked
  | capturing
  | draining
  deriving DecidableEq, Repr

/-- An executor; `mark` is the last epoch it has marked its shards for. -/
structure Owner where
  stage : SnapshotOwnerState
  mark : Nat
  deriving DecidableEq, Repr

inductive SnapshotPhase where
  | idle
  | preparing
  | freeze
  | mark
  | capture
  deriving DecidableEq, Repr

/-- Where `SnapshotManager::start` is. The two scans are the passes of
`atomic_apply_inflight`, closes first, with the slot each loads next.
-/
inductive WriterPc where
  | idle
  | waitReady
  | scanClosed (tid sum : Nat)
  | scanOpened (tid closed sum : Nat)
  | waitFrozen
  | waitMarked
  | release
  | capture
  deriving DecidableEq, Repr

def WriterPc.phase : WriterPc → SnapshotPhase
  | .idle => .idle
  | .waitReady | .scanClosed _ _ | .scanOpened _ _ _ => .preparing
  | .waitFrozen => .freeze
  | .waitMarked => .mark
  | .release | .capture => .capture

structure BarrierState where
  barrier : Bool
  epoch : Nat
  writer : WriterPc
  groups : List AtomicGroup
  owners : List Owner
  opened : List Nat
  closed : List Nat
  deriving DecidableEq, Repr

def BarrierState.init (nthreads nowners : Nat) : BarrierState :=
  { barrier := false, epoch := 0, writer := .idle, groups := []
    owners := List.replicate nowners ⟨.none, 0⟩
    opened := List.replicate nthreads 0, closed := List.replicate nthreads 0 }

/-- A step of the interleaving. The answers a step depends on beside the modelled words (a free
credit, the atomic mode, an allocation) are its parameters.
-/
inductive BarrierEvent where
  | submit (ownerIo : Nat) (owners : List Nat)
  | check (group : Nat)
  | credit (group : Nat) (granted : Bool)
  | recheck (group : Nat) (enabled : Bool)
  | applyOpen (group : Nat) (built : Bool)
  | queue (group fragment : Nat)
  | execute (group fragment : Nat)
  | applyClose (group tid : Nat)
  | tearDown (group : Nat)
  | control (owner : Nat)
  | writer
  deriving DecidableEq, Repr

namespace BarrierState

variable (state : BarrierState)

variable (group : Nat)

def move (pc : GroupPc) (next : GroupPc)
    : Option BarrierState := do
  let found ← state.groups[group]?
  if found.pc = pc then
    some { state with groups := state.groups.set group { found with pc := next } }
  else none

/-- `atomic_apply_open`, or the release of a group whose state could not be built. -/
def openWindow (built : Bool) : Option BarrierState := do
  let found ← state.groups[group]?
  if built then
    let moved ← state.move group .build .opened
    some { moved with opened := moved.opened.modify found.ownerIo (· + 1) }
  else state.move group .build .refused

def setFragment (found : AtomicGroup) (fragment : Nat) (next : Fragment)
    : BarrierState :=
  { state with
    groups := state.groups.set group { found with fragments := found.fragments.set fragment next } }

def queueFragment (fragment : Nat) : Option BarrierState := do
  let found ← state.groups[group]?
  let part ← found.fragments[fragment]?
  if found.pc = .opened ∧ part.state = .unposted then
    some (state.setFragment group found fragment { part with state := .queued })
  else none

def snapshotBlocksTasks (owner : Owner) : Bool :=
  owner.stage = .frozen || owner.stage = .marked

def executeFragment (fragment : Nat) : Option BarrierState := do
  let found ← state.groups[group]?
  let part ← found.fragments[fragment]?
  let owner ← state.owners[part.owner]?
  if part.state = .queued ∧ snapshotBlocksTasks owner = false then
    some (state.setFragment group found fragment { part with state := .executed owner.mark })
  else none

/-- `atomic_apply_close` by the thread that ran the last fragment. -/
def closeWindow (tid : Nat) : Option BarrierState := do
  let found ← state.groups[group]?
  if found.fragments.all (fun part => part.state.isExecuted) && decide (tid < state.closed.length)
  then
    let moved ← state.move group .opened .closed
    some { moved with closed := moved.closed.modify tid (· + 1) }
  else none

/-- `xshard_destroy` of a group no owner has been given a fragment of. -/
def tearDown : Option BarrierState := do
  let found ← state.groups[group]?
  if found.fragments.all (fun part => part.state = .unposted) then
    let moved ← state.move group .opened .torn
    some { moved with closed := moved.closed.modify found.ownerIo (· + 1) }
  else none

/-- `snapshot_control_pass` of an owner: the stage it moves to, if it moves. -/
def controlPass (phase : SnapshotPhase) (epoch : Nat) (owner : Owner) : Option Owner :=
  match owner.stage, phase with
  | .none, .preparing => some { owner with stage := .preparing }
  | .preparing, _ => some { owner with stage := .prepared }
  | .prepared, .freeze => some { owner with stage := .frozen }
  | .frozen, .mark => some { stage := .marked, mark := epoch }
  | .marked, .capture => some { owner with stage := .capturing }
  | .capturing, .capture => some { owner with stage := .draining }
  | .draining, _ => some { owner with stage := .none }
  | _, _ => none

/-- The next step of `SnapshotManager::start`; a wait goes on only once all owners are there. -/
def writerStep : Option BarrierState :=
  let all := fun (stage : SnapshotOwnerState) => state.owners.all (fun owner => owner.stage = stage)
  match state.writer with
  | .idle => some { state with barrier := true, epoch := state.epoch + 1, writer := .waitReady }
  | .waitReady => if all .prepared then some { state with writer := .scanClosed 0 0 } else none
  | .scanClosed tid sum =>
    match state.closed[tid]? with
    | some count => some { state with writer := .scanClosed (tid + 1) (sum + count) }
    | none => some { state with writer := .scanOpened 0 sum 0 }
  | .scanOpened tid closed sum =>
    match state.opened[tid]? with
    | some count => some { state with writer := .scanOpened (tid + 1) closed (sum + count) }
    | none =>
      if sum < closed then none
      else if sum = closed then some { state with writer := .waitFrozen }
      else some { state with writer := .scanClosed 0 0 }
  | .waitFrozen => if all .frozen then some { state with writer := .waitMarked } else none
  | .waitMarked => if all .marked then some { state with writer := .release } else none
  | .release => some { state with barrier := false, writer := .capture }
  | .capture => if all .none then some { state with writer := .idle } else none

def step : BarrierEvent → Option BarrierState
  | .submit ownerIo owners =>
    if ownerIo < state.opened.length ∧ owners.all (· < state.owners.length) then
      some { state with
        groups := state.groups
          ++ [{ ownerIo := ownerIo, fragments := owners.map (⟨·, .unposted⟩), pc := .check }] }
    else none
  | .check group => state.move group .check (if state.barrier then .refused else .credit)
  | .credit group granted => state.move group .credit (if granted then .recheck else .refused)
  | .recheck group enabled =>
    state.move group .recheck (if state.barrier || !enabled then .refused else .build)
  | .applyOpen group built => state.openWindow group built
  | .queue group fragment => state.queueFragment group fragment
  | .execute group fragment => state.executeFragment group fragment
  | .applyClose group tid => state.closeWindow group tid
  | .tearDown group => state.tearDown group
  | .control owner => do
    let found ← state.owners[owner]?
    let moved ← controlPass state.writer.phase state.epoch found
    some { state with owners := state.owners.set owner moved }
  | .writer => state.writerStep

def markOf (owner : Nat) : Nat :=
  (state.owners[owner]?).elim 0 Owner.mark

/-- Once all owners of a group have marked an epoch, its fragments lie all before their owners'
marks or none of them does.
-/
def AllOrNone (group : AtomicGroup) (epoch : Nat) : Prop :=
  (∀ part ∈ group.fragments, epoch ≤ state.markOf part.owner)
  → (∀ part ∈ group.fragments, part.state.before epoch = true)
    ∨ ∀ part ∈ group.fragments, part.state.before epoch = false

instance (state : BarrierState) (group : AtomicGroup) (epoch : Nat)
    : Decidable (state.AllOrNone group epoch) :=
  inferInstanceAs (Decidable (_ → _ ∨ _))

/-- No admitted group is between its second load of the barrier and the opening of its window. -/
def NoneBuilding : Prop := ∀ group ∈ state.groups, group.pc ≠ .build

instance (state : BarrierState) : Decidable state.NoneBuilding :=
  inferInstanceAs (Decidable (∀ group ∈ state.groups, group.pc ≠ .build))

/-- Whenever the writer starts to sum the window counters, no admitted group has its window
still to open.
-/
def ScanUnraced : BarrierEvent → Prop
  | .writer => state.writer = .scanClosed 0 0 → state.NoneBuilding
  | _ => True

instance (state : BarrierState) (event : BarrierEvent) : Decidable (state.ScanUnraced event) :=
  match event with
  | .writer => inferInstanceAs (Decidable (state.writer = .scanClosed 0 0 → state.NoneBuilding))
  | .submit _ _ | .check _ | .credit _ _ | .recheck _ _ | .applyOpen _ _ | .queue _ _ | .execute _ _
  | .applyClose _ _ | .tearDown _ | .control _ => .isTrue trivial

end BarrierState

end Thredis.Core
