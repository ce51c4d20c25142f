import Thredis.Core.CommitBracket
import Thredis.Lib.SwapRemove

/-! Read cuts and the cleanup floor: each IO thread registers the cuts of its unresolved
reads and publishes the lowest; owners load the commit cutoff, then the lowest published
floor, and collapse with the two. One event is one access to a word other threads read.
-/

namespace Thredis.Cmd

open Thredis.Core Thredis.Lib

def uint64Max : Nat := 2 ^ 64 - 1

def snapshotExclusiveFloor (snapshot : Nat) : Nat :=
  if snapshot = uint64Max then uint64Max else snapshot + 1

structure SnapshotFloor where
  floor : Nat
  refs : Nat
  deriving DecidableEq, Repr

def SnapshotFloor.idle : SnapshotFloor := ⟨uint64Max, 0⟩

namespace SnapshotFloor

def note (held : SnapshotFloor) (cut : Nat) : SnapshotFloor :=
  if cut < held.floor then ⟨cut, 1⟩
  else if cut = held.floor then ⟨held.floor, held.refs + 1⟩
  else held

/-- One cut less; a floor without references that loses one aborts the process. -/
def release (held : SnapshotFloor) (cut : Nat) : Option SnapshotFloor :=
  if cut = held.floor then
    if held.refs = 0 then none else some ⟨held.floor, held.refs - 1⟩
  else some held

end SnapshotFloor

def activeSnapshotFloor (cuts : List Nat) : SnapshotFloor := cuts.foldl .note .idle

/-- A published read cut; `slot` is its position in the owning thread's unresolved set. -/
structure SnapshotCut where
  snapshot : Nat
  slot : Option Nat
  registered : Bool
  complete : Bool
  deriving DecidableEq, Repr

inductive IoPc where
  | idle
  /-- The floor is published; the watermark is loaded once more for cut `id`. -/
  | confirm (id cut : Nat)
  /-- A newer cut was adopted; the floor may have to be published again. -/
  | publish
  deriving DecidableEq, Repr

/-- The bookkeeping of a thread's `ScatterArenaPool` and its slot of `atomic_read_floors_`.
Cuts are named by their position in `cuts`.
-/
structure IoThread where
  cuts : List SnapshotCut
  unresolved : List Nat
  held : SnapshotFloor
  published : Nat
  observed : Nat
  completions : Nat
  readFloor : Nat
  pc : IoPc
  deriving DecidableEq, Repr

def IoThread.init : IoThread :=
  { cuts := [], unresolved := [], held := .idle, published := uint64Max, observed := 0
    completions := 0, readFloor := uint64Max, pc := .idle }

namespace IoThread

variable (thread : IoThread)

variable (id : Nat)

def cutAt : SnapshotCut :=
  thread.cuts.getD id ⟨uint64Max, none, false, false⟩

def exclusive : Nat :=
  snapshotExclusiveFloor (thread.cutAt id).snapshot

def active : List Nat := thread.unresolved.map thread.exclusive

def modifyCut (change : SnapshotCut → SnapshotCut) : IoThread :=
  { thread with cuts := thread.cuts.modify id change }

def publishFloor : IoThread :=
  if thread.held.floor ≠ thread.published then
    { thread with published := thread.held.floor, readFloor := thread.held.floor }
  else thread

def settle : IoThread :=
  if thread.held.refs = 0 then { thread with held := activeSnapshotFloor thread.active }
  else thread

/-- The push of `register_snapshot` and the floor it gives. -/
def push : IoThread :=
  { thread.modifyCut id (fun state =>
      { state with slot := some thread.unresolved.length, registered := true }) with
    unresolved := thread.unresolved ++ [id]
    held := thread.held.note (thread.exclusive id) }

/-- `register_snapshot` up to and including the first publication. -/
def register : IoThread :=
  { (thread.push id).publishFloor with pc := .confirm id (thread.exclusive id) }

/-- The confirmation: the second load of the watermark and, for a newer value, its adoption. -/
def confirm (cut confirmed : Nat) : Option IoThread :=
  if confirmed = (thread.cutAt id).snapshot then some { thread with pc := .idle }
  else
    let adopted := thread.modifyCut id (fun state => { state with snapshot := confirmed })
    (adopted.held.release cut).map (fun held =>
      let noted := { adopted with held := held.note (snapshotExclusiveFloor confirmed) }
      { noted.settle with pc := .publish })

/-- The swap-and-pop that takes a cut out of the unresolved set. -/
def swapOut (slot id : Nat) : IoThread :=
  match thread.unresolved.getLast? with
  | none => thread
  | some moved =>
    let relinked := thread.modifyCut moved (fun state => { state with slot := some slot })
    let cleared := relinked.modifyCut id (fun state => { state with slot := none })
    { cleared with unresolved := swapRemove thread.unresolved slot }

/-- The part of `unregister_snapshot` for a cut that is still in the set. -/
def detach : Option IoThread :=
  match (thread.cutAt id).slot with
  | none => some thread
  | some slot =>
    if thread.unresolved[slot]? = some id then
      (thread.held.release (thread.exclusive id)).map (fun held =>
        { thread with held := held }.swapOut slot id)
    else none

def unregister : Option IoThread :=
  if (thread.cutAt id).registered then
    (thread.detach id).map (fun thread =>
      (thread.modifyCut id (fun state =>
        { state with registered := false })).settle.publishFloor)
  else some thread

/-- The loop of `refresh_snapshot_floor`; `stale` are the completed cuts whose flag was
loaded before it was set. Each turn advances the index or shortens the set.
-/
def refreshLoop (stale : List Nat) : Nat → Nat → IoThread → Option IoThread
  | 0, _, thread => some thread
  | fuel + 1, index, thread =>
    match thread.unresolved[index]? with
    | none => some thread
    | some id =>
      if (thread.cutAt id).complete && !stale.contains id then
        (thread.held.release (thread.exclusive id)).bind (fun held =>
          refreshLoop stale fuel index ({ thread with held := held }.swapOut index id))
      else refreshLoop stale fuel (index + 1) thread

def refresh (stale : List Nat) : Option IoThread :=
  if thread.completions = thread.observed then some thread
  else
    (refreshLoop stale thread.unresolved.length 0
      { thread with observed := thread.completions }).map (fun thread =>
        thread.settle.publishFloor)

end IoThread

inductive OwnerPc where
  | idle
  /-- The cutoff is loaded and the floors of the threads below `next` are read. -/
  | scan (cutoff next floor : Nat)
  /-- Both bounds are known: the owner collapses with them. -/
  | collapse (cutoff floor : Nat)
  deriving DecidableEq, Repr

/-- The server as the floor handshake sees it. `crashed` is set by `std::abort`. -/
structure FloorState where
  commit : CommitState
  threads : List IoThread
  owners : List OwnerPc
  crashed : Bool
  deriving DecidableEq, Repr

def FloorState.init (threads owners : Nat) : FloorState :=
  { commit := .init, threads := List.replicate threads .init
    owners := List.replicate owners .idle, crashed := false }

inductive FloorEvent where
  | commit (event : CommitEvent)
  /-- A read of thread `io` draws its cut: the watermark, or an earlier load of it. -/
  | openCut (io snapshot : Nat)
  | register (io id : Nat) (allocated : Bool)
  | confirm (io : Nat)
  | publish (io : Nat)
  | unregister (io id : Nat)
  /-- The last fragment of a read answers: flag and completion counter. -/
  | complete (io id : Nat)
  | refresh (io : Nat) (stale : List Nat)
  | loadCutoff (who : Nat)
  | scanFloor (who : Nat)
  | collapse (who : Nat)
  deriving DecidableEq, Repr

namespace FloorState

def put (state : FloorState) (io : Nat) : Option IoThread → FloorState
  | none => { state with crashed := true }
  | some thread => { state with threads := state.threads.set io thread }

def call (state : FloorState) (io : Nat) (body : IoThread → Option IoThread)
    : Option FloorState :=
  (state.threads[io]?).bind (fun thread =>
    if thread.pc = .idle then some (state.put io (body thread)) else none)

/-- One event. Committers stop before the 64-bit ticket counter wraps. -/
def step (state : FloorState) : FloorEvent → Option FloorState
  | .commit event =>
    (state.commit.step event).bind (fun commit =>
      if commit.words.commitSeq < uint64Max then some { state with commit := commit }
      else none)
  | .openCut io snapshot =>
    if snapshot ≤ state.commit.atomicSnapshot then
      state.call io (fun thread =>
        some { thread with cuts := thread.cuts ++ [⟨snapshot, none, false, false⟩] })
    else none
  | .register io id allocated =>
    (state.threads[io]?).bind (fun thread =>
      if thread.pc = .idle ∧ id < thread.cuts.length
          ∧ (thread.cutAt id).registered = false then
        some (if allocated then state.put io (some (thread.register id)) else state)
      else none)
  | .confirm io =>
    (state.threads[io]?).bind (fun thread =>
      match thread.pc with
      | .confirm id cut =>
        some (state.put io (thread.confirm id cut state.commit.atomicSnapshot))
      | _ => none)
  | .publish io =>
    (state.threads[io]?).bind (fun thread =>
      match thread.pc with
      | .publish => some (state.put io (some { thread.publishFloor with pc := .idle }))
      | _ => none)
  | .unregister io id => state.call io (fun thread => thread.unregister id)
  | .complete io id =>
    (state.threads[io]?).map (fun thread =>
      state.put io (some (if (thread.cutAt id).complete then thread
        else
          { thread.modifyCut id (fun cut => { cut with complete := true }) with
            completions := thread.completions + 1 })))
  | .refresh io stale => state.call io (fun thread => thread.refresh stale)
  | .loadCutoff who =>
    (state.owners[who]?).bind (fun pc =>
      match pc with
      | .idle =>
        some { state with
          owners := state.owners.set who (.scan state.commit.atomicSnapshot 0 uint64Max) }
      | _ => none)
  | .scanFloor who =>
    (state.owners[who]?).bind (fun pc =>
      match pc with
      | .scan cutoff next floor =>
        some { state with
          owners := state.owners.set who (match state.threads[next]? with
            | some thread => .scan cutoff (next + 1) (min floor thread.readFloor)
            | none => .collapse cutoff floor) }
      | _ => none)
  | .collapse who =>
    (state.owners[who]?).bind (fun pc =>
      match pc with
      | .collapse _ _ => some { state with owners := state.owners.set who .idle }
      | _ => none)

end FloorState

end Thredis.Cmd
