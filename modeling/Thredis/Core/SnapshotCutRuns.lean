import Thredis.Core.SnapshotCut

/-! Runs of the cut: the owners' stages and the writer's scan keep the invariant, so every group
of every run is cut as a whole.
-/

namespace Thredis.Core

open Thredis.Lib List

namespace BarrierState

-- Steps of the owners and of the writer

theorem controlPass_some {phase : SnapshotPhase} {epoch : Nat} {owner next : Owner}
    (moved : controlPass phase epoch owner = some next)
    : (next.mark = owner.mark ∧ next.stage ≠ .marked) ∨ (phase = .mark ∧ next.mark = epoch) := by
  unfold controlPass at moved
  split at moved
  all_goals cases moved
  all_goals first
    | exact Or.inr ⟨rfl, rfl⟩
    | exact Or.inl ⟨rfl, nofun⟩

variable {state next : BarrierState}

theorem Inv.control (inv : state.Inv) {index : Nat} {owner next : Owner}
    (found : state.owners[index]? = some owner)
    (moved : controlPass state.writer.phase state.epoch owner = some next)
    : Inv { state with owners := state.owners.set index next } := by
  have member := mem_of_getElem? found
  refine { inv with
      placed := ?_
      marks := ?_, marking := ?_ }
  · intro group held part inside
    rw [length_set]
    exact inv.placed group held part inside
  · intro outside
    refine forall_mem_set (inv.marks outside) ?_
    rcases controlPass_some moved with ⟨same, -⟩ | ⟨marking, -⟩
    · rw [same]
      exact inv.marks outside owner member
    · refine absurd ?_ outside
      revert marking
      cases state.writer <;> simp [WriterPc.phase]
  · intro marking
    refine forall_mem_set (inv.marking marking) (fun reached => ?_)
    rcases controlPass_some moved with ⟨-, unmarked⟩ | ⟨-, marked⟩
    · exact absurd reached unmarked
    · exact marked

theorem countP_windowed (groups : List AtomicGroup)
    : groups.countP AtomicGroup.windowed
      = groups.countP AtomicGroup.shut + groups.countP (fun group => group.pc = .opened) := by
  induction groups with
  | nil => rfl
  | cons group rest ih =>
    cases here : group.pc <;> simp [AtomicGroup.windowed, AtomicGroup.shut, here] <;> omega

section

variable (inv : state.Inv)

include inv

/-- The counters cancel only when every opened window has been closed again. -/
theorem Inv.none_opened (cancel : state.opened.sum ≤ state.closed.sum)
    : ∀ group ∈ state.groups, group.pc ≠ .opened := by
  intro group member opened
  have counted := countP_windowed state.groups
  have positive : 0 < state.groups.countP (fun group => group.pc = .opened) :=
    countP_pos_iff.mpr ⟨group, member, by simpa using opened⟩
  have before := inv.openedSum
  have after := inv.closedSum
  omega

/-- The writer moves on without a change of the epoch all owners have marked. -/
theorem Inv.moveWriter {barrier : Bool} {epoch : Nat} {pc : WriterPc}
    (outside : state.writer ≠ .waitMarked)
    (same : { state with barrier, epoch, writer := pc }.base = state.base)
    (unmarked : pc = .waitMarked → ∀ owner ∈ state.owners, owner.stage ≠ .marked)
    (armed : pc ≠ .idle → pc ≠ .capture → barrier = true)
    (drained : { state with barrier, epoch, writer := pc }.Drained)
    : Inv { state with barrier, epoch, writer := pc } := by
  refine { inv with cut := ?_, marks := ?_, marking := ?_, armed, drained }
  · rw [same]
    exact inv.cut
  · rw [same]
    exact fun _ => inv.marks outside
  · intro marking owner member reached
    exact absurd reached (unmarked marking owner member)

/-- The writer's scan goes on under the barrier, from a first load that races with no opening. -/
theorem Inv.scanClosed {tid sum : Nat} (writer : state.writer = .scanClosed tid sum)
    (unraced : state.writer = .scanClosed 0 0 → state.NoneBuilding)
    (stepped : state.writerStep = some next) : next.Inv := by
  have drained := inv.drained
  rw [Drained, writer] at drained
  obtain ⟨start, later, below⟩ := drained
  have none : state.NoneBuilding := by
    by_cases first : tid = 0
    · exact unraced (by rw [writer, first, start first])
    · exact later first
  have same : state.base = state.epoch - 1 := by rw [base, writer]
  have armed := inv.armed (by simp [writer]) (by simp [writer])
  simp only [writerStep, writer] at stepped
  split at stepped
  · rename_i count loaded
    cases stepped
    refine inv.moveWriter (by simp [writer]) same.symm (by simp) (fun _ _ => armed)
      ⟨by simp, fun _ => none, ?_⟩
    rw [take_add_one, loaded]
    simpa using below
  · rename_i past
    cases stepped
    refine inv.moveWriter (by simp [writer]) same.symm (by simp) (fun _ _ => armed) ⟨none, ?_, rfl⟩
    rwa [take_of_length_le (getElem?_eq_none_iff.mp past)] at below

/-- Once the sums cancel, no window is open: what was read of the closes is below what is closed,
and under the barrier no window has opened since.
-/
theorem Inv.scanOpened {tid closed sum : Nat} (writer : state.writer = .scanOpened tid closed sum)
    (stepped : state.writerStep = some next)
    : next.Inv := by
  have drained := inv.drained
  rw [Drained, writer] at drained
  obtain ⟨none, below, summed⟩ := drained
  have same : state.base = state.epoch - 1 := by rw [base, writer]
  have armed := inv.armed (by simp [writer]) (by simp [writer])
  simp only [writerStep, writer] at stepped
  split at stepped
  · rename_i count loaded
    cases stepped
    refine inv.moveWriter (by simp [writer]) same.symm (by simp) (fun _ _ => armed)
      ⟨none, below, ?_⟩
    rw [take_add_one, loaded, summed]
    simp
  · rename_i past
    rw [take_of_length_le (getElem?_eq_none_iff.mp past)] at summed
    split at stepped
    · cases stepped
    · split at stepped
      · cases stepped
        exact inv.moveWriter (by simp [writer]) same.symm (by simp) (fun _ _ => armed)
          ⟨none, inv.none_opened (by omega)⟩
      · cases stepped
        exact inv.moveWriter (by simp [writer]) same.symm (by simp) (fun _ _ => armed)
          ⟨fun _ => rfl, by simp, by simp⟩

/-- All owners have marked: from now on the new epoch is the one last marked. -/
theorem Inv.finishMarks (writer : state.writer = .waitMarked)
    (marked : ∀ owner ∈ state.owners, owner.stage = .marked)
    : Inv { state with writer := .release } := by
  have drained := inv.drained
  rw [Drained, writer] at drained
  refine { inv with
      cut := ?_
      marks := fun _ owner member => inv.marking writer owner member (marked owner member)
      marking := by simp, armed := fun _ _ => inv.armed (by simp [writer]) (by simp [writer])
      drained }
  intro group member
  exact
    { unposted := (inv.cut group member).unposted
      live := fun opened => absurd opened (drained.2 group member)
      whole := (inv.cut group member).whole }

theorem Inv.writerStep (unraced : state.writer = .scanClosed 0 0 → state.NoneBuilding)
    (stepped : state.writerStep = some next) : next.Inv := by
  cases writer : state.writer with
  | idle =>
    simp only [BarrierState.writerStep, writer] at stepped
    cases stepped
    exact inv.moveWriter (by simp [writer]) (by simp [base, writer]) (by simp)
      (fun _ _ => rfl) trivial
  | waitReady =>
    simp only [BarrierState.writerStep, writer] at stepped
    obtain ⟨_, rfl⟩ := guard_taken stepped
    exact inv.moveWriter (by simp [writer]) (by simp [base, writer]) (by simp)
      (fun _ _ => inv.armed (by simp [writer]) (by simp [writer]))
      ⟨fun _ => rfl, by simp, by simp⟩
  | scanClosed tid sum => exact inv.scanClosed writer unraced stepped
  | scanOpened tid closed sum => exact inv.scanOpened writer stepped
  | waitFrozen =>
    have drained := inv.drained
    rw [Drained, writer] at drained
    simp only [BarrierState.writerStep, writer] at stepped
    obtain ⟨frozen, rfl⟩ := guard_taken stepped
    simp only [all_eq_true, decide_eq_true_eq] at frozen
    refine inv.moveWriter (by simp [writer]) (by simp [base, writer]) ?_
      (fun _ _ => inv.armed (by simp [writer]) (by simp [writer])) drained
    intro _ owner member
    rw [frozen owner member]
    simp
  | waitMarked =>
    simp only [BarrierState.writerStep, writer] at stepped
    obtain ⟨marked, rfl⟩ := guard_taken stepped
    simp only [all_eq_true, decide_eq_true_eq] at marked
    exact inv.finishMarks writer marked
  | release =>
    simp only [BarrierState.writerStep, writer] at stepped
    cases stepped
    exact inv.moveWriter (by simp [writer]) (by simp [base, writer]) (by simp)
      (fun _ captured => absurd rfl captured) trivial
  | capture =>
    simp only [BarrierState.writerStep, writer] at stepped
    obtain ⟨_, rfl⟩ := guard_taken stepped
    exact inv.moveWriter (by simp [writer]) (by simp [base, writer]) (by simp)
      (absurd rfl) trivial

theorem Inv.step {event : BarrierEvent} (unraced : state.ScanUnraced event)
    (stepped : state.step event = some next) : next.Inv := by
  cases event with
  | submit ownerIo owners =>
    obtain ⟨allowed, rfl⟩ := guard_taken stepped
    exact inv.submit allowed.1 (by simpa using allowed.2)
  | check group | credit group granted =>
    refine inv.movePlain stepped (by simp [GroupPc.Before]) ?_ ?_
    · split <;> simp [GroupPc.Before]
    · split <;> simp
  | recheck group enabled =>
    refine inv.movePlain stepped (by simp [GroupPc.Before]) ?_ ?_
    · split <;> simp [GroupPc.Before]
    · intro armed
      simp [armed]
  | applyOpen group built => exact inv.openWindow stepped
  | queue group fragment => exact inv.queueFragment stepped
  | execute group fragment => exact inv.executeFragment stepped
  | applyClose group tid => exact inv.closeWindow stepped
  | tearDown group => exact inv.tearDown stepped
  | control owner =>
    obtain ⟨found, located, stepped⟩ := Option.bind_eq_some_iff.mp stepped
    obtain ⟨moved, passed, stepped⟩ := Option.bind_eq_some_iff.mp stepped
    cases stepped
    exact inv.control located passed
  | writer => exact inv.writerStep unraced stepped

end

/-- A group is cut as a whole: a closed one at the mark all its fragments saw, one that is still
open behind every mark its owners have made.
-/
theorem Inv.allOrNone (inv : state.Inv) {group : AtomicGroup}
    (member : group ∈ state.groups) (epoch : Nat) : state.AllOrNone group epoch := by
  intro marked
  have cut := inv.cut group member
  by_cases closed : group.pc = .closed
  · obtain ⟨mark, done⟩ := cut.whole closed
    by_cases earlier : mark < epoch
    · left
      intro part inside
      rw [done part inside]
      simpa [FragmentState.before] using earlier
    · right
      intro part inside
      rw [done part inside]
      simpa [FragmentState.before] using earlier
  · right
    intro part inside
    by_cases opened : group.pc = .opened
    · cases executed : part.state with
      | unposted | queued => rfl
      | executed mark =>
        have atBase := cut.live opened part inside mark executed
        have located : state.owners[part.owner]?
            = some (state.owners.get ⟨part.owner, inv.placed group member part inside⟩) :=
          getElem?_eq_getElem _
        have reached := marked part inside
        rw [markOf, located] at reached
        have common := inv.marks (inv.not_marking member opened) _ (mem_of_getElem? located)
        simp only [Option.elim] at reached
        simp only [FragmentState.before, decide_eq_false_iff_not]
        omega
    · rw [cut.unposted opened closed part inside]
      rfl

/-- From boot on, in every run whose scans start with no admitted group still to open its window,
every group is cut as a whole by every snapshot.
-/
theorem groups_cut_whole (nthreads nowners : Nat) (events : List BarrierEvent)
    (state : BarrierState)
    (unraced : EachStep BarrierState.step ScanUnraced (BarrierState.init nthreads nowners) events)
    (ran : run BarrierState.step (BarrierState.init nthreads nowners) events = some state)
    : ∀ group ∈ state.groups, ∀ epoch, state.AllOrNone group epoch := by
  have kept : ∀ (state : BarrierState) (event : BarrierEvent) (next : BarrierState),
      state.Inv → state.ScanUnraced event → state.step event = some next → next.Inv :=
    fun _ _ _ inv allowed stepped => inv.step allowed stepped
  have final := run_invariant_of_eachStep kept (Inv.init nthreads nowners) unraced ran
  intro group member epoch
  exact final.allOrNone member epoch

def snapshotArmed : List BarrierEvent :=
  [.writer, .control 0, .control 1, .control 0, .control 1, .writer]

def groupAdmitted : List BarrierEvent :=
  [.submit 0 [0, 1], .check 0, .credit 0 true, .recheck 0 true]

/-- The group runs before the counters are summed, and both owners mark behind it. -/
def groupThenSnapshot : List BarrierEvent :=
  groupAdmitted ++ ([.applyOpen 0 true, .queue 0 0, .queue 0 1, .execute 0 1] : List BarrierEvent)
    ++ snapshotArmed
    ++ ([.execute 0 0, .applyClose 0 0, .writer, .writer, .writer, .writer, .control 0, .control 1,
      .writer, .control 0, .control 1, .writer] : List BarrierEvent)

theorem groups_cut_whole_before
    : ∃ state, run BarrierState.step (BarrierState.init 1 2) groupThenSnapshot = some state
        ∧ state.owners = [⟨.marked, 1⟩, ⟨.marked, 1⟩]
        ∧ ∀ group ∈ state.groups, ∀ epoch, state.AllOrNone group epoch := by
  refine ⟨_, rfl, rfl, ?_⟩
  exact groups_cut_whole 1 2 groupThenSnapshot _ (by decide) rfl

/-- The group's window opens behind the scan; one owner runs its fragment before it freezes, the
other freezes first.
-/
def groupAcrossScan : List BarrierEvent :=
  groupAdmitted ++ snapshotArmed
    ++ ([.writer, .writer, .writer, .writer, .control 0] : List BarrierEvent)
    ++ ([.applyOpen 0 true, .queue 0 0, .queue 0 1, .execute 0 1] : List BarrierEvent)
    ++ ([.control 1, .writer, .control 0, .control 1, .writer] : List BarrierEvent)

theorem group_cut_in_half
    : ∃ state, run BarrierState.step (BarrierState.init 1 2) groupAcrossScan = some state
        ∧ ∃ group ∈ state.groups, ¬ state.AllOrNone group 1 := by
  decide

end BarrierState

end Thredis.Core
