import Thredis.Lib.Runs
import Thredis.Core.SnapshotBarrier
import Thredis.Lib.ListCounts

/-! What the barrier gives: as long as no admitted group has its window still to open when the
writer starts to sum the counters, every group is cut as a whole.
-/

namespace Thredis.Core

open Thredis.Lib AtomicGroup List Option

def AtomicGroup.windowed (group : AtomicGroup) : Bool :=
  match group.pc with
  | .opened | .closed | .torn => true
  | _ => false

def AtomicGroup.shut (group : AtomicGroup) : Bool :=
  match group.pc with
  | .closed | .torn => true
  | _ => false

/-- What the fragments of a group show, when all owners have last marked `base`. -/
structure AtomicGroup.Cut (base : Nat) (group : AtomicGroup) : Prop where
  unposted : group.pc ≠ .opened → group.pc ≠ .closed
    → ∀ part ∈ group.fragments, part.state = .unposted
  live : group.pc = .opened
    → ∀ part ∈ group.fragments, ∀ mark, part.state = .executed mark → mark = base
  whole : group.pc = .closed → ∃ mark, ∀ part ∈ group.fragments, part.state = .executed mark

namespace BarrierState

def base (state : BarrierState) : Nat :=
  match state.writer with
  | .idle | .release | .capture => state.epoch
  | _ => state.epoch - 1

/-- What the writer knows at each point: a scan's sums are below what the counters hold, and once
they cancelled no group is half way.
-/
def Drained (state : BarrierState) : Prop :=
  match state.writer with
  | .scanClosed tid sum =>
    (tid = 0 → sum = 0) ∧ (tid ≠ 0 → state.NoneBuilding) ∧ sum ≤ (state.closed.take tid).sum
  | .scanOpened tid closed sum =>
    state.NoneBuilding ∧ closed ≤ state.closed.sum ∧ sum = (state.opened.take tid).sum
  | .waitFrozen | .waitMarked | .release =>
    state.NoneBuilding ∧ ∀ group ∈ state.groups, group.pc ≠ .opened
  | .idle | .waitReady | .capture => True

structure Inv (state : BarrierState) : Prop where
  cut : ∀ group ∈ state.groups, group.Cut state.base
  threads : ∀ group ∈ state.groups, group.ownerIo < state.opened.length
  slots : state.opened.length = state.closed.length
  placed : ∀ group ∈ state.groups, ∀ part ∈ group.fragments, part.owner < state.owners.length
  openedSum : state.opened.sum = state.groups.countP AtomicGroup.windowed
  closedSum : state.closed.sum = state.groups.countP AtomicGroup.shut
  marks : state.writer ≠ .waitMarked → ∀ owner ∈ state.owners, owner.mark = state.base
  marking : state.writer = .waitMarked
    → ∀ owner ∈ state.owners, owner.stage = .marked → owner.mark = state.epoch
  armed : state.writer ≠ .idle → state.writer ≠ .capture → state.barrier = true
  drained : state.Drained

theorem Inv.init (nthreads nowners : Nat) : (init nthreads nowners).Inv where
  cut := by simp [BarrierState.init]
  threads := by simp [BarrierState.init]
  slots := by simp [BarrierState.init]
  placed := by simp [BarrierState.init]
  openedSum := by simp [BarrierState.init]
  closedSum := by simp [BarrierState.init]
  marks := by
    intro _ owner member
    rw [(mem_replicate.mp member).2]
    rfl
  marking := nofun
  armed := fun busy => absurd rfl busy
  drained := trivial

-- Steps of a group

variable {state next : BarrierState} {index place : Nat}

/-- One group moves on; the counters follow its window. Under the barrier nothing passes into
`build`, so the sums of a running scan stay below the counters.
-/
theorem Inv.setGroup (inv : state.Inv) {old : AtomicGroup} (found : state.groups[index]? = some old)
    (new : AtomicGroup) (opened closed : List Nat)
    (cut : new.Cut state.base) (thread : new.ownerIo = old.ownerIo)
    (placed : ∀ part ∈ new.fragments, part.owner < state.owners.length)
    (building : state.barrier = true → new.pc = .build → old.pc = .build)
    (opening : new.pc = .opened → old.pc = .opened ∨ old.pc = .build)
    (openedLength : opened.length = state.opened.length)
    (closedLength : closed.length = state.closed.length)
    (openedSum : opened.sum + old.windowed.toNat = state.opened.sum + new.windowed.toNat)
    (closedSum : closed.sum + old.shut.toNat = state.closed.sum + new.shut.toNat)
    (steady : old.pc ≠ .build → opened = state.opened)
    (grows : ∀ taken, (state.closed.take taken).sum ≤ (closed.take taken).sum)
    : Inv { state with
        groups := state.groups.set index new, opened, closed } := by
  have oldMember := mem_of_getElem? found
  have unbuilt : state.barrier = true → state.NoneBuilding
      → ∀ group ∈ state.groups.set index new, group.pc ≠ .build := by
    intro armed none
    exact forall_mem_set none (fun built => none old oldMember (building armed built))
  refine { inv with
      cut := forall_mem_set inv.cut cut, threads := ?_, slots := ?_
      placed := forall_mem_set inv.placed placed, openedSum := ?_, closedSum := ?_, drained := ?_ }
  · rw [openedLength]
    exact forall_mem_set inv.threads (thread ▸ inv.threads old oldMember)
  · rw [openedLength, closedLength, inv.slots]
  · have counted := countP_set_add found new windowed
    have before := inv.openedSum
    show opened.sum = (state.groups.set index new).countP windowed
    omega
  · have counted := countP_set_add found new shut
    have before := inv.closedSum
    show closed.sum = (state.groups.set index new).countP shut
    omega
  · have before := inv.drained
    have armed := inv.armed
    unfold Drained at before ⊢
    revert before armed
    cases state.writer with
    | idle | waitReady | capture => exact fun _ _ => trivial
    | scanClosed tid sum =>
      rintro ⟨start, none, below⟩ armed
      exact ⟨start, fun later => unbuilt (armed nofun nofun) (none later),
        Nat.le_trans below (grows tid)⟩
    | scanOpened tid shut sum =>
      rintro ⟨none, below, same⟩ armed
      have whole := grows state.closed.length
      rw [take_length, ← closedLength, take_length] at whole
      refine ⟨unbuilt (armed nofun nofun) none, Nat.le_trans below whole, ?_⟩
      rw [same]
      rw [steady (none old oldMember)]
    | waitFrozen | waitMarked | release =>
      rintro ⟨none, still⟩ armed
      refine ⟨unbuilt (armed nofun nofun) none, forall_mem_set still fun opens => ?_⟩
      rcases opening opens with was | was
      · exact still old oldMember was
      · exact none old oldMember was

theorem move_some {source target : GroupPc} (moved : state.move index source target = some next)
    : ∃ found, state.groups[index]? = some found ∧ found.pc = source
      ∧ next = { state with groups := state.groups.set index { found with pc := target } } := by
  obtain ⟨found, located, moved⟩ := bind_eq_some_iff.mp moved
  obtain ⟨there, rfl⟩ := guard_taken moved
  exact ⟨found, located, there, rfl⟩

/-- A group that has not opened its window keeps its fragments at hand. -/
def GroupPc.Before (pc : GroupPc) : Prop :=
  pc = .check ∨ pc = .credit ∨ pc = .recheck ∨ pc = .build ∨ pc = .refused

variable {group : AtomicGroup}

theorem GroupPc.Before.counts (before : Before group.pc)
    : group.windowed = false ∧ group.shut = false ∧ group.pc ≠ .opened ∧ group.pc ≠ .closed := by
  rcases before with here | here | here | here | here
  all_goals simp [windowed, shut, here]

variable (inv : state.Inv)

include inv

/-- A group moves on before its window; past the second load only under a lowered barrier. -/
theorem Inv.movePlain {source target : GroupPc} (moved : state.move index source target = some next)
    (leaves : GroupPc.Before source) (enters : GroupPc.Before target)
    (passing : state.barrier = true → target ≠ .build) : next.Inv := by
  obtain ⟨found, located, rfl, rfl⟩ := move_some moved
  obtain ⟨oldWindowed, oldShut, oldOpened, oldClosed⟩ := leaves.counts
  have enters' : GroupPc.Before ({ found with pc := target } : AtomicGroup).pc := enters
  obtain ⟨newWindowed, newShut, newOpened, newClosed⟩ := enters'.counts
  have member := mem_of_getElem? located
  refine inv.setGroup located { found with pc := target } state.opened state.closed ?_ rfl
    (inv.placed found member) ?_ ?_ rfl rfl ?_ ?_ (fun _ => rfl) (fun _ => Nat.le_refl _)
  · exact
      { unposted := fun _ _ => (inv.cut found member).unposted oldOpened oldClosed
        live := fun opens => absurd opens newOpened
        whole := fun closes => absurd closes newClosed }
  · exact fun armed built => absurd built (passing armed)
  · exact fun opens => absurd opens newOpened
  · rw [oldWindowed, newWindowed]
  · rw [oldShut, newShut]

theorem Inv.openWindow {built : Bool} (opened : state.openWindow index built = some next)
    : next.Inv := by
  obtain ⟨found, located, opened⟩ := bind_eq_some_iff.mp opened
  split at opened
  · obtain ⟨moved, stepped, opened⟩ := bind_eq_some_iff.mp opened
    cases opened
    obtain ⟨same, there, atBuild, rfl⟩ := move_some stepped
    cases located.symm.trans there
    have member := mem_of_getElem? located
    refine inv.setGroup located { found with pc := .opened } _ state.closed ?_ rfl
      (inv.placed found member) nofun (fun _ => Or.inr atBuild) (by simp) rfl ?_ ?_
      (fun other => absurd atBuild other) (fun _ => Nat.le_refl _)
    · have kept := (inv.cut found member).unposted (by simp [atBuild]) (by simp [atBuild])
      exact
        { unposted := fun other => absurd rfl other
          live := by
            intro _ part inside mark done
            rw [kept part inside] at done
            cases done
          whole := nofun }
    · rw [sum_modify_succ (inv.threads found member)]
      simp [windowed, atBuild]
    · simp [shut, atBuild]
  · exact inv.movePlain opened (by simp [GroupPc.Before]) (by simp [GroupPc.Before]) (by simp)

/-- A fragment changes within an open window. -/
theorem Inv.setFragment {found : AtomicGroup} {part : Fragment}
    (located : state.groups[index]? = some found) (inside : found.fragments[place]? = some part)
    (windowed : found.pc = .opened) {next : FragmentState}
    (fresh : ∀ mark, next = .executed mark → mark = state.base)
    : (state.setFragment index found place { part with state := next }).Inv := by
  have member := mem_of_getElem? located
  have partMember := mem_of_getElem? inside
  refine inv.setGroup located
    { found with fragments := found.fragments.set place { part with state := next } }
    state.opened state.closed ?_ rfl ?_ (fun _ built => built) Or.inl rfl rfl
    rfl rfl (fun _ => rfl) (fun _ => Nat.le_refl _)
  · exact
      { unposted := fun other => absurd windowed other
        live := fun _ => forall_mem_set ((inv.cut found member).live windowed) fresh
        whole := fun closed => absurd closed (by simp [windowed]) }
  · refine forall_mem_set (inv.placed found member) ?_
    exact inv.placed found member part partMember

theorem Inv.queueFragment (queued : state.queueFragment index place = some next) : next.Inv := by
  obtain ⟨found, located, queued⟩ := bind_eq_some_iff.mp queued
  obtain ⟨part, inside, queued⟩ := bind_eq_some_iff.mp queued
  obtain ⟨allowed, rfl⟩ := guard_taken queued
  exact inv.setFragment located inside allowed.1 nofun

/-- Only a group with an open window has a fragment in a queue. -/
theorem Inv.opened_of_queued {part : Fragment} (member : group ∈ state.groups)
    (inside : part ∈ group.fragments) (queued : part.state = .queued) : group.pc = .opened := by
  by_contra other
  by_cases closed : group.pc = .closed
  · obtain ⟨mark, done⟩ := (inv.cut group member).whole closed
    rw [done part inside] at queued
    cases queued
  · rw [(inv.cut group member).unposted other closed part inside] at queued
    cases queued

/-- An open window keeps the writer out of the marking. -/
theorem Inv.not_marking (member : group ∈ state.groups) (opened : group.pc = .opened)
    : state.writer ≠ .waitMarked := by
  intro marking
  have drained := inv.drained
  rw [Drained, marking] at drained
  exact drained.2 group member opened

theorem Inv.executeFragment (executed : state.executeFragment index place = some next)
    : next.Inv := by
  obtain ⟨found, located, executed⟩ := bind_eq_some_iff.mp executed
  obtain ⟨part, inside, executed⟩ := bind_eq_some_iff.mp executed
  obtain ⟨owner, owned, executed⟩ := bind_eq_some_iff.mp executed
  obtain ⟨allowed, rfl⟩ := guard_taken executed
  have member := mem_of_getElem? located
  have opened := inv.opened_of_queued member (mem_of_getElem? inside) allowed.1
  refine inv.setFragment located inside opened ?_
  intro mark same
  cases same
  exact inv.marks (inv.not_marking member opened) owner (mem_of_getElem? owned)

theorem Inv.closeWindow {tid : Nat} (closed : state.closeWindow index tid = some next)
    : next.Inv := by
  obtain ⟨found, located, closed⟩ := bind_eq_some_iff.mp closed
  split at closed
  · rename_i allowed
    obtain ⟨moved, stepped, closed⟩ := bind_eq_some_iff.mp closed
    cases closed
    obtain ⟨same, there, opened, rfl⟩ := move_some stepped
    cases located.symm.trans there
    simp only [Bool.and_eq_true, List.all_eq_true, decide_eq_true_eq] at allowed
    have member := mem_of_getElem? located
    refine inv.setGroup located { found with pc := .closed } state.opened _ ?_ rfl
      (inv.placed found member) nofun nofun rfl (by simp) ?_ ?_ (fun _ => rfl)
      (fun _ => take_sum_le_modify _ _ _)
    · refine
        { unposted := fun _ other => absurd rfl other, live := nofun
          whole := fun _ => ⟨state.base, ?_⟩ }
      intro part inside
      have done := allowed.1 part inside
      cases executed : part.state with
      | unposted | queued =>
        rw [executed] at done
        cases done
      | executed mark => rw [(inv.cut found member).live opened part inside mark executed]
    · simp [windowed, opened]
    · rw [sum_modify_succ allowed.2]
      simp [shut, opened]
  · cases closed

theorem Inv.tearDown (torn : state.tearDown index = some next) : next.Inv := by
  obtain ⟨found, located, torn⟩ := bind_eq_some_iff.mp torn
  split at torn
  · rename_i unposted
    obtain ⟨moved, stepped, torn⟩ := bind_eq_some_iff.mp torn
    cases torn
    obtain ⟨same, there, opened, rfl⟩ := move_some stepped
    cases located.symm.trans there
    simp only [List.all_eq_true, decide_eq_true_eq] at unposted
    have member := mem_of_getElem? located
    refine inv.setGroup located { found with pc := .torn } state.opened _ ?_ rfl
      (inv.placed found member) nofun nofun rfl (by simp) ?_ ?_ (fun _ => rfl)
      (fun _ => take_sum_le_modify _ _ _)
    · exact { unposted := fun _ _ => unposted, live := nofun, whole := nofun }
    · simp [windowed, opened]
    · rw [sum_modify_succ (inv.slots ▸ inv.threads found member)]
      simp [shut, opened]
  · cases torn

theorem Inv.submit {ownerIo : Nat} {owners : List Nat} (thread : ownerIo < state.opened.length)
    (placed : ∀ owner ∈ owners, owner < state.owners.length)
    : Inv { state with
        groups := state.groups
          ++ [{ ownerIo, fragments := owners.map (⟨·, .unposted⟩), pc := .check }] } := by
  have each : ∀ {P : AtomicGroup → Prop}, (∀ group ∈ state.groups, P group)
      → P { ownerIo, fragments := owners.map (⟨·, .unposted⟩), pc := .check }
      → ∀ group ∈ state.groups
          ++ [{ ownerIo, fragments := owners.map (⟨·, .unposted⟩), pc := .check }],
        P group := by
    intro P kept fresh group member
    rcases mem_append.mp member with old | new
    · exact kept group old
    · rw [mem_singleton.mp new]
      exact fresh
  refine { inv with
      cut := each inv.cut ?_, threads := each inv.threads thread
      placed := each inv.placed ?_, openedSum := ?_, closedSum := ?_
      drained := ?_ }
  · refine { unposted := fun _ _ => ?_, live := nofun, whole := nofun }
    intro part inside
    obtain ⟨owner, -, rfl⟩ := mem_map.mp inside
    rfl
  · intro part inside
    obtain ⟨owner, listed, rfl⟩ := mem_map.mp inside
    exact placed owner listed
  · simpa [windowed] using inv.openedSum
  · simpa [shut] using inv.closedSum
  · have before := inv.drained
    unfold Drained at before ⊢
    revert before
    cases state.writer with
    | idle | waitReady | capture => exact fun _ => trivial
    | scanClosed tid sum =>
      rintro ⟨start, none, below⟩
      exact ⟨start, fun later => each (none later) nofun, below⟩
    | scanOpened tid shut sum =>
      rintro ⟨none, below, same⟩
      exact ⟨each none nofun, below, same⟩
    | waitFrozen | waitMarked | release =>
      rintro ⟨none, still⟩
      exact ⟨each none nofun, each still nofun⟩

end BarrierState

end Thredis.Core
