import Thredis.Lib.Runs
import Thredis.Store.ForeignReadCells

/-! The filter over whole runs: no open reference is ever missed, and when all are closed the
filter is empty again.
-/

namespace Thredis.Store
open Thredis.Lib ForeignReadSafety List

-- Runs

inductive FilterEvent where
  | addSpan (hashes : List (BitVec 64))
  | closeSpan (hashes : List (BitVec 64))
  | poisonOpen
  | poisonClose
  | failClosedPermanently

/-- The filter with the spans and poison scopes that are open. -/
structure GuardedFilter where
  filter : ForeignReadSafety
  spans : List (List (BitVec 64))
  poisons : Nat

namespace GuardedFilter

def init : GuardedFilter := { filter := .init, spans := [], poisons := 0 }

variable (state : GuardedFilter)

/-- One call of the owner; `none` where the filter aborts. -/
def step : FilterEvent → Option GuardedFilter
  | .addSpan hashes =>
    some { state with filter := state.filter.addSpan hashes, spans := hashes :: state.spans }
  | .closeSpan hashes =>
    (state.filter.closeSpan hashes).map
      (fun filter => { state with filter := filter, spans := state.spans.erase hashes })
  | .poisonOpen =>
    some { state with filter := state.filter.poisonOpen, poisons := state.poisons + 1 }
  | .poisonClose =>
    state.filter.poisonClose.map
      (fun filter => { state with filter := filter, poisons := state.poisons - 1 })
  | .failClosedPermanently =>
    some { state with filter := state.filter.poisonPermanently }

/-- A close ends a span or a poison scope that is open. -/
def Bracketed : FilterEvent → Prop
  | .closeSpan hashes => hashes ∈ state.spans
  | .poisonClose => 0 < state.poisons
  | _ => True

instance (state : GuardedFilter) : DecidablePred state.Bracketed
  | .closeSpan hashes => inferInstanceAs (Decidable (hashes ∈ state.spans))
  | .poisonClose => inferInstanceAs (Decidable (0 < state.poisons))
  | .addSpan _ | .poisonOpen | .failClosedPermanently => .isTrue trivial

def openRefs (index : CellIndex) : Multiset Label :=
  ForeignReadSafety.gather (state.spans.flatten.map ForeignReadSafety.hashRef) index
    + if state.poisons = 0 then 0 else {none}

/-- Permanent poison: every cell is a saturated wildcard. -/
structure Poisoned (filter : ForeignReadSafety) : Prop where
  refs : filter.poisonRefs = kUInt64Max
  total : filter.unsafeTotalRefs = kUInt64Max
  cells : ∀ index, filter.cells index = pack kCountMask 1 true

/-- A filter in working order: its cells track what is open, its counters are exact, and it
keeps no saturated cell once nothing is open.
-/
structure Exact (state : GuardedFilter) : Prop where
  tracks : state.filter.Tracks state.openRefs
  refs : state.filter.poisonRefs = state.poisons
  few : state.poisons < kUInt64Max
  total : state.filter.unsafeTotalRefs = state.spans.flatten.length
  fits : state.spans.flatten.length ≤ kUInt64Max
  drained : state.spans.flatten = [] → state.poisons = 0 → state.filter.saturatedCells = 0

def Consistent : Prop := Poisoned state.filter ∨ state.Exact

theorem poisonPermanently_poisoned (filter : ForeignReadSafety)
    : Poisoned filter.poisonPermanently := ⟨rfl, rfl, fun _ => rfl⟩

theorem init_consistent : init.Consistent := by
  refine .inr ⟨⟨fun index => ?_, ?_⟩, rfl, by decide, rfl, by decide, fun _ _ => rfl⟩
  · exact .empty
  · have none_ : ForeignReadSafety.saturatedSet ForeignReadSafety.init.cells = ∅ := by
      refine Finset.filter_eq_empty_iff.mpr (fun index _ => ?_)
      simp only [ForeignReadSafety.init]
      decide
    exact (Finset.card_eq_zero.mpr none_).symm

variable {state : GuardedFilter}

/-- A filter in working order but for its saturated cells is so after the rebuild. -/
theorem Exact.of_rebuilt (state : GuardedFilter) (tracks : state.filter.Tracks state.openRefs)
    (refs : state.filter.poisonRefs = state.poisons) (few : state.poisons < kUInt64Max)
    (total : state.filter.unsafeTotalRefs = state.spans.flatten.length)
    (fits : state.spans.flatten.length ≤ kUInt64Max)
    : Exact { state with
        filter := state.filter.rebuildSaturatedIfDrained state.filter.unsafeTotalRefs } := by
  rw [rebuildSaturatedIfDrained]
  split
  · rename_i kept
    refine ⟨tracks, refs, few, total, fits, fun empty scopes => ?_⟩
    rcases kept with some_ | poison | none_
    · exact absurd (total.trans (congrArg length empty)) some_
    · exact absurd (refs.trans scopes) poison
    · exact none_
  · rename_i cleared
    simp only [not_or, not_not] at cleared
    obtain ⟨noRefs, noPoison, -⟩ := cleared
    have empty := length_eq_zero_iff.mp (total.symm.trans noRefs)
    have scopes := refs.symm.trans noPoison
    refine ⟨⟨fun index => ?_, ?_⟩, refs, few, total, fits, fun _ _ => rfl⟩
    · have none_ : state.openRefs index = 0 := by
        simp [openRefs, empty, scopes, gather]
      have same : openRefs { state with filter := state.filter.clearCells } index
          = state.openRefs index := rfl
      rw [same, none_]
      exact .empty
    · have none_ : saturatedSet state.filter.clearCells.cells = ∅ := by
        refine Finset.filter_eq_empty_iff.mpr (fun index _ => ?_)
        have zero : state.filter.clearCells.cells index = 0 := rfl
        rw [zero]
        decide
      exact (Finset.card_eq_zero.mpr none_).symm

section

variable (exact_ : state.Exact)

include exact_

/-- Counted exactly, or permanently poisoned where the total would overflow. -/
theorem Exact.addSpan (hashes : List (BitVec 64))
    : Consistent { state with
        filter := state.filter.addSpan hashes, spans := hashes :: state.spans } := by
  rw [ForeignReadSafety.addSpan]
  split
  · rename_i empty
    cases length_eq_zero_iff.mp empty
    exact .inr { exact_ with }
  · split
    · exact .inl (poisonPermanently_poisoned _)
    · rename_i some_ room
      obtain ⟨total, poison⟩ := addCells_refs
        { state.filter with unsafeTotalRefs := state.filter.unsafeTotalRefs + hashes.length }
        (hashes.map hashRef)
      have started : ForeignReadSafety.Tracks
          { state.filter with unsafeTotalRefs := state.filter.unsafeTotalRefs + hashes.length }
          state.openRefs := { exact_.tracks with }
      have length : (hashes :: state.spans).flatten.length
          = hashes.length + state.spans.flatten.length := by
        rw [flatten_cons, length_append]
      have old := exact_.total
      refine .inr ⟨?_, poison.trans exact_.refs, exact_.few, ?_, ?_, fun empty => ?_⟩
      · have next := started.addCells (hashes.map hashRef)
        convert next using 1
        funext index
        simp [openRefs, gather_append, add_assoc]
      · rw [total]
        dsimp only
        omega
      · simp only [length]
        omega
      · simp only [flatten_cons, append_eq_nil_iff] at empty
        exact absurd (congrArg List.length empty.1) some_

/-- The references of an open span are there to be closed. -/
theorem Exact.closeSpan {hashes : List (BitVec 64)} (opened : hashes ∈ state.spans)
    : ∃ after, state.filter.closeSpan hashes = some after
      ∧ Exact { state with filter := after, spans := state.spans.erase hashes } := by
  have perm : state.spans.flatten.Perm (hashes ++ (state.spans.erase hashes).flatten) := by
    exact (perm_cons_erase opened).flatten
  have length := perm.length_eq
  rw [length_append] at length
  have old := exact_.total
  have bound := exact_.fits
  rw [ForeignReadSafety.closeSpan]
  split
  · rename_i empty
    cases length_eq_zero_iff.mp empty
    refine ⟨state.filter, rfl, ⟨fun index => ?_, exact_.tracks.saturated⟩, exact_.refs, exact_.few,
      ?_, ?_, fun none_ => exact_.drained (perm_nil.mp (by simpa [none_] using perm))⟩
    · have same : openRefs { state with spans := state.spans.erase [] } index
          = state.openRefs index := by
        simp only [openRefs]
        rw [gather_perm (perm.map hashRef) index]
        rfl
      exact same ▸ exact_.tracks.counts index
    · exact old.trans (by simpa using length)
    · dsimp only
      omega
  · have unpoisoned : state.filter.poisonRefs ≠ kUInt64Max := by
      rw [exact_.refs]
      exact Nat.ne_of_lt exact_.few
    rw [if_neg unpoisoned]
    have split : state.openRefs = fun index =>
        gather (hashes.map hashRef) index
          + openRefs { state with spans := state.spans.erase hashes } index := by
      funext index
      simp only [openRefs]
      rw [gather_perm (perm.map hashRef) index, map_append, gather_append, add_assoc]
    obtain ⟨middle, closed, tracks⟩ := (split ▸ exact_.tracks).closeCells
    obtain ⟨total, poison, -⟩ := closeCells_refs closed
    rw [closed]
    dsimp only
    rw [if_neg (by omega)]
    let rest : GuardedFilter :=
      { state with
        filter := { middle with unsafeTotalRefs := middle.unsafeTotalRefs - hashes.length }
        spans := state.spans.erase hashes }
    refine ⟨_, rfl, Exact.of_rebuilt rest { tracks with }
      (poison.trans exact_.refs) exact_.few ?_ ?_⟩
    · dsimp only [rest]
      omega
    · dsimp only [rest]
      omega

theorem Exact.poisonOpen
    : Consistent { state with
        filter := state.filter.poisonOpen, poisons := state.poisons + 1 } := by
  have refs := exact_.refs
  have few := exact_.few
  rw [ForeignReadSafety.poisonOpen, if_neg (by omega)]
  split
  · split
    · exact .inl (poisonPermanently_poisoned _)
    · refine .inr ⟨⟨fun index => ?_, exact_.tracks.saturated⟩, by simpa using refs, ?_,
        exact_.total, exact_.fits, nofun⟩
      · have same : openRefs { state with poisons := state.poisons + 1 } index
            = state.openRefs index := by
          simp [openRefs, show state.poisons ≠ 0 by omega]
        exact same ▸ exact_.tracks.counts index
      · dsimp only
        omega
  · obtain ⟨total, poison⟩ := addCells_refs { state.filter with poisonRefs := 1 } poisonWalk
    have none_ : state.poisons = 0 := by omega
    have started : ForeignReadSafety.Tracks { state.filter with poisonRefs := 1 } state.openRefs :=
      { exact_.tracks with }
    refine .inr ⟨?_, by rw [none_]; exact poison, ?_, total.trans exact_.total, exact_.fits, nofun⟩
    · have next := started.addCells poisonWalk
      convert next using 1
      funext index
      simp only [openRefs, gather_poisonWalk, none_]
      simp [add_comm]
    · have one : 1 < kUInt64Max := by decide
      dsimp only
      omega

theorem Exact.poisonClose (opened : 0 < state.poisons)
    : ∃ after, state.filter.poisonClose = some after
      ∧ Exact { state with filter := after, poisons := state.poisons - 1 } := by
  have refs := exact_.refs
  have few := exact_.few
  rw [ForeignReadSafety.poisonClose, if_neg (by omega), if_neg (by omega)]
  split
  · refine ⟨_, rfl, ⟨fun index => ?_, exact_.tracks.saturated⟩, by simp [refs], ?_, exact_.total,
      exact_.fits, fun _ none_ => ?_⟩
    · have same : openRefs { state with poisons := state.poisons - 1 } index
          = state.openRefs index := by
        simp [openRefs, show state.poisons ≠ 0 by omega, show state.poisons - 1 ≠ 0 by omega]
      exact same ▸ exact_.tracks.counts index
    · dsimp only
      omega
    · dsimp only at none_
      omega
  · have one : state.poisons = 1 := by omega
    have split : state.openRefs = fun index =>
        gather poisonWalk index + openRefs { state with poisons := 0 } index := by
      funext index
      simp [openRefs, gather_poisonWalk, one, add_comm]
    obtain ⟨middle, closed, tracks⟩ := (split ▸ exact_.tracks).closeCells
    obtain ⟨total, poison, -⟩ := closeCells_refs closed
    rw [closed, one]
    let rest : GuardedFilter :=
      { state with filter := { middle with poisonRefs := 0 }, poisons := 0 }
    have none_ : 0 < kUInt64Max := by decide
    exact ⟨_, rfl, Exact.of_rebuilt rest { tracks with } rfl
      none_ (total.trans exact_.total) exact_.fits⟩

end

/-- A permanently poisoned filter stays so. -/
theorem Poisoned.step (poisoned : Poisoned state.filter) (event : FilterEvent)
    : ∃ next, state.step event = some next ∧ Poisoned next.filter := by
  have full : state.filter.poisonRefs ≠ 0 := by
    rw [poisoned.refs]
    decide
  cases event with
  | addSpan hashes =>
    refine ⟨_, rfl, ?_⟩
    simp only [addSpan]
    split
    · exact poisoned
    · rw [if_pos (.inl poisoned.total)]
      exact poisonPermanently_poisoned _
  | closeSpan hashes =>
    refine ⟨{ state with spans := state.spans.erase hashes }, ?_, poisoned⟩
    rw [GuardedFilter.step, closeSpan, if_pos poisoned.refs]
    split <;> rfl
  | poisonOpen =>
    refine ⟨_, rfl, ?_⟩
    simp only [poisonOpen]
    rw [if_pos poisoned.refs]
    exact poisoned
  | poisonClose =>
    refine ⟨{ state with poisons := state.poisons - 1 }, ?_, poisoned⟩
    rw [GuardedFilter.step, poisonClose, if_neg full, if_pos poisoned.refs]
    rfl
  | failClosedPermanently => exact ⟨_, rfl, poisonPermanently_poisoned _⟩

variable (consistent : state.Consistent)

include consistent

/-- A bracketed call neither aborts nor leaves the consistent states. -/
theorem Consistent.step {event : FilterEvent} (bracketed : state.Bracketed event)
    : ∃ next, state.step event = some next ∧ next.Consistent := by
  rcases consistent with poisoned | exact_
  · obtain ⟨next, stepped, still⟩ := poisoned.step event
    exact ⟨next, stepped, .inl still⟩
  · cases event with
    | addSpan hashes => exact ⟨_, rfl, exact_.addSpan hashes⟩
    | closeSpan hashes =>
      obtain ⟨after, closed, next⟩ := exact_.closeSpan bracketed
      exact ⟨_, by rw [GuardedFilter.step, closed]; rfl, .inr next⟩
    | poisonOpen => exact ⟨_, rfl, exact_.poisonOpen⟩
    | poisonClose =>
      obtain ⟨after, closed, next⟩ := exact_.poisonClose bracketed
      exact ⟨_, by rw [GuardedFilter.step, closed]; rfl, .inr next⟩
    | failClosedPermanently => exact ⟨_, rfl, .inl (poisonPermanently_poisoned _)⟩

/-- A hash in an open span is found, and so is every hash under an open poison. -/
theorem Consistent.mightContain {hash : BitVec 64}
    (held : hash ∈ state.spans.flatten ∨ 0 < state.poisons)
    : state.filter.mightContain hash = true := by
  have found : state.filter.cells (cellIndex hash) ≠ 0
      ∧ (cellWildcard (state.filter.cells (cellIndex hash))
        || cellFingerprint (state.filter.cells (cellIndex hash)) == fingerprint hash) = true := by
    rcases consistent with poisoned | exact_
    · rw [poisoned.cells]
      exact (Counts.saturated 1 {none}).answers (.inl (by simp))
    · refine (exact_.tracks.counts (cellIndex hash)).answers ?_
      rcases held with member | scope
      · refine .inr (Multiset.mem_add.mpr (.inl ?_))
        exact mem_gather (mem_map_of_mem (f := hashRef) member)
      · refine .inl (Multiset.mem_add.mpr (.inr ?_))
        rw [if_neg (by omega)]
        simp
  simp only [ForeignReadSafety.mightContain]
  rw [if_neg found.1]
  exact found.2

/-- With nothing open, a filter that was never poisoned for good finds nothing. -/
theorem Consistent.drained (unpoisoned : state.filter.permanentlyPoisoned = false)
    (empty : state.spans.flatten = []) (scopes : state.poisons = 0) (hash : BitVec 64)
    : state.filter.mightContain hash = false := by
  have zero : state.filter.cells (cellIndex hash) = 0 := by
    rcases consistent with poisoned | exact_
    · simp [permanentlyPoisoned, poisoned.refs] at unpoisoned
    · have counts := exact_.tracks.counts (cellIndex hash)
      have none_ : state.openRefs (cellIndex hash) = 0 := by
        simp [openRefs, empty, scopes, gather]
      have unsaturated : cellCount (state.filter.cells (cellIndex hash)) ≠ kCountMask := by
        have count := exact_.tracks.saturated
        rw [exact_.drained empty scopes] at count
        exact Finset.filter_eq_empty_iff.mp (Finset.card_eq_zero.mp count.symm) (Finset.mem_univ _)
      rw [none_] at counts
      generalize state.filter.cells (cellIndex hash) = cell at counts unsaturated
      cases counts with
      | empty => rfl
      | exact _ open_ => exact absurd rfl open_
      | saturated mark => exact absurd (cellCount_saturated mark true) unsaturated
  simp only [ForeignReadSafety.mightContain]
  rw [if_pos zero]

end GuardedFilter

-- Epochs

namespace ForeignReadSafety

/-- One publication of the owner: a cell counted up or down, all cells cleared or filled, each
with the touch that follows it, or the owner's own counters.
-/
inductive Publication where
  | counters (unsafeTotalRefs poisonRefs : Nat)
  | add (ref : CellRef)
  | close (index : CellIndex)
  | clear
  | poison

variable (filter : ForeignReadSafety)

def publish : Publication → Option ForeignReadSafety
  | .counters total poison =>
    some { filter with unsafeTotalRefs := total, poisonRefs := poison }
  | .add ref => some (filter.addCell ref)
  | .close index => filter.closeCell index
  | .clear => some filter.clearCells
  | .poison => some filter.poisonPermanently

/-- How a closing call ends: with its counters and, once nothing is open, the rebuild. -/
def settlement (total poison : Nat) : List Publication :=
  .counters total poison ::
    if total ≠ 0 ∨ poison ≠ 0 ∨ filter.saturatedCells = 0 then [] else [.clear]

/-- The publications a call makes, in order, by the filter it starts from. -/
def publications : FilterEvent → List Publication
  | .addSpan hashes =>
    if hashes.length = 0 then []
    else if filter.unsafeTotalRefs = kUInt64Max
        ∨ kUInt64Max - filter.unsafeTotalRefs < hashes.length then [.poison]
    else
      .counters (filter.unsafeTotalRefs + hashes.length) filter.poisonRefs
        :: (hashes.map hashRef).map .add
  | .closeSpan hashes =>
    if hashes.length = 0 then []
    else if filter.poisonRefs = kUInt64Max then []
    else
      (hashes.map hashRef).map (fun ref => .close ref.index)
        ++ filter.settlement (filter.unsafeTotalRefs - hashes.length) filter.poisonRefs
  | .poisonOpen =>
    if filter.poisonRefs = kUInt64Max then []
    else if filter.poisonRefs ≠ 0 then
      if filter.poisonRefs = kUInt64Max - 1 then [.poison]
      else [.counters filter.unsafeTotalRefs (filter.poisonRefs + 1)]
    else .counters filter.unsafeTotalRefs 1 :: poisonWalk.map .add
  | .poisonClose =>
    if filter.poisonRefs = kUInt64Max then []
    else if 1 < filter.poisonRefs then
      [.counters filter.unsafeTotalRefs (filter.poisonRefs - 1)]
    else
      poisonWalk.map (fun ref => .close ref.index) ++ filter.settlement filter.unsafeTotalRefs 0
  | .failClosedPermanently => [.poison]

/-- A publication that takes a cell from or to zero, or changes an answer, advances the epoch. -/
def Touches (publication : Publication) : Prop :=
  ∀ after, filter.publish publication = some after →
    (∀ index, (filter.cells index = 0 ↔ after.cells index ≠ 0) →
      after.epochs index = filter.epochs index + 1)
    ∧ ∀ hash, after.mightContain hash ≠ filter.mightContain hash →
      after.cellEpoch hash = filter.cellEpoch hash + 1

/-- Storing into one cell changes no other. -/
theorem storeAddCell_other (ref : CellRef)
    : (filter.storeAddCell ref).epochs = filter.epochs
      ∧ ∀ index, index ≠ ref.index
        → (filter.storeAddCell ref).cells index = filter.cells index := by
  simp only [storeAddCell]
  repeat' split
  all_goals refine ⟨rfl, fun index other => ?_⟩
  all_goals first | rfl | exact Function.update_of_ne other _ _

/-- Adding references is publishing them one by one. -/
theorem run_add (list : List CellRef)
    : run publish filter (list.map .add) = some (filter.addCells list) := by
  induction list generalizing filter with
  | nil => rfl
  | cons ref list ih => exact ih _

theorem run_close (list : List CellRef)
    : run publish filter (list.map fun ref => .close ref.index) = filter.closeCells list := by
  induction list generalizing filter with
  | nil => rfl
  | cons ref list ih =>
    rw [map_cons, run, publish, closeCells]
    cases filter.closeCell ref.index with
    | none => rfl
    | some after => exact ih after

/-- The settlement sets the counters and rebuilds. -/
theorem run_settlement {before : ForeignReadSafety} (total poison : Nat)
    (saturated : before.saturatedCells = filter.saturatedCells)
    : run publish filter (before.settlement total poison)
      = some ({ filter with unsafeTotalRefs := total, poisonRefs := poison }
          |>.rebuildSaturatedIfDrained total) := by
  rw [settlement, rebuildSaturatedIfDrained, saturated]
  split <;> rfl

variable {filter} {after : ForeignReadSafety}

/-- A call that closes its cells publishes their closes and settles. -/
theorem run_closing {list : List CellRef} (closed : filter.closeCells list = some after)
    (total poison : Nat)
    : run publish filter
        (list.map (fun ref => .close ref.index) ++ filter.settlement total poison)
      = some ({ after with unsafeTotalRefs := total, poisonRefs := poison }
          |>.rebuildSaturatedIfDrained total) := by
  obtain ⟨-, -, saturated⟩ := closeCells_refs closed
  rw [run_append, run_close, closed, Option.bind_some, run_settlement _ _ _ saturated.symm]

theorem storeCloseCell_other {index : CellIndex} (closed : filter.storeCloseCell index = some after)
    : after.epochs = filter.epochs
      ∧ ∀ other, other ≠ index → after.cells other = filter.cells other := by
  simp only [storeCloseCell] at closed
  repeat' split at closed
  all_goals cases closed
  all_goals refine ⟨rfl, fun other apart => ?_⟩
  all_goals first | rfl | exact Function.update_of_ne apart _ _

/-- A cell that a publication changes has its epoch advanced by it. -/
theorem publish_epoch {publication : Publication}
    (published : filter.publish publication = some after)
    {index : CellIndex} (changed : after.cells index ≠ filter.cells index)
    : after.epochs index = filter.epochs index + 1 := by
  cases publication with
  | counters total poison =>
    cases published
    exact absurd rfl changed
  | add ref =>
    cases published
    obtain ⟨epochs, others⟩ := storeAddCell_other filter ref
    by_cases same : index = ref.index
    · subst same
      simp [addCell, touchEpoch, epochs]
    · exact absurd (others index same) changed
  | close target =>
    obtain ⟨stored, found, rfl⟩ := Option.map_eq_some_iff.mp published
    obtain ⟨epochs, others⟩ := storeCloseCell_other found
    by_cases same : index = target
    · subst same
      simp [touchEpoch, epochs]
    · exact absurd (others index same) changed
  | clear | poison =>
    cases published
    rfl

/-- Only a changed cell leaves or reaches zero, or answers otherwise. -/
theorem touches (filter : ForeignReadSafety) (publication : Publication)
    : filter.Touches publication := by
  intro after published
  refine ⟨fun index moved => publish_epoch published fun same => ?_, fun hash answers => ?_⟩
  · rw [same] at moved
    exact (iff_not_self moved).elim
  · refine publish_epoch published fun same => answers ?_
    simp only [mightContain, same]

end ForeignReadSafety

namespace GuardedFilter

/-- A call of the owner is the run of its publications. -/
theorem step_published {state next : GuardedFilter} {event : FilterEvent}
    (stepped : state.step event = some next)
    : run publish state.filter (state.filter.publications event) = some next.filter := by
  cases event with
  | addSpan hashes =>
    cases stepped
    rw [publications, ForeignReadSafety.addSpan]
    split
    · rfl
    · split
      · rfl
      · exact run_add _ _
  | closeSpan hashes =>
    obtain ⟨after, closed, rfl⟩ := Option.map_eq_some_iff.mp stepped
    revert closed
    rw [publications, ForeignReadSafety.closeSpan]
    split
    · exact id
    · split
      · exact id
      · cases walked : state.filter.closeCells (hashes.map hashRef) with
        | none => rintro ⟨⟩
        | some middle =>
          obtain ⟨total, poison, -⟩ := closeCells_refs walked
          rw [run_closing walked, ← total, ← poison]
          intro closed
          exact (Option.ite_none_left_eq_some.mp closed).2
  | poisonOpen =>
    cases stepped
    rw [publications, ForeignReadSafety.poisonOpen]
    split
    · rfl
    · split
      · split <;> rfl
      · rw [run, publish, Option.bind_some, run_add]
  | poisonClose =>
    obtain ⟨after, closed, rfl⟩ := Option.map_eq_some_iff.mp stepped
    obtain ⟨-, closed⟩ := Option.ite_none_left_eq_some.mp closed
    revert closed
    rw [publications]
    split
    · exact id
    · split
      · exact id
      · cases walked : state.filter.closeCells poisonWalk with
        | none => rintro ⟨⟩
        | some middle =>
          obtain ⟨total, -⟩ := closeCells_refs walked
          rw [run_closing walked, ← total]
          exact id
  | failClosedPermanently =>
    cases stepped
    rfl

/-- What a call publishes: it is the run of its publications, and those touch what they change. -/
def Publishes (state : GuardedFilter) (event : FilterEvent) : Prop :=
  ∃ next, state.step event = some next
    ∧ run publish state.filter (state.filter.publications event) = some next.filter
    ∧ EachStep publish Touches state.filter (state.filter.publications event)

/-- Along every bracketed run no call aborts; a hash in an open span, and every hash under an
open poison, is found; each call is the run of its publications, and each publication that
takes a cell from or to zero advances its epoch; and with nothing open a filter that is not
permanently poisoned finds nothing.
-/
theorem filter_guards {events : List FilterEvent} (bracketed : EachStep step Bracketed init events)
    : ∃ final, run step init events = some final
      ∧ (∀ hash, hash ∈ final.spans.flatten ∨ 0 < final.poisons
          → final.filter.mightContain hash = true)
      ∧ EachStep step Publishes init events
      ∧ (final.filter.permanentlyPoisoned = false → final.spans.flatten = []
          → final.poisons = 0 → ∀ hash, final.filter.mightContain hash = false) := by
  obtain ⟨final, ran, consistent⟩ :=
    run_total_of_eachStep (fun _ _ held => held.step) init_consistent bracketed
  refine ⟨final, ran, fun hash => consistent.mightContain, ?_, consistent.drained⟩
  refine EachStep.of_invariant (fun state event held allowed => ?_) init_consistent bracketed
  obtain ⟨next, stepped, onward⟩ := held.step allowed
  refine ⟨⟨next, stepped, step_published stepped, ?_⟩, fun other same => ?_⟩
  · exact EachStep.of_invariant (fun before publication (_ : True) _ =>
      ⟨touches before publication, fun _ _ => trivial⟩) trivial (eachStep_true _ _)
  · cases stepped.symm.trans same
    exact onward

/-- Two spans that share a hash; the second is still open when the first is closed. -/
def overlappingSpans : List FilterEvent :=
  [.addSpan [5#64, 9#64], .addSpan [9#64], .closeSpan [5#64, 9#64]]

/-- Witness: the shared hash is found until its last span is closed, then nothing is. -/
theorem filter_guards_overlapping
    : (∃ final, run step init overlappingSpans = some final
        ∧ final.filter.mightContain 9#64 = true
        ∧ EachStep step Publishes init overlappingSpans)
      ∧ ∃ final, run step init (overlappingSpans ++ [.closeSpan [9#64]]) = some final
        ∧ ∀ hash, final.filter.mightContain hash = false := by
  constructor
  · have bracketed : EachStep step Bracketed init overlappingSpans := by decide +kernel
    obtain ⟨final, ran, found, published, -⟩ := filter_guards bracketed
    have spans : (run step init overlappingSpans).map (·.spans) = some [[9#64]] := by
      decide +kernel
    rw [ran, Option.map_some, Option.some_inj] at spans
    exact ⟨final, ran, found _ (.inl (by simp [spans])), published⟩
  · have bracketed : EachStep step Bracketed init (overlappingSpans ++ [.closeSpan [9#64]]) := by
      decide +kernel
    obtain ⟨final, ran, -, -, drained⟩ := filter_guards bracketed
    have ends : (run step init (overlappingSpans ++ [.closeSpan [9#64]])).map (fun state =>
        (state.filter.permanentlyPoisoned, state.spans, state.poisons)) = some (false, [], 0) := by
      decide +kernel
    rw [ran, Option.map_some, Option.some_inj, Prod.mk.injEq, Prod.mk.injEq] at ends
    exact ⟨final, ran, drained ends.1 (by simp [ends.2.1]) ends.2.2⟩

end GuardedFilter

end Thredis.Store
