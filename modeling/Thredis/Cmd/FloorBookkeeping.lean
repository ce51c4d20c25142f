import Thredis.Cmd.SnapshotFloor

/-! One IO thread's floor is exact: the held floor is the lowest unresolved cut, counted as
often as it occurs, and the slot links of the unresolved set stay consistent through the
swap-and-pop removals.
-/

namespace Thredis.Cmd

open Thredis.Lib List Option SnapshotFloor

theorem snapshotExclusiveFloor_le (snapshot : Nat) (bounded : snapshot ≤ uint64Max)
    : snapshotExclusiveFloor snapshot ≤ uint64Max := by
  unfold snapshotExclusiveFloor
  split <;> omega

theorem snapshotExclusiveFloor_lt (snapshot : Nat) (bounded : snapshot < uint64Max)
    : snapshotExclusiveFloor snapshot = snapshot + 1 := by
  unfold snapshotExclusiveFloor
  rw [if_neg (by omega)]

/-- The floor bounds the cuts from below and is counted as often as it occurs. -/
structure SnapshotFloor.Counts (held : SnapshotFloor) (cuts : List Nat) : Prop where
  refs : held.refs = cuts.count held.floor
  low : ∀ cut ∈ cuts, held.floor ≤ cut

/-- A floor without references stands for an empty set. -/
structure SnapshotFloor.Exact (held : SnapshotFloor) (cuts : List Nat) : Prop
    extends held.Counts cuts where
  settled : held.refs = 0 → cuts = [] ∧ held.floor = uint64Max

namespace SnapshotFloor

variable {held : SnapshotFloor} {cuts : List Nat}

theorem Counts.perm {other : List Nat} (counts : held.Counts cuts) (perm : cuts.Perm other)
    : held.Counts other :=
  ⟨by rw [counts.refs, perm.count_eq], fun cut member => counts.low cut (perm.mem_iff.mpr member)⟩

theorem Exact.perm {other : List Nat} (exact_ : held.Exact cuts) (perm : cuts.Perm other)
    : held.Exact other :=
  ⟨exact_.toCounts.perm perm, fun none_left =>
    ⟨(exact_.settled none_left).1 ▸ perm |>.symm.eq_nil, (exact_.settled none_left).2⟩⟩

/-- A new cut lies below the floor, on it or above it. -/
theorem Counts.note (counts : held.Counts cuts) (cut : Nat)
    : (held.note cut).Counts (cut :: cuts) := by
  unfold SnapshotFloor.note
  split
  next below =>
    have absent : cut ∉ cuts := fun member => by
      have := counts.low cut member
      omega
    refine ⟨by simp [count_eq_zero.mpr absent], ?_⟩
    intro other member
    rcases mem_cons.mp member with same | member
    · simp [same]
    · have := counts.low other member
      simp only
      omega
  next notBelow =>
    split
    next same =>
      subst same
      refine ⟨by simp [counts.refs], ?_⟩
      intro other member
      rcases mem_cons.mp member with same | member
      · simp [same]
      · exact counts.low other member
    next different =>
      refine ⟨by simp [counts.refs, different], ?_⟩
      intro other member
      rcases mem_cons.mp member with same | member
      · omega
      · exact counts.low other member

theorem Exact.note (exact_ : held.Exact cuts) (cut : Nat) (bounded : cut ≤ uint64Max)
    : (held.note cut).Exact (cut :: cuts) := by
  refine ⟨exact_.toCounts.note cut, ?_⟩
  unfold SnapshotFloor.note
  split
  · intro zero
    simp at zero
  next notBelow =>
    split
    · intro zero
      simp at zero
    next different =>
      intro zero
      have top := (exact_.settled zero).2
      omega

/-- A counted cut can be released without an abort. -/
theorem Counts.release {cut : Nat} (counts : held.Counts (cut :: cuts))
    : ∃ left, held.release cut = some left ∧ left.Counts cuts := by
  have low := fun other member => counts.low other (mem_cons_of_mem cut member)
  unfold SnapshotFloor.release
  split
  next same =>
    subst same
    have refs : held.refs = cuts.count held.floor + 1 := by
      simpa using counts.refs
    rw [if_neg (by omega)]
    exact ⟨_, rfl, by simp only [refs]; omega, low⟩
  next different =>
    refine ⟨held, rfl, ?_, low⟩
    simpa [different] using counts.refs

/-- The floor computed anew is exact, by induction over the cuts. -/
theorem activeSnapshotFloor_exact (cuts : List Nat) (bounded : ∀ cut ∈ cuts, cut ≤ uint64Max)
    : (activeSnapshotFloor cuts).Exact cuts := by
  have walk : ∀ (rest seen : List Nat) (held : SnapshotFloor), held.Exact seen →
      (∀ cut ∈ rest, cut ≤ uint64Max) →
      (rest.foldl note held).Exact (rest.reverse ++ seen) := by
    intro rest
    induction rest with
    | nil => intro seen held exact_ _; exact exact_
    | cons cut rest ih =>
      intro seen held exact_ bounded
      rw [reverse_cons, append_assoc]
      exact ih (cut :: seen) _ (exact_.note cut (bounded cut (mem_cons_self ..)))
        (fun other member => bounded other (mem_cons_of_mem _ member))
  have start : idle.Exact [] := ⟨⟨rfl, by simp⟩, fun _ => ⟨rfl, rfl⟩⟩
  have all := walk cuts [] .idle start bounded
  rw [append_nil] at all
  exact all.perm (reverse_perm cuts)

/-- An exact floor is the minimum of the cuts, and the idle value when there are none. -/
theorem Exact.floor_eq_min (exact_ : held.Exact cuts)
    : held.floor = cuts.min?.getD uint64Max := by
  cases found : cuts.min? with
  | none =>
    have empty := min?_eq_none_iff.mp found
    have zero : held.refs = 0 := by simp [exact_.refs, empty]
    exact (exact_.settled zero).2
  | some lowest =>
    obtain ⟨member, below⟩ := min?_eq_some_iff.mp found
    have nonzero : held.refs ≠ 0 := by
      intro zero
      have empty := (exact_.settled zero).1
      simp [empty] at member
    have inside : held.floor ∈ cuts := by
      rw [exact_.refs] at nonzero
      exact count_pos_iff.mp (Nat.pos_of_ne_zero nonzero)
    have low := exact_.low lowest member
    have high := below held.floor inside
    simp only [getD_some]
    omega

end SnapshotFloor

-- Cuts and slots of one thread

namespace IoThread

variable (thread : IoThread) (id : Nat)

theorem cutAt_eq
    : thread.cutAt id = (thread.cuts[id]?).getD ⟨uint64Max, none, false, false⟩ := by
  simp [cutAt]

theorem modifyCut_cutAt (other : Nat) (change : SnapshotCut → SnapshotCut)
    (inside : id < thread.cuts.length)
    : (thread.modifyCut id change).cutAt other
        = if other = id then change (thread.cutAt id) else thread.cutAt other := by
  rw [cutAt_eq, cutAt_eq, cutAt_eq]
  simp only [modifyCut]
  by_cases same : other = id
  · subst same
    simp [getElem?_eq_getElem inside]
  · have different : ¬ id = other := fun eq => same eq.symm
    simp [same, different]

@[simp] theorem modifyCut_length (change : SnapshotCut → SnapshotCut)
    : (thread.modifyCut id change).cuts.length = thread.cuts.length := by
  simp [modifyCut]

/-- The unresolved set and the slots its cuts carry name each other; cuts hold loaded
watermarks.
-/
structure Links (safe : Nat) (thread : IoThread) : Prop where
  slots : ∀ index id, thread.unresolved[index]? = some id
    ↔ id < thread.cuts.length ∧ (thread.cutAt id).slot = some index
  registered : ∀ id index, id < thread.cuts.length → (thread.cutAt id).slot = some index →
    (thread.cutAt id).registered = true
  loaded : ∀ id, id < thread.cuts.length → (thread.cutAt id).snapshot ≤ safe

/-- On the set alone it is the general swap-and-pop. -/
theorem swapOut_unresolved (slot : Nat)
    : (thread.swapOut slot id).unresolved = swapRemove thread.unresolved slot := by
  unfold swapOut swapRemove
  cases thread.unresolved.getLast? <;> rfl

/-- Behind a removal the last cut carries the freed slot and the removed one none. -/
theorem swapOut_cutAt (thread : IoThread) {slot id moved : Nat}
    (last : thread.unresolved.getLast? = some moved) (idInside : id < thread.cuts.length)
    (movedInside : moved < thread.cuts.length) (other : Nat)
    : (thread.swapOut slot id).cutAt other
      = if other = id then { thread.cutAt id with slot := none }
        else if other = moved then { thread.cutAt moved with slot := some slot }
        else thread.cutAt other := by
  have outer := modifyCut_cutAt
    (thread.modifyCut moved (fun state => { state with slot := some slot })) id other
    (fun state => { state with slot := none }) (by simpa using idInside)
  have inner := fun other => modifyCut_cutAt thread moved other
    (fun state => { state with slot := some slot }) movedInside
  simp only [swapOut, last]
  change ((thread.modifyCut moved _).modifyCut id _).cutAt other = _
  rw [outer]
  by_cases isId : other = id
  · simp only [isId, if_true, inner]
    split
    next same => rw [same]
    next => rfl
  · simp [isId, inner]

namespace Links

variable {safe : Nat} {thread : IoThread}

variable (links : thread.Links safe)

include links

theorem inside {id : Nat} (member : id ∈ thread.unresolved)
    : id < thread.cuts.length := by
  obtain ⟨index, found⟩ := mem_iff_getElem?.mp member
  exact ((links.slots index id).mp found).1

theorem nodup : thread.unresolved.Nodup := by
  rw [nodup_iff_getElem?_ne_getElem?]
  intro left right less bound same
  obtain ⟨id, found⟩ : ∃ id, thread.unresolved[right]? = some id := ⟨_, getElem?_eq_getElem bound⟩
  rw [found] at same
  have leftSlot := ((links.slots left id).mp same).2
  have rightSlot := ((links.slots right id).mp found).2
  rw [leftSlot] at rightSlot
  have := some.inj rightSlot
  omega

theorem active_le (bounded : safe < uint64Max)
    : ∀ cut ∈ thread.active, cut ≤ uint64Max := by
  intro cut member
  obtain ⟨id, inSet, rfl⟩ := mem_map.mp member
  have loaded := links.loaded id (links.inside inSet)
  exact snapshotExclusiveFloor_le _ (by omega)

/-- Changing neither slots nor snapshots of cuts keeps the links. -/
theorem of_cuts {other : IoThread} (length : other.cuts.length = thread.cuts.length)
    (unresolved : other.unresolved = thread.unresolved)
    (same : ∀ id, id < thread.cuts.length → (other.cutAt id).slot = (thread.cutAt id).slot
        ∧ (other.cutAt id).snapshot ≤ safe
        ∧ ((thread.cutAt id).slot ≠ none →
            (other.cutAt id).registered = (thread.cutAt id).registered))
    : other.Links safe := by
  refine ⟨?_, ?_, ?_⟩
  · intro index id
    rw [unresolved, links.slots index id, length]
    refine and_congr_right fun inside => ?_
    rw [(same id inside).1]
  · intro id index inside slot
    rw [length] at inside
    obtain ⟨slotEq, -, registered⟩ := same id inside
    rw [slotEq] at slot
    rw [registered (by simp [slot])]
    exact links.registered id index inside slot
  · intro id inside
    rw [length] at inside
    exact (same id inside).2.1

theorem mono {later : Nat} (grown : safe ≤ later)
    : thread.Links later :=
  { links with loaded := fun id inside => Nat.le_trans (links.loaded id inside) grown }

/-- A new cut at the end of the heap is not linked anywhere. -/
theorem openCut (snapshot : Nat) (loaded : snapshot ≤ safe)
    : ({ thread with cuts := thread.cuts ++ [⟨snapshot, none, false, false⟩] } : IoThread).Links
        safe := by
  have old : ∀ id, id < thread.cuts.length →
      ({ thread with cuts := thread.cuts ++ [⟨snapshot, none, false, false⟩] }
        : IoThread).cutAt id = thread.cutAt id := by
    intro id inside
    simp [cutAt_eq, getElem?_append_left inside]
  have new : ({ thread with cuts := thread.cuts ++ [⟨snapshot, none, false, false⟩] }
        : IoThread).cutAt thread.cuts.length = ⟨snapshot, none, false, false⟩ := by
    simp [cutAt_eq]
  have cases_ : ∀ id, id < (thread.cuts ++ [(⟨snapshot, none, false, false⟩ : SnapshotCut)]).length
      → id < thread.cuts.length ∨ id = thread.cuts.length := by
    intro id inside
    simp only [length_append, length_singleton] at inside
    omega
  refine ⟨?_, ?_, ?_⟩
  · intro index id
    rw [links.slots index id]
    constructor
    · rintro ⟨inside, slot⟩
      exact ⟨by simp only [length_append]; omega, by rw [old id inside]; exact slot⟩
    · rintro ⟨inside, slot⟩
      rcases cases_ id inside with inside | rfl
      · rw [old id inside] at slot
        exact ⟨inside, slot⟩
      · rw [new] at slot
        simp at slot
  · intro id index inside slot
    rcases cases_ id inside with inside | rfl
    · rw [old id inside] at slot ⊢
      exact links.registered id index inside slot
    · rw [new] at slot
      simp at slot
  · intro id inside
    rcases cases_ id inside with inside | rfl
    · rw [old id inside]
      exact links.loaded id inside
    · rw [new]
      exact loaded

/-- A cut taken out of the set is unlinked; the cut moved into its slot is relinked. -/
theorem swapOut {slot id : Nat} (found : thread.unresolved[slot]? = some id)
    : (thread.swapOut slot id).Links safe
        ∧ (id :: (thread.swapOut slot id).unresolved).Perm thread.unresolved
        ∧ (∀ other, ((thread.swapOut slot id).cutAt other).snapshot = (thread.cutAt other).snapshot
          ∧ ((thread.swapOut slot id).cutAt other).complete = (thread.cutAt other).complete)
        ∧ ((thread.swapOut slot id).cutAt id).slot = none := by
  obtain ⟨slotLt, -⟩ := List.getElem?_eq_some_iff.mp found
  obtain ⟨moved, last⟩ : ∃ moved, thread.unresolved.getLast? = some moved := by
    cases empty : thread.unresolved.getLast? with
    | some moved => exact ⟨moved, rfl⟩
    | none =>
      rw [getLast?_eq_none_iff] at empty
      simp [empty] at slotLt
  obtain ⟨idInside, -⟩ := (links.slots slot id).mp found
  obtain ⟨movedInside, movedSlot⟩ := (links.slots (thread.unresolved.length - 1) moved).mp
    (by rw [← last, getLast?_eq_getElem?])
  have cutEq : ∀ other, (thread.swapOut slot id).cutAt other = _ :=
    thread.swapOut_cutAt last idInside movedInside
  have length : (thread.swapOut slot id).cuts.length = thread.cuts.length := by
    simp [IoThread.swapOut, last]
  have values : ∀ other, ((thread.swapOut slot id).cutAt other).snapshot
      = (thread.cutAt other).snapshot
      ∧ ((thread.swapOut slot id).cutAt other).complete = (thread.cutAt other).complete := by
    intro other
    rw [cutEq]
    split
    next isId => rw [isId]; exact ⟨rfl, rfl⟩
    next =>
      split
      next isMoved => rw [isMoved]; exact ⟨rfl, rfl⟩
      next => exact ⟨rfl, rfl⟩
  have unresolved := thread.swapOut_unresolved id slot
  refine ⟨⟨?_, ?_, ?_⟩, unresolved ▸ swapRemove_perm found, values, by rw [cutEq, if_pos rfl]⟩
  · intro index other
    rw [unresolved, swapRemove_links links.slots (fun _ _ _ one two =>
      some.inj (one.2.symm.trans two.2)) found last, cutEq, length]
    by_cases isId : other = id
    · simp [isId]
    · by_cases isMoved : other = moved
      · subst isMoved
        simp [isId, movedInside, eq_comm]
      · simp [isId, isMoved]
  · intro other index inside otherSlot
    rw [length] at inside
    rw [cutEq] at otherSlot ⊢
    by_cases isId : other = id
    · simp [isId] at otherSlot
    · by_cases isMoved : other = moved
      · rw [if_neg isId, if_pos isMoved]
        exact links.registered moved _ movedInside movedSlot
      · rw [if_neg isId, if_neg isMoved] at otherSlot ⊢
        exact links.registered other index inside otherSlot
  · intro other inside
    rw [length] at inside
    rw [(values other).1]
    exact links.loaded other inside

end Links

/-- Links and exact floor of a thread whose published word mirrors its own copy. -/
structure Sound (safe : Nat) (thread : IoThread) : Prop where
  links : thread.Links safe
  held : thread.held.Exact thread.active
  mirror : thread.readFloor = thread.published

def Standing (thread : IoThread) : Prop :=
  match thread.pc with
  | .idle => thread.published = thread.held.floor
  | .confirm id cut =>
    thread.published = thread.held.floor ∧ id ∈ thread.unresolved ∧ cut = thread.exclusive id
  | .publish => ∀ cut ∈ thread.active, thread.published ≤ cut

variable (thread : IoThread)

theorem publishFloor_eq (mirror : thread.readFloor = thread.published)
    : thread.publishFloor
        = { thread with published := thread.held.floor, readFloor := thread.held.floor } := by
  unfold publishFloor
  split
  · rfl
  next same =>
    cases thread
    simp_all

/-- Settling changes the counted floor only. -/
theorem settle_eq : ∃ held, thread.settle = { thread with held } := by
  unfold settle
  split
  · exact ⟨_, rfl⟩
  · exact ⟨thread.held, rfl⟩

/-- Settling turns a counted floor into an exact one. -/
theorem settle_exact (counts : thread.held.Counts thread.active)
    (bounded : ∀ cut ∈ thread.active, cut ≤ uint64Max)
    : thread.settle.held.Exact thread.active := by
  unfold settle
  split
  · exact activeSnapshotFloor_exact thread.active bounded
  next nonzero => exact ⟨counts, fun zero => absurd zero nonzero⟩

/-- Settle-and-publish, the common tail of the removals, restores a sound idle thread. -/
theorem settle_publish {safe : Nat} {thread : IoThread} (links : thread.Links safe)
    (counts : thread.held.Counts thread.active) (mirror : thread.readFloor = thread.published)
    (idle : thread.pc = .idle) (bounded : safe < uint64Max)
    : thread.settle.publishFloor.Sound safe ∧ thread.settle.publishFloor.Standing := by
  obtain ⟨held, settled⟩ := thread.settle_eq
  have exact_ := settle_exact thread counts (links.active_le bounded)
  rw [settled] at exact_ ⊢
  rw [publishFloor_eq { thread with held } mirror]
  refine ⟨⟨?_, exact_, rfl⟩, ?_⟩
  · exact { links with }
  · simp [Standing, idle]

end IoThread

end Thredis.Cmd
