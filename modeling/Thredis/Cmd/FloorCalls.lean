import Thredis.Cmd.FloorBookkeeping

/-! The calls of an IO thread keep its floor exact and never abort. Each lemma says which
cuts are registered afterwards and at which value, which is all an owner's scan relies on.
-/

namespace Thredis.Cmd

open Thredis.Lib List

namespace IoThread

variable (thread : IoThread)

/-- A cut whose `register_snapshot` has taken its final value. -/
def Registered (id : Nat) : Prop :=
  id ∈ thread.unresolved ∧ ∀ cut, thread.pc ≠ .confirm id cut

/-- The completion flag of a cut as a refresh loads it. -/
def answered (stale : List Nat) (id : Nat) : Bool :=
  (thread.cutAt id).complete && !stale.contains id

/-- The cuts a refresh has to take out of the unresolved set. -/
def completed (stale : List Nat) : List Nat :=
  if thread.completions = thread.observed then []
  else thread.unresolved.filter (thread.answered stale)

/-- What a call does to its thread: it stays sound, a cut registered afterwards was
registered with the same value before or has just taken the watermark, and the unresolved set
gains the cuts `entered` and loses the cuts `gone`.
-/
structure Moves (safe : Nat) (thread : IoThread) (entered gone : List Nat) (next : IoThread)
    : Prop where
  sound : next.Sound safe
  standing : next.Standing
  registered : ∀ id, next.Registered id → (next.cutAt id).snapshot = safe
    ∨ (thread.Registered id ∧ (next.cutAt id).snapshot = (thread.cutAt id).snapshot)
  balance : (next.unresolved ++ gone).Perm (thread.unresolved ++ entered)

theorem Moves.refl {safe : Nat} {thread : IoThread} (sound : thread.Sound safe)
    (standing : thread.Standing)
    : Moves safe thread [] [] thread :=
  ⟨sound, standing, fun _ placed => .inr ⟨placed, rfl⟩, .refl _⟩

theorem push_cutAt (id other : Nat) (inside : id < thread.cuts.length)
    : (thread.push id).cutAt other
        = if other = id then
            { thread.cutAt id with slot := some thread.unresolved.length, registered := true }
          else thread.cutAt other :=
  modifyCut_cutAt thread id other _ inside

theorem push_active (id : Nat) (inside : id < thread.cuts.length)
    : (thread.push id).active = thread.active ++ [thread.exclusive id] := by
  have same : ∀ other, (thread.push id).exclusive other = thread.exclusive other := by
    intro other
    simp only [exclusive, thread.push_cutAt id other inside]
    split
    next isId => rw [isId]
    next => rfl
  have unresolved : (thread.push id).unresolved = thread.unresolved ++ [id] := rfl
  rw [active, unresolved, map_append, funext same]
  rfl

variable {safe id : Nat} {thread : IoThread}

theorem push_links (links : thread.Links safe) (id : Nat)
    (inside : id < thread.cuts.length) (fresh : (thread.cutAt id).registered = false)
    : (thread.push id).Links safe := by
  have length : (thread.push id).cuts.length = thread.cuts.length := by
    simp [push]
  have unlinked : ∀ index, (thread.cutAt id).slot ≠ some index := by
    intro index slot
    rw [links.registered id index inside slot] at fresh
    cases fresh
  have cutEq := fun other => thread.push_cutAt id other inside
  refine ⟨?_, ?_, ?_⟩
  · intro index other
    rw [cutEq, length]
    change (thread.unresolved ++ [id])[index]? = some other ↔ _
    by_cases isId : other = id
    · subst isId
      rw [if_pos rfl]
      constructor
      · intro placed
        refine ⟨inside, ?_⟩
        by_cases low : index < thread.unresolved.length
        · rw [getElem?_append_left low] at placed
          exact absurd ((links.slots index other).mp placed).2 (unlinked index)
        · obtain ⟨bound, -⟩ := List.getElem?_eq_some_iff.mp placed
          have : index = thread.unresolved.length := by
            simp only [length_append, length_singleton] at bound
            omega
          simp [this]
      · rintro ⟨-, slot⟩
        cases slot
        simp
    · rw [if_neg isId, ← links.slots index other]
      by_cases low : index < thread.unresolved.length
      · rw [getElem?_append_left low]
      · have past : thread.unresolved[index]? = none := getElem?_eq_none (by omega)
        rw [getElem?_append_right (by omega), past]
        constructor
        · intro placed
          have same := mem_of_getElem? placed
          exact absurd (mem_singleton.mp same) isId
        · intro placed
          cases placed
  · intro other index bound slot
    rw [length] at bound
    rw [cutEq] at slot ⊢
    by_cases isId : other = id
    · rw [if_pos isId]
    · rw [if_neg isId] at slot ⊢
      exact links.registered other index bound slot
  · intro other bound
    rw [length] at bound
    rw [cutEq]
    split
    · exact links.loaded id inside
    · exact links.loaded other bound

/-- Registration adds its cut, not yet confirmed, under a floor that covers it. -/
theorem register_moves (sound : thread.Sound safe)
    (idle : thread.pc = .idle) (id : Nat) (inside : id < thread.cuts.length)
    (fresh : (thread.cutAt id).registered = false) (bounded : safe < uint64Max)
    : Moves safe thread [id] [] (thread.register id) := by
  have mirror : (thread.push id).readFloor = (thread.push id).published := sound.mirror
  have shape : thread.register id
      = { thread.push id with
          published := (thread.push id).held.floor
          readFloor := (thread.push id).held.floor
          pc := .confirm id (thread.exclusive id) } := by
    rw [register, publishFloor_eq _ mirror]
  have links := push_links sound.links id inside fresh
  have activeEq := thread.push_active id inside
  have cutLe := snapshotExclusiveFloor_le _ (Nat.le_of_lt
      (Nat.lt_of_le_of_lt (sound.links.loaded id inside) bounded))
  have held : (thread.push id).held.Exact (thread.push id).active := by
    rw [activeEq]
    exact (sound.held.note _ cutLe).perm (perm_append_singleton _ _).symm
  rw [shape]
  refine ⟨⟨{ links with }, held, rfl⟩, ?_, ?_, .of_eq (append_nil _)⟩
  · refine ⟨rfl, ?_, ?_⟩
    · change id ∈ thread.unresolved ++ [id]
      simp
    · change thread.exclusive id = snapshotExclusiveFloor ((thread.push id).cutAt id).snapshot
      rw [thread.push_cutAt id id inside, if_pos rfl]
      rfl
  · intro other placed
    have notId : other ≠ id := by
      rintro rfl
      exact placed.2 (thread.exclusive other) rfl
    have member : other ∈ thread.unresolved := by
      have := placed.1
      change other ∈ thread.unresolved ++ [id] at this
      simpa [notId] using this
    refine .inr ⟨⟨member, by simp [idle]⟩, ?_⟩
    change ((thread.push id).cutAt other).snapshot = _
    rw [thread.push_cutAt id other inside, if_neg notId]

section

variable {adopted : IoThread}
  (adoptedEq : thread.modifyCut id (fun state => { state with snapshot := safe }) = adopted)

include adoptedEq

/-- Adopting the watermark exchanges one active floor for a higher one. -/
theorem adopt_active (links : thread.Links safe) (member : id ∈ thread.unresolved)
    : ∃ rest, (thread.exclusive id :: rest).Perm thread.active
        ∧ (snapshotExclusiveFloor safe :: rest).Perm adopted.active := by
  have inside := links.inside member
  have cutEq := fun other => modifyCut_cutAt thread id other
    (fun state => { state with snapshot := safe }) inside
  rw [adoptedEq] at cutEq
  have perm := perm_cons_erase member
  refine ⟨(thread.unresolved.erase id).map thread.exclusive, (perm.map thread.exclusive).symm, ?_⟩
  have others : (thread.unresolved.erase id).map adopted.exclusive
      = (thread.unresolved.erase id).map thread.exclusive := by
    refine map_congr_left fun other inErase => ?_
    have notId : other ≠ id := by
      rintro rfl
      exact links.nodup.not_mem_erase inErase
    simp [exclusive, cutEq, if_neg notId]
  have changed : adopted.exclusive id = snapshotExclusiveFloor safe := by
    simp [exclusive, cutEq]
  have mapped := perm.map adopted.exclusive
  rw [map_cons, others, changed] at mapped
  rw [← adoptedEq] at mapped ⊢
  exact mapped.symm

/-- The newer watermark takes the old value's place and its reference. -/
theorem adopt_moves (sound : thread.Sound safe) {cut : Nat}
    (published : thread.published = thread.held.floor)
    (member : id ∈ thread.unresolved) (cutEq : cut = thread.exclusive id)
    (here : thread.pc = .confirm id cut) (bounded : safe < uint64Max)
    : ∃ next, (adopted.held.release cut).map (fun held =>
          { { adopted with held := held.note (snapshotExclusiveFloor safe) }.settle with
            pc := .publish }) = some next
        ∧ Moves safe thread [] [] next := by
  have inside := sound.links.inside member
  have changed := fun other => modifyCut_cutAt thread id other
    (fun state => { state with snapshot := safe }) inside
  have links : adopted.Links safe := by
    rw [← adoptedEq]
    refine sound.links.of_cuts (by simp) rfl fun other bound => ?_
    rw [changed]
    by_cases isId : other = id
    · simp [isId]
    · simpa [isId] using sound.links.loaded other bound
  rw [adoptedEq] at changed
  obtain ⟨rest, before, after⟩ := adopt_active adoptedEq sound.links member
  obtain ⟨left, released, counts⟩ := (sound.held.toCounts.perm before.symm).release
  have noted := (counts.note (snapshotExclusiveFloor safe)).perm after
  have heldEq : adopted.held = thread.held := by rw [← adoptedEq]; rfl
  have unresolvedEq : adopted.unresolved = thread.unresolved := by rw [← adoptedEq]; rfl
  have publishedEq : adopted.published = thread.published := by rw [← adoptedEq]; rfl
  have mirror : adopted.readFloor = adopted.published := by
    rw [← adoptedEq]
    exact sound.mirror
  rw [cutEq, heldEq, released]
  refine ⟨_, rfl, ?_⟩
  dsimp only
  have exact_ := settle_exact { adopted with
    held := left.note (snapshotExclusiveFloor safe) } noted (links.active_le bounded)
  obtain ⟨held, settled⟩ := settle_eq { adopted with
    held := left.note (snapshotExclusiveFloor safe) }
  rw [settled] at exact_ ⊢
  refine ⟨⟨{ links with }, exact_, mirror⟩, ?_, ?_, unresolvedEq ▸ .refl _⟩
  · -- the published floor still bounds the cut that was raised
    intro cut member
    have low : ∀ cut ∈ thread.exclusive id :: rest, thread.held.floor ≤ cut :=
      fun cut member => sound.held.low cut (before.mem_iff.mp member)
    rw [publishedEq, published]
    rcases mem_cons.mp (after.mem_iff.mpr member) with raised | kept
    · have loaded := sound.links.loaded id inside
      have old := low (thread.exclusive id) (mem_cons_self ..)
      rw [exclusive, snapshotExclusiveFloor_lt _ (by omega)] at old
      rw [raised, snapshotExclusiveFloor_lt _ bounded]
      omega
    · exact low cut (mem_cons_of_mem _ kept)
  · intro other placed
    by_cases isId : other = id
    · refine .inl ?_
      change (adopted.cutAt other).snapshot = safe
      rw [changed, if_pos isId]
    · refine .inr ⟨⟨unresolvedEq ▸ placed.1, ?_⟩, ?_⟩
      · intro otherCut
        rw [here]
        rintro ⟨⟩
        exact isId rfl
      · change (adopted.cutAt other).snapshot = _
        rw [changed, if_neg isId]

end

section

variable (sound : thread.Sound safe)

include sound

/-- The confirmation never aborts, and leaves its cut at the watermark. -/
theorem confirm_moves (standing : thread.Standing) {cut : Nat} (here : thread.pc = .confirm id cut)
    (bounded : safe < uint64Max)
    : ∃ next, thread.confirm id cut safe = some next ∧ Moves safe thread [] [] next := by
  have standing' : thread.published = thread.held.floor ∧ id ∈ thread.unresolved
      ∧ cut = thread.exclusive id := by
    simpa [Standing, here] using standing
  obtain ⟨published, member, cutEq⟩ := standing'
  unfold confirm
  split
  next same =>
    refine ⟨_, rfl, ⟨{ sound.links with }, sound.held, sound.mirror⟩, published, ?_, .refl _⟩
    intro other placed
    by_cases isId : other = id
    · exact .inl (isId ▸ same.symm)
    · refine .inr ⟨⟨placed.1, ?_⟩, rfl⟩
      intro otherCut
      rw [here]
      rintro ⟨⟩
      exact isId rfl
  next newer =>
    obtain ⟨next, confirmed, moves⟩ := adopt_moves rfl sound published member cutEq here bounded
    exact ⟨next, confirmed, moves⟩

theorem publish_moves (here : thread.pc = .publish)
    : Moves safe thread [] [] { thread.publishFloor with pc := .idle } := by
  rw [publishFloor_eq thread sound.mirror]
  refine ⟨⟨{ sound.links with }, sound.held, rfl⟩, rfl, ?_, .refl _⟩
  intro id placed
  exact .inr ⟨⟨placed.1, by simp [here]⟩, rfl⟩

/-- A change of a cut's flags outside its slot and value keeps a sound thread. -/
theorem modifyCut_moves (standing : thread.Standing) (id : Nat) (change : SnapshotCut → SnapshotCut)
    (inside : id < thread.cuts.length) (slot : ∀ cut, (change cut).slot = cut.slot)
    (snapshot : ∀ cut, (change cut).snapshot = cut.snapshot)
    (registered : (thread.cutAt id).slot ≠ none →
      (change (thread.cutAt id)).registered = (thread.cutAt id).registered)
    : Moves safe thread [] [] (thread.modifyCut id change) := by
  have changed := fun other => modifyCut_cutAt thread id other change inside
  have snapshots : ∀ other, ((thread.modifyCut id change).cutAt other).snapshot
      = (thread.cutAt other).snapshot := by
    intro other
    rw [changed]
    split
    next isId => rw [snapshot, isId]
    next => rfl
  have exclusiveEq : (thread.modifyCut id change).exclusive = thread.exclusive := by
    funext other
    simp [exclusive, snapshots]
  have activeEq : (thread.modifyCut id change).active = thread.active := by
    rw [active, exclusiveEq]
    rfl
  refine ⟨⟨?_, ?_, sound.mirror⟩, ?_, ?_, .refl _⟩
  · refine sound.links.of_cuts (by simp) rfl fun other bound => ?_
    refine ⟨?_, ?_, ?_⟩
    · rw [changed]
      split
      next isId => rw [slot, isId]
      next => rfl
    · rw [snapshots]
      exact sound.links.loaded other bound
    · intro linked
      rw [changed]
      split
      next isId =>
        rw [isId] at linked ⊢
        exact registered linked
      next => rfl
  · rw [activeEq]
    exact sound.held
  · unfold Standing at standing ⊢
    rw [exclusiveEq, activeEq]
    exact standing
  · intro other placed
    exact .inr ⟨placed, snapshots other⟩

end

/-- Facts a removal loop carries: links, counts, the untouched words, the old values of the cuts,
and an unresolved set that has lost exactly the cuts `gone`.
-/
structure Removes (safe : Nat) (thread : IoThread) (gone : List Nat) (next : IoThread)
    : Prop where
  links : next.Links safe
  counts : next.held.Counts next.active
  mirror : next.readFloor = next.published
  pc : next.pc = thread.pc
  length : next.cuts.length = thread.cuts.length
  taken : (gone ++ next.unresolved).Perm thread.unresolved
  values : ∀ id, (next.cutAt id).snapshot = (thread.cutAt id).snapshot
    ∧ (next.cutAt id).complete = (thread.cutAt id).complete

theorem Removes.refl (links : thread.Links safe) (counts : thread.held.Counts thread.active)
    (mirror : thread.readFloor = thread.published)
    : Removes safe thread [] thread :=
  ⟨links, counts, mirror, rfl, rfl, .refl _, fun _ => ⟨rfl, rfl⟩⟩

theorem Removes.trans {first second third : IoThread} {goneFirst goneSecond : List Nat}
    (front : Removes safe first goneFirst second) (back : Removes safe second goneSecond third)
    : Removes safe first (goneFirst ++ goneSecond) third :=
  ⟨back.links, back.counts, back.mirror, back.pc.trans front.pc,
    back.length.trans front.length,
    append_assoc .. ▸ (back.taken.append_left goneFirst).trans front.taken,
    fun id => ⟨(back.values id).1.trans (front.values id).1,
      (back.values id).2.trans (front.values id).2⟩⟩

theorem swapOut_frame (thread : IoThread) (slot id : Nat)
    : (thread.swapOut slot id).pc = thread.pc
        ∧ (thread.swapOut slot id).held = thread.held
        ∧ (thread.swapOut slot id).readFloor = thread.readFloor
        ∧ (thread.swapOut slot id).published = thread.published
        ∧ (thread.swapOut slot id).cuts.length = thread.cuts.length := by
  unfold swapOut
  split
  · exact ⟨rfl, rfl, rfl, rfl, rfl⟩
  · exact ⟨rfl, rfl, rfl, rfl, by simp⟩

/-- Taking one cut out of the set with its reference never aborts. -/
theorem release_swapOut (links : thread.Links safe) (counts : thread.held.Counts thread.active)
    (mirror : thread.readFloor = thread.published) {slot : Nat}
    (found : thread.unresolved[slot]? = some id)
    : ∃ held, thread.held.release (thread.exclusive id) = some held
        ∧ Removes safe thread [id] ({ thread with held }.swapOut slot id)
        ∧ (({ thread with held }.swapOut slot id).cutAt id).slot = none := by
  have linksOf : ∀ held, ({ thread with held } : IoThread).Links safe :=
    fun _ => { links with }
  have perm := (swapRemove_perm found).map thread.exclusive
  obtain ⟨held, released, left⟩ := (counts.perm perm.symm).release
  obtain ⟨linksAfter, taken, values, unlinked⟩ := (linksOf held).swapOut found
  obtain ⟨pcEq, heldEq, readEq, publishedEq, lengthEq⟩ :=
    swapOut_frame { thread with held } slot id
  refine ⟨held, released, ⟨linksAfter, ?_, ?_, pcEq, lengthEq, taken, values⟩, unlinked⟩
  · have activeEq : ({ thread with held }.swapOut slot id).active
        = (swapRemove thread.unresolved slot).map thread.exclusive := by
      rw [active, swapOut_unresolved]
      refine map_congr_left fun other _ => ?_
      exact congrArg snapshotExclusiveFloor (values other).1
    rw [heldEq, activeEq]
    exact left
  · rw [readEq, publishedEq]
    exact mirror

/-- The loop takes out of the set exactly the cuts it sees answered.
Witness: induction over the turns; no cut in front of the index is answered.
-/
theorem refreshLoop_removes (stale : List Nat) (fuel index : Nat)
    (thread : IoThread) (links : thread.Links safe) (counts : thread.held.Counts thread.active)
    (mirror : thread.readFloor = thread.published)
    (passed : ∀ other id, other < index → thread.unresolved[other]? = some id →
      thread.answered stale id = false)
    (enough : thread.unresolved.length ≤ index + fuel)
    : ∃ next gone, refreshLoop stale fuel index thread = some next
        ∧ Removes safe thread gone next
        ∧ (∀ id ∈ gone, thread.answered stale id = true)
        ∧ ∀ id ∈ next.unresolved, thread.answered stale id = false := by
  have stop {index : Nat} {thread : IoThread} (short : thread.unresolved.length ≤ index)
      (passed : ∀ other id, other < index → thread.unresolved[other]? = some id →
        thread.answered stale id = false)
      : ∀ id ∈ thread.unresolved, thread.answered stale id = false := by
    intro id member
    obtain ⟨other, found⟩ := mem_iff_getElem?.mp member
    have bound := (List.getElem?_eq_some_iff.mp found).1
    exact passed other id (by omega) found
  induction fuel generalizing index thread with
  | zero => exact ⟨thread, [], rfl, .refl links counts mirror, by simp, stop enough passed⟩
  | succ fuel ih =>
    unfold refreshLoop
    cases found : thread.unresolved[index]? with
    | none =>
      exact ⟨thread, [], rfl, .refl links counts mirror, by simp,
        stop (getElem?_eq_none_iff.mp found) passed⟩
    | some id =>
      have bound := (List.getElem?_eq_some_iff.mp found).1
      dsimp only
      split
      next done =>
        obtain ⟨held, released, removes, -⟩ := release_swapOut links counts mirror found
        have same : ∀ other, ({ thread with held }.swapOut index id).answered stale other
            = thread.answered stale other := by
          intro other
          rw [answered, answered, (removes.values other).2]
        obtain ⟨next, gone, loop, rest, all, none_left⟩ := ih index _ removes.links removes.counts
          removes.mirror
          (by
            intro other cut before placed
            rw [swapOut_unresolved, swapRemove_getElem? bound, if_pos (by omega),
              if_neg (by omega)] at placed
            rw [same]
            exact passed other cut before placed)
          (by have := removes.taken.length_eq; simp at this; omega)
        refine ⟨next, id :: gone, ?_, removes.trans rest, ?_, ?_⟩
        · rw [released]
          exact loop
        · exact forall_mem_cons.mpr ⟨done, fun other member => same other ▸ all other member⟩
        · exact fun other member => same other ▸ none_left other member
      next unanswered =>
        refine ih (index + 1) thread links counts mirror (fun other cut before placed => ?_)
          (by omega)
        by_cases here : other = index
        · cases found.symm.trans (here ▸ placed)
          exact Bool.eq_false_iff.mpr unanswered
        · exact passed other cut (by omega) placed

/-- A removal followed by settle-and-publish moves an idle thread. -/
theorem Removes.moves {next : IoThread} {gone taken : List Nat}
    (removes : Removes safe thread gone next) (same : gone.Perm taken)
    (idle : thread.pc = .idle) (bounded : safe < uint64Max)
    : Moves safe thread [] taken next.settle.publishFloor := by
  obtain ⟨sound, standing⟩ := settle_publish removes.links removes.counts removes.mirror
    (removes.pc.trans idle) bounded
  obtain ⟨held, settled⟩ := next.settle_eq
  rw [settled, publishFloor_eq { next with held } removes.mirror] at sound standing ⊢
  refine ⟨sound, standing, ?_, ?_⟩
  · intro id placed
    have member := removes.taken.mem_iff.mp (mem_append_right _ placed.1)
    exact .inr ⟨⟨member, by simp [idle]⟩, (removes.values id).1⟩
  · rw [append_nil]
    exact ((same.symm.append_left _).trans perm_append_comm).trans removes.taken

theorem refresh_moves (sound : thread.Sound safe)
    (standing : thread.Standing) (idle : thread.pc = .idle) (stale : List Nat)
    (bounded : safe < uint64Max)
    : ∃ next, thread.refresh stale = some next
        ∧ Moves safe thread [] (thread.completed stale) next := by
  unfold refresh completed
  split
  · exact ⟨thread, rfl, .refl sound standing⟩
  · obtain ⟨next, gone, loop, removes, all, none_left⟩ := refreshLoop_removes stale
      thread.unresolved.length 0 { thread with observed := thread.completions }
      { sound.links with }
      sound.held.toCounts sound.mirror (fun _ _ before => absurd before (Nat.not_lt_zero _))
      (Nat.le_add_left ..)
    have removes : Removes safe thread gone next := { removes with }
    have done : gone.filter (thread.answered stale) = gone := filter_eq_self.mpr all
    have open_ : next.unresolved.filter (thread.answered stale) = [] :=
      filter_eq_nil_iff.mpr fun id member => Bool.eq_false_iff.mp (none_left id member)
    have split := removes.taken.filter (thread.answered stale)
    rw [filter_append, done, open_, append_nil] at split
    refine ⟨_, ?_, removes.moves split idle bounded⟩
    rw [loop]
    rfl

/-- The cut is found through its slot. -/
theorem detach_removes (sound : thread.Sound safe) (inside : id < thread.cuts.length)
    : ∃ detached, thread.detach id = some detached
        ∧ Removes safe thread (thread.unresolved.filter (· = id)) detached
        ∧ (detached.cutAt id).slot = none := by
  unfold detach
  cases linked : (thread.cutAt id).slot with
  | none =>
    have absent : id ∉ thread.unresolved := by
      intro member
      obtain ⟨slot, found⟩ := mem_iff_getElem?.mp member
      rw [((sound.links.slots slot id).mp found).2] at linked
      cases linked
    rw [filter_eq, count_eq_zero_of_not_mem absent]
    exact ⟨thread, rfl, .refl sound.links sound.held.toCounts sound.mirror, linked⟩
  | some slot =>
    have found := (sound.links.slots slot id).mpr ⟨inside, linked⟩
    obtain ⟨held, released, removes, unlinked⟩ :=
      release_swapOut sound.links sound.held.toCounts sound.mirror found
    rw [filter_eq, count_eq_one_of_mem sound.links.nodup (mem_of_getElem? found)]
    refine ⟨_, ?_, removes, unlinked⟩
    dsimp only
    rw [if_pos found, released]
    rfl

/-- An unlinked cut may lose its registration flag. -/
theorem Removes.clear {detached : IoThread} {gone : List Nat}
    (removes : Removes safe thread gone detached) (inside : id < detached.cuts.length)
    (unlinked : (detached.cutAt id).slot = none)
    : Removes safe thread gone
        (detached.modifyCut id (fun state => { state with registered := false })) := by
  have changed := fun other => modifyCut_cutAt detached id other
    (fun state => { state with registered := false }) inside
  have values : ∀ other, ((detached.modifyCut id (fun state =>
      { state with registered := false })).cutAt other).snapshot = (detached.cutAt other).snapshot
      ∧ ((detached.modifyCut id (fun state =>
        { state with registered := false })).cutAt other).complete
        = (detached.cutAt other).complete := by
    intro other
    rw [changed]
    split
    next isId => rw [isId]; exact ⟨rfl, rfl⟩
    next => exact ⟨rfl, rfl⟩
  have activeEq : (detached.modifyCut id (fun state =>
      { state with registered := false })).active = detached.active := by
    refine map_congr_left fun other _ => ?_
    simp [exclusive, values]
  refine ⟨?_, ?_, removes.mirror, removes.pc, by simp [removes.length], removes.taken,
    fun other => ⟨(values other).1.trans (removes.values other).1,
      (values other).2.trans (removes.values other).2⟩⟩
  · refine removes.links.of_cuts (by simp) rfl fun other bound => ?_
    refine ⟨?_, ?_, ?_⟩
    · rw [changed]
      split
      next isId => rw [isId]
      next => rfl
    · rw [(values other).1]
      exact removes.links.loaded other bound
    · intro linked
      rw [changed, if_neg]
      rintro rfl
      exact linked unlinked
  · rw [activeEq]
    exact removes.counts

variable (sound : thread.Sound safe) (standing : thread.Standing)

include sound standing

/-- An unregistered cut leaves the set if it is still there. -/
theorem unregister_moves (idle : thread.pc = .idle) (id : Nat) (bounded : safe < uint64Max)
    : ∃ next, thread.unregister id = some next
        ∧ Moves safe thread [] (thread.unresolved.filter (· = id)) next := by
  unfold unregister
  split
  next registered =>
    have inside : id < thread.cuts.length := by
      by_contra outside
      rw [cutAt_eq, getElem?_eq_none (by omega)] at registered
      simp at registered
    obtain ⟨detached, detachEq, removes, unlinked⟩ := detach_removes sound inside
    have cleared := removes.clear (by rw [removes.length]; exact inside) unlinked
    refine ⟨_, ?_, cleared.moves (.refl _) idle bounded⟩
    rw [detachEq]
    rfl
  next unregistered =>
    have absent : id ∉ thread.unresolved := by
      intro member
      obtain ⟨slot, found⟩ := mem_iff_getElem?.mp member
      obtain ⟨inside, linked⟩ := (sound.links.slots slot id).mp found
      exact unregistered (sound.links.registered id slot inside linked)
    rw [filter_eq, count_eq_zero_of_not_mem absent]
    exact ⟨thread, rfl, .refl sound standing⟩

theorem openCut_moves (idle : thread.pc = .idle) (snapshot : Nat) (loaded : snapshot ≤ safe)
    : Moves safe thread [] []
        { thread with cuts := thread.cuts ++ [⟨snapshot, none, false, false⟩] } := by
  have old : ∀ id ∈ thread.unresolved,
      ({ thread with cuts := thread.cuts ++ [⟨snapshot, none, false, false⟩] }
        : IoThread).cutAt id = thread.cutAt id := by
    intro id member
    simp [cutAt_eq, getElem?_append_left (sound.links.inside member)]
  have activeEq : ({ thread with cuts := thread.cuts ++ [⟨snapshot, none, false, false⟩] }
      : IoThread).active = thread.active := by
    refine map_congr_left fun id member => ?_
    simp [exclusive, old id member]
  refine ⟨⟨sound.links.openCut snapshot loaded, ?_, sound.mirror⟩, ?_, ?_, .refl _⟩
  · rw [activeEq]
    exact sound.held
  · simpa [Standing, idle] using standing
  · intro id placed
    exact .inr ⟨⟨placed.1, placed.2⟩, by rw [old id placed.1]⟩

/-- The published word of a sound thread is below the successor of each of its cuts. -/
theorem Sound.readFloor_le (bounded : safe < uint64Max) (member : id ∈ thread.unresolved)
    : thread.readFloor ≤ (thread.cutAt id).snapshot + 1 := by
  have inActive : thread.exclusive id ∈ thread.active := mem_map_of_mem member
  have loaded := sound.links.loaded id (sound.links.inside member)
  have exclusiveEq : thread.exclusive id = (thread.cutAt id).snapshot + 1 :=
    snapshotExclusiveFloor_lt _ (by omega)
  have low := sound.held.low _ inActive
  rw [sound.mirror]
  unfold Standing at standing
  split at standing
  · omega
  · omega
  · have := standing _ inActive
    omega

theorem complete_moves (id : Nat)
    : Moves safe thread [] [] (if (thread.cutAt id).complete then thread
        else
          { thread.modifyCut id (fun cut => { cut with complete := true }) with
            completions := thread.completions + 1 }) := by
  split
  · exact .refl sound standing
  · by_cases inside : id < thread.cuts.length
    · have moves := modifyCut_moves sound standing id
        (fun cut => { cut with complete := true }) inside (fun _ => rfl) (fun _ => rfl)
        (fun _ => rfl)
      exact { moves with
        sound := ⟨{ moves.sound.links with }, moves.sound.held, moves.sound.mirror⟩ }
    · have same : thread.modifyCut id (fun cut => { cut with complete := true }) = thread := by
        simp [modifyCut, modify_eq_self (Nat.le_of_not_lt inside)]
      rw [same]
      exact ⟨⟨{ sound.links with }, sound.held, sound.mirror⟩, standing,
        fun id placed => .inr ⟨placed, rfl⟩, .refl _⟩

/-- Between calls the published word is the successor of the lowest cut. -/
theorem Sound.idle_exact (idle : thread.pc = .idle) (bounded : safe < uint64Max)
    : thread.readFloor
          = ((thread.unresolved.map fun id => (thread.cutAt id).snapshot).min?).elim
              uint64Max (· + 1)
        ∧ thread.held.refs = (thread.unresolved.map fun id =>
            (thread.cutAt id).snapshot + 1).count thread.readFloor := by
  have published : thread.published = thread.held.floor := by
    simpa [Standing, idle] using standing
  have activeEq : thread.active
      = thread.unresolved.map (fun id => (thread.cutAt id).snapshot + 1) := by
    refine map_congr_left fun id member => ?_
    have loaded := sound.links.loaded id (sound.links.inside member)
    exact snapshotExclusiveFloor_lt _ (by omega)
  have floorEq := sound.held.floor_eq_min
  refine ⟨?_, ?_⟩
  · rw [sound.mirror, published, floorEq, activeEq]
    cases lowest : (thread.unresolved.map fun id => (thread.cutAt id).snapshot).min? with
    | none =>
      have empty : thread.unresolved = [] := by
        simpa using min?_eq_none_iff.mp lowest
      simp [empty]
    | some snapshot =>
      obtain ⟨member, below⟩ := min?_eq_some_iff.mp lowest
      have successor : (thread.unresolved.map fun id =>
          (thread.cutAt id).snapshot + 1).min? = some (snapshot + 1) := by
        rw [min?_eq_some_iff]
        refine ⟨?_, ?_⟩
        · obtain ⟨id, inside, rfl⟩ := mem_map.mp member
          exact mem_map_of_mem (f := fun id => (thread.cutAt id).snapshot + 1) inside
        · intro other inside
          obtain ⟨id, placed, rfl⟩ := mem_map.mp inside
          have := below _ (mem_map_of_mem (f := fun id => (thread.cutAt id).snapshot)
            placed)
          omega
      rw [successor]
      rfl
  · rw [sound.mirror, published, sound.held.refs, activeEq]

end IoThread

end Thredis.Cmd
