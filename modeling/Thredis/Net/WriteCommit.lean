import Thredis.Net.WriteProbe

/-! The commit of a staged write when the next frame is acquired: the candidate of a published
frame moves into the ring or into the conservative generation, that of an abandoned frame is
dropped.
-/

namespace Thredis.Net

variable {rob : Rob} {state : ReadLocalRobState} {bound : Nat} {write : Write}

section

variable (agrees : RingAgrees rob state bound)

include agrees

/-- Ids in order, all in flight, are at least as far from the frontier as their place. -/
theorem RingAgrees.entry_ge (window : rob.flush.toNat ≤ rob.dispatch.toNat)
    (active : ∀ i < state.writeCount, rob.idActive (state.entry i).opId = true) (i : Nat)
    (inside : i < state.writeCount) : rob.flush.toNat + i ≤ (state.entry i).opId.toNat := by
  induction i with
  | zero =>
    have first := active 0 inside
    rw [Rob.idActive, readLocalIdActive_iff window] at first
    omega
  | succ i ih =>
    have ordered := agrees.ordered i (i + 1) (Nat.lt_succ_self i) inside
    omega

/-- A pruned ring has room for the candidate of an operation in flight. -/
theorem RingAgrees.room (window : rob.flush.toNat ≤ rob.dispatch.toNat)
    (near : bound < rob.flush.toNat + 64)
    (active : ∀ i < state.writeCount, rob.idActive (state.entry i).opId = true)
    : state.writeCount < 64 := by
  by_contra full
  have last := agrees.entry_ge window active (state.writeCount - 1) (by omega)
  have below := agrees.below (state.writeCount - 1) (by omega)
  omega

def ReadLocalRobState.unparked (state : ReadLocalRobState) : ReadLocalRobState :=
  { state with pendingWrite := .none }

theorem RingAgrees.unparked
    : RingAgrees rob.unstaged state.unparked bound :=
  { agrees with
    staged := ⟨nofun, absurd rfl⟩
    inactive := fun idle => ⟨(agrees.inactive idle).1, (agrees.inactive idle).2.1, rfl⟩
    pending := fun parked => absurd rfl parked }

theorem RingAgrees.weaken {bound' : Nat} (above : bound ≤ bound')
    (clear : state.pendingWrite = .none)
    : RingAgrees rob state bound' :=
  { agrees with
    below := fun i inside => (agrees.below i inside).trans_le above
    generation := fun overflowed =>
      ⟨(agrees.generation overflowed).1, Nat.lt_of_lt_of_le (agrees.generation overflowed).2 above⟩
    pending := fun parked => absurd clear parked }

end

/-- What is tracked without the candidate is tracked, and the candidate's own write is the
one described by it.
-/
theorem Tracked.unparked (tracked : Tracked rob state write)
    : Tracked rob.unstaged state.unparked write
      ∨ state.pendingOpId = write.id
        ∧ Describes rob write state.pendingHash state.pendingWrite := by
  cases tracked with
  | parked named described => exact .inr ⟨named, described⟩
  | generation live covered => exact .inl (.generation live covered)
  | entry i inside named described =>
    have same : rob.unstaged.ops = rob.ops := rfl
    exact .inl (.entry i inside named ((describes_congr same _ _).mpr described))

/-- A commit keeps the summaries in agreement and every write in flight tracked. -/
structure Committed (rob : Rob) (state : ReadLocalRobState) (rob' : Rob)
    (after : ReadLocalRobState) : Prop where
  frontier : SameFrontier rob rob'
  agrees : RingAgrees rob' after rob.dispatch.toNat
  clear : after.pendingWrite = .none
  kept : ∀ write, rob.idActive write.id = true → Tracked rob state write → Tracked rob' after write

/-- Nothing tracked is younger than the frame. -/
theorem Tracked.id_le (agrees : RingAgrees rob state bound) (tracked : Tracked rob state write)
    : write.id.toNat ≤ bound := by
  cases tracked with
  | parked named described =>
    have parked : state.pendingWrite ≠ .none := fun clear => by
      rw [clear] at described
      exact described
    rw [← named, agrees.pending parked]
  | generation live covered =>
    have below := (agrees.generation live).2
    omega
  | entry i inside named described =>
    have below := agrees.below i inside
    rw [← named]
    omega

/-- A new entry behind the others loses none of them. -/
theorem Tracked.pushed {rob' : Rob} {after : ReadLocalRobState} {pending : PendingWrite}
    {hash opId : BitVec 64} (pushed : Pushed state pending hash opId after)
    (exact : state.overflow = false) (clear : state.pendingWrite = .none)
    (ops : rob'.ops = rob.ops) (tracked : Tracked rob state write) : Tracked rob' after write := by
  cases tracked with
  | parked named described => rw [clear] at described; exact described.elim
  | generation live covered => rw [exact] at live; cases live
  | entry i inside named described =>
    obtain ⟨entry, kind⟩ := pushed.entry i inside
    have count := pushed.count
    refine .entry i (by omega) (by rw [entry]; exact named) ((describes_congr ops _ _).mpr ?_)
    rw [entry, ReadLocalRobState.kindAt, kind]
    exact described

/-- The new entry stands for the candidate's write. -/
theorem Pushed.tracked {rob' : Rob} {after : ReadLocalRobState} {pending : PendingWrite}
    {hash opId : BitVec 64} (pushed : Pushed state pending hash opId after)
    (precise : pending = .hash ∨ pending = .keyset) (ops : rob'.ops = rob.ops)
    (named : opId = write.id) (described : Describes rob write hash pending)
    : Tracked rob' after write := by
  obtain ⟨entry, kind⟩ := pushed.last
  have count := pushed.count
  refine .entry state.writeCount (by omega) (by rw [entry]; exact named)
    ((describes_congr ops _ _).mpr ?_)
  rw [entry, ReadLocalRobState.kindAt, kind]
  rcases precise with rfl | rfl
  · exact described
  · exact described

/-- Resolving the candidate of the last frame. -/
theorem RingAgrees.resolve (agrees : RingAgrees rob state bound)
    (window : rob.flush.toNat ≤ rob.dispatch.toNat)
    (narrow : rob.dispatch.toNat ≤ rob.flush.toNat + 64) (within : bound ≤ rob.dispatch.toNat)
    (parked : state.pendingWrite ≠ .none)
    : Committed rob state (rob.unstaged.resolvePendingBody state).1
        (rob.unstaged.resolvePendingBody state).2 := by
  have frame := agrees.pending parked
  have awake : rob.inactive = false := by
    by_contra idle
    exact parked (agrees.inactive (by simpa using idle)).2.2
  have unparked := agrees.unparked
  have pruned := unparked.pruneAt window within
  rw [Rob.resolvePendingBody, if_neg parked]
  dsimp only
  -- what the sweep leaves is used through `Pruned` alone
  rw [ReadLocalRobState.unparked] at pruned
  generalize rob.unstaged.pruneAt { state with pendingWrite := .none } = swept at pruned
  split
  · rename_i inactive
    refine ⟨⟨rfl, rfl, rfl, rfl, rfl⟩, unparked.weaken within rfl, rfl,
      fun write flying tracked => ?_⟩
    rcases tracked.unparked with kept | ⟨named, -⟩
    · exact kept
    · have active : rob.unstaged.idActive state.pendingOpId = true := by
        rw [named]
        exact flying
      simp [active] at inactive
  · rename_i notInactive
    have seen : rob.unstaged.idActive state.pendingOpId = true := by simpa using notInactive
    have active : rob.flush.toNat ≤ bound ∧ bound < rob.dispatch.toNat := by
      rw [← frame, ← readLocalIdActive_iff window]
      exact seen
    have clear := pruned.candidate.1
    have awake' : swept.1.inactive = false := by
      rw [pruned.lane]
      exact awake
    have lane : SameFrontier rob swept.1 := by
      refine ⟨?_, ?_, ?_, ?_, ?_⟩ <;> rw [pruned.lane] <;> rfl
    split
    · have joined : SameFrontier rob (swept.1.joinOverflow swept.2 state.pendingOpId).1 := by
        rw [Rob.joinOverflow]
        split
        · exact lane
        · exact { lane with }
      refine ⟨joined, pruned.agrees.joinOverflow clear awake' frame active.2, clear,
        fun write flying tracked => .generation rfl ?_⟩
      have younger := tracked.id_le agrees
      rw [← frame] at younger
      exact younger
    · rename_i precise
      simp only [Bool.or_eq_true, beq_iff_eq, not_or, Bool.not_eq_true] at precise
      have ready : swept.1.flush.toNat ≤ swept.1.dispatch.toNat := by
        rw [lane.dispatch, lane.flush]
        exact window
      have inFlight : ∀ i < swept.2.writeCount, swept.1.idActive (swept.2.entry i).opId = true := by
        intro i inside
        rw [Rob.idActive, lane.dispatch, lane.flush]
        exact pruned.active i inside
      have room := pruned.agrees.room ready (by rw [lane.flush]; omega) inFlight
      have pushed := pruned.agrees.pushed room state.pendingWrite state.pendingHash
        state.pendingOpId
      have kind : state.pendingWrite = .hash ∨ state.pendingWrite = .keyset := by
        cases shape : state.pendingWrite with
        | none => exact absurd shape parked
        | overflow => exact absurd shape precise.2
        | hash => exact .inl rfl
        | keyset => exact .inr rfl
      have ops := lane.ops
      refine ⟨{ lane with },
        pruned.agrees.pushEntry room precise.1 clear awake' _ _ frame active.2, clear,
        fun write flying tracked => ?_⟩
      rcases tracked.unparked with rest | ⟨named, described⟩
      · have kept := rest.pruned unparked window within (.inl flying) pruned
        have sameOps : (swept.1.pushEntry swept.2 state.pendingWrite state.pendingHash
            state.pendingOpId).1.ops = swept.1.ops := rfl
        exact kept.pushed pushed precise.1 clear sameOps
      · exact pushed.tracked kind ops named described

end Thredis.Net
