import Thredis.Net.WriteCommit

/-! The lane of a connection through one call each: settling the last frame's candidate,
marking a write with its refinement, and probing past the arming fence. Each call keeps the
summaries in agreement with the ring and loses no write that is still needed.
-/

namespace Thredis.Net
open Option

variable {rob : Rob} {state : ReadLocalRobState} {bound : Nat} {write : Write}

/-- The ring and every summary of it agree; without a sidecar there is nothing to summarise. -/
def LaneAgrees (rob : Rob) (bound : Nat) : Prop :=
  match rob.state with
  | none => rob.valid = 0#64 ∧ rob.wide = 0#64 ∧ rob.force = false ∧ rob.staged = false
      ∧ rob.inactive = false
  | some state => RingAgrees rob state bound

variable {rob' : Rob}

theorem LaneAgrees.of_same (agrees : LaneAgrees rob bound) (state : rob'.state = rob.state)
    (summaries : rob'.valid = rob.valid ∧ rob'.wide = rob.wide ∧ rob'.force = rob.force
      ∧ rob'.staged = rob.staged ∧ rob'.inactive = rob.inactive)
    : LaneAgrees rob' bound := by
  obtain ⟨valid, wide, force, staged, inactive⟩ := summaries
  rw [LaneAgrees] at agrees ⊢
  rw [state]
  cases there : rob.state with
  | none =>
    rw [there] at agrees
    rw [valid, wide, force, staged, inactive]
    exact agrees
  | some side =>
    rw [there] at agrees
    exact { agrees with
        valid := by rw [valid]; exact agrees.valid
        wide := by rw [wide]; exact agrees.wide
        keyset := by rw [valid]; exact agrees.keyset
        force := by rw [force]; exact agrees.force
        staged := by rw [staged]; exact agrees.staged
        inactive := by rw [inactive]; exact agrees.inactive }

/-- Settling the last frame's candidate leaves a lane that agrees up to the next id and keeps
every write in flight.
-/
structure Settled (rob rob' : Rob) : Prop where
  frontier : SameFrontier rob rob'
  agrees : LaneAgrees rob' rob.dispatch.toNat
  kept : ∀ write state, rob.idActive write.id = true → rob.state = some state
    → Tracked rob state write → ∃ after, rob'.state = some after ∧ Tracked rob' after write

theorem LaneAgrees.settled (agrees : LaneAgrees rob bound)
    (window : rob.flush.toNat ≤ rob.dispatch.toNat)
    (narrow : rob.dispatch.toNat ≤ rob.flush.toNat + 64) (within : bound ≤ rob.dispatch.toNat)
    : Settled rob (if rob.staged then rob.resolveReadLocalWrite else rob) := by
  rw [LaneAgrees] at agrees
  cases there : rob.state with
  | none =>
    rw [there] at agrees
    rw [if_neg (by simp [agrees.2.2.2.1])]
    refine ⟨⟨rfl, rfl, rfl, rfl, rfl⟩, ?_, fun _ _ _ found => ?_⟩
    · rw [LaneAgrees, there]
      exact agrees
    · rw [there] at found
      cases found
  | some state =>
    rw [there] at agrees
    by_cases staged : rob.staged = true
    · have parked := agrees.staged.mp staged
      have committed := agrees.resolve window narrow within parked
      obtain ⟨frontier, -⟩ := tryDeactivate_frontier (rob.unstaged.resolvePendingBody state).1
        (rob.unstaged.resolvePendingBody state).2
      rw [if_pos staged, Rob.resolveReadLocalWrite, there]
      refine ⟨⟨?_, ?_, ?_, ?_, ?_⟩, ?_, fun write old flying found tracked => ?_⟩
      · exact frontier.dispatch.trans committed.frontier.dispatch
      · exact frontier.flush.trans committed.frontier.flush
      · exact frontier.ops.trans committed.frontier.ops
      · exact frontier.armState.trans committed.frontier.armState
      · exact frontier.unarmedWriteId.trans committed.frontier.unarmedWriteId
      · exact { committed.agrees.tryDeactivate with }
      · cases there.symm.trans found
        exact ⟨_, rfl, (committed.kept write flying tracked).of_ops frontier.ops⟩
    · have clear : state.pendingWrite = .none := by
        by_contra parked
        exact staged (agrees.staged.mpr parked)
      rw [if_neg staged]
      refine ⟨⟨rfl, rfl, rfl, rfl, rfl⟩, ?_, fun write old flying found tracked => ?_⟩
      · rw [LaneAgrees, there]
        exact agrees.weaken within clear
      · exact ⟨old, found, tracked⟩

def ReadLocalRobState.park (state : ReadLocalRobState) (pending : PendingWrite)
    (hash opId : BitVec 64) : ReadLocalRobState :=
  { state with pendingOpId := opId, pendingHash := hash, pendingWrite := pending }

variable {pending : PendingWrite}

theorem RingAgrees.park (agrees : RingAgrees rob state bound) (awake : rob.inactive = false)
    (real : pending ≠ .none) (hash : BitVec 64) {opId : BitVec 64} (current : opId.toNat = bound)
    : RingAgrees { rob with staged := true, state := some (state.park pending hash opId) }
        (state.park pending hash opId) bound :=
  { agrees with
    staged := ⟨fun _ => real, fun _ => rfl⟩
    inactive := fun idle => by
      have asleep := idle
      rw [awake] at asleep
      cases asleep
    pending := fun _ => current }

/-- Parking another candidate forgets only what the one before stood for. -/
theorem Tracked.park (tracked : Tracked rob state write) (ops : rob'.ops = rob.ops)
    (apart : state.pendingWrite = .none ∨ state.pendingOpId ≠ write.id)
    (pending : PendingWrite) (hash opId : BitVec 64)
    : Tracked rob' (state.park pending hash opId) write := by
  cases tracked with
  | parked named described =>
    rcases apart with clear | other
    · rw [clear] at described
      exact described.elim
    · exact absurd named other
  | generation live covered => exact .generation live covered
  | entry i inside named described =>
    exact .entry i inside named ((describes_congr ops _ _).mpr described)

/-- A candidate of the frame with the next id is parked, and every write in flight is kept. -/
structure Parked (rob rob' : Rob) (after : ReadLocalRobState) : Prop where
  frontier : SameFrontier rob rob'
  there : rob'.state = some after
  agrees : RingAgrees rob' after rob.dispatch.toNat
  awake : rob'.inactive = false
  parked : after.pendingWrite ≠ .none
  named : after.pendingOpId = rob.dispatch
  kept : ∀ other state, rob.idActive other.id = true → rob.state = some state
    → Tracked rob state other → Tracked rob' after other

/-- A fresh sidecar agrees with a lane that has none. -/
theorem RingAgrees.fresh (valid : rob.valid = 0#64) (wide : rob.wide = 0#64)
    (force : rob.force = false) (staged : rob.staged = false) (inactive : rob.inactive = false)
    (bound : Nat) : RingAgrees rob .init bound where
  ringLength := List.length_replicate
  tagLength := List.length_replicate
  head := by decide
  count := by decide
  ordered := nofun
  below := nofun
  tags := nofun
  valid := fun j _ => by simp [valid, ReadLocalRobState.init]
  wide
  keyset := fun j _ set => by simp [ReadLocalRobState.init] at set
  force
  generation := nofun
  staged := ⟨fun set => (by rw [staged] at set; cases set), absurd rfl⟩
  inactive := fun idle => by
    rw [inactive] at idle
    cases idle
  pending := fun parked => absurd rfl parked

variable {allocated : Bool}

/-- The sidecar a mark finds or allocates agrees, once awake, and keeps what was kept. -/
theorem LaneAgrees.sidecar (agrees : LaneAgrees rob bound)
    (found : rob.state.or (if allocated then some .init else none) = some state)
    : RingAgrees { rob with inactive := false } state bound
      ∧ ∀ old, rob.state = some old → old = state := by
  rw [LaneAgrees] at agrees
  cases there : rob.state with
  | none =>
    rw [there] at agrees found
    obtain ⟨valid, wide, force, staged, -⟩ := agrees
    have fresh : state = .init := by
      cases allocated with
      | true => exact (some.inj found).symm
      | false => cases found
    rw [fresh]
    refine ⟨?_, nofun⟩
    apply RingAgrees.fresh
    · exact valid
    · exact wide
    · exact force
    · exact staged
    · rfl
  | some old =>
    rw [there] at agrees found
    cases found
    exact ⟨{ agrees with inactive := nofun }, fun other same => (some.inj same).symm⟩

variable {after : ReadLocalRobState}

/-- Parking the frame's candidate in a pruned sidecar. -/
theorem Pruned.parked {pruned : Rob}
    (h : Pruned { rob with inactive := false } state rob.dispatch.toNat pruned after)
    (agrees : RingAgrees { rob with inactive := false } state rob.dispatch.toNat)
    (window : rob.flush.toNat ≤ rob.dispatch.toNat) (clear : state.pendingWrite = .none)
    (sole : ∀ old, rob.state = some old → old = state)
    : Parked rob { pruned with
          staged := true, state := some (after.park .overflow 0#64 rob.dispatch) }
        (after.park .overflow 0#64 rob.dispatch) := by
  have lane := h.lane
  have awake : pruned.inactive = false := by rw [lane]
  have ops : pruned.ops = rob.ops := by rw [lane]
  have real : PendingWrite.overflow ≠ .none := by decide
  refine ⟨⟨?_, ?_, ops, ?_, ?_⟩, rfl, h.agrees.park awake real 0#64 rfl, awake, real, rfl,
    fun other old flying there tracked => ?_⟩
  · rw [lane]
  · rw [lane]
  · rw [lane]
  · rw [lane]
  · obtain rfl := sole old there
    have before : Tracked { rob with inactive := false } old other := by
      refine Tracked.of_ops ?_ tracked
      rfl
    have kept := before.pruned agrees window le_rfl (.inl flying) h
    refine kept.park ?_ (.inl (h.candidate.1.trans clear)) _ _ _
    rfl

/-- The connection is, or becomes, unarmed, or the candidate is parked. -/
theorem LaneAgrees.markCurrentWrite
    (agrees : LaneAgrees rob rob.dispatch.toNat) (window : rob.flush.toNat ≤ rob.dispatch.toNat)
    (marked : rob.markCurrentWrite allocated = some rob')
    : rob' = { rob with armState := .unarmed, unarmedWriteId := rob.dispatch }
      ∨ rob.armState ≠ .unarmed
        ∧ ∃ after, Parked rob rob' after ∧ after.pendingWrite = .overflow := by
  rw [Rob.markCurrentWrite] at marked
  split at marked
  · exact .inl (some.inj marked).symm
  rename_i notUnarmed
  split at marked
  · exact .inl (some.inj marked).symm
  rename_i state found
  split at marked
  · cases marked
  rename_i clear
  obtain ⟨awake, sole⟩ := agrees.sidecar found
  have pruned := awake.prune window le_rfl
  have parked := pruned.parked awake window (by simpa using clear) sole
  rw [← some.inj marked]
  exact .inr ⟨notUnarmed, _, parked, rfl⟩

/-- The refinement makes the candidate precise, unless a generation is live. -/
theorem Parked.refine {marked : Rob}
    {hash : BitVec 64} (parked : Parked rob marked after) (armed : rob.armState ≠ .unarmed)
    (window : rob.flush.toNat ≤ rob.dispatch.toNat) (real : pending ≠ .none)
    (overflow : after.pendingWrite = .overflow) (refined : marked.refine pending hash = some rob')
    : ∃ later, Parked rob rob' later ∧ (later.pendingWrite = .overflow
        ∨ later.pendingWrite = pending ∧ later.pendingHash = hash) := by
  rw [Rob.refine, if_neg (by rw [parked.frontier.armState]; exact armed), parked.there] at refined
  dsimp only at refined
  split at refined
  · cases refined
  split at refined
  · cases refined
    exact ⟨after, parked, .inl overflow⟩
  cases refined
  have staged := parked.agrees.staged.mpr parked.parked
  have agrees := parked.agrees.park parked.awake real hash (congrArg BitVec.toNat parked.named)
  refine ⟨after.park pending hash after.pendingOpId,
    ⟨⟨?_, ?_, ?_, ?_, ?_⟩, rfl, ?_, parked.awake, real, parked.named,
      fun other old flying there tracked => ?_⟩, .inr ⟨rfl, rfl⟩⟩
  · exact parked.frontier.dispatch
  · exact parked.frontier.flush
  · exact parked.frontier.ops
  · exact parked.frontier.armState
  · exact parked.frontier.unarmedWriteId
  · exact { agrees with staged := ⟨fun _ => real, fun _ => staged⟩ }
  · refine (parked.kept other old flying there tracked).park ?_ (.inr ?_) _ _ _
    · rfl
    rw [Rob.idActive, readLocalIdActive_iff window] at flying
    rw [parked.named]
    intro same
    rw [← same] at flying
    omega

/-- A candidate that was not refined stands for any write of the frame. -/
theorem Parked.tracked_any
    (parked : Parked rob rob' after) (overflow : after.pendingWrite = .overflow)
    (keys : Option (List KeyHash)) : Tracked rob' after { id := rob.dispatch, keys } := by
  refine .parked parked.named ?_
  rw [overflow]
  trivial

/-- A refined candidate stands for the write that it describes. -/
theorem Parked.tracked (parked : Parked rob rob' after)
    {keys : Option (List KeyHash)} {hash : BitVec 64} (shape : after.pendingWrite = .overflow
      ∨ after.pendingWrite = pending ∧ after.pendingHash = hash)
    (described : Describes rob { id := rob.dispatch, keys } hash pending)
    : Tracked rob' after { id := rob.dispatch, keys } := by
  rcases shape with overflow | ⟨rfl, rfl⟩
  · exact parked.tracked_any overflow keys
  · exact .parked parked.named ((describes_congr parked.frontier.ops _ _).mpr described)

/-- Marking a write with its refinement: the frame becomes the arming fence, or the sidecar
keeps its write.
-/
theorem LaneAgrees.markWrite {keys : List KeyHash}
    {candidate : Candidate} (agrees : LaneAgrees rob rob.dispatch.toNat)
    (window : rob.flush.toNat ≤ rob.dispatch.toNat) (held : rob.opAt rob.dispatch = keys)
    (marked : Connection.markWrite rob keys allocated candidate = some rob')
    : rob' = { rob with armState := .unarmed, unarmedWriteId := rob.dispatch }
      ∨ ∃ after, Parked rob rob' after
        ∧ Tracked rob' after
          { id := rob.dispatch, keys := Connection.Candidate.keys keys candidate } := by
  cases candidate with
  | overflow =>
    rcases agrees.markCurrentWrite window marked with unarmed | ⟨-, after, parked, overflow⟩
    · exact .inl unarmed
    · exact .inr ⟨after, parked, parked.tracked_any overflow _⟩
  | hash hash =>
    obtain ⟨first, mark, refined⟩ := bind_eq_some_iff.mp marked
    rcases agrees.markCurrentWrite window mark with rfl | ⟨armed, after, parked, overflow⟩
    · exact .inl (some.inj refined).symm
    · obtain ⟨later, parked, shape⟩ := parked.refine armed window (by decide) overflow refined
      exact .inr ⟨later, parked, parked.tracked shape rfl⟩
  | keyset =>
    obtain ⟨first, mark, refined⟩ := bind_eq_some_iff.mp marked
    rw [Rob.refineCurrentWriteKeyset] at refined
    rcases agrees.markCurrentWrite window mark with rfl | ⟨armed, after, parked, overflow⟩
    · rw [Rob.refine, if_pos rfl, ite_self] at refined
      exact .inl (some.inj refined).symm
    · right
      split at refined
      · cases refined
        exact ⟨after, parked, parked.tracked_any overflow _⟩
      · obtain ⟨later, parked, shape⟩ := parked.refine armed window (by decide) overflow refined
        exact ⟨later, parked, parked.tracked shape ⟨keys, rfl, rfl, held⟩⟩

/-- A probe past the arming fence leaves a lane that agrees and keeps what is needed. -/
theorem LaneAgrees.probeState (agrees : LaneAgrees rob bound)
    (window : rob.flush.toNat ≤ rob.dispatch.toNat) (within : bound ≤ rob.dispatch.toNat)
    (hash : KeyHash)
    : SameFrontier rob (rob.probeState hash).2 ∧ LaneAgrees (rob.probeState hash).2 bound
      ∧ ∀ write state, rob.idActive write.id = true ∨ bound ≤ write.id.toNat
        → rob.state = some state → Tracked rob state write
        → ∃ after, (rob.probeState hash).2.state = some after
          ∧ Tracked (rob.probeState hash).2 after write := by
  cases there : rob.state with
  | none =>
    have same : rob.probeState hash = (false, rob) := by rw [Rob.probeState, there]
    rw [same]
    exact ⟨⟨rfl, rfl, rfl, rfl, rfl⟩, agrees, by simp⟩
  | some state =>
    rw [LaneAgrees, there] at agrees
    obtain ⟨frontier, after, found, agrees', kept⟩ :=
      LaneKept.probeState there agrees window within hash
    refine ⟨frontier, ?_, fun write old needed same tracked => ?_⟩
    · rw [LaneAgrees, found]
      exact agrees'
    · cases same
      exact ⟨after, found, kept write needed tracked⟩

end Thredis.Net
