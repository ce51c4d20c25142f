import Thredis.Net.ReadLocalRob

/-! The ring of in-flight writes and its summaries: what pruning, committing a candidate and
joining the conservative generation leave of the agreement between the ring, the tag mirror,
the slot bitmaps and the force flag.
-/

namespace Thredis.Net
open BitVec (toNat_sub getLsbD_and getLsbD_not getLsbD_or)

open ReadLocalRobState

variable {i j k : Nat}

theorem getLsbD_slotBit (inside : j < 64)
    : (slotBit i).getLsbD j = decide (i = j) := by
  rw [slotBit]
  by_cases same : i = j
  · subst same
    simp [inside]
  · rcases Nat.lt_or_ge j i with below | above
    · simp [below, same]
    · have apart : j - i ≠ 0 := by omega
      simp [apart, same]

/-- Two slot words with the same bits are equal. -/
theorem slots_ext {a b : BitVec 64} (same : ∀ j < 64, a.getLsbD j = true ↔ b.getLsbD j = true)
    : a = b :=
  BitVec.eq_of_getLsbD_eq (fun j inside => Bool.eq_iff_iff.mpr (same j inside))

theorem slots_eq_zero {a : BitVec 64} (none : ∀ j < 64, a.getLsbD j ≠ true) : a = 0#64 :=
  slots_ext (fun j inside => ⟨fun set => absurd set (none j inside), fun set => by simp at set⟩)

variable {opId : BitVec 64}

/-- While ids do not wrap, an id is active exactly inside the window. -/
theorem readLocalIdActive_iff {dispatch flush : BitVec 64} (window : flush.toNat ≤ dispatch.toNat)
    : readLocalIdActive opId dispatch flush = true
      ↔ flush.toNat ≤ opId.toNat ∧ opId.toNat < dispatch.toNat := by
  rw [readLocalIdActive, decide_eq_true_iff, BitVec.lt_def, toNat_sub, toNat_sub]
  omega

namespace ReadLocalRobState

variable (state : ReadLocalRobState)

def slotOf (i : Nat) : Nat :=
  (state.writeHead + i) % kWriteRingCapacity

def entry (i : Nat) : WriteKey :=
  state.writeRing.getD (state.slotOf i) default

theorem slotOf_lt (i : Nat) : state.slotOf i < 64 :=
  Nat.mod_lt _ (by decide)

/-- Entries less than a ring apart have different slots. -/
theorem slotOf_inj {state : ReadLocalRobState} {i j : Nat} (first : i < 64) (second : j < 64)
    (same : state.slotOf i = state.slotOf j) : i = j := by
  simp only [slotOf, kWriteRingCapacity, kRobWindow] at same
  omega

end ReadLocalRobState

-- Agreement

/-- The sidecar and its summaries agree, with every committed id below `bound`, the id of the
frame being parsed: the entries are in id order, the tag mirror and the bitmaps describe
exactly them, the force flag is the conservative generation, the staged bit is the parked
candidate, and the inactive bit is set only with nothing to find.
-/
structure RingAgrees (rob : Rob) (state : ReadLocalRobState) (bound : Nat) : Prop where
  ringLength : state.writeRing.length = 64
  tagLength : state.writeTags.length = 64
  head : state.writeHead < 64
  count : state.writeCount ≤ 64
  ordered : ∀ i j, i < j → j < state.writeCount
    → (state.entry i).opId.toNat < (state.entry j).opId.toNat
  below : ∀ i < state.writeCount, (state.entry i).opId.toNat < bound
  tags : ∀ i < state.writeCount,
    state.writeTags.getD (state.slotOf i) 0#16 = (state.entry i).hash.setWidth 16
  valid : ∀ j < 64, rob.valid.getLsbD j = true ↔ ∃ i < state.writeCount, j = state.slotOf i
  wide : rob.wide = state.writeKeysetSlots
  keyset : ∀ j < 64, state.writeKeysetSlots.getLsbD j = true → rob.valid.getLsbD j = true
  force : rob.force = state.overflow
  generation : state.overflow = true
    → state.writeCount = 0 ∧ state.overflowThrough.toNat < bound
  staged : rob.staged = true ↔ state.pendingWrite ≠ .none
  inactive : rob.inactive = true
    → state.overflow = false ∧ state.writeCount = 0 ∧ state.pendingWrite = .none
  pending : state.pendingWrite ≠ .none → state.pendingOpId.toNat = bound

/-- What the loop over retired entries leaves: `k` of them are gone. -/
structure Popped (rob : Rob) (state : ReadLocalRobState) (retired : BitVec 64)
    (after : ReadLocalRobState × BitVec 64) (k : Nat) : Prop where
  most : k ≤ state.writeCount
  shape : after.1 = { state with
    writeKeysetSlots := after.1.writeKeysetSlots
    writeHead := (state.writeHead + k) % kWriteRingCapacity
    writeCount := state.writeCount - k }
  keyset : ∀ j < 64, after.1.writeKeysetSlots.getLsbD j = true
    ↔ state.writeKeysetSlots.getLsbD j = true ∧ ∀ i < k, j ≠ state.slotOf i
  slots : ∀ j < 64, after.2.getLsbD j = true
    ↔ retired.getLsbD j = true ∨ ∃ i < k, j = state.slotOf i
  gone : ∀ i < k, rob.idActive (state.entry i).opId = false
  stops : k < state.writeCount → rob.idActive (state.entry k).opId = true

namespace ReadLocalRobState

variable (state : ReadLocalRobState)

def popHead : ReadLocalRobState :=
  { state with
    writeKeysetSlots := state.writeKeysetSlots &&& ~~~ slotBit state.writeHead
    writeHead := (state.writeHead + 1) % kWriteRingCapacity
    writeCount := state.writeCount - 1 }

theorem slotOf_popHead (i : Nat)
    : state.popHead.slotOf i = state.slotOf (i + 1) := by
  simp only [slotOf, popHead, Nat.mod_add_mod]
  congr 1
  omega

theorem entry_popHead (i : Nat)
    : state.popHead.entry i = state.entry (i + 1) := by
  rw [entry, slotOf_popHead]
  rfl

theorem slotOf_zero {state : ReadLocalRobState} (head : state.writeHead < 64)
    : state.slotOf 0 = state.writeHead :=
  Nat.mod_eq_of_lt head

end ReadLocalRobState

theorem Popped.none {rob : Rob} {state : ReadLocalRobState} (head : state.writeHead < 64)
    (retired : BitVec 64) (stops : 0 < state.writeCount → rob.idActive (state.entry 0).opId = true)
    : Popped rob state retired (state, retired) 0 := by
  have same : state.writeHead % kWriteRingCapacity = state.writeHead := Nat.mod_eq_of_lt head
  refine ⟨Nat.zero_le _, ?_, ?_, ?_, nofun, stops⟩
  · simp [same]
  · simp
  · simp

variable {after : ReadLocalRobState × BitVec 64}

/-- One more pop in front of those of the rest. -/
theorem Popped.cons {rob : Rob} {state : ReadLocalRobState} {retired : BitVec 64}
    (head : state.writeHead < 64)
    (some : 0 < state.writeCount) (first : rob.idActive (state.entry 0).opId = false)
    (rest : Popped rob state.popHead (retired ||| slotBit state.writeHead) after k)
    : Popped rob state retired after (k + 1) := by
  have zero := slotOf_zero head
  have most := rest.most
  have fewer : state.popHead.writeCount = state.writeCount - 1 := rfl
  refine ⟨by omega, ?_, fun j inside => ?_, fun j inside => ?_, fun i before => ?_, fun short => ?_⟩
  · rw [rest.shape]
    simp only [popHead, Nat.mod_add_mod]
    congr 1
    · congr 1
      omega
    · omega
  · rw [rest.keyset j inside]
    simp only [slotOf_popHead]
    simp only [popHead, getLsbD_and, getLsbD_not, inside,
      getLsbD_slotBit inside, decide_true, Bool.true_and, Bool.and_eq_true, Bool.not_eq_true',
      decide_eq_false_iff_not, and_assoc]
    refine and_congr_right (fun _ => ⟨fun ⟨apart, later⟩ i before => ?_, fun all => ⟨?_, ?_⟩⟩)
    · cases i with
      | zero => rw [zero]; exact fun same => apart same.symm
      | succ i => exact later i (by omega)
    · intro same
      exact all 0 (Nat.succ_pos k) (by rw [zero]; exact same.symm)
    · intro i before
      exact all (i + 1) (by omega)
  · rw [rest.slots j inside]
    simp only [slotOf_popHead, getLsbD_or, getLsbD_slotBit inside,
      Bool.or_eq_true, decide_eq_true_eq, or_assoc]
    refine or_congr_right ⟨fun later => ?_, fun ⟨i, before, same⟩ => ?_⟩
    · rcases later with same | ⟨i, before, same⟩
      · exact ⟨0, Nat.succ_pos k, by rw [zero]; exact same.symm⟩
      · exact ⟨i + 1, by omega, same⟩
    · cases i with
      | zero => exact .inl (by rw [same, zero])
      | succ i => exact .inr ⟨i, by omega, same⟩
  · cases i with
    | zero => exact first
    | succ i =>
      rw [← entry_popHead]
      exact rest.gone i (by omega)
  · rw [← entry_popHead]
    exact rest.stops (by omega)

/-- The loop pops exactly the retired entries in front.
Witness: induction over the entries left; each pop moves the head by one.
-/
theorem Rob.popRetired_popped (rob : Rob) {state : ReadLocalRobState} (head : state.writeHead < 64)
    (retired : BitVec 64)
    : ∃ k, Popped rob state retired (rob.popRetired state.writeCount state retired) k := by
  generalize left : state.writeCount = n
  induction n generalizing state retired with
  | zero => exact ⟨0, .none head retired (by omega)⟩
  | succ n ih =>
    have front : state.writeRing.getD state.writeHead default = state.entry 0 := by
      rw [entry, slotOf_zero head]
    rw [Rob.popRetired, front]
    split
    · rename_i active
      exact ⟨0, .none head retired (fun _ => active)⟩
    · rename_i inactive
      have next : state.popHead.writeHead < 64 := Nat.mod_lt _ (by decide)
      have fewer : state.popHead.writeCount = n := by
        rw [popHead, left]
        rfl
      obtain ⟨k, rest⟩ := ih next (retired ||| slotBit state.writeHead) fewer
      exact ⟨k + 1, .cons head (by omega) (by simpa using inactive) rest⟩

-- Pruning

/-- Only the summaries of the ring differ. -/
def SameLane (before after : Rob) : Prop :=
  after = { before with valid := after.valid, wide := after.wide, force := after.force }

/-- What pruning has done: the summaries still agree, the parked candidate is as it was, every
entry of an operation in flight is still there, and nothing else is.
-/
structure Pruned (rob : Rob) (state : ReadLocalRobState) (bound : Nat)
    (rob' : Rob) (after : ReadLocalRobState) : Prop where
  agrees : RingAgrees rob' after bound
  lane : SameLane rob rob'
  candidate : after.pendingWrite = state.pendingWrite ∧ after.pendingHash = state.pendingHash
    ∧ after.pendingOpId = state.pendingOpId
  generation : after.overflow = true → after = state ∧ rob.idActive state.overflowThrough = true
  lifted : after.overflow = false → state.overflow = true
    → rob.idActive state.overflowThrough = false
  active : ∀ i < after.writeCount, rob.idActive (after.entry i).opId = true
  kept : ∀ i < state.writeCount, rob.idActive (state.entry i).opId = true
    → ∃ i' < after.writeCount, after.entry i' = state.entry i
      ∧ (after.writeKeysetSlots.getLsbD (after.slotOf i')
        = state.writeKeysetSlots.getLsbD (state.slotOf i))

variable {rob : Rob} {state : ReadLocalRobState} {bound : Nat}

section

variable {retired : BitVec 64} (popped : Popped rob state retired after k)

include retired popped

theorem Popped.slotOf (i : Nat)
    : after.1.slotOf i = state.slotOf (k + i) := by
  rw [popped.shape]
  simp [ReadLocalRobState.slotOf, Nat.add_assoc]

theorem Popped.entry (i : Nat)
    : after.1.entry i = state.entry (k + i) := by
  rw [ReadLocalRobState.entry, ReadLocalRobState.entry, popped.slotOf]
  rw [popped.shape]

theorem Popped.count
    : after.1.writeCount = state.writeCount - k := by
  rw [popped.shape]

end

/-- In id order, everything behind an active entry is active. -/
theorem RingAgrees.active_after (agrees : RingAgrees rob state bound)
    (window : rob.flush.toNat ≤ rob.dispatch.toNat) (within : bound ≤ rob.dispatch.toNat)
    (behind : i ≤ j) (inside : j < state.writeCount)
    (active : rob.idActive (state.entry i).opId = true)
    : rob.idActive (state.entry j).opId = true := by
  rw [Rob.idActive, readLocalIdActive_iff window] at active ⊢
  have below := agrees.below j inside
  rcases Nat.lt_or_eq_of_le behind with before | rfl
  · have ordered := agrees.ordered i j before inside
    omega
  · omega

/-- The slots popped, as the loop reports them. -/
theorem Popped.retired (popped : Popped rob state 0#64 after k) (inside : j < 64)
    : (~~~ after.2).getLsbD j = true ↔ ∀ i < k, j ≠ state.slotOf i := by
  have bits := popped.slots j inside
  rw [getLsbD_not, Bool.and_eq_true, Bool.not_eq_true', ← Bool.not_eq_true, bits]
  simp [inside]

/-- Pruning a ring of which something is left. -/
theorem Popped.pruned (agrees : RingAgrees rob state bound) (exact : state.overflow = false)
    (window : rob.flush.toNat ≤ rob.dispatch.toNat) (within : bound ≤ rob.dispatch.toNat)
    (popped : Popped rob state 0#64 after k) (short : k < state.writeCount)
    : Pruned rob state bound
        { rob with valid := rob.valid &&& ~~~ after.2, wide := rob.wide &&& ~~~ after.2 }
        after.1 := by
  have count := popped.count
  have small := agrees.count
  have overflow : after.1.overflow = state.overflow := by rw [popped.shape]
  have pending : after.1.pendingWrite = state.pendingWrite := by rw [popped.shape]
  have pendingId : after.1.pendingOpId = state.pendingOpId := by rw [popped.shape]
  have hash : after.1.pendingHash = state.pendingHash := by rw [popped.shape]
  have tags : after.1.writeTags = state.writeTags := by rw [popped.shape]
  have ring : after.1.writeRing = state.writeRing := by rw [popped.shape]
  have head : after.1.writeHead < 64 := by rw [popped.shape]; exact Nat.mod_lt _ (by decide)
  have valid : ∀ j < 64, (rob.valid &&& ~~~ after.2).getLsbD j = true
      ↔ ∃ i < after.1.writeCount, j = after.1.slotOf i := by
    intro j inside
    rw [getLsbD_and, Bool.and_eq_true, agrees.valid j inside, popped.retired inside]
    constructor
    · rintro ⟨⟨i, before, rfl⟩, left⟩
      have later := Nat.le_of_not_lt (fun early => left i early rfl)
      exact ⟨i - k, by omega, by rw [popped.slotOf, Nat.add_sub_cancel' later]⟩
    · rintro ⟨i, before, rfl⟩
      refine ⟨⟨k + i, by omega, popped.slotOf i⟩, fun e early same => ?_⟩
      rw [popped.slotOf] at same
      have := slotOf_inj (by omega) (by omega) same
      omega
  refine
    { agrees :=
        { ringLength := by rw [ring]; exact agrees.ringLength
          tagLength := by rw [tags]; exact agrees.tagLength
          head
          count := by omega
          ordered := fun i j before inside => ?_
          below := fun i inside => ?_
          tags := fun i inside => ?_
          valid
          wide := slots_ext (fun j inside => ?_)
          keyset := fun j inside set => ?_
          force := by rw [overflow]; exact agrees.force
          generation := fun overflowed => by rw [overflow, exact] at overflowed; cases overflowed
          staged := by rw [pending]; exact agrees.staged
          inactive := fun idle => by have none := (agrees.inactive idle).2.1; omega
          pending := by rw [pending, pendingId]; exact agrees.pending }
      lane := rfl
      candidate := ⟨pending, hash, pendingId⟩
      generation := fun overflowed => by rw [overflow, exact] at overflowed; cases overflowed
      lifted := fun _ overflowed => by rw [exact] at overflowed; cases overflowed
      active := fun i inside => ?_
      kept := fun i inside active => ?_ }
  · rw [popped.entry, popped.entry]
    exact agrees.ordered _ _ (by omega) (by omega)
  · rw [popped.entry]
    exact agrees.below _ (by omega)
  · rw [popped.entry, popped.slotOf, tags]
    exact agrees.tags _ (by omega)
  · rw [getLsbD_and, Bool.and_eq_true, agrees.wide, popped.retired inside, popped.keyset j inside]
  · obtain ⟨before, left⟩ := (popped.keyset j inside).mp set
    rw [getLsbD_and, Bool.and_eq_true]
    exact ⟨agrees.keyset j inside before, (popped.retired inside).mpr left⟩
  · rw [popped.entry]
    exact agrees.active_after window within (Nat.le_add_right k i) (by omega) (popped.stops short)
  · have later := Nat.le_of_not_lt (fun early => by
      rw [popped.gone i early] at active
      cases active)
    have place := Nat.add_sub_cancel' later
    refine ⟨i - k, by omega, by rw [popped.entry, place], ?_⟩
    rw [popped.slotOf, place]
    refine Bool.eq_iff_iff.mpr ((popped.keyset _ (state.slotOf_lt i)).trans
      ⟨fun both => both.1, fun set => ⟨set, fun e early same => ?_⟩⟩)
    have := slotOf_inj (by omega) (by omega) same
    omega

def ReadLocalRobState.emptied (state : ReadLocalRobState) : ReadLocalRobState :=
  { state with overflow := false, writeHead := 0, writeCount := 0, writeKeysetSlots := 0#64 }

section

variable (agrees : RingAgrees rob state bound)

include agrees

theorem RingAgrees.emptied
    : RingAgrees rob.writeLeaveOverflow state.emptied bound where
  ringLength := agrees.ringLength
  tagLength := agrees.tagLength
  head := by simp [ReadLocalRobState.emptied]
  count := Nat.zero_le _
  ordered := fun _ _ _ inside => absurd inside (Nat.not_lt_zero _)
  below := fun _ inside => absurd inside (Nat.not_lt_zero _)
  tags := fun _ inside => absurd inside (Nat.not_lt_zero _)
  valid := fun j inside => by simp [Rob.writeLeaveOverflow, Rob.writeResetSlots,
    ReadLocalRobState.emptied]
  wide := rfl
  keyset := fun j inside set => by simp [ReadLocalRobState.emptied] at set
  force := rfl
  generation := nofun
  staged := agrees.staged
  inactive := fun idle => ⟨rfl, rfl, (agrees.inactive idle).2.2⟩
  pending := agrees.pending

/-- Pruning everything. -/
theorem RingAgrees.pruned_emptied
    (idle : state.overflow = true → rob.idActive state.overflowThrough = false)
    (gone : ∀ i < state.writeCount, rob.idActive (state.entry i).opId = false)
    : Pruned rob state bound rob.writeLeaveOverflow state.emptied where
  agrees := agrees.emptied
  lane := rfl
  candidate := ⟨rfl, rfl, rfl⟩
  generation := nofun
  lifted := fun _ overflowed => idle overflowed
  active := fun _ inside => absurd inside (Nat.not_lt_zero _)
  kept := fun i inside active => by
    rw [gone i inside] at active
    cases active

/-- Nothing to prune. -/
theorem RingAgrees.pruned_refl
    (overflowed : state.overflow = true → rob.idActive state.overflowThrough = true)
    (active : ∀ i < state.writeCount, rob.idActive (state.entry i).opId = true)
    : Pruned rob state bound rob state where
  agrees
  lane := rfl
  candidate := ⟨rfl, rfl, rfl⟩
  generation := fun overflowed' => ⟨rfl, overflowed overflowed'⟩
  lifted := fun exact overflowed => by rw [exact] at overflowed; cases overflowed
  active
  kept := fun i inside _ => ⟨i, inside, rfl, rfl⟩

variable (window : rob.flush.toNat ≤ rob.dispatch.toNat) (within : bound ≤ rob.dispatch.toNat)

include window within

/-- `read_local_prune` with the frontier, on a sidecar that agrees with its summaries. -/
theorem RingAgrees.pruneAt
    : Pruned rob state bound (rob.pruneAt state).1 (rob.pruneAt state).2 := by
  rw [Rob.pruneAt]
  cases overflowed : state.overflow with
  | true =>
    obtain ⟨empty, -⟩ := agrees.generation overflowed
    rw [if_pos rfl]
    split
    · rename_i active
      exact agrees.pruned_refl (fun _ => active) (fun i inside => by omega)
    · rename_i inactive
      exact agrees.pruned_emptied (fun _ => by simpa using inactive) (fun i inside => by omega)
  | false =>
    rw [if_neg (by simp)]
    obtain ⟨k, popped⟩ := rob.popRetired_popped agrees.head 0#64
    have count := popped.count
    dsimp only
    split
    · have unforced : rob.force = false := by rw [agrees.force, overflowed]
      have shape : { (rob.popRetired state.writeCount state 0#64).1 with
          writeHead := 0, writeKeysetSlots := 0#64 } = state.emptied := by
        rw [popped.shape]
        simp only [overflowed]
        congr 1
        omega
      have lane : rob.writeResetSlots = rob.writeLeaveOverflow := by
        rw [Rob.writeLeaveOverflow, Rob.writeResetSlots, unforced]
      rw [shape, lane]
      refine agrees.pruned_emptied (fun joined => ?_) ?_
      · rw [overflowed] at joined
        cases joined
      · exact fun i inside => popped.gone i (by omega)
    · exact popped.pruned agrees overflowed window within (by omega)

theorem RingAgrees.prune
    : Pruned rob state bound (rob.prune state).1 (rob.prune state).2 := by
  rw [Rob.prune]
  split
  · rename_i idle
    simp only [Bool.and_eq_true, Bool.not_eq_true', beq_iff_eq] at idle
    refine agrees.pruned_refl (fun overflowed => by rw [idle.1] at overflowed; cases overflowed) ?_
    exact fun i inside => by omega
  · exact agrees.pruneAt window within

end

-- Committing a candidate

structure Pushed (state : ReadLocalRobState) (pending : PendingWrite) (hash opId : BitVec 64)
    (after : ReadLocalRobState) : Prop where
  count : after.writeCount = state.writeCount + 1
  exact : after.overflow = state.overflow
  clear : after.pendingWrite = state.pendingWrite
  entry : ∀ i < state.writeCount, after.entry i = state.entry i
    ∧ after.writeKeysetSlots.getLsbD (after.slotOf i)
      = state.writeKeysetSlots.getLsbD (state.slotOf i)
  last : after.entry state.writeCount = { hash := hash, opId := opId }
    ∧ after.writeKeysetSlots.getLsbD (after.slotOf state.writeCount) = decide (pending = .keyset)

theorem getLsbD_putBit (bits : BitVec 64) (set : Bool) (tail : Nat) (inside : j < 64)
    : (if set then bits ||| slotBit tail else bits &&& ~~~ slotBit tail).getLsbD j
      = if tail = j then set else bits.getLsbD j := by
  cases set with
  | true =>
    rw [if_pos rfl, getLsbD_or, getLsbD_slotBit inside]
    by_cases here : tail = j <;> simp [here]
  | false =>
    rw [if_neg (by simp), getLsbD_and, getLsbD_not, getLsbD_slotBit inside]
    by_cases here : tail = j <;> simp [here, inside]

theorem ReadLocalRobState.tail_ne (room : state.writeCount < 64)
    (before : i < state.writeCount) : state.slotOf state.writeCount ≠ state.slotOf i := by
  intro same
  have := slotOf_inj room (by omega) same
  omega

variable (agrees : RingAgrees rob state bound)

include agrees

theorem RingAgrees.pushed (room : state.writeCount < 64) (pending : PendingWrite)
    (hash opId : BitVec 64)
    : Pushed state pending hash opId (rob.pushEntry state pending hash opId).2 := by
  have inside := state.slotOf_lt state.writeCount
  have entry : ∀ i, (rob.pushEntry state pending hash opId).2.entry i
      = ((state.writeRing.set (state.slotOf state.writeCount)
          { hash, opId })[state.slotOf i]?).getD default :=
    fun i => List.getD_eq_getElem?_getD ..
  refine ⟨rfl, rfl, rfl, fun i before => ⟨?_, ?_⟩, ?_, ?_⟩
  · rw [entry, List.getElem?_set_ne (tail_ne room before)]
    rfl
  · exact (getLsbD_putBit _ _ _ (state.slotOf_lt i)).trans (if_neg (tail_ne room before))
  · rw [entry, List.getElem?_set_self (by rw [agrees.ringLength]; exact inside), Option.getD_some]
  · exact (getLsbD_putBit _ _ _ inside).trans (if_pos rfl)

/-- A committed entry keeps the summaries in agreement. -/
theorem RingAgrees.pushEntry (room : state.writeCount < 64) (exact : state.overflow = false)
    (clear : state.pendingWrite = .none) (awake : rob.inactive = false) (pending : PendingWrite)
    (hash : BitVec 64) (frame : opId.toNat = bound) {bound' : Nat} (above : bound < bound')
    : RingAgrees (rob.pushEntry state pending hash opId).1
        (rob.pushEntry state pending hash opId).2 bound' := by
  have pushed := agrees.pushed room pending hash opId
  have tail := state.slotOf_lt state.writeCount
  have valid : ∀ j < 64, (rob.pushEntry state pending hash opId).1.valid.getLsbD j = true
      ↔ rob.valid.getLsbD j = true ∨ j = state.slotOf state.writeCount := by
    intro j inside
    have bit : (rob.pushEntry state pending hash opId).1.valid.getLsbD j
        = (rob.valid.getLsbD j || (slotBit (state.slotOf state.writeCount)).getLsbD j) :=
      getLsbD_or
    rw [bit, getLsbD_slotBit inside, Bool.or_eq_true, decide_eq_true_eq, eq_comm (b := j)]
  have tagged : ∀ i, (rob.pushEntry state pending hash opId).2.writeTags.getD (state.slotOf i) 0#16
      = ((state.writeTags.set (state.slotOf state.writeCount)
          (hash.setWidth 16))[state.slotOf i]?).getD 0#16 :=
    fun i => List.getD_eq_getElem?_getD ..
  exact
    { ringLength := List.length_set.trans agrees.ringLength
      tagLength := List.length_set.trans agrees.tagLength
      head := agrees.head
      count := room
      ordered := fun i j before inside => by
        rcases Nat.lt_succ_iff_lt_or_eq.mp inside with earlier | rfl
        · rw [(pushed.entry i (by omega)).1, (pushed.entry j earlier).1]
          exact agrees.ordered i j before earlier
        · rw [(pushed.entry i before).1, pushed.last.1, frame]
          exact agrees.below i before
      below := fun i inside => by
        rcases Nat.lt_succ_iff_lt_or_eq.mp inside with earlier | rfl
        · rw [(pushed.entry i earlier).1]
          exact Nat.lt_trans (agrees.below i earlier) above
        · rw [pushed.last.1, frame]
          exact above
      tags := fun i inside => by
        refine (tagged i).trans ?_
        rcases Nat.lt_succ_iff_lt_or_eq.mp inside with earlier | rfl
        · rw [(pushed.entry i earlier).1,
            List.getElem?_set_ne (tail_ne room earlier)]
          exact agrees.tags i earlier
        · rw [pushed.last.1, List.getElem?_set_self (by rw [agrees.tagLength]; exact tail),
            Option.getD_some]
      valid := fun j inside => by
        rw [valid j inside, agrees.valid j inside, pushed.count]
        constructor
        · rintro (⟨i, before, same⟩ | same)
          · exact ⟨i, by omega, same⟩
          · exact ⟨state.writeCount, Nat.lt_succ_self _, same⟩
        · rintro ⟨i, before, same⟩
          rcases Nat.lt_succ_iff_lt_or_eq.mp before with earlier | rfl
          · exact .inl ⟨i, earlier, same⟩
          · exact .inr same
      wide := by rw [Rob.pushEntry, agrees.wide]
      keyset := fun j inside set => by
        have bit := getLsbD_putBit state.writeKeysetSlots (decide (pending = .keyset))
          (state.slotOf state.writeCount) inside
        rw [valid j inside]
        by_cases here : state.slotOf state.writeCount = j
        · exact .inr here.symm
        · rw [if_neg here] at bit
          exact .inl (agrees.keyset j inside (bit.symm.trans set))
      force := agrees.force
      generation := fun overflowed => by rw [pushed.exact, exact] at overflowed; cases overflowed
      staged := by exact agrees.staged
      inactive := fun idle => by
        have same : (rob.pushEntry state pending hash opId).1.inactive = rob.inactive := rfl
        rw [same, awake] at idle
        cases idle
      pending := fun parked => absurd (pushed.clear.trans clear) parked }

/-- A candidate that joins the conservative generation leaves the ring empty. -/
theorem RingAgrees.joinOverflow (clear : state.pendingWrite = .none) (awake : rob.inactive = false)
    (frame : opId.toNat = bound) {bound' : Nat} (above : bound < bound')
    : RingAgrees (rob.joinOverflow state opId).1 (rob.joinOverflow state opId).2 bound' := by
  have slots : (rob.joinOverflow state opId).1.valid = 0#64
      ∧ (rob.joinOverflow state opId).1.wide = 0#64
      ∧ (rob.joinOverflow state opId).1.force = true
      ∧ (rob.joinOverflow state opId).1.staged = rob.staged
      ∧ (rob.joinOverflow state opId).1.inactive = rob.inactive := by
    cases overflowed : state.overflow with
    | false => simp [Rob.joinOverflow, overflowed, Rob.writeEnterOverflow, Rob.writeResetSlots]
    | true =>
      have empty := (agrees.generation overflowed).1
      have valid := slots_eq_zero (fun j inside set => by
        obtain ⟨i, before, -⟩ := (agrees.valid j inside).mp set
        omega)
      have wide : rob.wide = 0#64 := slots_eq_zero (fun j inside set => by
        rw [agrees.wide] at set
        have := agrees.keyset j inside set
        rw [valid] at this
        simp at this)
      have force := agrees.force.trans overflowed
      simp [Rob.joinOverflow, overflowed, valid, wide, force]
  obtain ⟨valid, wide, force, staged, inactive⟩ := slots
  exact { agrees with
      head := by simp [Rob.joinOverflow]
      count := Nat.zero_le _
      ordered := fun _ _ _ inside => absurd inside (Nat.not_lt_zero _)
      below := fun _ inside => absurd inside (Nat.not_lt_zero _)
      tags := fun _ inside => absurd inside (Nat.not_lt_zero _)
      valid := fun j inside => by rw [valid]; simp [Rob.joinOverflow]
      wide
      keyset := fun j inside set => by simp [Rob.joinOverflow] at set
      force
      generation := fun _ => ⟨rfl, by rw [Rob.joinOverflow, frame]; exact above⟩
      staged := by rw [staged]; exact agrees.staged
      inactive := fun idle => by rw [inactive, awake] at idle; cases idle
      pending := fun parked => absurd clear parked }

end Thredis.Net
