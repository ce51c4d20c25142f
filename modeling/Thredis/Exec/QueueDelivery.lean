import Thredis.Exec.LaneDelivery

/-! The invariant of the whole array, and that every access of a lane keeps it. -/

namespace Thredis.Exec
open Thredis.Lib Function Lane

universe u

variable {T : Type u}

namespace Lane

def SameBlock (before after : Lane T) : Prop :=
  after.producer.base = before.producer.base ∧ after.cap = before.cap

variable (lane : Lane T)

theorem claim_block (count : Counter)
    : (lane.claim count).2.base = lane.producer.base
      ∧ (lane.claim count).2.capacity = lane.producer.capacity := by
  simp only [claim]
  split <;> exact ⟨rfl, rfl⟩

theorem pushBatch_block (values : List T)
    : lane.SameBlock (lane.pushBatch values) := by
  have block := lane.claim_block (BitVec.ofNat 32 values.length)
  rw [pushBatch]
  split
  · exact ⟨rfl, rfl⟩
  · generalize lane.claim (BitVec.ofNat 32 values.length) = answer at block
    obtain ⟨granted, p⟩ := answer
    cases granted <;> exact ⟨block.1, congrArg BitVec.toNat block.2⟩

theorem reserve_block (count : Counter) : lane.SameBlock (lane.reserve count) := by
  simp only [reserve]
  split
  · exact ⟨rfl, rfl⟩
  · split <;> exact ⟨rfl, rfl⟩

theorem popUnretired_block : lane.SameBlock lane.popUnretired := by
  simp only [popUnretired]
  split
  · split <;> exact ⟨rfl, rfl⟩
  · exact ⟨rfl, rfl⟩

theorem retireN_block (count : Counter) : lane.SameBlock (lane.retireN count) := by
  rw [retireN]
  split <;> exact ⟨rfl, rfl⟩

end Lane

-- The array

namespace MaskedSpscArray

/-- Every lane is in order, and the lanes' blocks follow each other inside the allocation. -/
structure Ok (array : MaskedSpscArray T) : Prop where
  fits : array.totalSlots < 2 ^ 32
  lanes : ∀ p < array.producers, ∃ origin seenHead seenTail,
    (array.lanes p).Ok array.slots origin seenHead seenTail
  inside : ∀ p < array.producers,
    (array.lanes p).producer.base + (array.lanes p).cap ≤ array.totalSlots
  apart : ∀ p q, p < q → q < array.producers
    → (array.lanes p).producer.base + (array.lanes p).cap ≤ (array.lanes q).producer.base

variable {array : MaskedSpscArray T}
variable {p : Nat}

section

variable (ok : array.Ok) {lane : Lane T} (block : (array.lanes p).SameBlock lane)

include ok block

/-- An access that keeps the lane's block and the slots of the other lanes. -/
theorem Ok.access {slots : Nat → T}
    (own : ∃ origin seenHead seenTail, lane.Ok slots origin seenHead seenTail)
    (others : ∀ q < array.producers, q ≠ p → ∀ origin seenHead seenTail,
      (array.lanes q).Ok array.slots origin seenHead seenTail
      → (array.lanes q).Ok slots origin seenHead seenTail)
    : Ok (setLane { array with slots } p lane) := by
  have base : ∀ q, (update array.lanes p lane q).producer.base
      = (array.lanes q).producer.base := by
    intro q
    by_cases same : q = p
    · rw [same, update_self, block.1]
    · rw [update_of_ne same]
  have cap : ∀ q, (update array.lanes p lane q).cap = (array.lanes q).cap := by
    intro q
    by_cases same : q = p
    · rw [same, update_self, block.2]
    · rw [update_of_ne same]
  refine ⟨ok.fits, fun q inside => ?_, fun q inside => ?_, fun q r order inside => ?_⟩
  · simp only [setLane]
    by_cases same : q = p
    · rw [same, update_self]
      exact own
    · rw [update_of_ne same]
      obtain ⟨origin, seenHead, seenTail, lane⟩ := ok.lanes q inside
      exact ⟨origin, seenHead, seenTail, others q inside same origin seenHead seenTail lane⟩
  · simp only [setLane, base, cap]
    exact ok.inside q inside
  · simp only [setLane, base, cap]
    exact ok.apart q r order inside

/-- An access that stores into no slot. -/
theorem Ok.setLane (own : ∃ origin seenHead seenTail, lane.Ok array.slots origin seenHead seenTail)
    : Ok (array.setLane p lane) :=
  ok.access block own (fun _ _ _ _ _ _ => id)

end

/-- The protocol of the callers: a batch or a reservation is smaller than what the counters
can tell from one that fits, only popped values are retired, and the array is partitioned
between calls, with less than a full turn of values unretired.
-/
def Allowed (array : MaskedSpscArray T) : QueueEvent T → Prop
  | .push p values => values.length + (array.lanes p).cap < 2 ^ 32
  | .reserve p count => count.toNat + (array.lanes p).cap < 2 ^ 32
  | .retireN p count =>
    (array.lanes p).retiredCount + count.toNat ≤ (array.lanes p).taken.length
  | .remask _ _ | .grow _ _ _ _ =>
    ∀ p < array.producers, (array.lanes p).producerPc = .idle ∧ (array.lanes p).consumerPc = .idle
      ∧ (array.lanes p).sent.length - (array.lanes p).retiredCount < 2 ^ 32
  | _ => True

/-- An access of one lane keeps the array in order. -/
theorem Ok.laneStep (ok : array.Ok) (known : p < array.producers) {event : QueueEvent T}
    (about : event.lane = some p) (allowed : array.Allowed event) {after : MaskedSpscArray T}
    (stepped : array.laneStep p event = some after) : after.Ok := by
  obtain ⟨origin, seenHead, seenTail, lane⟩ := ok.lanes p known
  revert about allowed stepped
  fun_cases array.laneStep p event with
  | case1 q values idle =>
    rintro ⟨⟩ allowed ⟨⟩
    obtain ⟨seen, pushed⟩ := lane.pushBatch idle allowed
    exact ok.setLane (pushBatch_block _ _) ⟨_, _, _, pushed⟩
  | case3 q value idle =>
    intro _ _ stepped
    obtain ⟨next, started, rfl⟩ := Option.map_eq_some_iff.mp stepped
    refine ok.setLane ?_ ⟨_, _, _, lane.pushReserved idle started⟩
    rw [pushReserved] at started
    split at started
    · cases started
    · cases started
      exact ⟨rfl, rfl⟩
  | case5 q at_ stored value rest reserved storing index =>
    subst index at_
    rintro - - ⟨⟩
    rw [lane.counted.tail, stamp_add, lane.shaped.producerSlot]
    have own := lane.store storing
    have block : (array.lanes p).SameBlock
        { array.lanes p with producerPc := .storing (stored ++ [value]) rest reserved } :=
      ⟨rfl, rfl⟩
    refine ok.access block ⟨_, _, _, own⟩ (fun q inside other o h t otherOk => ?_)
    have place := lane.shaped.position_mem origin ((array.lanes p).sent.length + stored.length)
    refine otherOk.frame ?_ value
    rcases Nat.lt_or_gt_of_ne other with below | above
    · have := ok.apart q p below known
      omega
    · have := ok.apart p q above inside
      omega
  | case7 q stored reserved storing =>
    rintro - - ⟨⟩
    exact ok.setLane ⟨rfl, rfl⟩ ⟨_, _, _, lane.publish storing⟩
  | case9 q count idle =>
    rintro ⟨⟩ allowed ⟨⟩
    obtain ⟨seen, reserved⟩ := lane.reserve idle allowed
    exact ok.setLane (reserve_block _ _) ⟨_, _, _, reserved⟩
  | case11 q count idle =>
    intro _ _ stepped
    obtain ⟨next, cancelled, rfl⟩ := Option.map_eq_some_iff.mp stepped
    refine ok.setLane ?_ ⟨_, _, _, lane.cancelReservation idle cancelled⟩
    simp only [cancelReservation] at cancelled
    split at cancelled
    · cases cancelled
    · cases cancelled
      exact ⟨rfl, rfl⟩
  | case13 =>
    rintro - - ⟨⟩
    obtain ⟨seen, popped, -⟩ := lane.popUnretired
    exact ok.setLane (popUnretired_block _) ⟨_, _, _, popped⟩
  | case15 q at_ loading =>
    rintro - - ⟨⟩
    exact ok.setLane ⟨rfl, rfl⟩ ⟨_, _, _, lane.load loading⟩
  | case17 q value loaded =>
    rintro - - ⟨⟩
    exact ok.setLane ⟨rfl, rfl⟩ ⟨_, _, _, lane.advance loaded⟩
  | case19 q count =>
    rintro ⟨⟩ allowed ⟨⟩
    exact ok.setLane (retireN_block _ _) ⟨_, _, _, lane.retireN allowed⟩
  | _ =>
    intro _ _ stepped
    cases stepped

end MaskedSpscArray

end Thredis.Exec
