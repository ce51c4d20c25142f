import Thredis.Exec.QueueDelivery
import Thredis.Lib.Runs

/-! Partitions of the array, and the array over whole runs: every lane delivers what was pushed
to it in order, nothing undelivered is overwritten, and blocks stay apart.
-/

namespace Thredis.Exec
open Thredis.Lib List Function

universe u

variable {T : Type u}

namespace MaskedSpscArray

def blockCap (ioProducer : Nat → Bool) (ioCapacity p : Nat) : Nat :=
  if ioProducer p then ioCapacity else kInternalProducerSlots

def blockStart (ioProducer : Nat → Bool) (ioCapacity p : Nat) : Nat :=
  ((List.range p).map (blockCap ioProducer ioCapacity)).sum

variable (ioProducer : Nat → Bool) (ioCapacity : Nat)

theorem blockStart_succ (p : Nat)
    : blockStart ioProducer ioCapacity (p + 1)
      = blockStart ioProducer ioCapacity p + blockCap ioProducer ioCapacity p := by
  simp [blockStart, range_succ]

theorem blockStart_mono
    : Monotone (blockStart ioProducer ioCapacity) :=
  monotone_nat_of_le_succ (fun p => by rw [blockStart_succ]; omega)

/-- The install loop gives each producer its block, one after the other. -/
theorem installFrom_eq (count p : Nat) (lanes : Nat → Lane T)
    : installFrom ioProducer ioCapacity count p (blockStart ioProducer ioCapacity p) lanes
      = (blockStart ioProducer ioCapacity (p + count), fun q =>
          if p ≤ q ∧ q < p + count then
            (lanes q).install (blockStart ioProducer ioCapacity q)
              (BitVec.ofNat 32 (blockCap ioProducer ioCapacity q))
          else lanes q) := by
  induction count generalizing p lanes with
  | zero =>
    rw [installFrom]
    congr 1
    funext q
    rw [if_neg (by omega)]
  | succ count ih =>
    have start : blockStart ioProducer ioCapacity p
        + (if ioProducer p then ioCapacity else kInternalProducerSlots)
        = blockStart ioProducer ioCapacity (p + 1) := (blockStart_succ _ _ _).symm
    rw [installFrom, start, ih]
    congr 1
    · congr 1
      omega
    · funext q
      by_cases same : q = p
      · subst same
        have mine : q ≤ q ∧ q < q + (count + 1) := by omega
        rw [if_neg (by omega), if_pos mine, update_self]
        rfl
      · rw [update_of_ne same]
        by_cases inside : p ≤ q ∧ q < p + (count + 1)
        · rw [if_pos inside, if_pos (by omega)]
        · rw [if_neg inside, if_neg (by omega)]

/-- Lanes that have delivered everything take the blocks of a partition that fits. -/
theorem installed_ok (array : MaskedSpscArray T) (fits : array.totalSlots < 2 ^ 32)
    (drained : ∀ p < array.producers, (array.lanes p).taken = (array.lanes p).sent
      ∧ (array.lanes p).retiredCount = (array.lanes p).sent.length)
    (idle : ∀ p < array.producers,
      (array.lanes p).producerPc = .idle ∧ (array.lanes p).consumerPc = .idle)
    {ioProducer : Nat → Bool} {ioCapacity : Nat} (pow : PowTwo ioCapacity)
    (total : blockStart ioProducer ioCapacity array.producers ≤ array.totalSlots)
    : Ok { array with
        lanes := (installFrom ioProducer ioCapacity array.producers 0 0 array.lanes).2 } := by
  have zero : blockStart ioProducer ioCapacity 0 = 0 := rfl
  have lanes := installFrom_eq ioProducer ioCapacity array.producers 0 array.lanes
  rw [zero, Nat.zero_add] at lanes
  rw [lanes]
  have bound : ∀ p < array.producers,
      blockStart ioProducer ioCapacity p + blockCap ioProducer ioCapacity p ≤ array.totalSlots := by
    intro p inside
    rw [← blockStart_succ]
    exact (blockStart_mono ioProducer ioCapacity (by omega)).trans total
  have caps : ∀ p, PowTwo (blockCap ioProducer ioCapacity p) := by
    intro p
    rw [blockCap]
    split
    · exact pow
    · exact ⟨8, rfl⟩
  have each : ∀ p < array.producers, ((array.lanes p).install (blockStart ioProducer ioCapacity p)
          (BitVec.ofNat 32 (blockCap ioProducer ioCapacity p))).Ok array.slots
        (0 - BitVec.ofNat 32 (array.lanes p).sent.length) (array.lanes p).sent.length
        (array.lanes p).sent.length
      ∧ ((array.lanes p).install (blockStart ioProducer ioCapacity p)
          (BitVec.ofNat 32 (blockCap ioProducer ioCapacity p))).cap
        = blockCap ioProducer ioCapacity p := by
    intro p inside
    have room := bound p inside
    exact Lane.install_ok (drained p inside).1 (drained p inside).2 (idle p inside).1
      (idle p inside).2 (caps p) (by omega) array.slots _
  refine ⟨fits, fun p inside => ?_, fun p inside => ?_, fun p q order inside => ?_⟩
  · dsimp only
    rw [if_pos ⟨Nat.zero_le p, inside⟩]
    exact ⟨_, _, _, (each p inside).1⟩
  · dsimp only
    rw [if_pos ⟨Nat.zero_le p, inside⟩, (each p inside).2]
    exact bound p inside
  · have first := order.trans inside
    dsimp only
    rw [if_pos ⟨Nat.zero_le p, first⟩, if_pos ⟨Nat.zero_le q, inside⟩, (each p first).2]
    change blockStart ioProducer ioCapacity p + _ ≤ blockStart ioProducer ioCapacity q
    rw [← blockStart_succ]
    exact blockStart_mono ioProducer ioCapacity (by omega)

-- Repartition

/-- The marking loop accepts different producers in range, and marks exactly them. -/
theorem assign_some {producers : Nat} {list : List Nat} {before after : Nat → Bool}
    (marked : assign producers list before = some after)
    : list.Nodup ∧ (∀ p ∈ list, p < producers ∧ before p = false)
      ∧ ∀ p, after p = (before p || decide (p ∈ list)) := by
  induction list generalizing before with
  | nil =>
    cases marked
    exact ⟨nodup_nil, nofun, fun p => by simp⟩
  | cons p list ih =>
    obtain ⟨fresh, marked⟩ := Option.ite_none_left_eq_some.mp marked
    simp only [not_or, Nat.not_le, Bool.not_eq_true] at fresh
    obtain ⟨nodup, each, exactly⟩ := ih marked
    have notLater : p ∉ list := by
      intro member
      have unmarked := (each p member).2
      rw [update_self] at unmarked
      cases unmarked
    refine ⟨nodup_cons.mpr ⟨notLater, nodup⟩, fun q member => ?_, fun q => ?_⟩
    · rcases mem_cons.mp member with rfl | later
      · exact fresh
      · refine ⟨(each q later).1, ?_⟩
        have other : q ≠ p := by
          rintro rfl
          exact notLater later
        have unmarked := (each q later).2
        rwa [update_of_ne other] at unmarked
    · rw [exactly]
      by_cases same : q = p
      · subst same
        simp
      · simp [same]

theorem bitFloor_powTwo {n : Nat} (positive : bitFloor n ≠ 0) : PowTwo (bitFloor n) := by
  rw [bitFloor] at positive ⊢
  split at positive
  · exact absurd rfl positive
  · rename_i some_
    rw [if_neg some_]
    exact ⟨_, rfl⟩

theorem bitFloor_le (n : Nat) : bitFloor n ≤ n := by
  rw [bitFloor]
  split
  · exact Nat.zero_le n
  · rename_i some_
    exact Nat.log2_self_le some_

variable {io ex : List Nat}

/-- The blocks of the partition fit in the allocation. -/
theorem partition_total {producers totalSlots : Nat}
    {ioProducer : Nat → Bool} (nodup : io.Nodup) (range : ∀ p ∈ io, p < producers)
    (marks : ∀ p, ioProducer p = decide (p ∈ io)) (count : io.length + ex.length = producers)
    (room : ex.length * kInternalProducerSlots < totalSlots) {ioCapacity : Nat}
    (share : ioCapacity ≤ (totalSlots - ex.length * kInternalProducerSlots) / io.length)
    : blockStart ioProducer ioCapacity producers ≤ totalSlots := by
  have perm : ((List.range producers).filter ioProducer).Perm io := by
    refine (perm_ext_iff_of_nodup (nodup_range.filter _) nodup).mpr (fun p => ?_)
    rw [mem_filter, mem_range, marks]
    simp only [decide_eq_true_eq]
    exact ⟨fun both => both.2, fun member => ⟨range p member, member⟩⟩
  have split : ∀ list : List Nat, (list.map (blockCap ioProducer ioCapacity)).sum
      = (list.filter ioProducer).length * ioCapacity
        + (list.length - (list.filter ioProducer).length) * kInternalProducerSlots := by
    intro list
    induction list with
    | nil => simp
    | cons p list ih =>
      have less := length_filter_le ioProducer list
      cases isIo : ioProducer p with
      | true =>
        simp only [map_cons, sum_cons, ih, blockCap, isIo, if_true,
          filter_cons_of_pos, length_cons, Nat.add_sub_add_right]
        ring
      | false =>
        have apart : list.length + 1 - (list.filter ioProducer).length
            = list.length - (list.filter ioProducer).length + 1 := by omega
        simp only [map_cons, sum_cons, ih, blockCap, isIo, Bool.false_eq_true,
          if_false, filter_cons_of_neg, not_false_eq_true, length_cons, apart]
        ring
  have shares := (Nat.mul_le_mul_left _ share).trans (Nat.mul_div_le _ _)
  rw [blockStart, split, perm.length_eq, length_range]
  have rest : producers - io.length = ex.length := by omega
  rw [rest]
  omega

/-- A repartition of lanes between calls either refuses and changes nothing, or succeeds and
leaves the array in order.
-/
theorem remaskQuiesced_ok (array : MaskedSpscArray T) (slotBytes : Nat) (io ex : List Nat)
    (fits : array.totalSlots < 2 ^ 32)
    (drained : ∀ p < array.producers, (array.lanes p).quiesced = true
      → (array.lanes p).taken = (array.lanes p).sent
        ∧ (array.lanes p).retiredCount = (array.lanes p).sent.length)
    (idle : ∀ p < array.producers,
      (array.lanes p).producerPc = .idle ∧ (array.lanes p).consumerPc = .idle)
    : array.remaskQuiesced slotBytes io ex = (false, array)
      ∨ (array.remaskQuiesced slotBytes io ex).1 = true
        ∧ (array.remaskQuiesced slotBytes io ex).2.Ok := by
  fun_cases remaskQuiesced slotBytes array io ex with
  | case7 checked ioProducer markedIo assigned _ _ internal room ioCapacity sized installed =>
    subst installed ioCapacity internal
    simp only [not_or, not_not] at checked sized
    obtain ⟨-, -, count, quiesced⟩ := checked
    have quiet : ∀ p < array.producers, (array.lanes p).quiesced = true := by
      simpa [allQuiesced] using quiesced
    obtain ⟨nodup, range, marks⟩ := assign_some markedIo
    have total := partition_total nodup (fun p member => (range p member).1)
      (fun p => by exact marks p) count (not_le.mp room) (bitFloor_le _)
    have cursor := installFrom_eq ioProducer (bitFloor ((array.totalSlots
      - ex.length * kInternalProducerSlots) / io.length)) array.producers 0 array.lanes
    refine .inr ⟨?_, installed_ok array fits (fun p inside => drained p inside
      (quiet p inside)) idle (bitFloor_powTwo sized.1) total⟩
    have zero : ∀ cap, blockStart ioProducer cap 0 = 0 := fun _ => rfl
    rw [zero, Nat.zero_add] at cursor
    rw [cursor]
    exact decide_eq_true total
  | _ => exact .inl rfl

variable {array : MaskedSpscArray T}

theorem Ok.remask (ok : array.Ok) (allowed : array.Allowed (.remask io ex)) (slotBytes : Nat)
    : (array.remaskQuiesced slotBytes io ex).2.Ok := by
  have outcome := remaskQuiesced_ok array slotBytes io ex ok.fits (fun p inside quiesced => by
    obtain ⟨origin, seenHead, seenTail, lane⟩ := ok.lanes p inside
    exact lane.drained quiesced (allowed p inside).2.2)
    (fun p inside => ⟨(allowed p inside).1, (allowed p inside).2.1⟩)
  rcases outcome with refused | ⟨-, partitioned⟩
  · rw [refused]
    exact ok
  · exact partitioned

theorem Ok.grow (ok : array.Ok) {wanted : Counter} {granted : Bool}
    (allowed : array.Allowed (.grow wanted granted io ex)) (slotBytes : Nat)
    (fresh : T) : (array.growQuiesced slotBytes fresh wanted granted io ex).2.Ok := by
  rw [growQuiesced]
  split
  · exact ok
  · let grown : MaskedSpscArray T :=
      { array with slots := fun _ => fresh, totalSlots := wanted.toNat }
    have outcome := remaskQuiesced_ok grown slotBytes io ex wanted.isLt (fun p inside quiesced => by
        obtain ⟨origin, seenHead, seenTail, lane⟩ := ok.lanes p inside
        exact lane.drained quiesced (allowed p inside).2.2)
      (fun p inside => ⟨(allowed p inside).1, (allowed p inside).2.1⟩)
    rcases outcome with refused | ⟨succeeded, partitioned⟩
    · rw [refused]
      exact ok
    · generalize grown.remaskQuiesced slotBytes io ex = result at succeeded partitioned
      obtain ⟨answer, after⟩ := result
      subst succeeded
      exact partitioned

theorem Ok.step {after : MaskedSpscArray T} (ok : array.Ok) {slotBytes : Nat} {fresh : T}
    {event : QueueEvent T} (allowed : array.Allowed event)
    (stepped : array.step slotBytes fresh event = some after) : after.Ok := by
  cases event with
  | remask io ex =>
    cases stepped
    exact ok.remask allowed slotBytes
  | grow wanted granted io ex =>
    cases stepped
    exact ok.grow allowed slotBytes fresh
  | _ =>
    obtain ⟨known, stepped⟩ := Option.ite_none_right_eq_some.mp stepped
    exact ok.laneStep known rfl allowed stepped

-- Runs

/-- An array as one of its two constructors leaves it. -/
inductive Constructed (slotBytes : Nat) (fresh : T) (array : MaskedSpscArray T) : Prop where
  | split (maxProducers producers slotsPerThread : Nat) (io ex : List Nat)
      (made : initLocal slotBytes maxProducers fresh producers slotsPerThread io ex = some array)
  | fused (maxProducers producers bits : Nat) (least : kInternalProducerSlots ≤ 2 ^ bits)
      (made : initLocalFused maxProducers fresh producers (2 ^ bits) = some array)

theorem Constructed.ok {slotBytes : Nat} {fresh : T}
    (constructed : Constructed slotBytes fresh array) : array.Ok := by
  cases constructed with
  | split maxProducers producers slotsPerThread io ex made =>
    obtain ⟨checked, made⟩ := Option.ite_none_left_eq_some.mp made
    simp only [not_or, Nat.not_le] at checked
    let blank : MaskedSpscArray T :=
      { producers, totalSlots := producers * slotsPerThread
        slots := fun _ => fresh, lanes := fun _ => blankLane }
    have outcome := remaskQuiesced_ok blank slotBytes io ex checked.2.2.2
      (fun _ _ _ => ⟨rfl, rfl⟩) (fun _ _ => ⟨rfl, rfl⟩)
    rcases outcome with refused | ⟨succeeded, partitioned⟩
    · rw [refused] at made
      cases made
    · generalize blank.remaskQuiesced slotBytes io ex = result at made succeeded partitioned
      obtain ⟨answer, after⟩ := result
      subst succeeded
      cases made
      exact partitioned
  | fused maxProducers producers bits least made =>
    obtain ⟨checked, rfl⟩ := guard_passed made
    simp only [not_or, Nat.not_le] at checked
    let blank : MaskedSpscArray T :=
      { producers, totalSlots := producers * 2 ^ bits
        slots := fun _ => fresh, lanes := fun _ => blankLane }
    have total : blockStart (fun _ => true) (2 ^ bits) producers ≤ producers * 2 ^ bits := by
      have same : blockCap (fun _ => true) (2 ^ bits) = fun _ => 2 ^ bits := by
        rfl
      rw [blockStart, same]
      simp
    exact installed_ok blank checked.2.2 (fun _ _ => ⟨rfl, rfl⟩)
      (fun _ _ => ⟨rfl, rfl⟩) ⟨bits, rfl⟩ total

/-- What the array promises: each lane has delivered the first values published to it, in order;
the others stand in its slots from the head on; a pop that starts and finds nothing has
delivered all; what is in the lane and what is reserved fit in its block; and the blocks lie
apart, inside the allocation.
-/
structure Delivers (array : MaskedSpscArray T) : Prop where
  ordered : ∀ p < array.producers, (array.lanes p).taken <+: (array.lanes p).sent
  held : ∀ p < array.producers, ∀ n, (array.lanes p).taken.length ≤ n
    → n < (array.lanes p).sent.length
    → (array.lanes p).sent[n]? = some (array.slots ((array.lanes p).consumer.base
        + (((array.lanes p).consumer.head + BitVec.ofNat 32 (n - (array.lanes p).taken.length))
          &&& (array.lanes p).consumer.mask).toNat))
  complete : ∀ p < array.producers, (array.lanes p).consumerPc = .idle
    → (array.lanes p).popUnretired.consumerPc = .idle
    → (array.lanes p).taken = (array.lanes p).sent
  bounded : ∀ p < array.producers, (array.lanes p).sent.length - (array.lanes p).taken.length
      + ((array.lanes p).producer.capacity - (array.lanes p).producer.availableCapacity).toNat
      ≤ (array.lanes p).producer.capacity.toNat
  disjoint : ∀ p q, p < array.producers → q < array.producers → p ≠ q
    → (array.lanes p).producer.base + (array.lanes p).cap ≤ (array.lanes q).producer.base
      ∨ (array.lanes q).producer.base + (array.lanes q).cap ≤ (array.lanes p).producer.base
  inside : ∀ p < array.producers,
    (array.lanes p).producer.base + (array.lanes p).cap ≤ array.totalSlots

theorem Ok.delivers (ok : array.Ok) : array.Delivers where
  ordered := fun p known => by
    obtain ⟨origin, seenHead, seenTail, lane⟩ := ok.lanes p known
    exact lane.delivered
  held := fun p known n above below => by
    obtain ⟨origin, seenHead, seenTail, lane⟩ := ok.lanes p known
    have value := lane.window n above (by rw [length_append]; omega)
    have count : (array.lanes p).taken.length + (n - (array.lanes p).taken.length) = n := by omega
    rw [getElem?_append_left below] at value
    rw [lane.counted.head, stamp_add, count, lane.shaped.consumerSlot]
    exact value
  complete := fun p known idle nothing => by
    obtain ⟨origin, seenHead, seenTail, lane⟩ := ok.lanes p known
    obtain ⟨seen, -, all⟩ := lane.popUnretired
    exact all idle nothing
  bounded := fun p known => by
    obtain ⟨origin, seenHead, seenTail, lane⟩ := ok.lanes p known
    have fits := lane.counted.occupied
    rw [BitVec.toNat_sub_of_le lane.counted.available]
    exact fits
  disjoint := fun p q first second different => by
    rcases Nat.lt_or_gt_of_ne different with below | above
    · exact .inl (ok.apart p q below second)
    · exact .inr (ok.apart q p above first)
  inside := ok.inside

/-- In every run of accesses under the callers' protocol, every state keeps its promises. -/
theorem lanes_deliver {slotBytes : Nat} {fresh : T} {start final : MaskedSpscArray T}
    (constructed : Constructed slotBytes fresh start) {events : List (QueueEvent T)}
    (each : EachStep (step slotBytes fresh) Allowed start events)
    (ran : run (step slotBytes fresh) start events = some final) : final.Delivers :=
  (run_invariant_of_eachStep (fun _ _ _ ok allowed stepped => Ok.step ok allowed stepped)
    constructed.ok each ran).delivers

def twoLanes : MaskedSpscArray Nat :=
  { producers := 2, totalSlots := 1024, slots := fun _ => 0
    lanes := (installFrom (fun _ => true) 512 2 0 0 (fun _ => blankLane)).2 }

theorem twoLanes_constructed : Constructed 32 0 twoLanes := .fused 4 2 9 (by decide) rfl

/-- Lane 0 delivers a value and is retired, lane 1 gets a smaller block, and both go on. -/
def remasked : List (QueueEvent Nat) :=
  [.push 0 [7], .store 0, .publish 0, .pop 0, .load 0, .advance 0, .retireN 0 1, .remask [0] [1],
    .push 1 [8, 9], .store 1, .push 0 [5], .store 1, .publish 1, .pop 1, .store 0, .load 1]

theorem lanes_deliver_remasked
    : EachStep (step 32 0) Allowed twoLanes remasked
      ∧ ∃ final, run (step 32 0) twoLanes remasked = some final
        ∧ (final.lanes 1).cap = 256 ∧ final.Delivers := by
  have each : EachStep (step 32 0) Allowed twoLanes remasked := by
    refine ⟨Nat.lt_of_sub_pos (by decide), trivial, trivial, trivial, trivial, trivial,
      (by decide : 0 + 1 ≤ 1), ?_, Nat.lt_of_sub_pos (by decide), trivial,
      Nat.lt_of_sub_pos (by decide), trivial, trivial, trivial, trivial, trivial, trivial⟩
    intro p known
    rcases Nat.lt_succ_iff_lt_or_eq.mp known with first | rfl
    · obtain rfl := Nat.lt_one_iff.mp first
      exact ⟨rfl, rfl, Nat.lt_of_sub_pos (by decide)⟩
    · exact ⟨rfl, rfl, Nat.lt_of_sub_pos (by decide)⟩
  exact ⟨each, _, rfl, rfl, lanes_deliver twoLanes_constructed each rfl⟩

/-- A reservation of nearly a full turn of the counters wraps in the capacity test and is
granted.
-/
theorem oversized_reservation_granted
    : ∃ final, run (step 32 0) twoLanes
        [.push 0 [7], .store 0, .publish 0, .reserve 0 (BitVec.ofNat 32 (2 ^ 32 - 1))] = some final
      ∧ (final.lanes 0).producer.capacity.toNat
        < (final.lanes 0).sent.length - (final.lanes 0).taken.length
          + ((final.lanes 0).producer.capacity
            - (final.lanes 0).producer.availableCapacity).toNat :=
  ⟨_, rfl, by decide⟩

end MaskedSpscArray

end Thredis.Exec
