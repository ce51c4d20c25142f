import Thredis.Exec.MaskedQueue
import Thredis.Lib.WrapRing

/-! The invariant of one lane, and that every access keeps it. -/

namespace Thredis.Exec
open Thredis.Lib List BitVec

universe u

variable {T : Type u}

def ProducerPc.stored : ProducerPc T → List T
  | .idle => []
  | .storing stored _ _ => stored

namespace Lane

def cap (lane : Lane T) : Nat := lane.producer.capacity.toNat

def position (lane : Lane T) (origin : Counter) (n : Nat) : Nat :=
  lane.producer.base + (origin.toNat + n) % lane.cap

/-- Both sides agree on the lane's block, and the block is a power of two. -/
structure Shaped (lane : Lane T) : Prop where
  pow : PowTwo lane.cap
  base : lane.consumer.base = lane.producer.base
  producerMask : lane.producer.mask = BitVec.ofNat 32 (lane.cap - 1)
  consumerMask : lane.consumer.mask = BitVec.ofNat 32 (lane.cap - 1)

/-- The counters show, from `origin` on, how many values were published, delivered and
retired, and what each side last saw of the other. Published values that a producer may not
know to be delivered fit in what reservations leave of the block.
-/
structure Counted (lane : Lane T) (origin : Counter) (seenHead seenTail : Nat) : Prop where
  tail : lane.producer.tail = stamp origin lane.sent.length
  head : lane.consumer.head = stamp origin lane.taken.length
  retired : lane.consumer.retired = stamp origin lane.retiredCount
  headCached : lane.producer.headCached = stamp origin seenHead
  tailCached : lane.consumer.tailCached = stamp origin seenTail
  retiredTaken : lane.retiredCount ≤ lane.taken.length
  seenTaken : seenHead ≤ lane.taken.length
  takenSeen : lane.taken.length ≤ seenTail
  seenSent : seenTail ≤ lane.sent.length
  credit : lane.sent.length - seenHead ≤ lane.producer.availableCapacity.toNat
  available : lane.producer.availableCapacity.toNat ≤ lane.cap

def Producing (lane : Lane T) (seenHead : Nat) : Prop :=
  match lane.producerPc with
  | .idle => True
  | .storing stored rest false =>
    lane.sent.length + stored.length + rest.length - seenHead
      ≤ lane.producer.availableCapacity.toNat
  | .storing stored rest true =>
    stored.length + rest.length = 1 ∧ lane.producer.availableCapacity.toNat < lane.cap

/-- A pop under way is about the next value, and has the right one once it is loaded. -/
def Consuming (lane : Lane T) (seenTail : Nat) : Prop :=
  match lane.consumerPc with
  | .idle => True
  | .loading => lane.taken.length < seenTail
  | .loaded value => lane.taken.length < seenTail ∧ lane.sent[lane.taken.length]? = some value

structure Ok (slots : Nat → T) (lane : Lane T) (origin : Counter) (seenHead seenTail : Nat)
    : Prop where
  shaped : lane.Shaped
  counted : lane.Counted origin seenHead seenTail
  delivered : lane.taken <+: lane.sent
  window : Window slots (lane.position origin) lane.taken.length
    (lane.sent ++ lane.producerPc.stored)
  producing : lane.Producing seenHead
  consuming : lane.Consuming seenTail

variable {lane : Lane T} {slots : Nat → T} {origin : Counter} {seenHead seenTail : Nat}

theorem cap_lt (lane : Lane T) : lane.cap < 2 ^ 32 := lane.producer.capacity.isLt

section

variable (shaped : lane.Shaped) (origin : Counter) (n : Nat)

include shaped

theorem Shaped.producerSlot
    : lane.producer.base + (stamp origin n &&& lane.producer.mask).toNat
      = lane.position origin n := by
  rw [shaped.producerMask, stamp_and_mask shaped.pow lane.cap_lt.le, position]

theorem Shaped.consumerSlot
    : lane.consumer.base + (stamp origin n &&& lane.consumer.mask).toNat
      = lane.position origin n := by
  rw [shaped.consumerMask, shaped.base, stamp_and_mask shaped.pow lane.cap_lt.le,
    position]

/-- A slot of a lane is inside its block. -/
theorem Shaped.position_mem
    : lane.producer.base ≤ lane.position origin n
      ∧ lane.position origin n < lane.producer.base + lane.cap := by
  have inside := Nat.mod_lt (origin.toNat + n) shaped.pow.pos
  rw [position]
  omega

end

/-- Values fewer than a block apart have different slots. -/
theorem position_ne (lane : Lane T) (origin : Counter) {early late : Nat} (order : early < late)
    (near : late < early + lane.cap) : lane.position origin early ≠ lane.position origin late := by
  have apart : (origin.toNat + early) % lane.cap ≠ (origin.toNat + late) % lane.cap :=
    slot_ne order near
  rw [position, position]
  omega

/-- What is in the lane and what is promised fit in the block. -/
theorem Counted.occupied (counted : lane.Counted origin seenHead seenTail)
    : lane.sent.length - lane.taken.length
        + (lane.cap - lane.producer.availableCapacity.toNat) ≤ lane.cap := by
  have seen := counted.seenTaken
  have credit := counted.credit
  have available := counted.available
  omega

/-- A producer that looks again finds no less room. -/
theorem Counted.renewed (counted : lane.Counted origin seenHead seenTail)
    : lane.sent.length - lane.taken.length ≤ lane.producer.availableCapacity.toNat := by
  have credit := counted.credit
  have seen := counted.seenTaken
  omega

variable {stored : List T} {reserved : Bool}

/-- A push has room to store its next value. -/
theorem Ok.room (ok : lane.Ok slots origin seenHead seenTail) {rest : List T}
    (storing : lane.producerPc = .storing stored rest reserved)
    : lane.sent.length + stored.length + rest.length ≤ lane.taken.length + lane.cap := by
  have producing := ok.producing
  have seen := ok.counted.seenTaken
  have credit := ok.counted.credit
  have available := ok.counted.available
  rw [Producing, storing] at producing
  cases reserved with
  | false | true =>
    omega

-- Producer accesses

/-- How far the tail plus `count` is ahead of a head the producer has seen. -/
theorem Counted.ahead (counted : lane.Counted origin seenHead seenTail) {count seen : Nat}
    (small : count + lane.cap < 2 ^ 32) (known : seen ≤ lane.sent.length)
    (credit : lane.sent.length - seen ≤ lane.producer.availableCapacity.toNat)
    : (lane.producer.tail + BitVec.ofNat 32 count - stamp origin seen).toNat
      = lane.sent.length + count - seen := by
  have available := counted.available
  rw [counted.tail, stamp_add, stamp_sub_toNat origin (by omega) (by omega)]

/-- The capacity test: the producer's view of the head may have been renewed, and a positive
answer leaves room for all values.
-/
theorem Counted.claim (counted : lane.Counted origin seenHead seenTail) {count : Nat}
    (small : count + lane.cap < 2 ^ 32)
    : ∃ seen, (lane.claim (BitVec.ofNat 32 count)).2
          = { lane.producer with headCached := stamp origin seen }
        ∧ Counted { lane with producer := (lane.claim (BitVec.ofNat 32 count)).2 }
            origin seen seenTail
        ∧ ((lane.claim (BitVec.ofNat 32 count)).1 = true
          → lane.sent.length + count - seen ≤ lane.producer.availableCapacity.toNat) := by
  have order := counted.takenSeen.trans counted.seenSent
  have cached := counted.ahead small (counted.seenTaken.trans order) counted.credit
  have current := counted.ahead small order counted.renewed
  simp only [Lane.claim]
  rw [counted.headCached, counted.head]
  simp only [lt_def, cached, current]
  split
  · refine ⟨lane.taken.length, rfl, ?_, fun granted => by simpa using granted⟩
    exact { counted with headCached := rfl, seenTaken := le_rfl, credit := counted.renewed }
  · rename_i room
    refine ⟨seenHead, ?_, counted, fun _ => not_lt.mp room⟩
    rw [← counted.headCached]

theorem Ok.pushBatch (ok : lane.Ok slots origin seenHead seenTail) (idle : lane.producerPc = .idle)
    {values : List T} (small : values.length + lane.cap < 2 ^ 32)
    : ∃ seen, (lane.pushBatch values).Ok slots origin seen seenTail := by
  rw [Lane.pushBatch]
  split
  · exact ⟨seenHead, ok⟩
  · obtain ⟨seen, claimed, counted, room⟩ := ok.counted.claim small
    refine ⟨seen, ?_⟩
    have window := ok.window
    rw [idle] at window
    generalize lane.claim (BitVec.ofNat 32 values.length) = answer at claimed counted room
    obtain ⟨granted, p⟩ := answer
    subst claimed
    cases granted with
    | false =>
      exact ⟨{ ok.shaped with },
        counted, ok.delivered, ok.window, by rw [idle]; trivial,
        ok.consuming⟩
    | true =>
      refine ⟨{ ok.shaped with }, { counted with }, ok.delivered, window, ?_, ok.consuming⟩
      have fits := room rfl
      rw [Producing]
      exact fits

variable {value : T}

section

variable (ok : lane.Ok slots origin seenHead seenTail)

include ok

theorem Ok.pushReserved (idle : lane.producerPc = .idle) {after : Lane T}
    (started : lane.pushReserved value = some after) : after.Ok slots origin seenHead seenTail := by
  rw [Lane.pushReserved] at started
  split at started
  · cases started
  · rename_i credit
    cases started
    have window := ok.window
    rw [idle] at window
    refine ⟨{ ok.shaped with }, { ok.counted with }, ok.delivered, window, ⟨rfl, ?_⟩, ok.consuming⟩
    have different : lane.producer.availableCapacity.toNat ≠ lane.producer.capacity.toNat :=
      fun same => credit (eq_of_toNat_eq same)
    exact lt_of_le_of_ne ok.counted.available different

/-- Storing the next value of a push: it goes to the slot behind everything undelivered. -/
theorem Ok.store {rest : List T}
    (storing : lane.producerPc = .storing stored (value :: rest) reserved)
    : Ok (Function.update slots (lane.position origin (lane.sent.length + stored.length)) value)
        { lane with producerPc := .storing (stored ++ [value]) rest reserved }
        origin seenHead seenTail := by
  have room := ok.room storing
  have producing := ok.producing
  have window := ok.window
  rw [storing] at window
  rw [Producing, storing] at producing
  rw [length_cons] at room
  refine ⟨{ ok.shaped with }, { ok.counted with }, ok.delivered, ?_, ?_, ok.consuming⟩
  · have length : (lane.sent ++ stored).length = lane.sent.length + stored.length :=
      length_append
    have extended := window.extend (fun n above inside => by
      exact lane.position_ne origin inside (by
        simp only [ProducerPc.stored] at inside ⊢
        omega)) value
    have grown : Window
        (Function.update slots (lane.position origin (lane.sent.length + stored.length)) value)
        (lane.position origin) lane.taken.length (lane.sent ++ (stored ++ [value])) := by
      simpa [ProducerPc.stored] using extended
    exact grown
  · rw [Producing]
    cases reserved with
    | false =>
      simp only [length_append, length_cons, length_nil] at producing ⊢
      omega
    | true =>
      refine ⟨?_, producing.2⟩
      simp only [length_append, length_cons, length_nil] at producing ⊢
      omega

theorem Ok.publish (storing : lane.producerPc = .storing stored [] reserved)
    : (lane.publish stored reserved).Ok slots origin seenHead seenTail := by
  have producing := ok.producing
  have window := ok.window
  have counted := ok.counted
  have credit := counted.credit
  have available := counted.available
  have small := lane.cap_lt
  rw [storing] at window
  rw [Producing, storing] at producing
  have grown : (if reserved then lane.producer.availableCapacity + 1
        else lane.producer.availableCapacity).toNat
      = lane.producer.availableCapacity.toNat + (if reserved then 1 else 0) := by
    cases reserved with
    | false => rfl
    | true =>
      simp only [if_true] at producing ⊢
      rw [toNat_add_of_lt] <;> simp
      omega
  refine ⟨{ ok.shaped with },
    { counted with tail := ?_, seenSent := ?_, credit := ?_, available := ?_ },
    ok.delivered.trans (prefix_append _ _), ?_, trivial, ?_⟩
  · simp only [Lane.publish, length_append]
    rw [counted.tail, stamp_add]
  · simp only [Lane.publish, length_append]
    have := counted.seenSent
    omega
  · simp only [Lane.publish]
    cases reserved <;> simp at producing ⊢ <;> omega
  · simp only [Lane.publish]
    rw [grown]
    cases reserved with
    | false => exact available
    | true =>
      exact producing.2
  · have same : (lane.publish stored reserved).sent
        ++ (lane.publish stored reserved).producerPc.stored = lane.sent ++ stored := by
      simp [Lane.publish, ProducerPc.stored]
    rw [same]
    exact window
  · have consuming := ok.consuming
    rw [Consuming] at consuming ⊢
    simp only [Lane.publish]
    cases pc : lane.consumerPc with
    | idle => trivial
    | loading => rw [pc] at consuming; exact consuming
    | loaded value =>
      rw [pc] at consuming
      refine ⟨consuming.1, ?_⟩
      rw [getElem?_append_left (consuming.1.trans_le counted.seenSent)]
      exact consuming.2

end

variable {count : Counter}

section

variable (ok : lane.Ok slots origin seenHead seenTail) (idle : lane.producerPc = .idle)

include ok idle

theorem Ok.reserve (small : count.toNat + lane.cap < 2 ^ 32)
    : ∃ seen, (lane.reserve count).Ok slots origin seen seenTail := by
  have counted := ok.counted
  have order := counted.takenSeen.trans counted.seenSent
  have renewed := counted.renewed
  have current := counted.ahead small order renewed
  rw [ofNat_toNat, setWidth_eq] at current
  have still : ∀ p : ProducerLine, Producing { lane with producer := p } lane.taken.length := by
    intro p
    rw [idle]
    trivial
  simp only [Lane.reserve]
  split
  · exact ⟨seenHead, ok⟩
  · rw [counted.head]
    simp only [lt_def]
    split
    · refine ⟨lane.taken.length, { ok.shaped with }, ?_, ok.delivered, ok.window, still _,
        ok.consuming⟩
      exact { counted with headCached := rfl, seenTaken := le_rfl, credit := renewed }
    · have left : (lane.producer.availableCapacity - count).toNat
          = lane.producer.availableCapacity.toNat - count.toNat :=
        toNat_sub_of_le (by rw [le_def]; omega)
      have available := counted.available
      refine ⟨lane.taken.length, { ok.shaped with }, ?_, ok.delivered, ok.window, still _,
        ok.consuming⟩
      refine { counted with
        headCached := rfl, seenTaken := le_rfl, credit := ?_, available := ?_ }
      · dsimp only
        omega
      · rw [left]
        exact (Nat.sub_le _ _).trans available

theorem Ok.cancelReservation {after : Lane T}
    (cancelled : lane.cancelReservation count = some after)
    : after.Ok slots origin seenHead seenTail := by
  simp only [Lane.cancelReservation] at cancelled
  split at cancelled
  · cases cancelled
  · rename_i promised
    cases cancelled
    have counted := ok.counted
    have available := counted.available
    have credit := counted.credit
    have cap : lane.cap = lane.producer.capacity.toNat := rfl
    have free := toNat_sub_of_le available
    rw [lt_def] at promised
    have grown : (lane.producer.availableCapacity + count).toNat
        = lane.producer.availableCapacity.toNat + count.toNat :=
      toNat_add_of_lt (by omega)
    refine ⟨{ ok.shaped with },
      { counted with credit := ?_, available := ?_ }, ok.delivered, ok.window, ?_, ok.consuming⟩
    · dsimp only
      omega
    · dsimp only
      change _ ≤ lane.cap
      omega
    · rw [idle]
      trivial

end

/-- The undelivered values are fewer than a full turn of the counters. -/
theorem Counted.near (counted : lane.Counted origin seenHead seenTail)
    : lane.sent.length - lane.taken.length < 2 ^ 32 := by
  have credit := counted.credit
  have seen := counted.seenTaken
  omega

section

variable (ok : lane.Ok slots origin seenHead seenTail)

include ok

/-- A pop that finds nothing finds everything delivered; any other is about the next value. -/
theorem Ok.popUnretired
    : ∃ seen, lane.popUnretired.Ok slots origin seenHead seen
      ∧ (lane.consumerPc = .idle → lane.popUnretired.consumerPc = .idle → lane.taken = lane.sent)
      := by
  have counted := ok.counted
  have near := counted.near
  have order := counted.takenSeen.trans counted.seenSent
  simp only [Lane.popUnretired]
  split
  · rename_i drained
    rw [counted.head, counted.tailCached] at drained
    have seenAll := stamp_inj origin counted.takenSeen
      (by have := counted.seenSent; omega) drained.symm
    split
    · rename_i empty
      rw [counted.head, counted.tail] at empty
      have sentAll := stamp_inj origin order near empty.symm
      refine ⟨lane.sent.length, ⟨{ ok.shaped with }, { counted with
        tailCached := counted.tail, takenSeen := order, seenSent := le_rfl }, ok.delivered,
        ok.window, ok.producing, ?_⟩, fun _ _ => ok.delivered.eq_of_length sentAll⟩
      have consuming := ok.consuming
      rw [Consuming] at consuming ⊢
      cases pc : lane.consumerPc with
      | idle => trivial
      | loading =>
        rw [pc] at consuming
        exact absurd consuming (by omega)
      | loaded value =>
        rw [pc] at consuming
        exact absurd consuming.1 (by omega)
    · rename_i more
      refine ⟨lane.sent.length, ⟨{ ok.shaped with }, { counted with
        tailCached := counted.tail, takenSeen := order, seenSent := le_rfl }, ok.delivered,
        ok.window, ok.producing, ?_⟩, fun _ => nofun⟩
      rw [counted.head, counted.tail] at more
      refine lt_of_le_of_ne order (fun same => more ?_)
      rw [same]
  · rename_i known
    refine ⟨seenTail, ⟨{ ok.shaped with }, { counted with }, ok.delivered, ok.window, ok.producing,
      ?_⟩, fun _ => nofun⟩
    rw [counted.head, counted.tailCached] at known
    refine lt_of_le_of_ne counted.takenSeen (fun same => known ?_)
    rw [same]

/-- The slot loaded holds the next value. -/
theorem Ok.load (loading : lane.consumerPc = .loading)
    : Ok slots { lane with consumerPc := .loaded (slots (lane.consumer.base
        + (lane.consumer.head &&& lane.consumer.mask).toNat)) } origin seenHead seenTail := by
  have consuming := ok.consuming
  rw [Consuming, loading] at consuming
  have inside := consuming.trans_le ok.counted.seenSent
  refine ⟨{ ok.shaped with },
    { ok.counted with }, ok.delivered, ok.window, ok.producing, ⟨consuming, ?_⟩⟩
  rw [ok.counted.head, ok.shaped.consumerSlot]
  have held := ok.window lane.taken.length le_rfl (by rw [length_append]; omega)
  rwa [getElem?_append_left inside] at held

theorem Ok.advance (loaded : lane.consumerPc = .loaded value)
    : (lane.advance value).Ok slots origin seenHead seenTail := by
  have consuming := ok.consuming
  rw [Consuming, loaded] at consuming
  obtain ⟨seen, next⟩ := consuming
  have counted := ok.counted
  have length : (lane.advance value).taken.length = lane.taken.length + 1 := by
    simp [Lane.advance]
  refine ⟨{ ok.shaped with },
    { counted with head := ?_, retiredTaken := ?_, seenTaken := ?_, takenSeen := ?_ }, ?_, ?_,
    ok.producing, trivial⟩
  · rw [length, ← stamp_add, ← counted.head]
    rfl
  · rw [length]
    exact Nat.le_succ_of_le counted.retiredTaken
  · rw [length]
    exact Nat.le_succ_of_le counted.seenTaken
  · rw [length]
    exact seen
  · obtain ⟨rest, split⟩ := ok.delivered
    rw [← split, getElem?_append_right le_rfl, Nat.sub_self] at next
    cases rest with
    | nil => cases next
    | cons first rest =>
      cases next
      exact ⟨rest, by simp [Lane.advance, ← split]⟩
  · rw [length]
    exact ok.window.later (Nat.le_succ _)

theorem Ok.retireN (popped : lane.retiredCount + count.toNat ≤ lane.taken.length)
    : (lane.retireN count).Ok slots origin seenHead seenTail := by
  rw [Lane.retireN]
  split
  · exact ok
  · refine ⟨{ ok.shaped with },
      { ok.counted with retired := ?_, retiredTaken := popped }, ok.delivered, ok.window,
      ok.producing, ok.consuming⟩
    rw [ok.counted.retired, ← stamp_add, ofNat_toNat, setWidth_eq]

/-- A store outside the lane's block does not concern it. -/
theorem Ok.frame {index : Nat}
    (outside : index < lane.producer.base ∨ lane.producer.base + lane.cap ≤ index) (value : T)
    : lane.Ok (Function.update slots index value) origin seenHead seenTail := by
  refine { ok with window := ok.window.frame (fun n _ _ same => ?_) value }
  have inside := ok.shaped.position_mem origin n
  omega

/-- A lane whose every published value is retired has delivered them all; no counter can hide
a full turn.
-/
theorem Ok.drained (quiesced : lane.quiesced = true)
    (recent : lane.sent.length - lane.retiredCount < 2 ^ 32)
    : lane.taken = lane.sent ∧ lane.retiredCount = lane.sent.length := by
  have counted := ok.counted
  have order := counted.takenSeen.trans counted.seenSent
  have equal : lane.consumer.retired = lane.producer.tail := by simpa [Lane.quiesced] using quiesced
  rw [counted.retired, counted.tail] at equal
  have same := stamp_inj origin (counted.retiredTaken.trans order) recent equal.symm
  exact ⟨ok.delivered.eq_of_length (by have := counted.retiredTaken; omega), same⟩

end

/-- A drained lane between calls takes any block of a power of two. -/
theorem install_ok {lane : Lane T} (taken : lane.taken = lane.sent)
    (retired : lane.retiredCount = lane.sent.length) (producerIdle : lane.producerPc = .idle)
    (consumerIdle : lane.consumerPc = .idle) {cap : Nat} (pow : PowTwo cap) (fits : cap < 2 ^ 32)
    (slots : Nat → T) (cursor : Nat)
    : (lane.install cursor (BitVec.ofNat 32 cap)).Ok slots (0 - BitVec.ofNat 32 lane.sent.length)
        lane.sent.length lane.sent.length
      ∧ (lane.install cursor (BitVec.ofNat 32 cap)).cap = cap := by
  have shown : (BitVec.ofNat 32 cap).toNat = cap := by
    rw [toNat_ofNat, Nat.mod_eq_of_lt fits]
  have size : (lane.install cursor (BitVec.ofNat 32 cap)).cap = cap := shown
  have zero : stamp (0 - BitVec.ofNat 32 lane.sent.length) lane.sent.length = 0 := by
    rw [stamp, sub_add_cancel]
  have mask : BitVec.ofNat 32 cap - 1 = BitVec.ofNat 32 (cap - 1) := by
    apply eq_of_toNat_eq
    have positive := pow.pos
    have one : (1 : BitVec 32).toNat = 1 := rfl
    rw [toNat_sub_of_le (by rw [le_def]; omega), shown, one,
      toNat_ofNat, Nat.mod_eq_of_lt (by omega)]
  refine ⟨⟨⟨size.symm ▸ pow, rfl, by rw [size]; exact mask, by rw [size]; exact mask⟩,
    { tail := zero.symm, head := ?_, retired := ?_, headCached := zero.symm
      tailCached := zero.symm, retiredTaken := ?_, seenTaken := ?_, takenSeen := ?_
      seenSent := le_rfl, credit := ?_, available := le_rfl }, ?_, ?_, ?_, ?_⟩, size⟩
  · simp only [install, taken]
    exact zero.symm
  · simp only [install, retired]
    exact zero.symm
  · simp [install, taken, retired]
  · simp [install, taken]
  · simp [install, taken]
  · simp [install]
  · simp only [install, taken]
    exact prefix_refl _
  · refine fun n above inside => absurd inside (not_lt.mpr (Nat.le_trans ?_ above))
    simp [install, producerIdle, ProducerPc.stored, taken]
  · simp [Producing, install, producerIdle]
  · simp [Consuming, install, consumerIdle]

end Lane

end Thredis.Exec
