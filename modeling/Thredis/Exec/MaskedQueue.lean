import Mathlib

/-! One consumer's slot array, split into private rings, one for each producer. A call is
modelled by its accesses: the capacity test, one store for each slot, the store of the tail;
the test for a value, the load of its slot, the store of the head.
-/

namespace Thredis.Exec

universe u

abbrev Counter := BitVec 32

def kInternalProducerSlots : Nat := 256

def kMaskedQueueCacheLine : Nat := 64

structure ConsumerLine where
  head : Counter
  retired : Counter
  tailCached : Counter
  base : Nat
  mask : Counter
  capacity : Counter

structure ProducerLine where
  tail : Counter
  headCached : Counter
  base : Nat
  mask : Counter
  capacity : Counter
  availableCapacity : Counter

variable {T : Type u}

/-- Where the producer of a lane is: between calls, or with the values it has stored and those
it has still to store before it publishes them; `reserved` on a reserved slot.
-/
inductive ProducerPc (T : Type u) where
  | idle
  | storing (stored rest : List T) (reserved : Bool)

/-- Where the consumer of a lane is: between calls, before the load of a slot, or with the value
loaded.
-/
inductive ConsumerPc (T : Type u) where
  | idle
  | loading
  | loaded (value : T)

/-- A lane. `sent`, `taken` and `retiredCount` are not in the source: the values published, the
values delivered, and how many of them were retired.
-/
structure Lane (T : Type u) where
  consumer : ConsumerLine
  producer : ProducerLine
  producerPc : ProducerPc T
  consumerPc : ConsumerPc T
  sent : List T
  taken : List T
  retiredCount : Nat

structure MaskedSpscArray (T : Type u) where
  producers : Nat
  totalSlots : Nat
  slots : Nat → T
  lanes : Nat → Lane T

namespace Lane

variable (lane : Lane T)

variable (count : Counter)

/-- The capacity test of `push` and `push_batch`, with the reload of the head behind a test
that fails on the cached one.
-/
def claim : Bool × ProducerLine :=
  let p := lane.producer
  let next := p.tail + count
  if p.availableCapacity < next - p.headCached then
    let p := { p with headCached := lane.consumer.head }
    (!decide (p.availableCapacity < next - p.headCached), p)
  else (true, p)

/-- The start of `push_batch`, and of `push` with one value. -/
def pushBatch (values : List T) : Lane T :=
  if values = [] then lane
  else
    match lane.claim (BitVec.ofNat 32 values.length) with
    | (true, p) => { lane with producer := p, producerPc := .storing [] values false }
    | (false, p) => { lane with producer := p }

/-- The start of `push_reserved`; `none` where it aborts. -/
def pushReserved (value : T) : Option (Lane T) :=
  if lane.producer.availableCapacity = lane.producer.capacity then none
  else some { lane with producerPc := .storing [] [value] true }

/-- The store of the tail that ends a push. -/
def publish (stored : List T) (reserved : Bool) : Lane T :=
  let p := lane.producer
  { lane with
    producer := { p with
      tail := p.tail + BitVec.ofNat 32 stored.length
      availableCapacity := if reserved then p.availableCapacity + 1 else p.availableCapacity }
    producerPc := .idle
    sent := lane.sent ++ stored }

def reserve : Lane T :=
  if count = 0 then lane
  else
    let p := { lane.producer with headCached := lane.consumer.head }
    if p.availableCapacity < p.tail + count - p.headCached then { lane with producer := p }
    else { lane with producer := { p with availableCapacity := p.availableCapacity - count } }

/-- `cancel_reservation`; `none` where it aborts. -/
def cancelReservation : Option (Lane T) :=
  let p := lane.producer
  if p.capacity - p.availableCapacity < count then none
  else some { lane with producer := { p with availableCapacity := p.availableCapacity + count } }

/-- The test of `pop_unretired`, with the reload of the tail behind one that fails on the
cached tail.
-/
def popUnretired : Lane T :=
  let c := lane.consumer
  if c.head = c.tailCached then
    let c := { c with tailCached := lane.producer.tail }
    if c.head = c.tailCached then { lane with consumer := c }
    else { lane with consumer := c, consumerPc := .loading }
  else { lane with consumerPc := .loading }

def advance (value : T) : Lane T :=
  { lane with
    consumer := { lane.consumer with head := lane.consumer.head + 1 }
    consumerPc := .idle
    taken := lane.taken ++ [value] }

def retireN : Lane T :=
  if count = 0 then lane
  else
    { lane with
      consumer := { lane.consumer with retired := lane.consumer.retired + count }
      retiredCount := lane.retiredCount + count.toNat }

def quiesced : Bool := lane.consumer.retired == lane.producer.tail

/-- The lane `install` sets up: counters at zero, a block of `capacity` slots at `cursor`. -/
def install (cursor : Nat) (capacity : Counter) : Lane T :=
  { lane with
    consumer :=
      { head := 0, retired := 0, tailCached := 0, base := cursor, mask := capacity - 1
        capacity := capacity }
    producer :=
      { tail := 0, headCached := 0, base := cursor, mask := capacity - 1, capacity := capacity
        availableCapacity := capacity } }

end Lane

namespace MaskedSpscArray

variable (array : MaskedSpscArray T)

def allQuiesced : Bool :=
  (List.range array.producers).all (fun p => (array.lanes p).quiesced)

/-- The marking loops of `remask_quiesced`; `none` for a producer out of range or named
twice.
-/
def assign (producers : Nat) : List Nat → (Nat → Bool) → Option (Nat → Bool)
  | [], assigned => some assigned
  | p :: rest, assigned =>
    if producers ≤ p ∨ assigned p then none
    else assign producers rest (Function.update assigned p true)

def bitFloor (n : Nat) : Nat := if n = 0 then 0 else 2 ^ n.log2

/-- The install loop from producer `p` on, for `count` producers. -/
def installFrom (ioProducer : Nat → Bool) (ioCapacity : Nat)
    : Nat → Nat → Nat → (Nat → Lane T) → Nat × (Nat → Lane T)
  | 0, _, cursor, lanes => (cursor, lanes)
  | count + 1, p, cursor, lanes =>
    let capacity := if ioProducer p then ioCapacity else kInternalProducerSlots
    installFrom ioProducer ioCapacity count (p + 1) (cursor + capacity)
      (Function.update lanes p ((lanes p).install cursor (BitVec.ofNat 32 capacity)))

variable (slotBytes : Nat)

/-- `remask_quiesced`; `slotBytes` is the size of a slot. -/
def remaskQuiesced (array : MaskedSpscArray T) (io ex : List Nat)
    : Bool × MaskedSpscArray T :=
  if io = [] ∨ ex = [] ∨ io.length + ex.length ≠ array.producers ∨ !array.allQuiesced then
    (false, array)
  else
    match assign array.producers io (fun _ => false) with
    | none => (false, array)
    | some ioProducer =>
      match assign array.producers ex ioProducer with
      | none => (false, array)
      | some assigned =>
        if !(List.range array.producers).all assigned then (false, array)
        else
          let internal := ex.length * kInternalProducerSlots
          if array.totalSlots ≤ internal then (false, array)
          else
            let ioCapacity := bitFloor ((array.totalSlots - internal) / io.length)
            if ioCapacity = 0 ∨ ioCapacity * slotBytes < kMaskedQueueCacheLine
                ∨ ioCapacity < kInternalProducerSlots then (false, array)
            else
              let installed :=
                installFrom ioProducer ioCapacity array.producers 0 0 array.lanes
              (decide (installed.1 ≤ array.totalSlots), { array with lanes := installed.2 })

/-- `grow_quiesced`; `granted` is the allocator's answer, `fresh` a slot as it is constructed. -/
def growQuiesced (fresh : T) (array : MaskedSpscArray T) (wanted : Counter) (granted : Bool)
    (io ex : List Nat) : Bool × MaskedSpscArray T :=
  if wanted.toNat ≤ array.totalSlots ∨ !array.allQuiesced ∨ !granted then (false, array)
  else
    match remaskQuiesced slotBytes
      { array with slots := fun _ => fresh, totalSlots := wanted.toNat } io ex with
    | (true, array) => (true, array)
    | (false, remasked) =>
      (false, { remasked with slots := array.slots, totalSlots := array.totalSlots })

def blankLane : Lane T :=
  { consumer := { head := 0, retired := 0, tailCached := 0, base := 0, mask := 0, capacity := 0 }
    producer :=
      { tail := 0, headCached := 0, base := 0, mask := 0, capacity := 0, availableCapacity := 0 }
    producerPc := .idle, consumerPc := .idle, sent := [], taken := [], retiredCount := 0 }

def initLocal (maxProducers : Nat) (fresh : T) (producers slotsPerThread : Nat) (io ex : List Nat)
    : Option (MaskedSpscArray T) :=
  if producers = 0 ∨ maxProducers < producers ∨ slotsPerThread < kInternalProducerSlots
      ∨ 2 ^ 32 ≤ producers * slotsPerThread then none
  else
    match remaskQuiesced slotBytes
      { producers := producers, totalSlots := producers * slotsPerThread, slots := fun _ => fresh
        lanes := fun _ => blankLane } io ex with
    | (true, array) => some array
    | (false, _) => none

/-- `init_local_fused` where the allocator agrees: every lane gets `slotsPerProducer` slots. -/
def initLocalFused (maxProducers : Nat) (fresh : T) (producers slotsPerProducer : Nat)
    : Option (MaskedSpscArray T) :=
  if producers = 0 ∨ maxProducers < producers ∨ 2 ^ 32 ≤ producers * slotsPerProducer then none
  else
    some { producers := producers, totalSlots := producers * slotsPerProducer
           slots := fun _ => fresh
           lanes :=
             (installFrom (fun _ => true) slotsPerProducer producers 0 0 (fun _ => blankLane)).2 }

inductive QueueEvent (T : Type u) where
  | push (p : Nat) (values : List T)
  | pushReserved (p : Nat) (value : T)
  | store (p : Nat)
  | publish (p : Nat)
  | reserve (p : Nat) (count : Counter)
  | cancelReservation (p : Nat) (count : Counter)
  | pop (p : Nat)
  | load (p : Nat)
  | advance (p : Nat)
  | retireN (p : Nat) (count : Counter)
  | remask (io ex : List Nat)
  | grow (wanted : Counter) (granted : Bool) (io ex : List Nat)

def setLane (p : Nat) (lane : Lane T) : MaskedSpscArray T :=
  { array with lanes := Function.update array.lanes p lane }

/-- An access of lane `p`; `none` where the side it belongs to is not at that point of a call,
or aborts.
-/
def laneStep (p : Nat) : QueueEvent T → Option (MaskedSpscArray T)
  | .push _ values =>
    match (array.lanes p).producerPc with
    | .idle => some (array.setLane p ((array.lanes p).pushBatch values))
    | _ => none
  | .pushReserved _ value =>
    match (array.lanes p).producerPc with
    | .idle => ((array.lanes p).pushReserved value).map (array.setLane p)
    | _ => none
  | .store _ =>
    let lane := array.lanes p
    match lane.producerPc with
    | .storing stored (value :: rest) reserved =>
      let index := lane.producer.base
        + ((lane.producer.tail + BitVec.ofNat 32 stored.length) &&& lane.producer.mask).toNat
      some (setLane { array with slots := Function.update array.slots index value } p
        { lane with producerPc := .storing (stored ++ [value]) rest reserved })
    | _ => none
  | .publish _ =>
    match (array.lanes p).producerPc with
    | .storing stored [] reserved =>
      some (array.setLane p ((array.lanes p).publish stored reserved))
    | _ => none
  | .reserve _ count =>
    match (array.lanes p).producerPc with
    | .idle => some (array.setLane p ((array.lanes p).reserve count))
    | _ => none
  | .cancelReservation _ count =>
    match (array.lanes p).producerPc with
    | .idle => ((array.lanes p).cancelReservation count).map (array.setLane p)
    | _ => none
  | .pop _ =>
    match (array.lanes p).consumerPc with
    | .idle => some (array.setLane p (array.lanes p).popUnretired)
    | _ => none
  | .load _ =>
    let lane := array.lanes p
    match lane.consumerPc with
    | .loading =>
      let index := lane.consumer.base + (lane.consumer.head &&& lane.consumer.mask).toNat
      some (array.setLane p { lane with consumerPc := .loaded (array.slots index) })
    | _ => none
  | .advance _ =>
    match (array.lanes p).consumerPc with
    | .loaded value => some (array.setLane p ((array.lanes p).advance value))
    | _ => none
  | .retireN _ count =>
    match (array.lanes p).consumerPc with
    | .idle => some (array.setLane p ((array.lanes p).retireN count))
    | _ => none
  | _ => none

def QueueEvent.lane : QueueEvent T → Option Nat
  | .push p _ | .pushReserved p _ | .store p | .publish p | .reserve p _
  | .cancelReservation p _ | .pop p | .load p | .advance p | .retireN p _ => some p
  | .remask _ _ | .grow _ _ _ _ => none

def step (fresh : T) (array : MaskedSpscArray T) (event : QueueEvent T)
    : Option (MaskedSpscArray T) :=
  match event with
  | .remask io ex => some (array.remaskQuiesced slotBytes io ex).2
  | .grow wanted granted io ex => some (array.growQuiesced slotBytes fresh wanted granted io ex).2
  | event =>
    match event.lane with
    | some p => if p < array.producers then array.laneStep p event else none
    | none => none

end MaskedSpscArray

end Thredis.Exec
