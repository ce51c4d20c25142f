import Thredis.Lib.Runs
import Thredis.Lib.WrapRing

/-! The index bookkeeping of the deferred-reclaim ring: entry slots in a FIFO, one stamp for each
sealed batch, and a batch table that folds into its newest batch when it is full.
-/

namespace Thredis.Core

open Thredis.Lib List

def kRetireCapacity : Nat := 4096

def kBatchCapacity : Nat := 256

/-- `ReadLocalRetireRing` with the entries its slots stand for; a batch is its stamp and count. -/
structure RetireRing (ο : Type) where
  entries : Nat → ο
  batches : Nat → Nat × Nat
  head : Nat
  tail : Nat
  count : Nat
  unsealed : Nat
  batchHead : Nat
  batchCount : Nat

namespace RetireRing

variable {ο : Type}

def init (blank : ο) : RetireRing ο :=
  ⟨fun _ => blank, fun _ => (0, 0), 0, 0, 0, 0, 0, 0⟩

variable (ring : RetireRing ο)

/-- `push` with the caller's fill of the claimed slot; it requires a ring that is not full. -/
def push (object : ο) : Option (RetireRing ο) :=
  if ring.count = kRetireCapacity then none
  else
    some { ring with
        entries := Function.update ring.entries ring.tail object
        tail := (ring.tail + 1) % kRetireCapacity
        count := ring.count + 1
        unsealed := ring.unsealed + 1 }

/-- The inner loop of `drain_below`: what `fn` is handed, and the head behind it. -/
def handOver (ring : RetireRing ο) : Nat → Nat → List ο × Nat
  | 0, head => ([], head)
  | remaining + 1, head =>
    let rest := ring.handOver remaining ((head + 1) % kRetireCapacity)
    (ring.entries head :: rest.1, rest.2)

def waiting : List ο :=
  ringView ring.entries kRetireCapacity ring.head ring.count

def sealed : List (Nat × Nat) :=
  ringView ring.batches kBatchCapacity ring.batchHead ring.batchCount

end RetireRing

def RetireRing.seal {ο : Type} (ring : RetireRing ο) (stamp : Nat) : RetireRing ο :=
  if ring.unsealed = 0 then ring
  else if ring.batchCount = kBatchCapacity then
    let newest := (ring.batchHead + ring.batchCount - 1) % kBatchCapacity
    { ring with
      batches := Function.update ring.batches newest
        (stamp, (ring.batches newest).2 + ring.unsealed)
      unsealed := 0 }
  else
    { ring with
      batches := Function.update ring.batches
        ((ring.batchHead + ring.batchCount) % kBatchCapacity) (stamp, ring.unsealed)
      batchCount := ring.batchCount + 1
      unsealed := 0 }

/-- A ring with its history: the objects pushed, the seals with how many had been pushed, and the
objects handed over with the floor of their drain.
-/
structure RetireHistory (ο : Type) where
  ring : RetireRing ο
  pushed : List ο
  seals : List (Nat × Nat)
  handed : List (ο × Nat)

inductive RetireCall (ο : Type) where
  | push (object : ο)
  | seal (stamp : Nat)
  | drainBelow (floor : Nat)

namespace RetireHistory

variable {ο : Type}

def init (blank : ο) : RetireHistory ο := ⟨.init blank, [], [], []⟩

def drainBatch (history : RetireHistory ο) (floor : Nat) : RetireHistory ο :=
  let ring := history.ring
  let batch := ring.batches ring.batchHead
  let popped := ring.handOver batch.2 ring.head
  { history with
    ring :=
      { ring with
        head := popped.2
        count := ring.count - batch.2
        batchHead := (ring.batchHead + 1) % kBatchCapacity
        batchCount := ring.batchCount - 1 }
    handed := history.handed ++ popped.1.map fun object => (object, floor) }

/-- The loop of `drain_below` over the batches left. -/
def drainBelow (floor : Nat) : Nat → RetireHistory ο → RetireHistory ο
  | 0, history => history
  | left + 1, history =>
    if floor ≤ (history.ring.batches history.ring.batchHead).1 then history
    else drainBelow floor left (history.drainBatch floor)

def step (history : RetireHistory ο) : RetireCall ο → Option (RetireHistory ο)
  | .push object =>
    (history.ring.push object).map fun ring =>
      { history with ring := ring, pushed := history.pushed ++ [object] }
  | .seal stamp =>
    some { history with
        ring := history.ring.seal stamp
        seals := history.seals ++ [(stamp, history.pushed.length)] }
  | .drainBelow floor => some (drainBelow floor history.ring.batchCount history)

def entriesIn (batches : List (Nat × Nat)) : Nat := (batches.map Prod.snd).sum

def Stamped (seals : List (Nat × Nat)) : Nat → List (Nat × Nat) → Prop
  | _, [] => True
  | before, batch :: rest =>
    (∃ pushes, (batch.1, pushes) ∈ seals ∧ before + batch.2 ≤ pushes)
      ∧ Stamped seals (before + batch.2) rest

structure Inv (history : RetireHistory ο) : Prop where
  head : history.ring.head < kRetireCapacity
  tail : history.ring.tail = (history.ring.head + history.ring.count) % kRetireCapacity
  bound : history.ring.count ≤ kRetireCapacity
  batchHead : history.ring.batchHead < kBatchCapacity
  batchBound : history.ring.batchCount ≤ kBatchCapacity
  order : history.handed.map Prod.fst ++ history.ring.waiting = history.pushed
  counts : entriesIn history.ring.sealed + history.ring.unsealed = history.ring.count
  stamped : Stamped history.seals history.handed.length history.ring.sealed
  floors : ∀ n object floor, history.handed[n]? = some (object, floor)
    → ∃ cover ∈ history.seals, n < cover.2 ∧ cover.1 < floor

variable {history next : RetireHistory ο} {seals front back : List (Nat × Nat)} {before : Nat}

@[simp]
theorem entriesIn_append : entriesIn (front ++ back) = entriesIn front + entriesIn back := by
  simp [entriesIn]

theorem stamped_append
    : Stamped seals before (front ++ back)
      ↔ Stamped seals before front ∧ Stamped seals (before + entriesIn front) back := by
  induction front generalizing before with
  | nil => simp [Stamped, entriesIn]
  | cons batch rest ih => simp [Stamped, ih, entriesIn, and_assoc, Nat.add_assoc]

theorem Stamped.later (stamped : Stamped seals before front) (cover : Nat × Nat)
    : Stamped (seals ++ [cover]) before front := by
  induction front generalizing before with
  | nil => trivial
  | cons batch rest ih =>
    obtain ⟨⟨pushes, sealed, within⟩, others⟩ := stamped
    exact ⟨⟨pushes, mem_append_left _ sealed, within⟩, ih others⟩

open RetireRing

theorem init_inv (blank : ο) : (init blank).Inv := by
  constructor <;>
    simp [init, RetireRing.init, RetireRing.waiting, RetireRing.sealed, entriesIn, ringView,
      Stamped, kRetireCapacity, kBatchCapacity]

section

variable (inv : history.Inv)

include inv

theorem Inv.length
    : history.handed.length + history.ring.count = history.pushed.length := by
  simp [← inv.order, waiting]

theorem Inv.push {object : ο} (stepped : history.step (.push object) = some next) : next.Inv := by
  obtain ⟨ring, pushed, rfl⟩ := Option.map_eq_some_iff.mp stepped
  obtain ⟨room, ⟨⟩⟩ := Option.ite_none_left_eq_some.mp pushed
  have free := lt_of_le_of_ne inv.bound room
  refine { inv with tail := ?_, bound := free, order := ?_, counts := ?_ }
  · rw [inv.tail, Nat.mod_add_mod, Nat.add_assoc]
  · rw [← inv.order, append_assoc, inv.tail]
    exact congrArg _ (ringView_push free _ _)
  · exact congrArg (· + 1) inv.counts

/-- A batch behind the first `held`, new or the newest one made anew, that covers the rest. -/
theorem Inv.cover (stamp fresh : Nat) {held : Nat} (room : held < kBatchCapacity)
    (kept : Stamped history.seals history.handed.length
      (ringView history.ring.batches kBatchCapacity history.ring.batchHead held))
    (all : entriesIn (ringView history.ring.batches kBatchCapacity history.ring.batchHead held)
      + fresh = history.ring.count)
    : Inv { history with
          ring :=
            { history.ring with
              batches := Function.update history.ring.batches
                ((history.ring.batchHead + held) % kBatchCapacity) (stamp, fresh)
              batchCount := held + 1
              unsealed := 0 }
          seals := history.seals ++ [(stamp, history.pushed.length)] } := by
  refine { inv with
      batchBound := room, counts := ?_, stamped := ?_, floors := fun n object floor found => ?_ }
  · rw [sealed, ringView_push room, entriesIn_append, ← all]
    rfl
  · rw [sealed, ringView_push room, stamped_append]
    refine ⟨kept.later _, ⟨history.pushed.length, by simp, ?_⟩, trivial⟩
    rw [Nat.add_assoc, all, inv.length]
  · obtain ⟨cover, sealed, held⟩ := inv.floors n object floor found
    exact ⟨cover, mem_append_left _ sealed, held⟩

/-- A seal covers the tail: by a batch of its own, or in the newest batch of a full table. -/
theorem Inv.sealed {stamp : Nat} (stepped : history.step (.seal stamp) = some next)
    : next.Inv ∧ next.ring.unsealed = 0 := by
  cases stepped
  have counts := inv.counts
  have stamped := inv.stamped
  unfold RetireRing.seal
  split
  next empty =>
    refine ⟨{ inv with
      stamped := stamped.later _, floors := fun n object floor found => ?_ }, empty⟩
    obtain ⟨cover, sealed, held⟩ := inv.floors n object floor found
    exact ⟨cover, mem_append_left _ sealed, held⟩
  split
  next full =>
    -- the newest batch is the one behind all the others
    obtain ⟨held, same⟩ : ∃ held, history.ring.batchCount = held + 1 := ⟨255, full⟩
    have room : held < kBatchCapacity := by omega
    rw [sealed, same, ringView_add] at counts stamped
    have covered := inv.cover stamp _ room (stamped_append.mp stamped).1
      (by rw [← counts, entriesIn_append, Nat.add_assoc])
    have newest : history.ring.batchHead + (held + 1) - 1 = history.ring.batchHead + held := rfl
    simp only [same]
    exact ⟨by simpa [ringView, entriesIn] using covered, trivial⟩
  next room =>
    exact ⟨inv.cover stamp _ (lt_of_le_of_ne inv.batchBound room) stamped counts, rfl⟩

end

theorem handOver_eq (ring : RetireRing ο) (remaining : Nat) {head : Nat}
    (inside : head < kRetireCapacity)
    : ring.handOver remaining head
      = (ringView ring.entries kRetireCapacity head remaining,
        (head + remaining) % kRetireCapacity) := by
  induction remaining generalizing head with
  | zero =>
    rw [Nat.add_zero, Nat.mod_eq_of_lt inside]
    rfl
  | succ remaining ih =>
    rw [handOver, ih (Nat.mod_lt _ (by decide)), Nat.mod_add_mod, ringView_cons inside,
      Nat.add_right_comm, Nat.add_assoc]

section

variable (inv : history.Inv)

include inv

/-- One batch of a drain hands over the next entries, all pushed before the batch's seal. -/
theorem Inv.drainBatch {floor left : Nat} (waiting : history.ring.batchCount = left + 1)
    (below : (history.ring.batches history.ring.batchHead).1 < floor)
    : (history.drainBatch floor).Inv := by
  have counts := inv.counts
  have stamped := inv.stamped
  have order := inv.order
  rw [RetireRing.sealed, waiting, ringView_cons inv.batchHead] at counts stamped
  rw [RetireHistory.drainBatch, handOver_eq _ _ inv.head]
  generalize history.ring.batches history.ring.batchHead = batch at below counts stamped
  obtain ⟨⟨pushes, sealed, within⟩, others⟩ := stamped
  obtain ⟨rest, count⟩ : ∃ rest, history.ring.count = batch.2 + rest :=
    ⟨_, (Nat.add_assoc _ _ _).symm.trans counts |>.symm⟩
  rw [RetireRing.waiting, count, ringView_add] at order
  have bound := inv.bound
  have batchBound := inv.batchBound
  refine { inv with
      head := Nat.mod_lt _ (by decide), tail := ?_, bound := ?_
      batchHead := Nat.mod_lt _ (by decide), batchBound := ?_, order := ?_, counts := ?_
      stamped := ?_, floors := fun n object handedAt found => ?_ }
  all_goals
    simp only [RetireRing.waiting, RetireRing.sealed, count, waiting, Nat.add_sub_cancel_left,
      Nat.add_sub_cancel]
  · rw [inv.tail, count, Nat.mod_add_mod, Nat.add_assoc]
  · omega
  · omega
  · rw [← order]
    simp [Function.comp_def]
  · simp only [entriesIn, map_cons, sum_cons] at counts ⊢
    omega
  · rw [length_append, length_map, length_ringView]
    exact others
  · rcases lt_or_ge n history.handed.length with before | fresh
    · rw [getElem?_append_left before] at found
      exact inv.floors n object handedAt found
    · rw [getElem?_append_right fresh, getElem?_map] at found
      obtain ⟨entry, there, ⟨⟩⟩ := Option.map_eq_some_iff.mp found
      obtain ⟨inside, _⟩ := List.getElem?_eq_some_iff.mp there
      rw [length_ringView] at inside
      exact ⟨_, sealed, by omega, below⟩

/-- A drain stops with no batch left, or at the first one its floor does not cover. -/
theorem Inv.drainBelow (floor : Nat) {left : Nat} (all : history.ring.batchCount = left)
    : let after := drainBelow floor left history
      after.Inv ∧ after.pushed = history.pushed ∧ after.seals = history.seals
      ∧ after.ring.unsealed = history.ring.unsealed
      ∧ ∀ batch ∈ after.ring.sealed.head?, floor ≤ batch.1 := by
  induction left generalizing history with
  | zero =>
    refine ⟨inv, rfl, rfl, rfl, ?_⟩
    simp [RetireHistory.drainBelow, RetireRing.sealed, all, ringView]
  | succ left ih =>
    unfold RetireHistory.drainBelow
    split
    next stops =>
      refine ⟨inv, rfl, rfl, rfl, ?_⟩
      rw [RetireRing.sealed, all, ringView_cons inv.batchHead]
      simpa using stops
    next goes =>
      exact ih (inv.drainBatch all (not_le.mp goes)) (Nat.sub_eq_of_eq_add all)

theorem Inv.step {call : RetireCall ο} (stepped : history.step call = some next) : next.Inv := by
  match call, stepped with
  | .push object, stepped => exact inv.push stepped
  | .seal stamp, stepped => exact (inv.sealed stepped).1
  | .drainBelow floor, stepped =>
    cases stepped
    exact (inv.drainBelow floor rfl).1

/-- A drain above every stamp hands over all that is sealed. -/
theorem Inv.drained (empty : history.ring.unsealed = 0) {floor : Nat}
    (above : ∀ cover ∈ history.seals, cover.1 < floor)
    : (RetireHistory.drainBelow floor history.ring.batchCount history).handed.map Prod.fst
      = history.pushed := by
  obtain ⟨rest, pushed, seals, same, ends⟩ := inv.drainBelow floor rfl
  generalize RetireHistory.drainBelow floor history.ring.batchCount history = after at *
  have counts := rest.counts
  have stamped := rest.stamped
  cases left : after.ring.sealed with
  | nil =>
    rw [left, same, empty] at counts
    have none : after.ring.waiting = [] := by rw [waiting, ← counts]; rfl
    rw [← pushed, ← rest.order, none, append_nil]
  | cons batch others =>
    rw [left, seals] at stamped
    rw [left] at ends
    obtain ⟨⟨pushes, sealed, _⟩, _⟩ := stamped
    exact absurd (above _ sealed) (Nat.not_lt_of_le (ends batch rfl))

end

/-- Along every run of pushes, seals and drains: what was handed over and then what is in the ring
is what was pushed, in order and once, each object left by a drain whose floor is above the stamp
of a seal made after its push, and the live batches and the tail count the ring. A seal and a
drain above every stamp hand over the rest.

Witness: induction over the run; `Inv` reads both rings off as lists.
-/
theorem retired_handed_once {blank : ο} {calls : List (RetireCall ο)} {final : RetireHistory ο}
    (ran : run step (init blank) calls = some final)
    : final.handed.map Prod.fst ++ final.ring.waiting = final.pushed
      ∧ (∀ n object floor, final.handed[n]? = some (object, floor)
        → ∃ cover ∈ final.seals, n < cover.2 ∧ cover.1 < floor)
      ∧ entriesIn final.ring.sealed + final.ring.unsealed = final.ring.waiting.length
      ∧ ∀ stamp floor, stamp < floor → (∀ cover ∈ final.seals, cover.1 < floor)
        → ∃ after, run step final [.seal stamp, .drainBelow floor] = some after
          ∧ after.handed.map Prod.fst = final.pushed := by
  have inv := run_invariant (fun _ _ _ inv => inv.step) (init_inv blank) ran
  refine ⟨inv.order, inv.floors, ?_, fun stamp floor below above => ?_⟩
  · rw [inv.counts, waiting, length_ringView]
  · obtain ⟨covered, empty⟩ := inv.sealed (rfl : final.step (.seal stamp) = some _)
    refine ⟨_, rfl, covered.drained empty ?_⟩
    simpa [or_imp, forall_and, below] using above

/-- Two objects under two seals; a drain at the second seal's stamp hands over the first. -/
theorem retired_handed_once_two
    : ∃ final : RetireHistory Nat,
      run step (init 0) [.push 7, .seal 3, .push 8, .seal 4, .drainBelow 4] = some final
      ∧ final.handed = [(7, 4)] ∧ final.ring.waiting = [8]
      ∧ entriesIn final.ring.sealed + final.ring.unsealed = final.ring.waiting.length := by
  have ran : run step (init 0) [.push 7, .seal 3, .push 8, .seal 4, .drainBelow 4] = some _ := rfl
  exact ⟨_, ran, rfl, rfl, (retired_handed_once ran).2.2.1⟩

end RetireHistory

end Thredis.Core
