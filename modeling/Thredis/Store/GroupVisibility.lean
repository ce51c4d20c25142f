import Thredis.Store.AtomicRanking

/-! Whether a reader of another connection sees all of a committed group or none of it. Each
owner tests the epoch its own chain gives the group's record: the higher of the group's ticket
and the tickets of the run of own-connection records directly before it.
-/

namespace Thredis.Store

variable {α : Type}

structure OwnerRecords where
  entries : List AtomicEntry
  physical : BitVec 64 → Slice → Option KvObj

def OwnerRecords.chain (owner : OwnerRecords) (hash : BitVec 64) (key : Slice)
    : List (AtomicEntry × Option KvObj) :=
  atomicChain hash key owner.entries (owner.physical hash key)

def GroupAt (owners : List OwnerRecords) (group : Nat)
    (before : List (AtomicEntry × Option KvObj)) (record : AtomicEntry) : Prop :=
  record.group = some group
    ∧ ∃ owner ∈ owners, ∃ hash key value after,
        owner.chain hash key = before ++ (record, value) :: after

def AdmittedBehind (words : DecisionWords) (reader : AtomicReader)
    (before : List (AtomicEntry × Option KvObj)) (record : AtomicEntry) : Prop :=
  (resolveChain words reader .init before).visible words reader record = true

instance (words : DecisionWords) (reader : AtomicReader)
    (before : List (AtomicEntry × Option KvObj)) (record : AtomicEntry)
    : Decidable (AdmittedBehind words reader before record) :=
  inferInstanceAs (Decidable (_ = true))

/-- The highest ticket of the run of records of one connection at the end of a list, given
nearest first; aborted and undecided records do not break a run.
-/
def runTicketBack (words : DecisionWords) (connId : Nat) : List (AtomicEntry × α) → Nat
  | [] => 0
  | record :: rest =>
    if record.1.aborted words || record.1.atomicEpoch words == 0 then
      runTicketBack words connId rest
    else if record.1.originConnId = connId then
      max (record.1.atomicEpoch words) (runTicketBack words connId rest)
    else 0

def runTicket (words : DecisionWords) (connId : Nat) (before : List (AtomicEntry × α)) : Nat :=
  runTicketBack words connId before.reverse

-- The repair is the highest ticket of the run

section

variable (words : DecisionWords)

theorem carried_append (prev : Nat × Nat) (front back : List (AtomicEntry × α))
    : carried words prev (front ++ back) = carried words (carried words prev front) back := by
  induction front generalizing prev with
  | nil => rfl
  | cons record front ih =>
    simp only [List.cons_append, carried]
    split <;> exact ih _

variable (reader : AtomicReader)

theorem resolveChain_prev (walk : ResolveWalk α) (chain : List (AtomicEntry × α))
    : (resolveChain words reader walk chain).prev = carried words walk.prev chain := by
  induction chain generalizing walk with
  | nil => rfl
  | cons record chain ih =>
    obtain ⟨owner, candidate⟩ := record
    rw [resolveChain, List.foldl_cons, ← resolveChain, ih]
    simp only [carried]
    split
    next aborted => rw [walk.consider_aborted words reader owner candidate aborted]
    next live =>
      rw [walk.consider_prev words reader owner candidate (Bool.eq_false_iff.mpr live)]
      rfl

/-- The walk carries the run's highest ticket for the connection it carries, by induction
from the end of the chain.
-/
theorem runTicket_eq_carried (connId : Nat) (before : List (AtomicEntry × α))
    : runTicket words connId before
        = if (carried words (0, 0) before).1 = connId then (carried words (0, 0) before).2
          else 0 := by
  induction before using List.reverseRecOn with
  | nil =>
    exact (ite_self 0).symm
  | append_singleton before record ih =>
    obtain ⟨owner, candidate⟩ := record
    rw [carried_append]
    have back : runTicket words connId (before ++ [(owner, candidate)])
        = if owner.aborted words || owner.atomicEpoch words == 0 then
            runTicket words connId before
          else if owner.originConnId = connId then
            max (owner.atomicEpoch words) (runTicket words connId before)
          else 0 := by
      simp [runTicket, runTicketBack]
    rw [back, ih]
    generalize carried words (0, 0) before = prev
    cases aborted : owner.aborted words with
    | true => simp [carried, aborted]
    | false =>
      simp only [carried, aborted, Bool.false_or, Bool.false_eq_true]
      by_cases undecided : owner.atomicEpoch words = 0
      · simp [undecided, liftEpoch, nextPrev]
      · have lifted := liftEpoch_ne_zero prev.1 prev.2 owner _ undecided
        simp only [nextPrev, lifted, ne_eq, not_false_eq_true, beq_iff_eq,
          undecided, if_false]
        by_cases own : owner.originConnId = connId
        · subst own
          simp only [liftEpoch]
          by_cases same : prev.1 = owner.originConnId
          · simp only [same, if_true, and_true]
            split <;> omega
          · have other : ¬ owner.originConnId = prev.1 := fun eq => same eq.symm
            simp [same, other]
        · simp [own]

/-- The epoch tested for a decided record behind `before`. -/
theorem repairedEpoch_eq_max (before : List (AtomicEntry × α)) (record : AtomicEntry)
    (decided : record.atomicEpoch words ≠ 0)
    : (resolveChain words reader .init before).repairedEpoch words record
        = max (record.atomicEpoch words) (runTicket words record.originConnId before) := by
  have prev := resolveChain_prev words reader .init before
  have start : (ResolveWalk.init : ResolveWalk α).prev = (0, 0) := rfl
  rw [start] at prev
  have run := runTicket_eq_carried words record.originConnId before
  rw [← prev] at run
  rw [run]
  simp only [ResolveWalk.repairedEpoch, ResolveWalk.prev, liftEpoch]
  by_cases same : (resolveChain words reader .init before).prevConnId = record.originConnId
  · simp only [same, if_true, and_true]
    split <;> omega
  · have other : ¬ record.originConnId
        = (resolveChain words reader .init before).prevConnId := fun eq => same eq.symm
    simp [same, other]

/-- A foreign reader admits a committed record exactly when the record's ticket and the run
before it are at most the cut.
-/
theorem admittedBehind_iff (before : List (AtomicEntry × Option KvObj)) (record : AtomicEntry)
    (live : record.aborted words = false) (decided : record.atomicEpoch words ≠ 0)
    (foreign : reader.ownCommitted record = false)
    : AdmittedBehind words reader before record
        ↔ record.atomicEpoch words ≤ reader.snapshot
          ∧ runTicket words record.originConnId before ≤ reader.snapshot := by
  unfold AdmittedBehind ResolveWalk.visible AtomicReader.admits
  rw [repairedEpoch_eq_max words reader before record decided, live, foreign]
  have nonzero : max (record.atomicEpoch words)
      (runTicket words record.originConnId before) ≠ 0 := by omega
  simp [nonzero]

end

theorem GroupAt.record_mem {owners : List OwnerRecords} {group : Nat}
    {before : List (AtomicEntry × Option KvObj)} {record : AtomicEntry}
    (placed : GroupAt owners group before record)
    : ∃ owner ∈ owners, record ∈ owner.entries := by
  obtain ⟨-, owner, member, hash, key, value, after, chainEq⟩ := placed
  refine ⟨owner, member, ?_⟩
  exact atomicChain_owner_mem hash key owner.entries (owner.physical hash key) (record, value)
    (by rw [OwnerRecords.chain] at chainEq; simp [chainEq])

/-- A foreign reader sees a committed group on all of its owners or on none exactly when the
cut is below the group's ticket, or the runs directly before the group's records all stay at
or below the cut, or all of them pass it.
-/
theorem group_all_or_none_iff (words : DecisionWords) (owners : List OwnerRecords)
    (group connId : Nat) (reader : AtomicReader)
    (live : (words group).aborted = false) (decided : (words group).epoch ≠ 0)
    (origin : ∀ before record, GroupAt owners group before record →
      record.originConnId = connId)
    (foreign : reader.originConnId = 0 ∨ reader.originConnId ≠ connId)
    : ((∀ before record, GroupAt owners group before record →
            AdmittedBehind words reader before record)
          ∨ (∀ before record, GroupAt owners group before record →
            ¬ AdmittedBehind words reader before record))
        ↔ (reader.snapshot < (words group).epoch
          ∨ (∀ before record, GroupAt owners group before record →
            runTicket words connId before ≤ reader.snapshot)
          ∨ (∀ before record, GroupAt owners group before record →
            reader.snapshot < runTicket words connId before)) := by
  have test : ∀ before record, GroupAt owners group before record →
      (AdmittedBehind words reader before record
        ↔ (words group).epoch ≤ reader.snapshot
          ∧ runTicket words connId before ≤ reader.snapshot) := by
    intro before record placed
    have epoch : record.atomicEpoch words = (words group).epoch := by
      simp [AtomicEntry.atomicEpoch, placed.1]
    have aborted : record.aborted words = (words group).aborted := by
      simp [AtomicEntry.aborted, placed.1]
    have conn := origin before record placed
    have notOwn : reader.ownCommitted record = false := by
      unfold AtomicReader.ownCommitted
      rw [conn]
      rcases foreign with zero | other
      · simp [zero]
      · simp [Ne.symm other]
    rw [admittedBehind_iff words reader before record (by rw [aborted, live])
      (by rwa [epoch]) notOwn, epoch, conn]
  by_cases below : reader.snapshot < (words group).epoch
  · refine iff_of_true (.inr ?_) (.inl below)
    intro before record placed admitted
    exact absurd ((test before record placed).mp admitted).1 (by omega)
  · have reached : (words group).epoch ≤ reader.snapshot := by omega
    simp only [below, false_or]
    refine or_congr ?_ ?_
    · refine forall_congr' fun before => forall_congr' fun record => forall_congr' fun placed => ?_
      simp [test before record placed, reached]
    · refine forall_congr' fun before => forall_congr' fun record => forall_congr' fun placed => ?_
      simp [test before record placed, reached]

/-- Connection 1's group 1 drew ticket 9, its later transaction 0 had drawn ticket 5. -/
def overtakenWords : DecisionWords := fun group => if group = 0 then ⟨5, false⟩ else ⟨9, false⟩

/-- The first owner holds a record of both groups for one key. -/
def overtakenOwner : OwnerRecords :=
  { entries := [.single (some 1) 1 0 7#64 [107] none,
      .single (some 0) 1 0 7#64 [107] (some (stringObject 16 [107] [1]))]
    physical := fun _ _ => none }

/-- The second owner holds a record of the transaction only. -/
def plainOwner : OwnerRecords :=
  { entries := [.single (some 0) 1 0 8#64 [108] none], physical := fun _ _ => none }

/-- Witness: both owners under the tickets above, read by connection 2 at cut 7. -/
theorem group_all_or_none_overtaken
    : ((∀ before record, GroupAt [overtakenOwner, plainOwner] 0 before record →
            AdmittedBehind overtakenWords ⟨2, 7⟩ before record)
          ∨ (∀ before record, GroupAt [overtakenOwner, plainOwner] 0 before record →
            ¬ AdmittedBehind overtakenWords ⟨2, 7⟩ before record))
        ↔ (7 < 5
          ∨ (∀ before record, GroupAt [overtakenOwner, plainOwner] 0 before record →
            runTicket overtakenWords 1 before ≤ 7)
          ∨ (∀ before record, GroupAt [overtakenOwner, plainOwner] 0 before record →
            7 < runTicket overtakenWords 1 before)) := by
  refine group_all_or_none_iff overtakenWords [overtakenOwner, plainOwner] 0 1 ⟨2, 7⟩
    (by decide) (by decide) ?_ (by decide)
  intro before record placed
  obtain ⟨owner, inside, member⟩ := placed.record_mem
  have conns : ∀ owner ∈ [overtakenOwner, plainOwner], ∀ record ∈ owner.entries,
      record.originConnId = 1 := by
    simp [overtakenOwner, plainOwner, AtomicEntry.single]
  exact conns owner inside record member

/-- At cut 7 connection 2 sees the transaction's record on the second owner and not the one
on the first, which the repair lifts to ticket 9.
-/
theorem group_torn_by_overtaken
    : GroupAt [overtakenOwner, plainOwner] 0
          [(.single (some 1) 1 0 7#64 [107] none, some (stringObject 16 [107] [1]))]
          (.single (some 0) 1 0 7#64 [107] (some (stringObject 16 [107] [1])))
      ∧ ¬ AdmittedBehind overtakenWords ⟨2, 7⟩
          [(.single (some 1) 1 0 7#64 [107] none, some (stringObject 16 [107] [1]))]
          (.single (some 0) 1 0 7#64 [107] (some (stringObject 16 [107] [1])))
      ∧ GroupAt [overtakenOwner, plainOwner] 0 [] (.single (some 0) 1 0 8#64 [108] none)
      ∧ AdmittedBehind overtakenWords ⟨2, 7⟩ [] (.single (some 0) 1 0 8#64 [108] none) := by
  refine ⟨⟨rfl, overtakenOwner, by simp, 7#64, [107], none, [], by decide⟩, by decide,
    ⟨rfl, plainOwner, by simp, 8#64, [108], none, [], by decide⟩, by decide⟩

end Thredis.Store
