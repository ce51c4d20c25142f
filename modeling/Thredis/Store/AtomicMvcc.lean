import Thredis.Store.KvObj

/-! The owner-local list of pending records: which record a reader resolves to, and which
prefix of the list a cleanup selects and how it ranks that prefix.
-/

namespace Thredis.Store
open BitVec

structure AtomicKey where
  hash : BitVec 64
  key : Slice
  parked : Option KvObj
  deriving DecidableEq, Repr

variable (hash : BitVec 64)

def atomicMembershipBit : BitVec 64 := 1#64 <<< (hash &&& 63#64)

theorem membershipShift_lt : (hash &&& 63#64).toNat < 64 := by
  have le : (hash &&& 63#64).toNat ≤ 63 := by
    exact Nat.and_le_right
  omega

theorem atomicMembershipBit_getLsbD (index : Nat)
    : (atomicMembershipBit hash).getLsbD index = decide (index = (hash &&& 63#64).toNat) := by
  have bound := membershipShift_lt hash
  rw [atomicMembershipBit, shiftLeft_eq', getLsbD_shiftLeft]
  generalize (hash &&& 63#64).toNat = shift at bound
  by_cases same : index = shift
  · simp [same, bound]
  · simp only [same]
    simp
    omega

/-- A mask meets the bit of a hash exactly when it has that bit. -/
theorem membership_iff (mask hash : BitVec 64)
    : mask &&& atomicMembershipBit hash ≠ 0#64 ↔ mask.getLsbD (hash &&& 63#64).toNat = true := by
  have bit := atomicMembershipBit_getLsbD hash
  generalize (hash &&& 63#64).toNat = shift at bit
  constructor
  · intro meets
    by_contra clear
    refine meets (eq_of_getLsbD_eq fun index _ => ?_)
    rw [getLsbD_and, bit]
    by_cases same : index = shift
    · simpa [same] using clear
    · simp [same]
  · intro has zero
    have clear := congrArg (fun word => word.getLsbD shift) zero
    simp [has, bit] at clear

theorem atomicMembershipBit_self
    : atomicMembershipBit hash &&& atomicMembershipBit hash ≠ 0#64 := by
  rw [membership_iff, atomicMembershipBit_getLsbD]
  simp

/-- A linked `AtomicEntry`. `group` names the decision word the entry points at; a plain
entry has none and carries its own `epoch`. `keys` are the installed positions, so the
source's `count` is their number. Every installed key has its bit in the mask.
-/
structure AtomicEntry where
  group : Option Nat
  originConnId : Nat
  epoch : Nat
  membership : BitVec 64
  keys : List AtomicKey
  covers : ∀ occurrence ∈ keys, membership &&& atomicMembershipBit occurrence.hash ≠ 0#64
  deriving DecidableEq, Repr

/-- The entry `atomic_prepare_plain` or `atomic_prepare_transaction` builds for one key, once
its install has parked the displaced object.
-/
def AtomicEntry.single (group : Option Nat) (originConnId epoch : Nat) (hash : BitVec 64)
    (key : Slice) (parked : Option KvObj) : AtomicEntry :=
  { group := group, originConnId := originConnId, epoch := epoch
    membership := atomicMembershipBit hash
    keys := [{ hash := hash, key := key, parked := parked }]
    covers := by
      intro occurrence member
      rw [List.mem_singleton.mp member]
      exact atomicMembershipBit_self hash }

/-- The decision of a group: its `group_epoch` and `group_aborted` words. Epoch zero is an
undecided group.
-/
structure DecisionWord where
  epoch : Nat
  aborted : Bool
  deriving DecidableEq, Repr

/-- The decision words all owners share, by group. -/
abbrev DecisionWords := Nat → DecisionWord

def AtomicEntry.atomicEpoch (words : DecisionWords) (entry : AtomicEntry) : Nat :=
  match entry.group with
  | some group => (words group).epoch
  | none => entry.epoch

def AtomicEntry.aborted (words : DecisionWords) (entry : AtomicEntry) : Bool :=
  match entry.group with
  | some group => (words group).aborted
  | none => false

def AtomicKey.isKey (key : Slice) (occurrence : AtomicKey) : Bool :=
  occurrence.hash == hash && occurrence.key == key

/-- The occurrences of a key in list order, each with the entry that holds it. -/
def atomicOccurrences (key : Slice) (entries : List AtomicEntry)
    : List (AtomicEntry × Option KvObj) :=
  entries.flatMap (fun entry =>
    if entry.membership &&& atomicMembershipBit hash = 0#64 then []
    else (entry.keys.filter (AtomicKey.isKey hash key)).map (fun occurrence =>
      (entry, occurrence.parked)))

def atomicKeyPending (key : Slice) (entries : List AtomicEntry) : Bool :=
  entries.any (fun entry =>
    entry.membership &&& atomicMembershipBit hash != 0#64
      && entry.keys.any (AtomicKey.isKey hash key))

structure AtomicReader where
  originConnId : Nat
  snapshot : Nat
  deriving DecidableEq, Repr

/-- The running state of `atomic_resolve_internal::consider`. -/
structure ResolveWalk (α : Type) where
  winner : Option α
  winnerEpoch : Nat
  winnerPrivate : Bool
  prevConnId : Nat
  prevEpoch : Nat
  deriving DecidableEq, Repr

def ResolveWalk.init {α : Type} : ResolveWalk α :=
  { winner := none, winnerEpoch := 0, winnerPrivate := false, prevConnId := 0, prevEpoch := 0 }

/-- The program-order repair: a decided record never ranks below the record of the same
connection directly before it.
-/
def liftEpoch (prevConnId prevEpoch : Nat) (owner : AtomicEntry) (epoch : Nat) : Nat :=
  if prevEpoch ≠ 0 ∧ epoch ≠ 0 ∧ epoch < prevEpoch ∧ owner.originConnId = prevConnId then
    prevEpoch
  else epoch

def AtomicReader.ownCommitted (reader : AtomicReader) (owner : AtomicEntry) : Bool :=
  reader.originConnId != 0 && owner.originConnId == reader.originConnId

/-- The visibility tests, on the repaired epoch. -/
def AtomicReader.admits (reader : AtomicReader) (owner : AtomicEntry) (epoch : Nat) : Bool :=
  if owner.group.isSome && epoch == 0 && !reader.ownCommitted owner then false
  else decide (epoch ≤ reader.snapshot) || reader.ownCommitted owner

namespace ResolveWalk

variable {α : Type}

variable (words : DecisionWords)

def repairedEpoch (walk : ResolveWalk α) (owner : AtomicEntry) : Nat :=
  liftEpoch walk.prevConnId walk.prevEpoch owner (owner.atomicEpoch words)

def visible (reader : AtomicReader) (walk : ResolveWalk α) (owner : AtomicEntry) : Bool :=
  !owner.aborted words && reader.admits owner (walk.repairedEpoch words owner)

/-- A decided record becomes the one the next record is repaired against. -/
def carry (walk : ResolveWalk α) (owner : AtomicEntry) (epoch : Nat) : ResolveWalk α :=
  if epoch ≠ 0 then { walk with prevConnId := owner.originConnId, prevEpoch := epoch }
  else walk

def consider (reader : AtomicReader) (walk : ResolveWalk α) (owner : AtomicEntry) (candidate : α)
    : ResolveWalk α :=
  if owner.aborted words then walk
  else
    let epoch := walk.repairedEpoch words owner
    let walk := walk.carry owner epoch
    if reader.admits owner epoch then
      let ownPrivate := owner.group.isSome && epoch == 0
      if walk.winner.isNone || ownPrivate
          || (!walk.winnerPrivate && decide (walk.winnerEpoch ≤ epoch)) then
        { walk with
          winner := some candidate, winnerEpoch := epoch, winnerPrivate := ownPrivate }
      else walk
    else walk

end ResolveWalk

/-- The loop over a key's occurrences: the value an occurrence parked was installed by the
occurrence before it. Returns the walk and the last occurrence's entry.
-/
def resolveOccurrences {α : Type} (words : DecisionWords) (reader : AtomicReader)
    : ResolveWalk α → AtomicEntry → List (AtomicEntry × α) → ResolveWalk α × AtomicEntry
  | walk, previous, [] => (walk, previous)
  | walk, previous, (entry, parked) :: rest =>
    resolveOccurrences words reader (walk.consider words reader previous parked) entry rest

structure AtomicResolved where
  value : Option KvObj
  matched : Bool
  physical : Bool
  deriving DecidableEq, Repr

/-- `atomic_live_value`: an object whose deadline has passed is no value. -/
def atomicLiveValue (now : Int) (value : Option KvObj) : Option KvObj :=
  value.filter (fun object => !decide (0 ≤ object.expireAtMs ∧ object.expireAtMs ≤ now))

variable (words : DecisionWords)

/-- `atomic_resolve_internal` over a record list and the value the tables hold. A candidate
carries whether it is the physical one.
-/
def atomicResolveEntries (now : Int) (reader : AtomicReader) (entries : List AtomicEntry)
    (hash : BitVec 64) (key : Slice) (physicalValue : Option KvObj) : AtomicResolved :=
  match atomicOccurrences hash key entries with
  | [] => { value := atomicLiveValue now physicalValue, matched := false, physical := true }
  | (first, base) :: rest =>
    let walked := resolveOccurrences words reader .init first
      (rest.map (fun occurrence => (occurrence.1, (occurrence.2, false))))
    let walk := walked.1.consider words reader walked.2 (physicalValue, true)
    let chosen := walk.winner.getD (base, false)
    { value := atomicLiveValue now chosen.1, matched := true, physical := chosen.2 }

/-- The test that keeps an entry in the reclaimable prefix. -/
def AtomicEntry.reclaimable (floor cleanupCutoff : Nat) (entry : AtomicEntry) : Bool :=
  let epoch := entry.atomicEpoch words
  entry.aborted words
    || !(epoch == 0 || decide (floor ≤ epoch) || decide (cleanupCutoff < epoch))

def collapseSelected (floor cleanupCutoff : Nat) (entries : List AtomicEntry) : List AtomicEntry :=
  entries.takeWhile (AtomicEntry.reclaimable words floor cleanupCutoff)

/-- The running state of `atomic_collapse::consider` for one key; `prev` holds
`prev_conn_id` and `prev_epoch` once `prev_set`.
-/
structure CollapseRank (α : Type) where
  winner : Option α
  winnerEpoch : Nat
  prev : Option (Nat × Nat)
  deriving DecidableEq, Repr

def CollapseRank.init {α : Type} : CollapseRank α :=
  { winner := none, winnerEpoch := 0, prev := none }

def CollapseRank.repairedEpoch {α : Type} (words : DecisionWords) (rank : CollapseRank α)
    (owner : AtomicEntry) : Nat :=
  match rank.prev with
  | some (connId, epoch) =>
    if owner.originConnId = connId ∧ owner.atomicEpoch words < epoch then epoch
    else owner.atomicEpoch words
  | none => owner.atomicEpoch words

def CollapseRank.consider {α : Type} (words : DecisionWords) (rank : CollapseRank α)
    (owner : AtomicEntry) (candidate : α) : CollapseRank α :=
  if owner.aborted words then rank
  else
    let epoch := rank.repairedEpoch words owner
    let rank := { rank with prev := some (owner.originConnId, epoch) }
    if rank.winner.isNone || decide (rank.winnerEpoch ≤ epoch) then
      { rank with winner := some candidate, winnerEpoch := epoch }
    else rank

/-- An `AtomicCollapseKey` during the walk over the prefix. -/
structure CollapseKey where
  hash : BitVec 64
  key : Slice
  base : Option KvObj
  previous : AtomicEntry
  rank : CollapseRank (Option KvObj)
  deriving DecidableEq, Repr

/-- One occurrence of the prefix: the key's record is found, or appended, by `key_index`;
the parked value is ranked for the occurrence before.
-/
def collapseVisit (words : DecisionWords) (entry : AtomicEntry) (occurrence : AtomicKey)
    : List CollapseKey → List CollapseKey
  | [] => [{ hash := occurrence.hash, key := occurrence.key, base := occurrence.parked,
             previous := entry, rank := .init }]
  | collapse :: rest =>
    if collapse.hash = occurrence.hash ∧ collapse.key = occurrence.key then
      { collapse with
        rank := collapse.rank.consider words collapse.previous occurrence.parked
        previous := entry } :: rest
    else collapse :: collapseVisit words entry occurrence rest

def collapseKeys (selected : List AtomicEntry) : List CollapseKey :=
  selected.foldl (fun keys entry =>
    entry.keys.foldl (fun keys occurrence => collapseVisit words entry occurrence keys) keys) []

/-- The value kept for a key: the winner once the value after the prefix has been ranked
for the key's last occurrence, else the value before the prefix.
-/
def CollapseKey.finish (now : Int) (collapse : CollapseKey) (physical : Option KvObj)
    : Option KvObj :=
  let rank := collapse.rank.consider words collapse.previous physical
  atomicLiveValue now (rank.winner.getD collapse.base)

end Thredis.Store
