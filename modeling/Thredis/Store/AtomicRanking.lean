import Thredis.Lib.LastMax
import Thredis.Store.AtomicMvcc

/-! Both walks over a key's records compute a last maximum. The chain of a key pairs each
record with the value it installed; `repaired` gives every record its effective epoch; the
reader's walk and the cleanup's walk rank that list.
-/

namespace Thredis.Store

open Thredis.Lib CollapseKey List Option

variable {α β : Type}

def installed : AtomicEntry → List (AtomicEntry × α) → α → List (AtomicEntry × α)
  | owner, [], last => [(owner, last)]
  | owner, (next, parked) :: rest, last => (owner, parked) :: installed next rest last

variable (hash : BitVec 64)

def atomicChain (key : Slice) (entries : List AtomicEntry) (physical : Option KvObj)
    : List (AtomicEntry × Option KvObj) :=
  match atomicOccurrences hash key entries with
  | [] => []
  | (first, _) :: rest => installed first rest physical

theorem installed_map (relabel : α → β) (owner : AtomicEntry) (rest : List (AtomicEntry × α))
    (last : α)
    : (installed owner rest last).map (Prod.map id relabel)
        = installed owner (rest.map (Prod.map id relabel)) (relabel last) := by
  induction rest generalizing owner with
  | nil => rfl
  | cons next rest ih => simp [installed, ih]

theorem installed_owners (owner : AtomicEntry) (rest : List (AtomicEntry × α)) (last : α)
    : (installed owner rest last).map Prod.fst = owner :: rest.map Prod.fst := by
  induction rest generalizing owner with
  | nil => rfl
  | cons next rest ih => simp [installed, ih]

/-- A chain has one record for each occurrence of the key. -/
theorem atomicChain_owners (key : Slice) (entries : List AtomicEntry) (physical : Option KvObj)
    : (atomicChain hash key entries physical).map Prod.fst
        = (atomicOccurrences hash key entries).map Prod.fst := by
  unfold atomicChain
  cases atomicOccurrences hash key entries with
  | nil => rfl
  | cons first rest => exact installed_owners _ _ _

theorem AtomicKey.isKey_iff (key : Slice) (occurrence : AtomicKey)
    : occurrence.isKey hash key = true ↔ occurrence.hash = hash ∧ occurrence.key = key := by
  simp [AtomicKey.isKey]

/-- An entry whose mask misses the bit of a hash holds no key of that hash. -/
theorem AtomicEntry.filter_isKey_of_mask (entry : AtomicEntry) (hash : BitVec 64) (key : Slice)
    (clear : entry.membership &&& atomicMembershipBit hash = 0#64)
    : entry.keys.filter (AtomicKey.isKey hash key) = [] := by
  rw [filter_eq_nil_iff]
  intro occurrence member found
  obtain ⟨rfl, -⟩ := (AtomicKey.isKey_iff hash key occurrence).mp found
  exact entry.covers occurrence member clear

def AtomicEntry.occurrences (key : Slice) (entry : AtomicEntry)
    : List (AtomicEntry × Option KvObj) :=
  (entry.keys.filter (AtomicKey.isKey hash key)).map (fun occurrence =>
    (entry, occurrence.parked))

section

variable (hash : BitVec 64) (key : Slice) (entries : List AtomicEntry)

theorem atomicOccurrences_eq
    : atomicOccurrences hash key entries = entries.flatMap (AtomicEntry.occurrences hash key) := by
  unfold atomicOccurrences
  congr 1
  funext entry
  split
  next clear => simp [AtomicEntry.occurrences, entry.filter_isKey_of_mask hash key clear]
  next => rfl

theorem mem_atomicOccurrences (item : AtomicEntry × Option KvObj)
    (member : item ∈ atomicOccurrences hash key entries)
    : item.1 ∈ entries := by
  rw [atomicOccurrences_eq] at member
  obtain ⟨entry, inside, found⟩ := mem_flatMap.mp member
  obtain ⟨occurrence, -, rfl⟩ := mem_map.mp found
  exact inside

theorem atomicChain_owner_mem (physical : Option KvObj) (record : AtomicEntry × Option KvObj)
    (member : record ∈ atomicChain hash key entries physical)
    : record.1 ∈ entries := by
  have owner := mem_map_of_mem (f := Prod.fst) member
  rw [atomicChain_owners] at owner
  obtain ⟨item, inside, same⟩ := mem_map.mp owner
  exact same ▸ mem_atomicOccurrences hash key entries item inside

end

def nextPrev (prev : Nat × Nat) (owner : AtomicEntry) (epoch : Nat) : Nat × Nat :=
  if epoch ≠ 0 then (owner.originConnId, epoch) else prev

/-- The records that are not aborted, each with the epoch the repair gives it; `prev` is
what the walk carries in.
-/
def repaired (words : DecisionWords)
    : Nat × Nat → List (AtomicEntry × α) → List (Nat × AtomicEntry × α)
  | _, [] => []
  | prev, (owner, candidate) :: rest =>
    if owner.aborted words then repaired words prev rest
    else
      let epoch := liftEpoch prev.1 prev.2 owner (owner.atomicEpoch words)
      (epoch, owner, candidate) :: repaired words (nextPrev prev owner epoch) rest

/-- What a walk carries out of a chain: connection and effective epoch of the last decided
record.
-/
def carried (words : DecisionWords) : Nat × Nat → List (AtomicEntry × α) → Nat × Nat
  | prev, [] => prev
  | prev, (owner, _) :: rest =>
    if owner.aborted words then carried words prev rest
    else
      let epoch := liftEpoch prev.1 prev.2 owner (owner.atomicEpoch words)
      carried words (nextPrev prev owner epoch) rest

variable (words : DecisionWords)

theorem repaired_append (prev : Nat × Nat) (front back : List (AtomicEntry × α))
    : repaired words prev (front ++ back)
        = repaired words prev front ++ repaired words (carried words prev front) back := by
  induction front generalizing prev with
  | nil => rfl
  | cons record front ih =>
    simp only [cons_append, repaired, carried]
    split
    · exact ih _
    · rw [ih, cons_append]

theorem repaired_map (relabel : α → β) (prev : Nat × Nat) (chain : List (AtomicEntry × α))
    : repaired words prev (chain.map (Prod.map id relabel))
        = (repaired words prev chain).map (Prod.map id (Prod.map id relabel)) := by
  induction chain generalizing prev with
  | nil => rfl
  | cons record chain ih =>
    obtain ⟨owner, candidate⟩ := record
    simp only [map_cons, Prod.map_apply, id_eq, repaired]
    split
    · exact ih _
    · simp [ih]

/-- The rank a reader gives a record it admits; its own undecided record outranks every
committed one.
-/
def AtomicReader.rankOf (reader : AtomicReader) (item : Nat × AtomicEntry × α)
    : Option (WithTop Nat × α) :=
  if reader.admits item.2.1 item.1 then
    some (if item.2.1.group.isSome && item.1 == 0 then ⊤ else ((item.1 : Nat) : WithTop Nat),
      item.2.2)
  else none

theorem AtomicReader.rankOf_map (reader : AtomicReader) (relabel : α → β)
    (items : List (Nat × AtomicEntry × α))
    : (items.map (Prod.map id (Prod.map id relabel))).filterMap reader.rankOf
        = (items.filterMap reader.rankOf).map (Prod.map id relabel) := by
  induction items with
  | nil => rfl
  | cons item items ih =>
    simp only [map_cons, filterMap_cons]
    rw [ih]
    simp only [AtomicReader.rankOf, Prod.map_fst, Prod.map_snd, id_eq]
    cases reader.admits item.2.1 item.1 <;> simp

-- The reader's walk

def resolveChain (reader : AtomicReader) (walk : ResolveWalk α) (chain : List (AtomicEntry × α))
    : ResolveWalk α :=
  chain.foldl (fun walk record => walk.consider words reader record.1 record.2) walk

def ResolveWalk.best (walk : ResolveWalk α) : Option (WithTop Nat × α) :=
  walk.winner.map (fun candidate =>
    (if walk.winnerPrivate then ⊤ else ((walk.winnerEpoch : Nat) : WithTop Nat), candidate))

def ResolveWalk.prev (walk : ResolveWalk α) : Nat × Nat := (walk.prevConnId, walk.prevEpoch)

section

variable (words : DecisionWords) (reader : AtomicReader)

section

variable (walk : ResolveWalk α) (owner : AtomicEntry) (epoch : Nat) (candidate : α)

@[simp] theorem ResolveWalk.carry_winner : (walk.carry owner epoch).winner = walk.winner := by
  unfold carry
  split <;> rfl

@[simp] theorem ResolveWalk.carry_winnerEpoch
    : (walk.carry owner epoch).winnerEpoch = walk.winnerEpoch := by
  unfold carry
  split <;> rfl

@[simp] theorem ResolveWalk.carry_winnerPrivate
    : (walk.carry owner epoch).winnerPrivate = walk.winnerPrivate := by
  unfold carry
  split <;> rfl

theorem ResolveWalk.consider_aborted (aborted : owner.aborted words = true)
    : walk.consider words reader owner candidate = walk := by
  simp [consider, aborted]

theorem ResolveWalk.consider_prev (live : owner.aborted words = false)
    : (walk.consider words reader owner candidate).prev
        = nextPrev walk.prev owner (walk.repairedEpoch words owner) := by
  simp only [consider, live, Bool.false_eq_true, if_false]
  generalize walk.repairedEpoch words owner = epoch
  have carryPrev : (walk.carry owner epoch).prev = nextPrev walk.prev owner epoch := by
    by_cases zero : epoch = 0 <;> simp [carry, prev, nextPrev, zero]
  rw [← carryPrev]
  split
  · split <;> rfl
  · rfl

theorem ResolveWalk.consider_best (live : owner.aborted words = false)
    : (walk.consider words reader owner candidate).best
        = (reader.rankOf (walk.repairedEpoch words owner, owner, candidate)).elim walk.best
            (laterMax walk.best) := by
  simp only [consider, live, AtomicReader.rankOf]
  generalize walk.repairedEpoch words owner = epoch
  cases admitted : reader.admits owner epoch with
  | false => simp [best]
  | true =>
    cases held : walk.winner with
    | none => simp [best, held]
    | some old =>
      cases own : (owner.group.isSome && epoch == 0) with
      | true => simp [best, held, laterMax_some]
      | false =>
        cases priv : walk.winnerPrivate with
        | true => simp [laterMax_some, best, held, priv]
        | false =>
          by_cases le : walk.winnerEpoch ≤ epoch
          · simp [laterMax_some, best, held, priv, le]
          · simp [laterMax_some, best, held, priv, le]

theorem ResolveWalk.consider_winner
    : (walk.consider words reader owner candidate).winner = walk.winner
      ∨ (walk.consider words reader owner candidate).winner = some candidate := by
  rw [ResolveWalk.consider]
  split
  · exact .inl rfl
  · dsimp only
    split
    · split
      · exact .inr rfl
      · exact .inl (ResolveWalk.carry_winner _ _ _)
    · exact .inl (ResolveWalk.carry_winner _ _ _)

end

/-- The walk keeps the last maximum of the ranks of the repaired chain. -/
theorem resolveChain_best (walk : ResolveWalk α) (chain : List (AtomicEntry × α))
    : (resolveChain words reader walk chain).best
        = ((repaired words walk.prev chain).filterMap reader.rankOf).foldl laterMax
            walk.best := by
  induction chain generalizing walk with
  | nil => rfl
  | cons record chain ih =>
    obtain ⟨owner, candidate⟩ := record
    rw [resolveChain, foldl_cons, ← resolveChain, ih]
    simp only [repaired]
    split
    next aborted => rw [walk.consider_aborted words reader owner candidate aborted]
    next live =>
      have live := Bool.eq_false_iff.mpr live
      have epochEq : liftEpoch walk.prev.1 walk.prev.2 owner (owner.atomicEpoch words)
          = walk.repairedEpoch words owner := rfl
      rw [walk.consider_prev words reader owner candidate live,
        walk.consider_best words reader owner candidate live, filterMap_cons, epochEq]
      cases reader.rankOf (walk.repairedEpoch words owner, owner, candidate) <;> rfl

theorem resolveChain_winner (chain : List (AtomicEntry × α))
    : (resolveChain words reader .init chain).winner
        = (lastMax ((repaired words (0, 0) chain).filterMap reader.rankOf)).map Prod.snd := by
  have best : (resolveChain words reader .init chain).best
      = lastMax ((repaired words (0, 0) chain).filterMap reader.rankOf) :=
    resolveChain_best words reader .init chain
  rw [← best, ResolveWalk.best, Option.map_map]
  exact map_id'.symm

/-- Relabelling the candidates relabels the winner. -/
theorem resolveChain_winner_map (relabel : α → β) (chain : List (AtomicEntry × α))
    : (resolveChain words reader .init (chain.map (Prod.map id relabel))).winner
        = (resolveChain words reader .init chain).winner.map relabel := by
  rw [resolveChain_winner, resolveChain_winner, repaired_map, AtomicReader.rankOf_map,
    lastMax_map, Option.map_map, Option.map_map]
  rfl

theorem resolveOccurrences_consider (walk : ResolveWalk α) (owner : AtomicEntry)
    (rest : List (AtomicEntry × α)) (last : α)
    : (resolveOccurrences words reader walk owner rest).1.consider words reader
        (resolveOccurrences words reader walk owner rest).2 last
      = resolveChain words reader walk (installed owner rest last) := by
  induction rest generalizing walk owner with
  | nil => rfl
  | cons next rest ih =>
    exact ih _ _

end

def atomicBase (hash : BitVec 64) (key : Slice) (entries : List AtomicEntry)
    (physical : Option KvObj) : Option KvObj :=
  match atomicOccurrences hash key entries with
  | [] => physical
  | (_, base) :: _ => base

/-- A read answers with the winner of the key's chain, or with the value before it. -/
theorem atomicResolveEntries_value (words : DecisionWords) (now : Int) (reader : AtomicReader)
    (entries : List AtomicEntry) (hash : BitVec 64) (key : Slice) (physical : Option KvObj)
    : (atomicResolveEntries words now reader entries hash key physical).value
        = atomicLiveValue now ((resolveChain words reader .init
            (atomicChain hash key entries physical)).winner.getD
            (atomicBase hash key entries physical)) := by
  unfold atomicResolveEntries atomicChain atomicBase
  cases atomicOccurrences hash key entries with
  | nil => rfl
  | cons first rest =>
    obtain ⟨first, base⟩ := first
    simp only [resolveOccurrences_consider]
    have values : installed first rest physical
        = (installed first (rest.map (fun occurrence => (occurrence.1, (occurrence.2, false))))
            (physical, true)).map (Prod.map id Prod.fst) := by
      rw [installed_map, List.map_map]
      congr 1
      exact (map_id' rest).symm
    rw [values, resolveChain_winner_map]
    cases (resolveChain words reader .init _).winner <;> rfl

-- The cleanup's walk

def collapseChain (words : DecisionWords) (rank : CollapseRank α)
    (chain : List (AtomicEntry × α)) : CollapseRank α :=
  chain.foldl (fun rank record => rank.consider words record.1 record.2) rank

/-- The cleanup's running state agrees with a reader's that has admitted every record. -/
structure CollapseRank.Matches (rank : CollapseRank α) (prev : Nat × Nat)
    (best : Option (WithTop Nat × α)) : Prop where
  prev : rank.prev = if prev.2 = 0 then none else some prev
  best : rank.winner.map (fun candidate =>
      (((rank.winnerEpoch : Nat) : WithTop Nat), candidate)) = best

section

variable (words : DecisionWords)

theorem CollapseRank.Matches.repairedEpoch {rank : CollapseRank α} {prev : Nat × Nat}
    {best : Option (WithTop Nat × α)} (agree : rank.Matches prev best)
    (owner : AtomicEntry) (decided : owner.atomicEpoch words ≠ 0)
    : rank.repairedEpoch words owner = liftEpoch prev.1 prev.2 owner (owner.atomicEpoch words) := by
  unfold CollapseRank.repairedEpoch liftEpoch
  rw [agree.prev]
  by_cases zero : prev.2 = 0
  · simp [zero]
  · simp only [zero, ne_eq, decided]
    simp [and_comm]

theorem liftEpoch_ne_zero (prevConnId prevEpoch : Nat) (owner : AtomicEntry) (epoch : Nat)
    (decided : epoch ≠ 0)
    : liftEpoch prevConnId prevEpoch owner epoch ≠ 0 := by
  unfold liftEpoch
  split <;> omega

/-- A repaired epoch as a rank of the cleanup, which admits every record. -/
def collapseRankOf (item : Nat × AtomicEntry × α) : WithTop Nat × α :=
  (((item.1 : Nat) : WithTop Nat), item.2.2)

def Decided (words : DecisionWords) (chain : List (AtomicEntry × α)) : Prop :=
  ∀ record ∈ chain, record.1.aborted words = true ∨ record.1.atomicEpoch words ≠ 0

/-- On such records the cleanup keeps the last maximum of the repaired epochs. -/
theorem collapseChain_matches (rank : CollapseRank α) (prev : Nat × Nat)
    (best : Option (WithTop Nat × α)) (agree : rank.Matches prev best)
    (chain : List (AtomicEntry × α)) (decided : Decided words chain)
    : (collapseChain words rank chain).Matches (carried words prev chain)
        (((repaired words prev chain).map collapseRankOf).foldl laterMax best) := by
  induction chain generalizing rank prev best with
  | nil => exact agree
  | cons record chain ih =>
    obtain ⟨owner, candidate⟩ := record
    rw [collapseChain, foldl_cons, ← collapseChain]
    simp only [repaired, carried]
    have later := fun record member => decided record (mem_cons_of_mem _ member)
    split
    next aborted =>
      have same : rank.consider words owner candidate = rank := by
        simp [CollapseRank.consider, aborted]
      simpa [same] using ih rank prev best agree later
    next live =>
      have epochNe := (decided _ (mem_cons_self ..)).resolve_left live
      have repairEq := agree.repairedEpoch words owner epochNe
      have liftNe := liftEpoch_ne_zero prev.1 prev.2 owner _ epochNe
      refine ih _ _ _ ⟨?_, ?_⟩ later
      · simp only [CollapseRank.consider, live, Bool.false_eq_true, if_false, repairEq, nextPrev]
        split <;> rfl
      · simp only [CollapseRank.consider, live, repairEq]
        rw [← agree.best]
        cases held : rank.winner with
        | none => simp [collapseRankOf]
        | some old =>
          by_cases le : rank.winnerEpoch ≤ liftEpoch prev.1 prev.2 owner (owner.atomicEpoch words)
          · simp [laterMax_some, collapseRankOf, le]
          · simp [laterMax_some, collapseRankOf, le]

theorem collapseChain_winner (chain : List (AtomicEntry × α)) (decided : Decided words chain)
    : (collapseChain words .init chain).winner
        = (lastMax ((repaired words (0, 0) chain).map collapseRankOf)).map Prod.snd := by
  have start : (CollapseRank.init : CollapseRank α).Matches (0, 0) none := ⟨rfl, rfl⟩
  have agree : _ = lastMax ((repaired words (0, 0) chain).map collapseRankOf) :=
    (collapseChain_matches words .init (0, 0) none start chain decided).best
  rw [← agree, Option.map_map]
  exact map_id'.symm

/-- Relabelling the candidates relabels the cleanup's winner. -/
theorem collapseChain_winner_map (relabel : α → β) (chain : List (AtomicEntry × α))
    (decided : Decided words chain)
    : (collapseChain words .init (chain.map (Prod.map id relabel))).winner
        = (collapseChain words .init chain).winner.map relabel := by
  have relabelled : Decided words (chain.map (Prod.map id relabel)) := by
    intro record member
    obtain ⟨item, inside, rfl⟩ := mem_map.mp member
    exact decided item inside
  have ranks : (repaired words (0, 0) (chain.map (Prod.map id relabel))).map collapseRankOf
      = ((repaired words (0, 0) chain).map collapseRankOf).map (Prod.map id relabel) := by
    rw [repaired_map, List.map_map, List.map_map]
    rfl
  rw [collapseChain_winner words _ relabelled, collapseChain_winner words _ decided, ranks,
    lastMax_map, Option.map_map, Option.map_map]
  rfl

def CollapseKey.isKey (hash : BitVec 64) (key : Slice) (collapse : CollapseKey) : Bool :=
  collapse.hash == hash && collapse.key == key

def CollapseKey.visit (words : DecisionWords) (hash : BitVec 64) (key : Slice)
    (found : Option CollapseKey) (occurrence : AtomicEntry × Option KvObj) : CollapseKey :=
  match found with
  | none =>
    { hash := hash, key := key, base := occurrence.2, previous := occurrence.1, rank := .init }
  | some collapse =>
    { collapse with
      rank := collapse.rank.consider words collapse.previous occurrence.2
      previous := occurrence.1 }

/-- Visiting an occurrence touches the record of its own key only. -/
theorem collapseVisit_find (entry : AtomicEntry) (occurrence : AtomicKey) (hash : BitVec 64)
    (key : Slice) (keys : List CollapseKey)
    : (collapseVisit words entry occurrence keys).find? (isKey hash key)
        = if occurrence.isKey hash key then
            some (visit words hash key (keys.find? (isKey hash key)) (entry, occurrence.parked))
          else keys.find? (isKey hash key) := by
  induction keys with
  | nil =>
    by_cases same : occurrence.isKey hash key = true
    · obtain ⟨rfl, rfl⟩ := (AtomicKey.isKey_iff hash key occurrence).mp same
      simp [collapseVisit, isKey, visit, same]
    · have other : ¬ (occurrence.hash = hash ∧ occurrence.key = key) :=
        fun both => same ((AtomicKey.isKey_iff hash key occurrence).mpr both)
      simpa [collapseVisit, isKey, same] using other
  | cons collapse keys ih =>
    by_cases here : collapse.hash = occurrence.hash ∧ collapse.key = occurrence.key
    · rw [collapseVisit, if_pos here]
      have same : occurrence.isKey hash key = collapse.isKey hash key := by
        simp [AtomicKey.isKey, isKey, here]
      rw [same]
      cases found : collapse.isKey hash key with
      | true =>
        simp only [isKey] at found
        simp [isKey, found, visit]
      | false =>
        simp only [isKey] at found
        simp [isKey, found]
    · rw [collapseVisit, if_neg here]
      cases found : collapse.isKey hash key with
      | true =>
        have other : occurrence.isKey hash key = false := by
          rw [Bool.eq_false_iff]
          intro same
          obtain ⟨hashEq, keyEq⟩ := (AtomicKey.isKey_iff hash key occurrence).mp same
          simp only [isKey, Bool.and_eq_true, beq_iff_eq] at found
          exact here ⟨found.1.trans hashEq.symm, found.2.trans keyEq.symm⟩
        simp [found, other]
      | false => simpa [found] using ih

/-- The collapse record of a key after the walk depends on the key's occurrences only. -/
theorem collapseKeys_find (entries : List AtomicEntry) (hash : BitVec 64) (key : Slice)
    : (collapseKeys words entries).find? (isKey hash key)
        = (atomicOccurrences hash key entries).foldl
            (fun found occurrence => some (visit words hash key found occurrence))
            none := by
  have entryStep : ∀ (entry : AtomicEntry) (occurrences : List AtomicKey) (keys : List CollapseKey),
      (occurrences.foldl (fun keys occurrence => collapseVisit words entry occurrence keys)
        keys).find? (isKey hash key)
      = ((occurrences.filter (AtomicKey.isKey hash key)).map (fun occurrence =>
          (entry, occurrence.parked))).foldl
          (fun found occurrence => some (visit words hash key found occurrence))
          (keys.find? (isKey hash key)) := by
    intro entry occurrences
    induction occurrences with
    | nil => intro keys; rfl
    | cons occurrence occurrences ih =>
      intro keys
      rw [foldl_cons, ih, collapseVisit_find, filter_cons]
      split <;> rfl
  have walk : ∀ keys : List CollapseKey,
      (entries.foldl (fun keys entry => entry.keys.foldl (fun keys occurrence =>
        collapseVisit words entry occurrence keys) keys) keys).find? (isKey hash key)
      = (atomicOccurrences hash key entries).foldl
          (fun found occurrence => some (visit words hash key found occurrence))
          (keys.find? (isKey hash key)) := by
    rw [atomicOccurrences_eq]
    induction entries with
    | nil => intro keys; rfl
    | cons entry entries ih =>
      intro keys
      rw [foldl_cons, ih, entryStep, flatMap_cons, foldl_append]
      rfl
  exact walk []

theorem CollapseKey.visit_foldl_finish (now : Int) (hash : BitVec 64) (key : Slice)
    (collapse : CollapseKey) (rest : List (AtomicEntry × Option KvObj)) (next : Option KvObj)
    : (rest.foldl (fun found occurrence =>
          some (visit words hash key found occurrence)) (some collapse)).map
        (finish words now · next)
      = some (atomicLiveValue now ((collapseChain words collapse.rank
          (installed collapse.previous rest next)).winner.getD collapse.base)) := by
  induction rest generalizing collapse with
  | nil => rfl
  | cons occurrence rest ih =>
    rw [foldl_cons, ih]
    rfl

/-- The cleanup keeps the winner of the key's chain, or the value before it. -/
theorem collapseKeys_finish (now : Int) (entries : List AtomicEntry) (hash : BitVec 64)
    (key : Slice) (next : Option KvObj) (present : atomicOccurrences hash key entries ≠ [])
    : ((collapseKeys words entries).find? (isKey hash key)).map (finish words now · next)
      = some (atomicLiveValue now ((collapseChain words .init
          (atomicChain hash key entries next)).winner.getD
          (atomicBase hash key entries next))) := by
  rw [collapseKeys_find]
  unfold atomicChain atomicBase
  cases found : atomicOccurrences hash key entries with
  | nil => exact absurd found present
  | cons first rest =>
    exact visit_foldl_finish words now hash key _ rest next

/-- What holds of every candidate holds of the winner. -/
theorem resolveOccurrences_winner {P : α → Prop} (reader : AtomicReader) {walk : ResolveWalk α}
    {previous : AtomicEntry} {rest : List (AtomicEntry × α)}
    (start : ∀ winner, walk.winner = some winner → P winner) (each : ∀ item ∈ rest, P item.2)
    : ∀ winner, (resolveOccurrences words reader walk previous rest).1.winner = some winner
      → P winner := by
  induction rest generalizing walk previous with
  | nil => exact start
  | cons next rest ih =>
    obtain ⟨entry, parked⟩ := next
    refine ih (fun winner chosen => ?_) (fun item member => each item (mem_cons_of_mem _ member))
    rcases walk.consider_winner words reader previous parked with same | taken
    · exact start winner (same ▸ chosen)
    · rw [taken] at chosen
      cases chosen
      exact each _ mem_cons_self

end

/-- What holds of the resident and of every parked object of the key holds of the object a read
resolves to.
-/
theorem atomicResolveEntries_holds (P : KvObj → Prop) {words : DecisionWords} {now : Int}
    {reader : AtomicReader} {entries : List AtomicEntry} {hash : BitVec 64} {key : Slice}
    {physical : Option KvObj} {object : KvObj}
    (parked : ∀ item ∈ atomicOccurrences hash key entries, ∀ held ∈ item.2, P held)
    (resident : ∀ held ∈ physical, P held)
    (resolved : (atomicResolveEntries words now reader entries hash key physical).value
      = some object)
    : P object := by
  simp only [atomicResolveEntries] at resolved
  cases occurrences : atomicOccurrences hash key entries with
  | nil =>
    rw [occurrences] at resolved
    exact resident object (filter_eq_some_iff.mp resolved).1
  | cons first rest =>
    obtain ⟨first, base⟩ := first
    rw [occurrences] at resolved parked
    have chosen := (filter_eq_some_iff.mp resolved).1
    let walked := resolveOccurrences words reader .init first
      (rest.map (fun occurrence => (occurrence.1, (occurrence.2, false))))
    have fromRest : ∀ winner, walked.1.winner = some winner → ∀ held ∈ winner.1, P held :=
      resolveOccurrences_winner words reader nofun (fun item member => by
        obtain ⟨source, inside, rfl⟩ := mem_map.mp member
        exact parked source (mem_cons_of_mem _ inside))
    cases winner : (walked.1.consider words reader walked.2 (physical, true)).winner with
    | none =>
      rw [winner] at chosen
      exact parked _ mem_cons_self object chosen
    | some pick =>
      rw [winner] at chosen
      rcases walked.1.consider_winner words reader walked.2 (physical, true) with same | taken
      · exact fromRest pick (same ▸ winner) object chosen
      · rw [taken] at winner
        cases winner
        exact resident object chosen

end Thredis.Store
