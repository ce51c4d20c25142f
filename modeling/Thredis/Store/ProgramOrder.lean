import Thredis.Store.AtomicRanking

/-! Whether a connection's later write outranks its earlier one. The repair lifts a record to
the record of the same connection directly before it, so a run of one connection's records
ranks as a block; the winner is the last record of the block that starts at the key's highest
ticket.
-/

namespace Thredis.Store

open Thredis.Lib List

variable {α : Type}

/-- A value with the record that installed it and the records installed after that one. -/
structure Installed (α : Type) where
  value : α
  owner : AtomicEntry
  later : List AtomicEntry

/-- The chain with each value labelled by its record and the records behind it; `behind`
are the records after the chain.
-/
def labelled (behind : List AtomicEntry)
    : List (AtomicEntry × α) → List (AtomicEntry × Installed α)
  | [] => []
  | (owner, value) :: rest =>
    (owner, ⟨value, owner, rest.map Prod.fst ++ behind⟩) :: labelled behind rest

/-- No record of the same connection was installed later. -/
def Installed.LastOfConnection (item : Installed α) : Prop :=
  ∀ record ∈ item.later, record.originConnId ≠ item.owner.originConnId

section

variable (behind : List AtomicEntry) (chain front back : List (AtomicEntry × α))

theorem labelled_values
    : (labelled behind chain).map (Prod.map id Installed.value) = chain := by
  induction chain with
  | nil => rfl
  | cons record chain ih => simp [labelled, ih]

theorem labelled_owners
    : (labelled behind chain).map Prod.fst = chain.map Prod.fst := by
  induction chain with
  | nil => rfl
  | cons record chain ih => simp [labelled, ih]

theorem labelled_append
    : labelled behind (front ++ back)
        = labelled (back.map Prod.fst ++ behind) front ++ labelled behind back := by
  induction front with
  | nil => rfl
  | cons record front ih => simp [labelled, ih]

end

def atomicRecords (hash : BitVec 64) (key : Slice) (entries : List AtomicEntry)
    : List AtomicEntry :=
  (atomicOccurrences hash key entries).map Prod.fst

def CommittedAndVisible (words : DecisionWords) (snapshot : Nat)
    (records : List AtomicEntry) : Prop :=
  ∀ record ∈ records, record.aborted words = false
    ∧ record.atomicEpoch words ≠ 0 ∧ record.atomicEpoch words ≤ snapshot

instance (words : DecisionWords) (snapshot : Nat) (records : List AtomicEntry)
    : Decidable (CommittedAndVisible words snapshot records) :=
  inferInstanceAs (Decidable (∀ record ∈ records, _ ∧ _ ∧ _))

-- Effective epochs around the highest ticket

theorem liftEpoch_le (prev : Nat × Nat) (owner : AtomicEntry) (epoch bound : Nat)
    (prevLe : prev.2 ≤ bound) (epochLe : epoch ≤ bound)
    : liftEpoch prev.1 prev.2 owner epoch ≤ bound := by
  unfold liftEpoch
  split <;> assumption

section

variable (words : DecisionWords)

/-- The repair never exceeds the tickets it has seen. -/
theorem repaired_le (bound : Nat) (prev : Nat × Nat)
    (chain : List (AtomicEntry × α)) (prevLe : prev.2 ≤ bound)
    (tickets : ∀ record ∈ chain, record.1.aborted words = false →
      record.1.atomicEpoch words ≤ bound)
    : (∀ item ∈ repaired words prev chain, item.1 ≤ bound)
        ∧ (carried words prev chain).2 ≤ bound := by
  induction chain generalizing prev with
  | nil => exact ⟨by simp [repaired], prevLe⟩
  | cons record chain ih =>
    obtain ⟨owner, candidate⟩ := record
    have later := fun record member => tickets record (mem_cons_of_mem _ member)
    simp only [repaired, carried]
    split
    · exact ih prev prevLe later
    next live =>
      have live := Bool.eq_false_iff.mpr live
      have epochLe := liftEpoch_le prev owner _ bound prevLe (tickets _ (mem_cons_self ..) live)
      have nextLe : (nextPrev prev owner
          (liftEpoch prev.1 prev.2 owner (owner.atomicEpoch words))).2 ≤ bound := by
        unfold nextPrev
        split <;> assumption
      obtain ⟨items, carry⟩ := ih _ nextLe later
      refine ⟨?_, carry⟩
      intro item member
      rcases mem_cons.mp member with same | member
      · exact same ▸ epochLe
      · exact items item member

def Lower (words : DecisionWords) (top : Nat) (chain : List (AtomicEntry × α)) : Prop :=
  ∀ record ∈ chain, record.1.aborted words = false
    ∧ record.1.atomicEpoch words ≠ 0 ∧ record.1.atomicEpoch words < top

/-- A run of the carried connection with lower tickets is lifted to the carried epoch. -/
theorem repaired_run (connId top : Nat) (topNe : top ≠ 0)
    (run : List (AtomicEntry × α)) (same : ∀ record ∈ run, record.1.originConnId = connId)
    (lower : Lower words top run)
    : repaired words (connId, top) run = run.map (fun record => (top, record.1, record.2))
        ∧ carried words (connId, top) run = (connId, top) := by
  induction run with
  | nil => exact ⟨rfl, rfl⟩
  | cons record run ih =>
    obtain ⟨owner, candidate⟩ := record
    obtain ⟨live, decided, lt⟩ := lower _ (mem_cons_self ..)
    have conn : owner.originConnId = connId := same _ (mem_cons_self ..)
    have lifted : liftEpoch connId top owner (owner.atomicEpoch words) = top := by
      simp [liftEpoch, topNe, decided, lt, conn]
    have next : nextPrev (connId, top) owner top = (connId, top) := by
      simp [nextPrev, conn]
    obtain ⟨items, carry⟩ := ih (fun record member => same record (mem_cons_of_mem _ member))
      (fun record member => lower record (mem_cons_of_mem _ member))
    constructor
    · simp [repaired, live, lifted, next, items]
    · simp [carried, lifted, next, carry]

/-- Behind a record of another connection every epoch stays below the carried one. -/
theorem repaired_lt (connId top : Nat) (chain : List (AtomicEntry × α))
    (other : ∀ record ∈ chain.head?, record.1.originConnId ≠ connId) (lower : Lower words top chain)
    : ∀ item ∈ repaired words (connId, top) chain, item.1 < top := by
  cases chain with
  | nil => simp [repaired]
  | cons record chain =>
    obtain ⟨owner, candidate⟩ := record
    obtain ⟨live, decided, lt⟩ : owner.aborted words = false
        ∧ owner.atomicEpoch words ≠ 0 ∧ owner.atomicEpoch words < top :=
      lower _ (mem_cons_self ..)
    have conn : owner.originConnId ≠ connId := other (owner, candidate) (by simp)
    have own : liftEpoch connId top owner (owner.atomicEpoch words)
        = owner.atomicEpoch words := by
      simp [liftEpoch, conn]
    intro item member
    simp only [repaired, live, own, nextPrev, decided, ne_eq] at member
    rcases mem_cons.mp member with isOwner | member
    · exact isOwner ▸ lt
    · have bound := (repaired_le words (top - 1) (owner.originConnId, owner.atomicEpoch words)
        chain (by omega) (fun record inside _ => by
          have := (lower record (mem_cons_of_mem _ inside)).2.2
          omega)).1 item member
      omega

end

/-- Records split at the last highest ticket: `before` ranks no higher, the records behind
rank lower, `run` continues the connection of `top` and `rest` starts with another one.
-/
structure TopSplit (words : DecisionWords) (before : List AtomicEntry) (top : AtomicEntry)
    (run rest : List AtomicEntry) : Prop where
  decided : ∀ record ∈ before ++ top :: (run ++ rest),
    record.aborted words = false ∧ record.atomicEpoch words ≠ 0
  before_le : ∀ record ∈ before, record.atomicEpoch words ≤ top.atomicEpoch words
  after_lt : ∀ record ∈ run ++ rest, record.atomicEpoch words < top.atomicEpoch words
  run_same : ∀ record ∈ run, record.originConnId = top.originConnId
  rest_other : ∀ record ∈ rest.head?, record.originConnId ≠ top.originConnId

/-- The connection that holds the highest ticket does not come back: once a record of another
connection follows the highest ticket, no record of the ticket's connection does.
-/
def TopConnectionStays (words : DecisionWords) (records : List AtomicEntry) : Prop :=
  ∀ before top run rest, records = before ++ top :: (run ++ rest) →
    TopSplit words before top run rest →
    ∀ record ∈ rest, record.originConnId ≠ top.originConnId

variable {words : DecisionWords} {before run rest : List (AtomicEntry × α)} {top : AtomicEntry × α}

section

variable (split : TopSplit words (before.map Prod.fst) top.1 (run.map Prod.fst) (rest.map Prod.fst))

include split

/-- The block that starts at the highest ticket ranks at that ticket, the rest below. -/
theorem TopSplit.repaired_eq
    : ∃ low high, repaired words (0, 0) (before ++ (top :: run ++ rest))
          = low ++ ((top :: run).map (fun record =>
              (top.1.atomicEpoch words, record.1, record.2)) ++ high)
        ∧ (∀ item ∈ low, item.1 ≤ top.1.atomicEpoch words)
        ∧ (∀ item ∈ high, item.1 < top.1.atomicEpoch words) := by
  obtain ⟨topLive, topNe⟩ := split.decided top.1 (by simp)
  obtain ⟨lowLe, carryLe⟩ := repaired_le words (top.1.atomicEpoch words) (0, 0) before
    (Nat.zero_le _) (fun record member _ =>
      split.before_le record.1 (mem_map_of_mem member))
  have lower : Lower words (top.1.atomicEpoch words) (run ++ rest) := by
    intro record member
    have owner : record.1 ∈ run.map Prod.fst ++ rest.map Prod.fst := by
      rw [← map_append]
      exact mem_map_of_mem member
    obtain ⟨live, ne⟩ := split.decided record.1 (mem_append_right _ (mem_cons_of_mem _ owner))
    exact ⟨live, ne, split.after_lt record.1 owner⟩
  obtain ⟨runItems, runCarry⟩ := repaired_run words top.1.originConnId
    (top.1.atomicEpoch words) topNe run
    (fun record member => split.run_same record.1 (mem_map_of_mem member))
    (fun record member => lower record (mem_append_left _ member))
  have restOther : ∀ record ∈ rest.head?, record.1.originConnId ≠ top.1.originConnId := by
    intro record member
    refine split.rest_other record.1 ?_
    rw [head?_map, Option.mem_def.mp member]
    rfl
  have topLift : liftEpoch (carried words (0, 0) before).1 (carried words (0, 0) before).2 top.1
      (top.1.atomicEpoch words) = top.1.atomicEpoch words := by
    unfold liftEpoch
    split
    next cond => omega
    next => rfl
  refine ⟨repaired words (0, 0) before,
    repaired words (top.1.originConnId, top.1.atomicEpoch words) rest, ?_, lowLe,
    repaired_lt words _ _ rest restOther
      (fun record member => lower record (mem_append_right _ member))⟩
  simp [repaired, topLive, topLift, nextPrev, topNe, repaired_append, runItems, runCarry]

/-- The last record of the block at the highest ticket ranks last and highest. -/
theorem TopSplit.lastMax_eq {front : List (AtomicEntry × α)} {winner : AtomicEntry × α}
    (last : top :: run = front ++ [winner])
    : lastMax ((repaired words (0, 0) (before ++ (top :: run ++ rest))).map collapseRankOf)
        = some (((top.1.atomicEpoch words : Nat) : WithTop Nat), winner.2) := by
  obtain ⟨low, high, items, lowLe, highLt⟩ := split.repaired_eq
  have shape : (low ++ ((front ++ [winner]).map (fun record =>
        (top.1.atomicEpoch words, record.1, record.2)) ++ high)).map collapseRankOf
      = (low.map collapseRankOf ++ front.map (fun record =>
          (((top.1.atomicEpoch words : Nat) : WithTop Nat), record.2)))
        ++ (((top.1.atomicEpoch words : Nat) : WithTop Nat), winner.2)
          :: high.map collapseRankOf := by
    simp [collapseRankOf]
  rw [items, last, shape]
  refine lastMax_of_split _ _ _ ?_ ?_
  · intro ranked member
    rcases mem_append.mp member with member | member
    · obtain ⟨item, inside, rfl⟩ := mem_map.mp member
      exact WithTop.coe_le_coe.mpr (lowLe item inside)
    · obtain ⟨record, -, rfl⟩ := mem_map.mp member
      exact le_refl _
  · intro ranked member
    obtain ⟨item, inside, rfl⟩ := mem_map.mp member
    exact WithTop.coe_lt_coe.mpr (highLt item inside)

/-- The winner of a labelled chain is of the highest ticket's connection, and the records
behind it are those from the first record of another connection on.
-/
theorem TopSplit.labelled_winner
    : ∃ value owner, owner.originConnId = top.1.originConnId
        ∧ lastMax ((repaired words (0, 0) (labelled [] (before ++ (top :: run ++ rest)))).map
            collapseRankOf)
          = some (((top.1.atomicEpoch words : Nat) : WithTop Nat),
              ⟨value, owner, rest.map Prod.fst⟩) := by
  obtain ⟨front, winner, last⟩ : ∃ front winner, top :: run = front ++ [winner] :=
    ⟨_, _, (dropLast_append_getLast (cons_ne_nil top run)).symm⟩
  have conn : winner.1.originConnId = top.1.originConnId := by
    have member : winner ∈ top :: run := by simp [last]
    rcases mem_cons.mp member with same | member
    · rw [same]
    · exact split.run_same winner.1 (mem_map_of_mem member)
  refine ⟨winner.2, winner.1, conn, ?_⟩
  have blocks : labelled [] (before ++ (top :: run ++ rest))
      = labelled ((top :: run ++ rest).map Prod.fst) before
        ++ (labelled (rest.map Prod.fst) (top :: run) ++ labelled [] rest) := by
    rw [labelled_append, labelled_append]
    simp
  have labelledLast : labelled (rest.map Prod.fst) (top :: run)
      = labelled (winner.1 :: rest.map Prod.fst) front
        ++ [(winner.1, ⟨winner.2, winner.1, rest.map Prod.fst⟩)] := by
    rw [last, labelled_append]
    rfl
  rw [blocks]
  refine TopSplit.lastMax_eq ?_ labelledLast
  simpa [labelled_owners] using split

end

section

variable (words)

/-- Every committed chain has such a split, by the last maximum of the raw tickets. -/
theorem exists_topSplit (chain : List (AtomicEntry × α)) (nonempty : chain ≠ [])
    (decided : ∀ record ∈ chain.map Prod.fst,
      record.aborted words = false ∧ record.atomicEpoch words ≠ 0)
    : ∃ before top run rest, chain = before ++ (top :: run ++ rest)
        ∧ TopSplit words (before.map Prod.fst) top.1 (run.map Prod.fst) (rest.map Prod.fst) := by
  cases won : lastMax (chain.map (fun record => (record.1.atomicEpoch words, record))) with
  | none => exact absurd (map_eq_nil_iff.mp ((lastMax_eq_none _).mp won)) nonempty
  | some ranked =>
    obtain ⟨low, high, items, lowLe, highLt⟩ := lastMax_spec _ _ won
    obtain ⟨before, after, rfl, lowEq, highEq⟩ := map_eq_append_iff.mp items
    obtain ⟨top, after, rfl, topEq, rfl⟩ := map_eq_cons_iff.mp highEq
    subst lowEq topEq
    have same := takeWhile_append_dropWhile (p := fun record : AtomicEntry × α =>
        record.1.originConnId == top.1.originConnId) (l := after)
    refine ⟨before, top, _, _, by rw [cons_append, same], ⟨?_, ?_, ?_, ?_, ?_⟩⟩
    · rw [← map_append]
      simpa using decided
    · intro record member
      obtain ⟨item, inside, rfl⟩ := mem_map.mp member
      exact lowLe _ (mem_map_of_mem inside)
    · rw [← map_append, same]
      intro record member
      obtain ⟨item, inside, rfl⟩ := mem_map.mp member
      exact highLt _ (mem_map_of_mem inside)
    · intro record member
      obtain ⟨item, inside, rfl⟩ := mem_map.mp member
      simpa using mem_takeWhile_imp inside
    · intro record member
      rw [head?_map] at member
      obtain ⟨item, inside, rfl⟩ := Option.mem_map.mp member
      have := head?_dropWhile_not
        (fun record : AtomicEntry × α => record.1.originConnId == top.1.originConnId) after
      rw [Option.mem_def.mp inside] at this
      simpa using this

-- Both walks

theorem repaired_ne_zero (prev : Nat × Nat) (chain : List (AtomicEntry × α))
    (decided : ∀ record ∈ chain.map Prod.fst, record.atomicEpoch words ≠ 0)
    : ∀ item ∈ repaired words prev chain, item.1 ≠ 0 := by
  induction chain generalizing prev with
  | nil => simp [repaired]
  | cons record chain ih =>
    obtain ⟨owner, candidate⟩ := record
    have later := fun record member => decided record (mem_cons_of_mem _ member)
    intro item member
    simp only [repaired] at member
    split at member
    · exact ih _ later item member
    · rcases mem_cons.mp member with same | member
      · rw [same]
        exact liftEpoch_ne_zero _ _ _ _ (decided owner (mem_cons_self ..))
      · exact ih _ later item member

variable (reader : AtomicReader) (chain : List (AtomicEntry × α))

/-- A reader that sees every record ranks them as the cleanup does. -/
theorem rankOf_eq_collapseRankOf
    (committed : CommittedAndVisible words reader.snapshot (chain.map Prod.fst))
    : (repaired words (0, 0) chain).filterMap reader.rankOf
        = (repaired words (0, 0) chain).map collapseRankOf := by
  have visible := (repaired_le words reader.snapshot (0, 0) chain (Nat.zero_le _)
    (fun record member _ => (committed record.1 (mem_map_of_mem member)).2.2)).1
  have decided := repaired_ne_zero words (0, 0) chain
    (fun record member => (committed record member).2.1)
  rw [← filterMap_eq_map]
  refine filterMap_congr fun item member => ?_
  have nonzero := decided item member
  have low := visible item member
  simp [AtomicReader.rankOf, AtomicReader.admits, collapseRankOf, nonzero, low]

/-- Both walks choose the same record, and it is the last of its connection exactly when the
connection of the highest ticket stays.
-/
theorem labelled_winner_iff (nonempty : chain ≠ [])
    (committed : CommittedAndVisible words reader.snapshot (chain.map Prod.fst))
    : ∃ winner, (resolveChain words reader .init (labelled [] chain)).winner = some winner
        ∧ (collapseChain words .init (labelled [] chain)).winner = some winner
        ∧ (winner.LastOfConnection ↔ TopConnectionStays words (chain.map Prod.fst)) := by
  have labels : CommittedAndVisible words reader.snapshot ((labelled [] chain).map Prod.fst) := by
    rwa [labelled_owners]
  have readWinner := resolveChain_winner words reader (labelled [] chain)
  have keptWinner := collapseChain_winner words (labelled [] chain) (fun record member =>
    .inr (labels record.1 (mem_map_of_mem member)).2.1)
  rw [rankOf_eq_collapseRankOf words reader _ labels] at readWinner
  obtain ⟨before, top, run, rest, chainEq, split⟩ := exists_topSplit words chain nonempty
    (fun record member => ⟨(committed record member).1, (committed record member).2.1⟩)
  obtain ⟨value, owner, conn, best⟩ := split.labelled_winner
  rw [← chainEq] at best
  rw [best] at readWinner keptWinner
  refine ⟨_, readWinner, keptWinner, ?_⟩
  constructor
  · intro last before' top' run' rest' shape split'
    -- any other split names the same winner, so it has the same records behind it
    obtain ⟨low, high, chainEq', rfl, highEq⟩ := map_eq_append_iff.mp shape
    obtain ⟨topRecord, after, rfl, rfl, afterEq⟩ := map_eq_cons_iff.mp highEq
    obtain ⟨runRecords, restRecords, rfl, rfl, rfl⟩ := map_eq_append_iff.mp afterEq
    obtain ⟨value', owner', conn', best'⟩ := split'.labelled_winner
    rw [cons_append, ← chainEq', best] at best'
    have same := (Prod.mk.inj (Option.some.inj best')).2
    obtain ⟨-, ownerEq, restEq⟩ := Installed.mk.inj same
    intro record member
    rw [← conn', ← ownerEq]
    exact last record (restEq ▸ member)
  · intro stays record member
    rw [conn]
    refine stays _ _ _ _ ?_ split record member
    rw [chainEq]
    simp

end

/-- In a list where all records of the key are committed and visible, the value a read
resolves to and the value the ranking cleanup keeps are each the last write of their
connection exactly when the connection of the highest ticket does not come back behind a
record of another one.
-/
theorem later_write_outranks_iff (words : DecisionWords) (now : Int) (reader : AtomicReader)
    (entries : List AtomicEntry) (hash : BitVec 64) (key : Slice) (physical : Option KvObj)
    (present : atomicRecords hash key entries ≠ [])
    (committed : CommittedAndVisible words reader.snapshot (atomicRecords hash key entries))
    : ∃ read kept : Installed (Option KvObj), (resolveChain words reader .init
            (labelled [] (atomicChain hash key entries physical))).winner = some read
        ∧ (atomicResolveEntries words now reader entries hash key physical).value
            = atomicLiveValue now read.value
        ∧ (collapseChain words .init
            (labelled [] (atomicChain hash key entries physical))).winner = some kept
        ∧ ((collapseKeys words entries).find? (CollapseKey.isKey hash key)).map
              (CollapseKey.finish words now · physical)
            = some (atomicLiveValue now kept.value)
        ∧ (read.LastOfConnection
            ↔ TopConnectionStays words (atomicRecords hash key entries))
        ∧ (kept.LastOfConnection
            ↔ TopConnectionStays words (atomicRecords hash key entries)) := by
  have owners : (atomicChain hash key entries physical).map Prod.fst
      = atomicRecords hash key entries := atomicChain_owners hash key entries physical
  have occurs : atomicOccurrences hash key entries ≠ [] := by
    simpa [atomicRecords] using present
  have keptValue := collapseKeys_finish words now entries hash key physical occurs
  have readValue := atomicResolveEntries_value words now reader entries hash key physical
  have nonempty : atomicChain hash key entries physical ≠ [] := by
    intro empty
    rw [empty] at owners
    exact present owners.symm
  rw [← owners] at committed ⊢
  generalize atomicChain hash key entries physical = chain at *
  obtain ⟨winner, readWinner, keptWinner, exact_iff⟩ :=
    labelled_winner_iff words reader chain nonempty committed
  have readPlain := resolveChain_winner_map words reader Installed.value (labelled [] chain)
  have keptPlain := collapseChain_winner_map words Installed.value (labelled [] chain)
    (fun record member => .inr (by
      have owner := mem_map_of_mem (f := Prod.fst) member
      rw [labelled_owners] at owner
      exact (committed record.1 owner).2.1))
  rw [labelled_values, readWinner] at readPlain
  rw [labelled_values, keptWinner] at keptPlain
  rw [readPlain] at readValue
  rw [keptPlain] at keptValue
  exact ⟨winner, winner, readWinner, readValue, keptWinner, keptValue, exact_iff, exact_iff⟩

/-- Connection 1 writes twice in a row at tickets 5 and 3, then connection 2 at ticket 4. -/
def adjacentWrites : List AtomicEntry :=
  [.single none 1 5 7#64 [107] none,
   .single none 1 3 7#64 [107] (some (stringObject 16 [107] [1])),
   .single none 2 4 7#64 [107] (some (stringObject 32 [107] [2]))]

/-- Connection 2 writes at ticket 2 between connection 1's tickets 5 and 3. -/
def interruptedWrites : List AtomicEntry :=
  [.single none 1 5 7#64 [107] none,
   .single none 2 2 7#64 [107] (some (stringObject 16 [107] [1])),
   .single none 1 3 7#64 [107] (some (stringObject 32 [107] [2]))]

/-- Witness: adjacent records of one connection with inverted tickets. -/
theorem later_write_outranks_adjacent
    : ∃ read kept : Installed (Option KvObj),
        (atomicResolveEntries (fun _ => ⟨0, false⟩) 0 ⟨0, 9⟩ adjacentWrites 7#64 [107]
            (some (stringObject 48 [107] [3]))).value = atomicLiveValue 0 read.value
        ∧ (read.LastOfConnection
            ↔ TopConnectionStays (fun _ => ⟨0, false⟩) (atomicRecords 7#64 [107] adjacentWrites))
        ∧ (kept.LastOfConnection
            ↔ TopConnectionStays (fun _ => ⟨0, false⟩)
                (atomicRecords 7#64 [107] adjacentWrites)) := by
  obtain ⟨read, kept, -, readValue, -, -, readLast, keptLast⟩ :=
    later_write_outranks_iff (fun _ => ⟨0, false⟩) 0 ⟨0, 9⟩ adjacentWrites 7#64 [107]
      (some (stringObject 48 [107] [3])) (by decide) (by decide)
  exact ⟨read, kept, readValue, readLast, keptLast⟩

/-- Connection 1's first write is what a read answers and what the cleanup keeps, although
its second write was installed last and every record is visible.
-/
theorem earlier_write_outranks_interrupted
    : CommittedAndVisible (fun _ => ⟨0, false⟩) 9 (atomicRecords 7#64 [107] interruptedWrites)
      ∧ (atomicRecords 7#64 [107] interruptedWrites).map AtomicEntry.originConnId = [1, 2, 1]
      ∧ (atomicResolveEntries (fun _ => ⟨0, false⟩) 0 ⟨0, 9⟩ interruptedWrites 7#64 [107]
            (some (stringObject 48 [107] [3]))).value
          = some (stringObject 16 [107] [1])
      ∧ ((collapseKeys (fun _ => ⟨0, false⟩) interruptedWrites).find?
            (CollapseKey.isKey 7#64 [107])).map
              (CollapseKey.finish (fun _ => ⟨0, false⟩) 0 · (some (stringObject 48 [107] [3])))
          = some (some (stringObject 16 [107] [1])) := by
  decide

end Thredis.Store
