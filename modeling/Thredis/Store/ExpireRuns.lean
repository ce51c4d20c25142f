import Thredis.Store.ExpireMembership

/-! Runs of calls on the expire index: it is a finite set of hashes, and its size the number of
them for as long as the 32-bit counters do not wrap.
-/

namespace Thredis.Store
open Thredis.Lib List ExpireTable

namespace ExpireIndex

/-- `size()` as it is computed: the live counters are 32 bits wide. -/
def sizeWord (index : ExpireIndex) : BitVec 32 :=
  BitVec.ofNat 32 index.tab0.live + BitVec.ofNat 32 index.tab1.live

/-- The calls of an owner. A `sample` is its migration step and then turns of its loop; what its
callback does to the index comes between two turns.
-/
inductive Call where
  | insert (hash : BitVec 64) (allocations : Allocations)
  | erase (hash : BitVec 64)
  | sample
  | sampleTurn
  | randomHash (random : BitVec 64) (attempts : Nat)
  | clear

/-- The index and the set it stands for: what was inserted and not refused, less what was erased. -/
structure Tracked where
  index : ExpireIndex
  held : Finset (BitVec 64)

def Tracked.init : Tracked := ⟨.init, ∅⟩

def Tracked.call (state : Tracked) : Call → Tracked
  | .insert hash allocations =>
    let answer := state.index.insert hash allocations
    ⟨answer.2.1, if answer.1 then Insert.insert hash state.held else state.held⟩
  | .erase hash => ⟨(state.index.erase hash).2, state.held.erase hash⟩
  | .sample =>
    ⟨if state.index.migrating then migrate kMigrateSlotsPerOp state.index else state.index,
      state.held⟩
  | .sampleTurn => ⟨(state.index.sampleNext.map Prod.snd).getD state.index, state.held⟩
  | .randomHash random attempts => ⟨(state.index.randomHash random attempts).2, state.held⟩
  | .clear => ⟨state.index.clear, ∅⟩

variable {index next : ExpireIndex} {hash : BitVec 64} {held : Finset (BitVec 64)}

theorem sizeWord_eq : index.sizeWord = BitVec.ofNat 32 index.size := (BitVec.ofNat_add _ _).symm

/-- No hash is in two live slots, so the counters count the set. -/
theorem WellFormed.size_eq_card (wf : index.WellFormed)
    (same : ∀ hash, index.Holds hash ↔ hash ∈ held) : index.size = held.card := by
  have distinct : (index.tab0.slots.filter Slot.isLive
      ++ index.tab1.slots.filter Slot.isLive).Nodup := by
    apply List.Nodup.append wf.split.tab0.placed.live_nodup wf.split.tab1.placed.live_nodup
    intro slot first second
    obtain ⟨first, live⟩ := mem_filter.mp first
    cases slot with
    | live hash => exact wf.split.apart hash first (mem_filter.mp second).1
    | empty | dead => cases live
  have members : (index.tab0.slots.filter Slot.isLive
      ++ index.tab1.slots.filter Slot.isLive).toFinset = held.image Slot.live := by
    ext slot
    rw [mem_toFinset, Finset.mem_image]
    simp only [← same]
    cases slot <;> simp [Slot.isLive, Holds, ExpireTable.Holds]
  have injective : Function.Injective (Slot.live (α := BitVec 64)) := fun _ _ => Slot.live.inj
  rw [size, wf.split.tab0.liveCount, wf.split.tab1.liveCount, liveCount, liveCount,
    countP_eq_length_filter, countP_eq_length_filter, ← length_append,
    ← toFinset_card_of_nodup distinct, members, Finset.card_image_of_injective _ injective]

/-- What the tables have room for bounds what they hold. -/
theorem WellFormed.size_lt (wf : index.WellFormed) (narrow0 : index.tab0.cap ≤ 2 ^ 32)
    (narrow1 : index.tab1.cap ≤ 2 ^ 32) : index.size < 2 ^ 32 := by
  rw [size]
  by_cases still : index.tab1.cap = 0
  · have none := wf.split.tab1.live_eq_zero.mpr (not_holds_of_cap still)
    by_cases unallocated : index.tab0.cap = 0
    · have none0 := wf.split.tab0.live_eq_zero.mpr (not_holds_of_cap unallocated)
      omega
    · have room := wf.room.still still unallocated
      rw [load] at room
      omega
  · have room := wf.room.moving still
    rw [load] at room
    omega

-- Calls

/-- With every allocation granted an insert is never refused: the table that is to be doubled is
half full.
-/
theorem WellFormed.insert_true (wf : index.WellFormed)
    (same : ∀ hash, index.Holds hash ↔ hash ∈ held) (few : held.card < 2 ^ 62) (hash : BitVec 64)
    : (index.insert hash []).1 = true := by
  obtain ⟨wf₁, holds₁, paid₁⟩ := wf.insertMigrate
  obtain ⟨ready, granted⟩ : ∃ ready, index.insertMigrate.insertAllocate [] = (some ready, []) := by
    rw [ExpireIndex.insertAllocate]
    split <;> exact ⟨_, rfl⟩
  obtain ⟨wf₂, holds₂, alike, allocated⟩ := wf₁.insertAllocate granted
  have size := wf₂.size_eq_card fun hash => (holds₂ hash).trans ((holds₁ hash).trans (same hash))
  rw [ExpireIndex.size] at size
  obtain ⟨grown, started⟩ : ∃ grown, ready.insertGrow [] = (some grown, []) := by
    rw [ExpireIndex.insertGrow]
    split
    · have fits : ¬ (decide (ready.tab0.cap ≤ ready.tab0.live * 2)
          && decide ((2 ^ 64 - 1) / 2 < ready.tab0.cap)) = true := by
        rw [Bool.and_eq_true, decide_eq_true_iff, decide_eq_true_iff]
        omega
      rw [if_neg fits]
      exact ⟨_, rfl⟩
    · exact ⟨_, rfl⟩
  have paid₂ : ready.tab1.cap ≠ 0 → ready.Room 1 := by
    intro moving
    have same := alike moving
    rw [same] at moving ⊢
    exact paid₁ moving
  obtain ⟨wf₃, -, room, present⟩ := wf₂.insertGrow allocated paid₂ started
  have placed := (wf₃.insertPlace room present hash).1
  simp [ExpireIndex.insert, granted, started, placed]

theorem cursorSlot_holds (visited : index.cursorSlot = some (some hash, next))
    : index.Holds hash := by
  simp only [cursorSlot] at visited
  split at visited
  · cases visited
  · obtain ⟨found, -⟩ := Prod.mk.inj (Option.some.inj visited)
    generalize (if index.tab0.cap - index.migratePos + index.tab1.cap ≤ index.cursor then 0
      else index.cursor) = pos at found
    split at found
    · exact .inl (mem_of_getElem? (liveAt_some found))
    · exact .inr (mem_of_getElem? (liveAt_some found))

theorem sampleNext_holds (sampled : index.sampleNext = some (some hash, next))
    : index.Holds hash :=
  cursorSlot_holds (Option.ite_none_left_eq_some.mp sampled).2

theorem randomAt_holds {table : ExpireTable} {random : BitVec 64} {offset : Nat}
    (drawn : randomAt table random offset = some hash) : table.Holds hash :=
  mem_of_getElem? (liveAt_some (Option.ite_none_left_eq_some.mp drawn).2)

theorem cursorProbes_holds {attempts : Nat} (drawn : (cursorProbes attempts index).1 = some hash)
    : index.Holds hash := by
  induction attempts generalizing index with
  | zero => cases drawn
  | succ attempts ih =>
    rw [cursorProbes] at drawn
    split at drawn
    · cases drawn
    · rename_i found next visited
      cases drawn
      exact cursorSlot_holds visited
    · rename_i next visited
      obtain ⟨tab0, tab1, -⟩ := cursorSlot_tables visited
      exact (holds_of_tables tab0 tab1).mp (ih drawn)

theorem randomHash_holds {random : BitVec 64} {attempts : Nat}
    (drawn : (index.randomHash random attempts).1 = some hash) : index.Holds hash := by
  rw [randomHash] at drawn
  split at drawn
  · cases drawn
  split at drawn
  · rename_i found probed
    cases drawn
    obtain ⟨n, -, attempt⟩ := exists_of_findSome?_eq_some probed
    rcases Option.or_eq_some_iff.mp attempt with first | ⟨-, second⟩
    · exact .inl (randomAt_holds first)
    · exact .inr (randomAt_holds second)
  · exact cursorProbes_holds drawn

def Tracked.Inv (state : Tracked) : Prop :=
  state.index.WellFormed ∧ ∀ hash, state.index.Holds hash ↔ hash ∈ state.held

open Tracked

theorem Tracked.Inv.init : init.Inv :=
  ⟨.init, fun hash => iff_of_false (not_holds_init hash) (Finset.notMem_empty hash)⟩

theorem Tracked.Inv.call {state : Tracked} (inv : state.Inv) (call : Call)
    : (state.call call).Inv := by
  obtain ⟨wf, same⟩ := inv
  cases call with
  | insert hash allocations =>
    obtain ⟨wf', holds⟩ := wf.insert hash allocations
    refine ⟨wf', fun other => (holds other).trans ?_⟩
    rw [same]
    dsimp only [Tracked.call]
    split
    next answered => simp [answered]
    next refused => simp [refused]
  | erase hash =>
    obtain ⟨wf', holds⟩ := wf.erase hash
    refine ⟨wf', fun other => (holds other).trans ?_⟩
    rw [same, Tracked.call, Finset.mem_erase, and_comm]
  | sample =>
    dsimp only [Tracked.call, Inv]
    split
    next moving =>
      obtain ⟨wf', holds, -⟩ := wf.migrate (migrating_iff.mp moving)
      exact ⟨wf', fun other => (holds other).trans (same other)⟩
    next => exact ⟨wf, same⟩
  | sampleTurn =>
    dsimp only [Tracked.call, Inv]
    cases sampled : state.index.sampleNext with
    | none => exact ⟨wf, same⟩
    | some visit =>
      obtain ⟨tab0, tab1, pos⟩ := cursorSlot_tables (Option.ite_none_left_eq_some.mp sampled).2
      exact ⟨wf.of_tables tab0 tab1 pos,
        fun other => (holds_of_tables tab0 tab1).trans (same other)⟩
  | randomHash random attempts =>
    obtain ⟨tab0, tab1, pos⟩ := randomHash_tables state.index random attempts
    exact ⟨wf.of_tables tab0 tab1 pos, fun other => (holds_of_tables tab0 tab1).trans (same other)⟩
  | clear => exact .init

theorem Tracked.Inv.calls (calls : List Call) : (calls.foldl Tracked.call .init).Inv := by
  induction calls using reverseRecOn with
  | nil => exact .init
  | append_singleton front call ih =>
    rw [foldl_concat]
    exact ih.call call

/-- Each table has at most the slots that a 32-bit counter tells apart. -/
abbrev Tracked.Narrow (state : Tracked) : Prop :=
  state.index.tab0.cap ≤ 2 ^ 32 ∧ state.index.tab1.cap ≤ 2 ^ 32

/-- For as long as each table has at most 2^32 slots, every run of calls leaves the index with
exactly the hashes inserted and not erased since: `size()` is their number, no hash is in both
tables, no granted insert is refused, and what a sampling turn or a random draw returns is a hash
held. A refused insert leaves the set as it was.

Witness: induction over the calls, one well-formedness lemma for each.
-/
theorem index_is_set (calls : List Call)
    (narrow : ∀ front ∈ calls.inits, (front.foldl Tracked.call .init).Narrow)
    : let final := calls.foldl call .init
      (∀ hash, final.index.Holds hash ↔ hash ∈ final.held)
      ∧ final.index.sizeWord.toNat = final.held.card
      ∧ (∀ hash, final.index.tab0.Holds hash → ¬ final.index.tab1.Holds hash)
      ∧ (∀ hash, (final.index.insert hash []).1 = true)
      ∧ (∀ hash next, final.index.sampleNext = some (some hash, next) → hash ∈ final.held)
      ∧ ∀ hash random attempts, (final.index.randomHash random attempts).1 = some hash
        → hash ∈ final.held := by
  intro final
  obtain ⟨wf, same⟩ : final.Inv := .calls calls
  have last := (mem_inits _ _).mpr (prefix_refl calls)
  obtain ⟨narrow0, narrow1⟩ := narrow calls last
  have size := wf.size_eq_card same
  have small := wf.size_lt narrow0 narrow1
  refine ⟨same, ?_, wf.split.apart, wf.insert_true same (by omega),
    fun hash next sampled => (same hash).mp (sampleNext_holds sampled),
    fun hash random attempts drawn => (same hash).mp (randomHash_holds drawn)⟩
  rw [sizeWord_eq, ← size]
  exact Nat.mod_eq_of_lt small

/-- Two hashes inserted, one of them erased again. -/
theorem index_is_set_one
    : let calls := [.insert 5 [], .insert 9 [], .sampleTurn, .erase 5]
      (∀ front ∈ calls.inits, (front.foldl call .init).Narrow)
      ∧ (calls.foldl call .init).index.sizeWord.toNat
        = (calls.foldl call .init).held.card := by
  intro calls
  have narrow : ∀ front ∈ calls.inits, (front.foldl call .init).Narrow := by decide +kernel
  exact ⟨narrow, (index_is_set calls narrow).2.1⟩

/-- Inserting the hashes below a bound, each of them new. -/
theorem exists_held (count : Nat) (few : count < 2 ^ 62)
    : ∃ calls : List Call, (calls.foldl call .init).held.card = count
      ∧ ∀ hash ∈ (calls.foldl call .init).held, hash.toNat < count := by
  induction count with
  | zero => exact ⟨[], rfl, nofun⟩
  | succ count ih =>
    obtain ⟨calls, card, below⟩ := ih (by omega)
    obtain ⟨wf, same⟩ := Tracked.Inv.calls calls
    have number : (BitVec.ofNat 64 count).toNat = count := by
      exact Nat.mod_eq_of_lt (by omega)
    have fresh : BitVec.ofNat 64 count ∉ (calls.foldl call .init).held := by
      intro known
      have under := below _ known
      omega
    have taken := wf.insert_true same (by omega) (BitVec.ofNat 64 count)
    refine ⟨calls ++ [.insert (BitVec.ofNat 64 count) []], ?_⟩
    simp only [foldl_concat, call, taken, if_true]
    refine ⟨by rw [Finset.card_insert_of_notMem fresh, card], fun hash known => ?_⟩
    rcases Finset.mem_insert.mp known with rfl | old
    · omega
    · have under := below hash old
      omega

/-- 2^32 hashes, and `size()` is zero again. -/
theorem size_wraps
    : ∃ calls : List Call, (calls.foldl Tracked.call .init).held.card = 2 ^ 32
      ∧ (calls.foldl Tracked.call .init).index.sizeWord = 0 := by
  obtain ⟨calls, card, -⟩ := exists_held (2 ^ 32) (by decide)
  obtain ⟨wf, same⟩ := Tracked.Inv.calls calls
  refine ⟨calls, card, ?_⟩
  rw [sizeWord_eq, wf.size_eq_card same, card]
  rfl

end ExpireIndex

end Thredis.Store
