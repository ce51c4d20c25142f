import Thredis.Store.ForeignReadSafety

/-! What the filter's cells know of the references they were given: a cell counts them exactly
until it saturates, and answers for each of them.
-/

namespace Thredis.Store
open Function (update update_of_ne update_self)

open ForeignReadSafety

abbrev Label := Option (BitVec 32)

def CellRef.label (ref : CellRef) : Label :=
  if ref.forceWildcard then none else some ref.fingerprint

/-- A cell counts open references: exactly, with a fingerprint that is theirs unless it is a
wildcard, or without knowing how many once it is saturated.
-/
inductive Counts : BitVec 64 → Multiset Label → Prop where
  | empty : Counts 0 0
  | exact {count : BitVec 64} {fingerprint : BitVec 32} {wildcard : Bool} {refs : Multiset Label}
      (counted : count.toNat = refs.card) (open_ : refs ≠ 0)
      (below : refs.card < kCountMask.toNat)
      (labels : wildcard = true ∨ ∀ label ∈ refs, label = some fingerprint)
      : Counts (pack count fingerprint wildcard) refs
  | saturated (fingerprint : BitVec 32) (refs : Multiset Label)
      : Counts (pack kCountMask fingerprint true) refs

theorem kCountMask_toNat : kCountMask.toNat = 2 ^ 31 - 1 := by decide

theorem pack_kCountMask_ne_zero (fingerprint : BitVec 32) (wildcard : Bool)
    : pack kCountMask fingerprint wildcard ≠ 0 :=
  pack_ne_zero (by decide) (by decide) fingerprint wildcard

theorem cellCount_saturated (fingerprint : BitVec 32) (wildcard : Bool)
    : cellCount (pack kCountMask fingerprint wildcard) = kCountMask :=
  cellCount_pack (by decide) fingerprint wildcard

/-- A cell answers for every reference it counts. -/
theorem Counts.answers {cell : BitVec 64} {refs : Multiset Label} (counts : Counts cell refs)
    {hash : BitVec 64} (held : none ∈ refs ∨ some (fingerprint hash) ∈ refs)
    : cell ≠ 0 ∧ (cellWildcard cell || cellFingerprint cell == fingerprint hash) = true := by
  cases counts with
  | empty => simp at held
  | @exact count mark wildcard _ counted open_ below labels =>
    have fits : count.toNat < 2 ^ 31 := by
      rw [kCountMask_toNat] at below
      omega
    have some_ : count ≠ 0 := by
      rintro rfl
      exact open_ (Multiset.card_eq_zero.mp counted.symm)
    refine ⟨pack_ne_zero fits some_ mark wildcard, ?_⟩
    rw [cellWildcard_pack fits, cellFingerprint_pack fits]
    rcases labels with wild | same
    · simp [wild]
    · rcases held with none | one
      · exact absurd (same _ none) nofun
      · simp [Option.some.inj (same _ one)]
  | saturated mark =>
    refine ⟨pack_kCountMask_ne_zero mark true, ?_⟩
    rw [cellWildcard_pack (by decide)]
    rfl

namespace ForeignReadSafety

variable {filter : ForeignReadSafety} {refs : CellIndex → Multiset Label}

-- All cells

def saturatedSet (cells : CellIndex → BitVec 64) : Finset CellIndex :=
  Finset.univ.filter (fun index => cellCount (cells index) = kCountMask)

/-- The cells count the references `refs`, and the filter knows how many are saturated. -/
structure Tracks (filter : ForeignReadSafety) (refs : CellIndex → Multiset Label) : Prop where
  counts : ∀ index, Counts (filter.cells index) (refs index)
  saturated : filter.saturatedCells = (saturatedSet filter.cells).card

theorem saturatedSet_update (cells : CellIndex → BitVec 64) (index : CellIndex) (cell : BitVec 64)
    : saturatedSet (update cells index cell)
      = if cellCount cell = kCountMask then insert index (saturatedSet cells)
        else (saturatedSet cells).erase index := by
  ext other
  by_cases same : other = index
  · split <;> simp_all [saturatedSet]
  · split <;> simp [saturatedSet, same]

variable {index : CellIndex}

section

variable (tracks : filter.Tracks refs)

include tracks

/-- A stored cell counts its references, the others count as before. -/
theorem Tracks.stored {cell : BitVec 64} {now : Multiset Label} (counts : Counts cell now)
    (other : CellIndex)
    : Counts ((filter.storeCell index cell).cells other) (update refs index now other) := by
  by_cases same : other = index
  · subst same
    simpa [ForeignReadSafety.storeCell] using counts
  · simpa [ForeignReadSafety.storeCell, update_of_ne same] using tracks.counts other

/-- Storing a cell that is not saturated over one that is not. -/
theorem Tracks.storeCell {cell : BitVec 64} {now : Multiset Label} (counts : Counts cell now)
    (before : cellCount (filter.cells index) ≠ kCountMask) (after : cellCount cell ≠ kCountMask)
    : (filter.storeCell index cell).Tracks (update refs index now) := by
  have absent : index ∉ saturatedSet filter.cells := by simpa [saturatedSet] using before
  refine ⟨tracks.stored counts, ?_⟩
  simp only [ForeignReadSafety.storeCell]
  rw [saturatedSet_update, if_neg after, Finset.erase_eq_of_notMem absent]
  exact tracks.saturated

/-- A cell that becomes saturated. -/
theorem Tracks.saturate (mark : BitVec 32) (now : Multiset Label)
    (before : cellCount (filter.cells index) ≠ kCountMask)
    : Tracks { filter.storeCell index (pack kCountMask mark true) with
        saturatedCells := filter.saturatedCells + 1 } (update refs index now) := by
  have absent : index ∉ saturatedSet filter.cells := by simpa [saturatedSet] using before
  refine ⟨tracks.stored (.saturated mark now), ?_⟩
  simp only [ForeignReadSafety.storeCell]
  rw [saturatedSet_update, if_pos (cellCount_saturated mark true),
    Finset.card_insert_of_notMem absent, tracks.saturated]

/-- A saturated cell stands for any references. -/
theorem Tracks.absorb {mark : BitVec 32} (full : filter.cells index = pack kCountMask mark true)
    (now : Multiset Label)
    : filter.Tracks (update refs index now) := by
  refine ⟨fun other => ?_, tracks.saturated⟩
  by_cases same : other = index
  · subst same
    rw [full, update_self]
    exact .saturated mark now
  · rw [update_of_ne same]
    exact tracks.counts other

theorem Tracks.touchEpoch (index : CellIndex)
    : (filter.touchEpoch index).Tracks refs := ⟨tracks.counts, tracks.saturated⟩

/-- Counting one more reference. -/
theorem Tracks.storeAddCell (ref : CellRef)
    : (filter.storeAddCell ref).Tracks (update refs ref.index (ref.label ::ₘ refs ref.index)) := by
  have counts := tracks.counts ref.index
  rw [ForeignReadSafety.storeAddCell]
  dsimp only
  generalize cell : filter.cells ref.index = old at counts
  generalize now : refs ref.index = held at counts
  have labelled : ∀ {wildcard : Bool}, (ref.forceWildcard = true → wildcard = true)
      → wildcard = true ∨ ref.label = some ref.fingerprint := by
    intro wildcard forced
    cases force : ref.forceWildcard with
    | true => exact .inl (forced force)
    | false => exact .inr (by simp [CellRef.label, force])
  cases counts with
  | empty =>
    refine tracks.storeCell ?_ ?_ ?_
    · refine .exact rfl (Multiset.cons_ne_zero) (by simp [kCountMask_toNat]) ?_
      simpa using labelled id
    · rw [cell]
      decide
    · rw [cellCount_pack (by decide)]
      decide
  | saturated mark =>
    rw [if_neg (pack_kCountMask_ne_zero mark true), if_pos (cellCount_saturated mark true)]
    exact tracks.absorb cell _
  | @exact count mark wildcard _ counted open_ below labels =>
    have mask := kCountMask_toNat
    have fits : count.toNat < 2 ^ 31 := by omega
    have positive : count ≠ 0 := by
      rintro rfl
      exact open_ (Multiset.card_eq_zero.mp counted.symm)
    have unsaturated : count ≠ kCountMask := by
      rintro rfl
      omega
    have next : (count + 1).toNat = count.toNat + 1 := by
      rw [BitVec.toNat_add_of_lt] <;> simp
      omega
    have before : cellCount (filter.cells ref.index) ≠ kCountMask := by
      rw [cell, cellCount_pack fits]
      exact unsaturated
    rw [if_neg (pack_ne_zero fits positive mark wildcard), cellCount_pack fits,
      if_neg unsaturated, cellFingerprint_pack fits, cellWildcard_pack fits]
    split
    · exact tracks.saturate mark _ before
    · rename_i small
      have still : (count + 1).toNat ≠ kCountMask.toNat :=
        fun same => small (BitVec.eq_of_toNat_eq same)
      have fits' : (count + 1).toNat < 2 ^ 31 := by omega
      refine tracks.storeCell (.exact ?_ Multiset.cons_ne_zero ?_ ?_) before ?_
      · rw [next, counted, Multiset.card_cons]
      · rw [Multiset.card_cons]
        omega
      · by_cases wild : (ref.forceWildcard || wildcard || mark != ref.fingerprint) = true
        · exact .inl wild
        · simp only [Bool.or_eq_true, not_or, bne_iff_ne, not_not] at wild
          obtain ⟨⟨unforced, tame⟩, same⟩ := wild
          refine .inr (fun label member => ?_)
          rcases Multiset.mem_cons.mp member with rfl | older
          · simp [CellRef.label, unforced, same]
          · exact labels.elim (fun w => absurd w tame) (fun all => all label older)
      · rw [cellCount_pack fits']
        exact small

/-- Counting one reference less. -/
theorem Tracks.storeCloseCell {label : Label} {rest : Multiset Label}
    (held : refs index = label ::ₘ rest)
    : ∃ after, filter.storeCloseCell index = some after
      ∧ after.Tracks (update refs index rest) := by
  have counts := tracks.counts index
  simp only [ForeignReadSafety.storeCloseCell]
  rw [held] at counts
  generalize cell : filter.cells index = old at counts
  generalize now : label ::ₘ rest = all at counts
  cases counts with
  | empty => exact absurd now (Multiset.cons_ne_zero)
  | saturated mark =>
    rw [cellCount_saturated]
    exact ⟨filter, rfl, tracks.absorb cell _⟩
  | @exact count mark wildcard _ counted open_ below labels =>
    subst now
    have mask := kCountMask_toNat
    rw [Multiset.card_cons] at counted below
    have fits : count.toNat < 2 ^ 31 := by omega
    have positive : count ≠ 0 := by
      rintro rfl
      simp at counted
    have unsaturated : count ≠ kCountMask := by
      rintro rfl
      omega
    have before : cellCount (filter.cells index) ≠ kCountMask := by
      rw [cell, cellCount_pack fits]
      exact unsaturated
    rw [cellCount_pack fits, if_neg positive, if_neg unsaturated, cellFingerprint_pack fits,
      cellWildcard_pack fits]
    split
    · rename_i last
      refine ⟨_, rfl, tracks.storeCell ?_ before ?_⟩
      · have none_ : rest = 0 := by
          rw [last] at counted
          exact Multiset.card_eq_zero.mp (by simpa using counted)
        rw [none_]
        exact .empty
      · decide
    · rename_i more
      have one : count.toNat ≠ 1 := fun same => more (BitVec.eq_of_toNat_eq same)
      have previous : (count - 1).toNat = count.toNat - 1 := by
        rw [BitVec.toNat_sub_of_le] <;> simp [BitVec.le_def]
        omega
      refine ⟨_, rfl, tracks.storeCell (.exact ?_ ?_ (by omega) ?_) before ?_⟩
      · omega
      · rintro rfl
        simp at counted
        omega
      · exact labels.imp_right
          (fun all label' member => all label' (Multiset.mem_cons_of_mem member))
      · rw [cellCount_pack (by omega)]
        rintro same
        have := congrArg BitVec.toNat same
        omega

end

def gather (list : List CellRef) (index : CellIndex) : Multiset Label :=
  ((list.filter (fun ref => ref.index = index)).map CellRef.label : List Label)

theorem gather_cons (ref : CellRef) (list : List CellRef) (index : CellIndex)
    : gather (ref :: list) index
      = if ref.index = index then ref.label ::ₘ gather list index else gather list index := by
  by_cases same : ref.index = index <;> simp [gather, same]

theorem Tracks.addCells (tracks : filter.Tracks refs) (list : List CellRef)
    : (filter.addCells list).Tracks (fun index => gather list index + refs index) := by
  induction list generalizing filter refs with
  | nil => simpa [addCells, gather] using tracks
  | cons ref list ih =>
    have next := ih ((tracks.storeAddCell ref).touchEpoch ref.index)
    have same : (fun index => gather list index
        + update refs ref.index (ref.label ::ₘ refs ref.index) index)
        = (fun index => gather (ref :: list) index + refs index) := by
      funext index
      rw [gather_cons]
      by_cases here : ref.index = index
      · subst here
        simp
      · rw [if_neg here, update_of_ne (Ne.symm here)]
    rw [same] at next
    exact next

variable {list : List CellRef}

theorem Tracks.closeCells (tracks : filter.Tracks (fun index => gather list index + refs index))
    : ∃ after, filter.closeCells list = some after ∧ after.Tracks refs := by
  induction list generalizing filter with
  | nil => exact ⟨filter, rfl, by simpa [gather] using tracks⟩
  | cons ref list ih =>
    have here : gather (ref :: list) ref.index + refs ref.index
        = ref.label ::ₘ (gather list ref.index + refs ref.index) := by
      rw [gather_cons, if_pos rfl, Multiset.cons_add]
    obtain ⟨middle, closed, next⟩ := tracks.storeCloseCell here
    have same : update (fun index => gather (ref :: list) index + refs index) ref.index
        (gather list ref.index + refs ref.index)
        = (fun index => gather list index + refs index) := by
      funext index
      by_cases there : ref.index = index
      · subst there
        rw [update_self]
      · rw [update_of_ne (Ne.symm there), gather_cons, if_neg there]
    rw [same] at next
    obtain ⟨after, rest, ends⟩ := ih (next.touchEpoch ref.index)
    exact ⟨after, by rw [closeCells, closeCell, closed]; exact rest, ends⟩

/-- The poison walk visits every cell once. -/
theorem gather_poisonWalk (index : CellIndex) : gather poisonWalk index = {none} := by
  have once : (List.finRange kCellCount).filter (fun other => other = index) = [index] := by
    have equal := List.filter_beq (l := List.finRange kCellCount) index
    simpa [beq_eq_decide] using equal
  simp [gather, poisonWalk, List.filter_map, Function.comp_def, once, CellRef.label]

theorem storeAddCell_refs (filter : ForeignReadSafety) (ref : CellRef)
    : (filter.storeAddCell ref).unsafeTotalRefs = filter.unsafeTotalRefs
      ∧ (filter.storeAddCell ref).poisonRefs = filter.poisonRefs := by
  simp only [storeAddCell]
  repeat' split
  all_goals exact ⟨rfl, rfl⟩

theorem addCells_refs (filter : ForeignReadSafety) (list : List CellRef)
    : (filter.addCells list).unsafeTotalRefs = filter.unsafeTotalRefs
      ∧ (filter.addCells list).poisonRefs = filter.poisonRefs := by
  induction list generalizing filter with
  | nil => exact ⟨rfl, rfl⟩
  | cons ref list ih =>
    obtain ⟨total, poison⟩ := storeAddCell_refs filter ref
    exact ⟨(ih _).1.trans total, (ih _).2.trans poison⟩

theorem closeCell_refs {after : ForeignReadSafety} (closed : filter.closeCell index = some after)
    : after.unsafeTotalRefs = filter.unsafeTotalRefs ∧ after.poisonRefs = filter.poisonRefs
      ∧ after.saturatedCells = filter.saturatedCells := by
  obtain ⟨stored, found, rfl⟩ := Option.map_eq_some_iff.mp closed
  obtain ⟨_, found⟩ := Option.ite_none_left_eq_some.mp found
  split at found
  · cases found; exact ⟨rfl, rfl, rfl⟩
  · split at found
    · cases found; exact ⟨rfl, rfl, rfl⟩
    · cases found; exact ⟨rfl, rfl, rfl⟩

theorem closeCells_refs {after : ForeignReadSafety} (closed : filter.closeCells list = some after)
    : after.unsafeTotalRefs = filter.unsafeTotalRefs ∧ after.poisonRefs = filter.poisonRefs
      ∧ after.saturatedCells = filter.saturatedCells := by
  induction list generalizing filter with
  | nil => cases closed; exact ⟨rfl, rfl, rfl⟩
  | cons ref list ih =>
    rw [closeCells] at closed
    cases first : filter.closeCell ref.index with
    | none => rw [first] at closed; cases closed
    | some middle =>
      rw [first] at closed
      rw [← closeCell_refs first |>.1, ← closeCell_refs first |>.2.1, ← closeCell_refs first |>.2.2]
      exact ih closed

theorem gather_append (front back : List CellRef) (index : CellIndex)
    : gather (front ++ back) index = gather front index + gather back index := by
  simp [gather]

theorem gather_perm {other : List CellRef} (perm : list.Perm other) (index : CellIndex)
    : gather list index = gather other index :=
  Multiset.coe_eq_coe.mpr ((perm.filter _).map _)

theorem mem_gather {ref : CellRef} (member : ref ∈ list)
    : ref.label ∈ gather list ref.index :=
  Multiset.mem_coe.mpr (List.mem_map.mpr ⟨ref, List.mem_filter.mpr ⟨member, by simp⟩, rfl⟩)

end ForeignReadSafety

end Thredis.Store
