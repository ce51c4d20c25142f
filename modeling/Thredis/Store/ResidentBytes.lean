import Thredis.Store.FlatRehash

/-! The bytes of the objects in the tables: every table update moves the sum by what left and
what came.
-/

namespace Thredis.Store
open List

/-- No slot repeats the object of another. -/
theorem Table.WellFormed.objects_nodup {hashKey : Slice → BitVec 64} {table : Table}
    (wf : table.WellFormed hashKey) : table.objects.Nodup := by
  rw [Table.objects, List.Nodup, pairwise_filterMap, pairwise_iff_getElem]
  intro i j inside inside' before object held object' held'
  cases first : table.slots[i] with
  | empty | dead => simp [first] at held
  | live word =>
    cases second : table.slots[j] with
    | empty | dead => simp [second] at held'
    | live word' =>
      simp only [first, Option.some.injEq] at held
      simp only [second, Option.some.injEq] at held'
      rintro rfl
      have alike : Table.wordKey word = Table.wordKey word' := by
        rw [Table.wordKey, Table.wordKey, held, held']
      have same := wf.placed.unique (List.getElem?_eq_some_iff.mpr ⟨inside, first⟩)
        (List.getElem?_eq_some_iff.mpr ⟨inside', second⟩) alike
      omega

namespace Tables

variable {hashKey : Slice → BitVec 64} {tables after : Tables}

theorem WellFormed.objects_nodup (wf : tables.WellFormed hashKey) : tables.objects.Nodup := by
  rw [Tables.objects, nodup_append]
  cases there : tables.old with
  | none =>
    exact ⟨wf.cur.objects_nodup, nodup_nil, fun _ _ _ held => absurd held not_mem_nil⟩
  | some old =>
    refine ⟨wf.cur.objects_nodup, (wf.old old there).objects_nodup, ?_⟩
    rintro object inCur object' inOld rfl
    exact wf.apart old there object inCur object inOld rfl

def residentBytes (tables : Tables) : Nat := (tables.objects.map kvobjSize).sum

variable {object : KvObj}

theorem kvobjSize_le_residentBytes (held : object ∈ tables.objects)
    : kvobjSize object ≤ tables.residentBytes :=
  single_le_sum (fun _ _ => Nat.zero_le _) _ (mem_map_of_mem held)

variable (wf : tables.WellFormed hashKey)

include wf

theorem WellFormed.residentBytes_eq_sum
    : tables.residentBytes = ∑ object ∈ tables.objects.toFinset, kvobjSize object :=
  (sum_toFinset kvobjSize wf.objects_nodup).symm

/-- Taking one object out takes its bytes out. -/
theorem WellFormed.residentBytes_without (wf' : after.WellFormed hashKey)
    (held : object ∈ tables.objects)
    (left : ∀ other, other ∈ after.objects ↔ other ∈ tables.objects ∧ other.key ≠ object.key)
    : after.residentBytes + kvobjSize object = tables.residentBytes := by
  rw [wf.residentBytes_eq_sum, wf'.residentBytes_eq_sum]
  have shape : after.objects.toFinset = tables.objects.toFinset.erase object := by
    ext other
    rw [mem_toFinset, Finset.mem_erase, mem_toFinset, left]
    constructor
    · rintro ⟨kept, apart⟩
      exact ⟨fun same => apart (by rw [same]), kept⟩
    · rintro ⟨apart, kept⟩
      exact ⟨kept, fun same => apart (wf.object_unique kept held same)⟩
  rw [shape, Finset.sum_erase_add _ _ (mem_toFinset.mpr held)]

/-- Putting one object in adds its bytes. -/
theorem WellFormed.residentBytes_with (wf' : after.WellFormed hashKey)
    (fresh : ∀ other ∈ tables.objects, other.key ≠ object.key)
    (holds : ∀ other, other ∈ after.objects ↔ other = object ∨ other ∈ tables.objects)
    : after.residentBytes = tables.residentBytes + kvobjSize object := by
  rw [wf.residentBytes_eq_sum, wf'.residentBytes_eq_sum]
  have shape : after.objects.toFinset = insert object tables.objects.toFinset := by
    ext other
    rw [mem_toFinset, Finset.mem_insert, mem_toFinset, holds]
  have absent : object ∉ tables.objects.toFinset := by
    rw [mem_toFinset]
    exact fun held => fresh object held rfl
  rw [shape, Finset.sum_insert absent, Nat.add_comm]

theorem Erased.residentBytes {key : Slice} (erased : Erased hashKey tables key object after)
    : after.residentBytes + kvobjSize object = tables.residentBytes :=
  wf.residentBytes_without erased.wellFormed erased.held (by rw [erased.named]; exact erased.left)

/-- Replacing the object of a key, if there is one, exchanges the bytes. -/
theorem WellFormed.residentBytes_replace (wf' : after.WellFormed hashKey) {displaced : Option KvObj}
    (holds : ∀ other, other ∈ after.objects
      ↔ other = object ∨ other ∈ tables.objects ∧ other.key ≠ object.key)
    (took : ∀ current, displaced = some current
      ↔ current ∈ tables.objects ∧ current.key = object.key)
    : after.residentBytes + (displaced.map kvobjSize).getD 0
      = tables.residentBytes + kvobjSize object := by
  cases shape : displaced with
  | none =>
    have fresh : ∀ other ∈ tables.objects, other.key ≠ object.key := by
      intro other held same
      have hit := (took other).mpr ⟨held, same⟩
      rw [shape] at hit
      cases hit
    refine wf.residentBytes_with wf' fresh (fun other => ?_)
    rw [holds]
    constructor
    · rintro (same | ⟨kept, -⟩)
      · exact .inl same
      · exact .inr kept
    · rintro (same | kept)
      · exact .inl same
      · exact .inr ⟨kept, fresh other kept⟩
  | some current =>
    obtain ⟨held, named⟩ := (took current).mp shape
    rw [wf.residentBytes_eq_sum, wf'.residentBytes_eq_sum]
    have parts : after.objects.toFinset
        = insert object (tables.objects.toFinset.erase current) := by
      ext other
      rw [mem_toFinset, Finset.mem_insert, Finset.mem_erase, mem_toFinset, holds]
      constructor
      · rintro (same | ⟨kept, apart⟩)
        · exact .inl same
        · exact .inr ⟨fun same => apart (by rw [same, named]), kept⟩
      · rintro (same | ⟨apart, kept⟩)
        · exact .inl same
        · exact .inr ⟨kept, fun same =>
            apart (wf.object_unique kept held (same.trans named.symm))⟩
    have absent : object ∉ tables.objects.toFinset.erase current := by
      rw [Finset.mem_erase, mem_toFinset]
      rintro ⟨apart, kept⟩
      exact apart (wf.object_unique kept held named.symm)
    have member := mem_toFinset.mpr held
    rw [parts, Finset.sum_insert absent, ← Finset.sum_erase_add _ _ member, Option.map_some,
      Option.getD_some]
    omega

theorem Inserted.residentBytes {displaced : Option KvObj}
    (inserted : Inserted hashKey tables object displaced after)
    : after.residentBytes + (displaced.map kvobjSize).getD 0
      = tables.residentBytes + kvobjSize object :=
  wf.residentBytes_replace inserted.wellFormed inserted.holds inserted.took

theorem Modified.residentBytes {old new : KvObj} (held : old ∈ tables.objects)
    (named : new.key = old.key) (modified : Modified hashKey tables old new after)
    : after.residentBytes + kvobjSize old = tables.residentBytes + kvobjSize new := by
  have took : ∀ current, some old = some current
      ↔ current ∈ tables.objects ∧ current.key = new.key := by
    intro current
    rw [named]
    constructor
    · rintro ⟨⟩
      exact ⟨held, rfl⟩
    · rintro ⟨kept, same⟩
      rw [wf.object_unique kept held same]
  have sum := wf.residentBytes_replace modified.wellFormed (by rw [named]; exact modified.holds)
    took
  rwa [Option.map_some] at sum

end Tables

end Thredis.Store
