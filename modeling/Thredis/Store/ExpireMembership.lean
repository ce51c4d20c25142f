import Thredis.Store.ExpireMigration

/-! What the expire index holds: an insert that is not refused adds one hash, an erase takes
one away.
-/

namespace Thredis.Store
open Thredis.Lib ExpireTable

namespace ExpireIndex

variable {index : ExpireIndex} {hash : BitVec 64}

-- Insert and erase

/-- The hashes are the same, and a migration still running has paid for one insert. -/
theorem WellFormed.insertMigrate (wf : index.WellFormed)
    : index.insertMigrate.WellFormed
      ∧ (∀ hash, index.insertMigrate.Holds hash ↔ index.Holds hash)
      ∧ (index.insertMigrate.tab1.cap ≠ 0 → index.insertMigrate.Room 1) := by
  rw [ExpireIndex.insertMigrate]
  split
  · rename_i moving
    obtain ⟨wf', holds, room, -⟩ := wf.migrate (migrating_iff.mp moving)
    dsimp only
    split
    · rename_i crowded
      rw [Bool.and_eq_true, migrating_iff] at crowded
      obtain ⟨done, same⟩ := wf'.finishMigration crowded.1
      exact ⟨done, fun hash => (same hash).trans (holds hash), absurd rfl⟩
    · exact ⟨wf', holds, fun _ => room⟩
  · rename_i still
    exact ⟨wf, fun _ => .rfl, fun moving => absurd (migrating_iff.mpr moving) still⟩

theorem WellFormed.insertAllocate (wf : index.WellFormed) {allocations rest : Allocations}
    {ready : ExpireIndex} (granted : index.insertAllocate allocations = (some ready, rest))
    : ready.WellFormed ∧ (∀ hash, ready.Holds hash ↔ index.Holds hash)
      ∧ (ready.tab1.cap ≠ 0 → ready = index) ∧ ready.tab0.cap ≠ 0 := by
  rw [ExpireIndex.insertAllocate] at granted
  split at granted
  · rename_i unallocated
    split at granted
    · obtain ⟨rfl, -⟩ : { index with tab0 := allocated kMinCap } = ready ∧ _ :=
        ⟨Option.some.inj (Prod.mk.inj granted).1, trivial⟩
      have still : index.tab1.cap = 0 := by
        by_contra moving
        have ahead := wf.ahead moving
        omega
      have none0 := not_holds_of_cap unallocated
      have none1 := not_holds_of_cap still
      have fresh : (allocated kMinCap).WellFormed := .allocated ⟨4, rfl⟩ (Nat.le_refl _)
      refine ⟨⟨⟨fresh, wf.split.tab1, fun hash _ => none1 hash, fun place below => ?_⟩,
        ⟨fun _ _ => ?_, absurd still⟩, absurd still,
        wf.atRest⟩, fun hash => ?_, absurd still, ?_⟩
      · rw [show index.migratePos = 0 from wf.atRest still] at below
        cases below
      · show (allocated kMinCap).load + 0 < (allocated kMinCap).cap
        decide
      · constructor
        · rintro (held | held)
          · exact absurd held (not_holds_allocated _ hash)
          · exact .inr held
        · rintro (held | held)
          · exact absurd held (none0 hash)
          · exact .inr held
      · show (allocated kMinCap).cap ≠ 0
        decide
    · cases (Prod.mk.inj granted).1
  · rename_i allocated
    obtain rfl := Option.some.inj (Prod.mk.inj granted).1
    exact ⟨wf, fun _ => .rfl, fun _ => rfl, allocated⟩

/-- A table that is not crowded has a slot to spare. -/
theorem not_crowded_room {table : ExpireTable} (sparse : table.crowded = false)
    : table.load + 1 < table.cap := by
  rw [crowded, decide_eq_false_iff_not] at sparse
  rw [load]
  omega

variable (wf : index.WellFormed)

include wf

/-- A crowded table starts a migration into one that takes everything. -/
theorem WellFormed.insertGrow (allocated : index.tab0.cap ≠ 0)
    (paid : index.tab1.cap ≠ 0 → index.Room 1) {allocations rest : Allocations}
    {grown : ExpireIndex} (granted : index.insertGrow allocations = (some grown, rest))
    : grown.WellFormed ∧ (∀ hash, grown.Holds hash ↔ index.Holds hash) ∧ grown.Room 1
      ∧ grown.Allocated := by
  rw [ExpireIndex.insertGrow] at granted
  split at granted
  · rename_i due
    have still : index.tab1.cap = 0 := by
      rw [Bool.and_eq_true, Bool.not_eq_true', migrating, decide_eq_false_iff_not, not_not] at due
      exact due.1
    have none1 := not_holds_of_cap still
    have room := wf.room.still still allocated
    obtain ⟨pow, minimum⟩ := wf.split.tab0.pow.resolve_left allocated
    have sixteen : kMinCap = 16 := rfl
    dsimp only at granted
    split at granted
    · cases (Prod.mk.inj granted).1
    split at granted
    · obtain rfl := Option.some.inj (Prod.mk.inj granted).1
      generalize wide : (if decide (index.tab0.cap ≤ index.tab0.live * 2) = true
        then index.tab0.cap * 2 else index.tab0.cap) = wanted
      have facts : PowTwo wanted ∧ kMinCap ≤ wanted
          ∧ index.tab0.live + (index.tab0.cap - 0 + 7) / 8 < wanted := by
        have least : index.tab0.live ≤ index.tab0.load := Nat.le_add_right _ _
        split at wide
        · rw [← wide]
          exact ⟨pow.double, by omega, by omega⟩
        · rename_i sparse
          rw [decide_eq_true_iff] at sparse
          rw [← wide]
          exact ⟨pow, minimum, by omega⟩
      obtain ⟨powNew, least, fits⟩ := facts
      have split : ({ index with tab1 := ExpireTable.allocated wanted, migratePos := 0 }
          : ExpireIndex).Split :=
        ⟨wf.split.tab0, .allocated powNew least,
          fun hash _ => not_holds_allocated wanted hash, by simp⟩
      have cap : (ExpireTable.allocated wanted).cap = wanted := ExpireTable.cap_allocated wanted
      obtain ⟨wf', holds, room', present⟩ := split.migrate
        (by show (ExpireTable.allocated wanted).cap ≠ 0; omega)
        (by
          show (ExpireTable.allocated wanted).load + index.tab0.live
            + (index.tab0.cap - 0 + 7) / 8 < (ExpireTable.allocated wanted).cap
          have empty : (ExpireTable.allocated wanted).load = 0 := rfl
          omega)
        (Nat.pos_of_ne_zero allocated)
      refine ⟨wf', fun hash => (holds hash).trans ?_, room', present⟩
      constructor
      · rintro (held | held)
        · exact .inl held
        · exact absurd held (not_holds_allocated wanted hash)
      · rintro (held | held)
        · exact .inl held
        · exact absurd held (none1 hash)
    · cases (Prod.mk.inj granted).1
  · rename_i calm
    obtain rfl := Option.some.inj (Prod.mk.inj granted).1
    refine ⟨wf, fun _ => .rfl, ⟨fun still _ => ?_, fun moving => (paid moving).moving moving⟩,
      fun _ => allocated⟩
    refine not_crowded_room ?_
    rw [Bool.and_eq_true, not_and, Bool.not_eq_true', Bool.not_eq_true] at calm
    exact calm (by rw [migrating, decide_eq_false_iff_not, not_not]; exact still)

/-- The hash goes into the table that will stay, and out of the other. -/
theorem WellFormed.insertPlace (room : index.Room 1) (allocated : index.Allocated)
    (hash : BitVec 64)
    : (index.insertPlace hash).1 = true ∧ (index.insertPlace hash).2.WellFormed
      ∧ ∀ other, (index.insertPlace hash).2.Holds other ↔ other = hash ∨ index.Holds other := by
  rw [ExpireIndex.insertPlace]
  split
  · rename_i migrating
    have moving := migrating_iff.mp migrating
    have wide := room.moving moving
    have without := wf.split.tab0.without hash
    have live := without.live
    have cap0 := without.cap
    obtain ⟨after, placed⟩ := wf.split.tab1.insertRaw_room (by omega) hash
    have inserted := wf.split.tab1.insertRaw_some placed
    have load := inserted.load
    have cap := inserted.cap
    simp only [placed]
    refine ⟨trivial, ⟨⟨without.wellFormed, inserted.wellFormed, fun other kept there => ?_,
      fun place below other there => ?_⟩, ⟨fun none => ?_, fun _ => ?_⟩, fun _ => ?_,
      fun none => ?_⟩, fun other => ?_⟩
    · obtain ⟨before, apart⟩ := (without.left other).mp kept
      rcases (inserted.holds other).mp there with same | old
      · exact apart same
      · exact wf.split.apart other before old
    · exact wf.split.swept place below other (without.kept there)
    · exact absurd (cap.symm.trans none) moving
    · show after.load + ((index.tab0.eraseIn hash).getD index.tab0).live
        + (((index.tab0.eraseIn hash).getD index.tab0).cap - index.migratePos + 7) / 8 + 0
        < after.cap
      have left : index.windowsLeft = (index.tab0.cap - index.migratePos + 7) / 8 := rfl
      omega
    · rw [cap0]
      exact wf.ahead moving
    · exact absurd (cap.symm.trans none) moving
    · show ((index.tab0.eraseIn hash).getD index.tab0).Holds other ∨ after.Holds other ↔ _
      rw [without.left, inserted.holds]
      constructor
      · rintro (⟨kept, -⟩ | same | old)
        · exact .inr (.inl kept)
        · exact .inl same
        · exact .inr (.inr old)
      · rintro (same | kept | old)
        · exact .inr (.inl same)
        · by_cases same : other = hash
          · exact .inr (.inl same)
          · exact .inl ⟨kept, same⟩
        · exact .inr (.inr old)
  · rename_i resting
    have still : index.tab1.cap = 0 := by
      by_contra moving
      exact resting (migrating_iff.mpr moving)
    have none1 := not_holds_of_cap still
    have wide := room.still still (allocated still)
    obtain ⟨after, placed⟩ := wf.split.tab0.insertRaw_room (by omega) hash
    have inserted := wf.split.tab0.insertRaw_some placed
    have load := inserted.load
    have cap := inserted.cap
    simp only [placed]
    refine ⟨trivial, ⟨⟨inserted.wellFormed, wf.split.tab1, fun other _ => none1 other,
      fun place below => ?_⟩, ⟨fun _ _ => ?_, absurd still⟩,
      absurd still, wf.atRest⟩, fun other => ?_⟩
    · rw [show index.migratePos = 0 from wf.atRest still] at below
      cases below
    · show after.load + 0 < after.cap
      omega
    · show after.Holds other ∨ index.tab1.Holds other ↔ _
      rw [inserted.holds, or_assoc]
      rfl

/-- An insert that is not refused adds its hash; one that is refused changes nothing. -/
theorem WellFormed.insert (hash : BitVec 64) (allocations : Allocations)
    : (index.insert hash allocations).2.1.WellFormed
      ∧ ∀ other, (index.insert hash allocations).2.1.Holds other
        ↔ (index.insert hash allocations).1 = true ∧ other = hash ∨ index.Holds other := by
  obtain ⟨wf₁, holds₁, paid₁⟩ := wf.insertMigrate
  rw [ExpireIndex.insert]
  split
  · refine ⟨wf₁, fun other => (holds₁ other).trans ?_⟩
    simp
  · rename_i ready rest granted
    obtain ⟨wf₂, holds₂, same, allocated⟩ := wf₁.insertAllocate granted
    split
    · refine ⟨wf₂, fun other => ((holds₂ other).trans (holds₁ other)).trans ?_⟩
      simp
    · rename_i grown rest' started
      have paid₂ : ready.tab1.cap ≠ 0 → ready.Room 1 := by
        intro moving
        have alike := same moving
        rw [alike] at moving ⊢
        exact paid₁ moving
      obtain ⟨wf₃, holds₃, room, present⟩ := wf₂.insertGrow allocated paid₂ started
      obtain ⟨answer, wf₄, holds₄⟩ := wf₃.insertPlace room present hash
      refine ⟨wf₄, fun other => (holds₄ other).trans ?_⟩
      rw [answer, holds₃, holds₂, holds₁]
      simp

/-- What the index looks like once its last hash is gone. -/
theorem WellFormed.collapseEmpty (none : index.size = 0)
    : index.collapseEmpty.WellFormed ∧ ∀ hash, ¬ index.collapseEmpty.Holds hash := by
  rw [ExpireIndex.collapseEmpty]
  split
  · rename_i small
    rw [Bool.and_eq_true, Bool.not_eq_true', migrating, decide_eq_false_iff_not, not_not] at small
    obtain ⟨still, -⟩ := small
    have live : index.tab0.live = 0 := by
      rw [size] at none
      omega
    have cap : cap { index.tab0 with slots := List.replicate index.tab0.cap .empty, tombs := 0 }
        = index.tab0.cap := List.length_replicate
    have none1 := not_holds_of_cap still
    have table : ExpireTable.WellFormed
        { index.tab0 with slots := List.replicate index.tab0.cap .empty, tombs := 0 } :=
      ⟨by rw [cap]; exact wf.split.tab0.pow, Placed.fresh _ _ _,
        live.trans (liveCount_replicate _).symm, (deadCount_replicate _).symm⟩
    refine ⟨⟨⟨table, wf.split.tab1, fun hash _ => none1 hash, fun place below => ?_⟩,
      ⟨fun _ allocated => ?_, absurd still⟩,
      absurd still, wf.atRest⟩, ?_⟩
    · rw [show index.migratePos = 0 from wf.atRest still] at below
      cases below
    · show index.tab0.live + 0 + 0 < _
      omega
    · rintro hash (held | held)
      · exact live_not_mem_replicate hash held
      · exact none1 hash held
  · exact ⟨.init, not_holds_init⟩

/-- The tables without the hash, before an empty index is collapsed. -/
theorem WellFormed.erased0 {tab0 : ExpireTable} (erased : ExpireTable.Erased index.tab0 hash tab0)
    : ({ index with tab0 } : ExpireIndex).WellFormed
      ∧ ∀ other, ({ index with tab0 } : ExpireIndex).Holds other
        ↔ index.Holds other ∧ other ≠ hash := by
  have live := erased.live
  have load := erased.load
  have cap := erased.cap
  refine ⟨⟨⟨erased.wellFormed, wf.split.tab1, fun other held =>
    wf.split.apart other ((erased.left other).mp held).1, fun place below other there =>
      wf.split.swept place below other (erased.kept there)⟩,
    ⟨fun still allocated => ?_, fun moving => ?_⟩, fun moving => ?_, wf.atRest⟩, fun other => ?_⟩
  · show tab0.load + 0 < tab0.cap
    have room := wf.room.still still (by rw [← cap]; exact allocated)
    omega
  · show index.tab1.load + tab0.live + (tab0.cap - index.migratePos + 7) / 8 + 0 < index.tab1.cap
    have room := wf.room.moving moving
    have left : index.windowsLeft = (index.tab0.cap - index.migratePos + 7) / 8 := rfl
    omega
  · rw [cap]
    exact wf.ahead moving
  · show tab0.Holds other ∨ index.tab1.Holds other ↔ _
    rw [erased.left]
    constructor
    · rintro (⟨held, apart⟩ | held)
      · exact ⟨.inl held, apart⟩
      · refine ⟨.inr held, ?_⟩
        rintro rfl
        exact wf.split.apart other erased.held held
    · rintro ⟨held | held, apart⟩
      · exact .inl ⟨held, apart⟩
      · exact .inr held

theorem WellFormed.erased1 {tab1 : ExpireTable} (erased : ExpireTable.Erased index.tab1 hash tab1)
    : ({ index with tab1 } : ExpireIndex).WellFormed
      ∧ ∀ other, ({ index with tab1 } : ExpireIndex).Holds other
        ↔ index.Holds other ∧ other ≠ hash := by
  have load := erased.load
  have cap := erased.cap
  have moving : index.tab1.cap ≠ 0 := fun none =>
    not_holds_of_cap none hash erased.held
  refine ⟨⟨⟨wf.split.tab0, erased.wellFormed, fun other held there =>
    wf.split.apart other held ((erased.left other).mp there).1, wf.split.swept⟩,
    ⟨fun none => absurd (cap.symm.trans none) moving, fun _ => ?_⟩, fun _ => wf.ahead moving,
    fun none => absurd (cap.symm.trans none) moving⟩, fun other => ?_⟩
  · show tab1.load + index.tab0.live + index.windowsLeft + 0 < tab1.cap
    have room := wf.room.moving moving
    omega
  · show index.tab0.Holds other ∨ tab1.Holds other ↔ _
    rw [erased.left]
    constructor
    · rintro (held | ⟨held, apart⟩)
      · refine ⟨.inl held, ?_⟩
        rintro rfl
        exact wf.split.apart other held erased.held
      · exact ⟨.inr held, apart⟩
    · rintro ⟨held | held, apart⟩
      · exact .inl held
      · exact .inr ⟨held, apart⟩

/-- An erase takes its hash out. -/
theorem WellFormed.erase (hash : BitVec 64)
    : (index.erase hash).2.WellFormed
      ∧ ∀ other, (index.erase hash).2.Holds other ↔ index.Holds other ∧ other ≠ hash := by
  rw [ExpireIndex.erase]
  split
  · rename_i none
    have nothing := wf.size_eq_zero.mp none
    exact ⟨wf, fun other => ⟨fun held => absurd held (nothing other), And.left⟩⟩
  have settle : ∀ {next : ExpireIndex}, next.WellFormed
      → (∀ other, next.Holds other ↔ index.Holds other ∧ other ≠ hash)
      → (if next.size = 0 then next.collapseEmpty else next).WellFormed
        ∧ ∀ other, (if next.size = 0 then next.collapseEmpty else next).Holds other
          ↔ index.Holds other ∧ other ≠ hash := by
    intro next wf' holds
    split
    · rename_i none
      obtain ⟨collapsed, nothing⟩ := wf'.collapseEmpty none
      exact ⟨collapsed, fun other => ⟨fun held => absurd held (nothing other), fun held =>
        absurd ((holds other).mpr held) (wf'.size_eq_zero.mp none other)⟩⟩
    · exact ⟨wf', holds⟩
  cases first : index.tab1.eraseIn hash with
  | some tab1 =>
    obtain ⟨wf', holds⟩ := wf.erased1 (wf.split.tab1.eraseIn_some first)
    exact settle wf' holds
  | none =>
    have absent1 := wf.split.tab1.eraseIn_none first
    cases second : index.tab0.eraseIn hash with
    | some tab0 =>
      obtain ⟨wf', holds⟩ := wf.erased0 (wf.split.tab0.eraseIn_some second)
      exact settle wf' holds
    | none =>
      have absent0 := wf.split.tab0.eraseIn_none second
      refine ⟨wf, fun other => ⟨fun held => ⟨held, ?_⟩, And.left⟩⟩
      rintro rfl
      exact held.elim absent0 absent1

end ExpireIndex

end Thredis.Store
