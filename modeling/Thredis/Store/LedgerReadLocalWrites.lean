import Thredis.Store.LedgerReadLocal

/-! The ledgers of an armed store under its writes, its deadlines, the expiry cycle and the
flush.
-/

namespace Thredis.Store
open Thredis.Lib Option FlatStore

namespace ReadLocalStore

variable {env : StoreEnv} {store : ReadLocalStore}

open FlatStore (Trimmed Accounted)

/-- Tracking a deadline does not look at the account. -/
theorem trackExpire_charged (base : FlatStore) (h : BitVec 64) (object : KvObj) (ledger : Ledger)
    : { base.trackExpire h object with ledger }
      = { base with ledger }.trackExpire h object := by
  rw [trackExpire, trackExpire]
  split
  · rfl
  · split
    · rfl
    · rfl

variable {object : KvObj}

/-- A published object is charged and its deadline listed, once no old copy is left. -/
theorem accounted_insertInto {after : ReadLocalStore}
    (cleared : store.base.Sound env → ∀ old, store.base.tables.old = some old
      → ∀ b ∈ old.objects, b.key ≠ object.key)
    (inserted : store.insertInto (env.hashKey object.key) object true = some after)
    : Accounted env store.base after.base := by
  obtain ⟨⟨displaced, tables⟩, placed, rfl⟩ := map_eq_some_iff.mp inserted
  have facts : store.base.Sound env
      → Tables.Inserted env.hashKey store.base.tables object displaced tables :=
    fun sound => Tables.WellFormed.insertCur_some sound (cleared sound) placed
  generalize clock : (true && displaced.any (fun current =>
    current.deadlineElapsed store.base.cachedNowMs)) = expired
  cases displaced with
  | none =>
    have shape := trackExpire_charged ({ store.base with tables }.countExpired expired)
      (env.hashKey object.key) object
      (store.base.ledger.charge object)
    simp only [withBase, if_true, elim_none, trackExpire_ledger]
    exact Eq.mpr (congrArg _ shape) (.published facts rfl rfl rfl)
  | some current =>
    have shape := trackExpire_charged ({ store.base with tables }.countExpired expired)
      (env.hashKey object.key) object
      (Ledger.charge { store.base.ledger with
        objBytes := store.base.ledger.objBytes - kvobjSize current } object)
    simp only [withBase, if_true, elim_some, retireObj, trackExpire_ledger]
    exact Eq.mpr (congrArg _ shape) (.published facts rfl rfl rfl)

/-- Taking an old copy of the key out is an `eraseIn`, or nothing. -/
theorem tends_clearOld (store : ReadLocalStore) (key : Slice)
    : Tends env store (store.clearOld (env.hashKey key) key) := by
  rw [clearOld]
  split
  · rename_i old erased found
    exact (tends_eraseIn found).trans (tends_countExpired _ _)
  · exact .refl _

/-- Clearing the old table of a key leaves none of it there. -/
theorem clearOld_cleared (sound : store.base.Sound env) (key : Slice)
    : ∀ old, (store.clearOld (env.hashKey key) key).base.tables.old = some old
      → ∀ b ∈ old.objects, b.key ≠ key := by
  intro old there b held
  cases erased : store.eraseIn .old (env.hashKey key) key with
  | none =>
    simp only [clearOld, erased] at there
    exact (Tables.WellFormed.eraseIn_none sound).mp (map_eq_none_iff.mp erased) old there
      b held
  | some result =>
    obtain ⟨⟨removed, tables⟩, located, rfl⟩ := map_eq_some_iff.mp erased
    simp only [clearOld, erased] at there
    have facts := Tables.WellFormed.eraseIn_some sound located
    have member := Tables.mem_objects.mpr (.inr ⟨old, there, held⟩)
    exact ((facts.left b).mp member).2

section

variable (store)

/-- Publication: the old copy leaves, then the object goes in. -/
theorem accounted_publish (object : KvObj)
    : Accounted env store.base (store.publish (env.hashKey object.key) object).2.base := by
  have cleared : Trimmed env store.base (store.clearOld (env.hashKey object.key) object.key).base :=
    (tends_clearOld store object.key).trimmed
  intro exact
  rw [publish]
  split
  · rename_i published inserted
    exact cleared.before_accounted
      (accounted_insertInto (fun _ => clearOld_cleared exact.sound object.key) inserted) exact
  · exact cleared.accounted exact

/-- The resize work of an insert steps a migration or starts one. -/
theorem tends_insertResize
    : Tends env store (store.insertResize env).2 := by
  rw [insertResize]
  split
  · rename_i moving
    split
    · exact .refl _
    · exact tends_rehashStep moving
  · rename_i still
    exact tends_maybeStartGrow (not_rehashing still)

/-- An insert tends the store up to its publication, which is accounted. -/
theorem accounted_insert (object : KvObj)
    : Accounted env store.base (store.insert env (env.hashKey object.key) object).2.base := by
  have resized : Tends env store (store.insertResize env).2 := tends_insertResize store
  simp only [insert]
  split
  · rename_i next refused
    rw [refused] at resized
    exact resized.trimmed.accounted
  · rename_i next ready
    rw [ready] at resized
    split
    · exact resized.trimmed.accounted
    · split
      · exact resized.trimmed.accounted
      · have admitted : Tends env next (next.admitObject env object).2
            ∧ ∀ admitted, (next.admitObject env object).1 = some admitted
              → admitted.key = object.key := tends_admitObject next object
        split
        · rename_i last refused
          rw [refused] at admitted
          exact (resized.trans admitted.1).trimmed.accounted
        · rename_i given last granted
          rw [granted] at admitted
          rw [← admitted.2 given rfl]
          exact (resized.trans admitted.1).trimmed.before_accounted (accounted_publish last given)

/-- The fresh header is the insert of an object of the same key. -/
theorem accounted_rewriteExpire (old : KvObj) (addr : Nat) (expireAtMs : Int)
    : Accounted env store.base
        (store.rewriteExpire env (env.hashKey old.key) old addr expireAtMs).2.base := by
  rw [rewriteExpire]
  split
  · exact Trimmed.accounted (.of_same rfl rfl rfl rfl)
  · rename_i rest granted
    have drawn : Trimmed env store.base { store.base with allocations := rest } :=
      .of_same rfl rfl rfl rfl
    dsimp only
    generalize shape : (if store.base.maxmemory.enabled
      then (kvobjReheader old addr expireAtMs).setEvictionMeta old.evictionMeta
      else kvobjReheader old addr expireAtMs) = replacement
    have named : replacement.key = old.key := by
      rw [← shape]
      split
      · rfl
      · rfl
    rw [← named]
    exact drawn.before_accounted
      (accounted_insert (store.withBase { store.base with allocations := rest }) replacement)

end

variable {key : Slice}

theorem findIn_key {tables : Tables} {side : Side} {h : BitVec 64}
    (found : tables.findIn side h key = some object) : object.key = key := by
  obtain ⟨table, -, located⟩ := bind_eq_some_iff.mp found
  obtain ⟨⟨index, held⟩, slot, rfl⟩ := map_eq_some_iff.mp located
  rw [Table.findSlotIn] at slot
  split at slot
  · rename_i place word hit
    cases slot
    have accepted := (probe_hit _ _ _ hit).2
    simp only [Table.isKey, Bool.and_eq_true, beq_iff_eq] at accepted
    exact accepted.2
  · cases slot

theorem lookupIn_key {side : Side} {h : BitVec 64}
    (found : (store.lookupIn side h key).1 = some object) : object.key = key := by
  rw [lookupIn] at found
  split at found
  · rename_i held located
    rw [liveOrExpire] at found
    split at found
    · cases found
      exact findIn_key located
    · split at found
      · cases found
      · split at found
        · cases found
        · cases found
  · cases found

section

variable (settled : store.base.ResolvesResident env key)

include settled

theorem findValue_key (found : (store.findValue env (env.hashKey key) key).1 = some object)
    : object.key = key := by
  rw [findValue] at found
  split at found
  · rw [lookup] at found
    split at found
    · rename_i held next located
      cases found
      have answer : (store.lookupIn .cur (env.hashKey key) key).1 = some object := by rw [located]
      exact lookupIn_key answer
    · exact lookupIn_key found
  · rename_i pending
    rcases settled with none | none | resident
    · rw [none] at pending
      exact absurd rfl pending
    · rw [none] at found
      cases found
    · rw [resident] at found
      rcases or_eq_some_iff.mp found with inCur | ⟨-, inOld⟩
      · exact findIn_key inCur
      · exact findIn_key inOld

/-- An answer of `find` is an object of the key, touched or not. -/
theorem find_key {next : ReadLocalStore}
    (hit : store.find env (env.hashKey key) key = (some object, next)) : object.key = key := by
  rw [find] at hit
  split at hit
  · cases hit
  · rename_i version after found
    have named : version.key = key := by
      have answer : (store.findValue env (env.hashKey key) key).1 = some version := by rw [found]
      exact findValue_key settled answer
    split at hit
    · cases hit
      simp only [touch]
      split
      · exact named
      · split
        · exact named
        · exact named
    · cases hit
      exact named

/-- Armed, a deadline is set by a fresh header for what `find` gave. -/
theorem accounted_setExpire (addr : Nat) (expireAtMs : Int)
    : Accounted env store.base
        (store.setExpire env (env.hashKey key) key addr expireAtMs).2.base := by
  have found : Trimmed env store.base (store.find env (env.hashKey key) key).2.base :=
    (tends_find store key).trimmed
  rw [setExpire]
  split
  · rename_i next missed
    rw [missed] at found
    exact found.accounted
  · rename_i old next hit
    have named := find_key settled hit
    rw [hit] at found
    rw [← named]
    exact found.before_accounted (accounted_rewriteExpire next old addr expireAtMs)

/-- A deadline is taken off by a fresh header too. -/
theorem accounted_persist (addr : Nat)
    : Accounted env store.base (store.persist env (env.hashKey key) key addr).2.base := by
  have found : Trimmed env store.base (store.find env (env.hashKey key) key).2.base :=
    (tends_find store key).trimmed
  rw [persist]
  split
  · rename_i next missed
    rw [missed] at found
    exact found.accounted
  · rename_i old next hit
    have named := find_key settled hit
    rw [hit] at found
    split
    · exact found.accounted
    · rw [← named]
      exact found.before_accounted (accounted_rewriteExpire next old addr kNoTtlDeadline)

end

variable (store : ReadLocalStore)

/-- A sampled hash is stale, not due, refused by the sink, or erased with its key. -/
theorem tends_expireVisit (h : BitVec 64)
    : Tends env store (store.expireVisit env h).2 := by
  fun_cases store.expireVisit env h with
  | case1 missed => exact .withBase (.untrackExpire (fun sound => sound.findHash_none missed)) rfl
  | case2 object found bare => exact absurd (findHash_slotted found).1 (by simpa using bare)
  | case4 object found _ _ negative => exact absurd negative (findHash_slotted found).2
  | case3 | case5 => exact .refl _
  | case6 object found _ _ _ _ next refused => exact tends_readRetirementAvailable refused
  | case7 object found _ _ _ _ next granted =>
    exact (tends_readRetirementAvailable granted).trans (tends_recordDelete next object.key)
  | case8 object found _ _ _ _ next granted _ _ gone erased removed =>
    obtain ⟨-, rfl, -⟩ := findHash_some found
    have logged : Tends env store (next.withBase (next.base.recordDelete object.key)) :=
      (tends_readRetirementAvailable granted).trans (tends_recordDelete next object.key)
    have noted : Tends env erased
        (erased.withBase (erased.base.noteActiveExpireReap object.deadline)) := by
      refine .withBase (.noteActiveExpireReap erased.base _) ?_
      rw [noteActiveExpireReap]
      split
      · rfl
      · rfl
    have tail := noted.trans (tends_countExpired _ true)
    rcases or_eq_some_iff.mp removed with inCur | ⟨-, inOld⟩
    · exact logged.trans ((tends_eraseIn inCur).trans tail)
    · exact logged.trans ((tends_eraseIn inOld).trans tail)

/-- By induction over the budget, the index sampled anew in each turn. -/
theorem tends_expireLoop (budget removed : Nat) (store : ReadLocalStore)
    : Tends env store (store.expireLoop env budget removed).2 := by
  induction budget generalizing store removed with
  | zero => exact .refl _
  | succ budget ih =>
    have moved {found : Option (BitVec 64)} {index : ExpireIndex}
        (sampled : store.base.expires.sampleNext = some (found, index))
        : Tends env store (store.withBase { store.base with expires := index }) := by
      obtain ⟨tab0, tab1, pos⟩ := sampleNext_tables sampled
      exact .withBase (.sampled tab0 tab1 pos) rfl
    rw [expireLoop]
    split
    · exact .refl _
    · rename_i index sampled
      exact (moved sampled).trans (ih removed _)
    · rename_i h index sampled
      exact (moved sampled).trans ((tends_expireVisit _ h).trans (ih _ _))

theorem tends_activeExpire (budget : Nat)
    : Tends env store (store.activeExpire env budget).2 := by
  have stepped : Tends env store
      (if store.base.rehashing then store.rehashStep env else store) := by
    split
    · rename_i moving
      exact tends_rehashStep moving
    · exact .refl _
  rw [activeExpire]
  split
  · exact .refl _
  · dsimp only
    generalize (if store.base.rehashing then store.rehashStep env else store) = ready at stepped
    split
    · rename_i moving
      have migrated : Tends env ready (ready.withBase { ready.base with
          expires := ExpireIndex.migrate ExpireIndex.kMigrateSlotsPerOp ready.base.expires }) :=
        .withBase (.migrate moving) rfl
      exact stepped.trans (migrated.trans (tends_expireLoop _ _ _))
    · exact stepped.trans (tends_expireLoop _ _ ready)

/-- Objects retired in turn leave the account one after the other. -/
theorem foldl_retireObj_base (objects : List KvObj) (store : ReadLocalStore)
    : (objects.foldl retireObj store).base
      = { store.base with
          ledger := { store.base.ledger with
            objBytes := store.base.ledger.objBytes - (objects.map kvobjSize).sum } } := by
  induction objects generalizing store with
  | nil => rfl
  | cons object rest ih =>
    rw [List.foldl_cons, ih, List.map_cons, List.sum_cons]
    simp [retireObj, Nat.sub_add_eq]

/-- A flush empties the tables, the account and the expire index together. -/
theorem trimmed_clear : Trimmed env store.base store.clear.base := by
  have base := foldl_retireObj_base store.base.tables.objects store
  simp only [clear, base]
  refine ⟨fun exact => .empty (exact.sound.flushed _) (objects_flushed _ _) ?_ rfl, rfl⟩
  rw [exact.bytes]
  exact Nat.sub_self _

end ReadLocalStore

end Thredis.Store
