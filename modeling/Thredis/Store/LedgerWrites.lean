import Thredis.Store.LedgerExact

/-! The expiry cycle and every publication keep exact ledgers exact, as long as resident
hashes stay distinct and the expire index takes every deadline.
-/

namespace Thredis.Store
open Thredis.Lib

/-- A walk that ends without a hit has refused every word placed for its hash.
Witness: such a word lies behind the first slot of the walk with no empty slot between.
-/
theorem Table.WellFormed.walk_refuses {hashKey : Slice → BitVec 64} {table : Table}
    (wf : table.WellFormed hashKey) {h : BitVec 64} {accept : Word → Bool} {word : Word}
    (member : Slot.live word ∈ table.slots) (hashes : hashKey word.obj.key = h)
    (missed : ∀ place other, table.walk h accept ≠ .hit place other)
    : accept word = false := by
  obtain ⟨place, here⟩ := List.mem_iff_getElem?.mp member
  have start : Passed accept table.slots (table.slotStart h) 0 :=
    fun _ below => absurd below (Nat.not_lt_zero _)
  have said := probe_says wf.pow (table.slotStart h) (table.cap + 1) 0 none start
  have home : ∀ first < table.slots.length, (first + 0) % table.slots.length = first :=
    fun first below => by rw [Nat.add_zero, Nat.mod_eq_of_lt below]
  rw [home _ (wf.slotStart_lt h)] at said
  cases walked : table.walk h accept with
  | hit place' other => exact absurd walked (missed place' other)
  | vacant index tomb =>
    rw [Table.walk] at walked
    rw [walked] at said
    obtain ⟨empty, ⟨d, -, rfl, passed⟩, -⟩ := said
    have reach := wf.placed.reach here
    rw [hashes] at reach
    exact passed.refuses_reachable empty reach here
  | exhausted =>
    rw [Table.walk] at walked
    rw [walked] at said
    have whole : table.slots.length ≤ 0 + (table.cap + 1) := by
      rw [Nat.zero_add]
      exact Nat.le_succ _
    exact (Passed.all said whole here).2 word rfl

namespace FlatStore

variable {env : StoreEnv} {store before after : FlatStore}
variable {h : BitVec 64} {object : KvObj}

/-- The lookup of a hash misses no volatile object of that hash. -/
theorem findHashIn_none {hashKey : Slice → BitVec 64} {table : Table}
    (wf : table.WellFormed hashKey) (missed : table.findHashIn hashKey h = none)
    (held : object ∈ table.objects) (hashes : hashKey object.key = h)
    : object.deadline < 0 := by
  obtain ⟨word, member, rfl⟩ := Table.mem_objects.mp held
  have refused := wf.walk_refuses member hashes (fun place other hit => by
    rw [Table.findHashIn, hit] at missed
    cases missed)
  by_contra dated
  have slotted : word.obj.hasTtlSlot = true := by
    cases bare : word.obj.hasTtlSlot with
    | true => rfl
    | false => exact absurd (by simp [KvObj.deadline, bare, kNoTtlDeadline]) dated
  simp [wf.tagged word member, hashes, slotted, Int.not_lt.mp dated] at refused

theorem Sound.findHash_none (sound : store.Sound env)
    (missed : store.findHash env h = none) : ¬ store.Volatile env h := by
  obtain ⟨noCur, noOld⟩ := Option.or_eq_none_iff.mp missed
  rintro ⟨object, held, hashes, dated⟩
  rcases Tables.mem_objects.mp held with inCur | ⟨old, there, inOld⟩
  · exact absurd (findHashIn_none sound.cur noCur inCur hashes) (Int.not_lt.mpr dated)
  · rw [there] at noOld
    exact absurd (findHashIn_none (sound.old old there) noOld inOld hashes) (Int.not_lt.mpr dated)

/-- Dropping a hash no volatile key has. -/
theorem Trimmed.untrackExpire (idle : store.Sound env → ¬ store.Volatile env h)
    : Trimmed env store (store.untrackExpire h) := by
  refine ⟨fun exact => ?_, rfl⟩
  obtain ⟨wf, holds⟩ := exact.index.erase h
  refine { exact with index := wf, tracked := fun other => ?_ }
  show (store.expires.erase h).2.Holds other ↔ _
  rw [holds, exact.tracked]
  refine ⟨fun both => both.1, fun dated => ⟨dated, ?_⟩⟩
  rintro rfl
  exact idle exact.sound dated

/-- What a visit looks for carries a deadline, so its two checks for none never apply. -/
theorem findHash_slotted (found : store.findHash env h = some object)
    : object.hasTtlSlot = true ∧ ¬ object.deadline < 0 := by
  have dated := (findHash_some found).2.2
  refine ⟨?_, by omega⟩
  cases bare : object.hasTtlSlot with
  | true => rfl
  | false => simp [KvObj.deadline, bare, kNoTtlDeadline] at dated

theorem Trimmed.noteActiveExpireReap (store : FlatStore) (deadline : Int)
    : Trimmed env store (store.noteActiveExpireReap deadline) := by
  rw [FlatStore.noteActiveExpireReap]
  split
  · exact .refl store
  · exact .of_same rfl rfl rfl rfl

theorem Trimmed.expireVisit (store : FlatStore) (h : BitVec 64)
    : Trimmed env store (store.expireVisit env h).2 := by
  rw [FlatStore.expireVisit]
  split
  · rename_i missed
    exact .untrackExpire (fun sound => sound.findHash_none missed)
  · rename_i object found
    obtain ⟨-, hashes, -⟩ := findHash_some found
    obtain ⟨slotted, dated⟩ := findHash_slotted found
    simp only [slotted, Bool.not_true, Bool.false_eq_true, if_false]
    split
    · exact .refl store
    · split
      · exact .refl store
      · subst hashes
        have logged : Trimmed env store (store.recordDelete object.key) := .recordDelete store _
        split
        · exact logged
        · rename_i gone erased removed
          have noted : Trimmed env erased (erased.noteActiveExpireReap object.deadline) :=
            .noteActiveExpireReap erased _
          have tail := noted.trans (.countExpired _ true)
          rcases Option.or_eq_some_iff.mp removed with inCur | ⟨-, inOld⟩
          · exact logged.trans ((Trimmed.eraseIn inCur).trans tail)
          · exact logged.trans ((Trimmed.eraseIn inOld).trans tail)

theorem sampleNext_tables {index next : ExpireIndex} {found : Option (BitVec 64)}
    (sampled : index.sampleNext = some (found, next))
    : next.tab0 = index.tab0 ∧ next.tab1 = index.tab1 ∧ next.migratePos = index.migratePos := by
  rw [ExpireIndex.sampleNext] at sampled
  split at sampled
  · cases sampled
  · exact ExpireIndex.cursorSlot_tables sampled

/-- The sampling loop only trims, by induction on its budget. -/
theorem Trimmed.expireLoop (budget removed : Nat) (store : FlatStore)
    : Trimmed env store (expireLoop env budget removed store).2 := by
  induction budget generalizing store removed with
  | zero => exact .refl store
  | succ budget ih =>
    rw [FlatStore.expireLoop]
    split
    · exact .refl store
    · rename_i index sampled
      obtain ⟨tab0, tab1, pos⟩ := sampleNext_tables sampled
      exact (Trimmed.sampled tab0 tab1 pos).trans (ih removed _)
    · rename_i h index sampled
      obtain ⟨tab0, tab1, pos⟩ := sampleNext_tables sampled
      exact (Trimmed.sampled tab0 tab1 pos).trans ((Trimmed.expireVisit _ h).trans (ih _ _))

/-- The migration work of the index moves hashes between its tables. -/
theorem Trimmed.migrate (moving : store.expires.migrating = true)
    : Trimmed env store { store with
        expires := ExpireIndex.migrate ExpireIndex.kMigrateSlotsPerOp store.expires } :=
  .of_content rfl (fun sound => ⟨sound, fun _ => rfl, rfl⟩) (fun wf => by
      obtain ⟨wf', holds, -⟩ := wf.migrate (ExpireIndex.migrating_iff.mp moving)
      exact ⟨wf', holds⟩)

theorem Trimmed.activeExpire (store : FlatStore) (budget : Nat)
    : Trimmed env store (store.activeExpire env budget).2 := by
  have stepped : Trimmed env store (if store.rehashing then store.rehashStep env else store) := by
    split
    · exact .rehashStep store
    · exact .refl store
  rw [FlatStore.activeExpire]
  split
  · exact .refl store
  · dsimp only
    generalize (if store.rehashing then store.rehashStep env else store) = ready at stepped
    split
    · rename_i moving
      exact stepped.trans ((Trimmed.migrate moving).trans (.expireLoop _ _ _))
    · exact stepped.trans (.expireLoop _ _ _)

/-- A step that keeps exact ledgers exact where the resident hashes it leaves are distinct
and the expire index refused no deadline.
-/
def Accounted (env : StoreEnv) (before after : FlatStore) : Prop :=
  before.Exact env → after.DistinctHashes env → after.expireRefused = before.expireRefused
    → after.Exact env

theorem Trimmed.accounted (trimmed : Trimmed env before after) : Accounted env before after :=
  fun exact _ _ => trimmed.exact exact

theorem Trimmed.before_accounted {first second third : FlatStore}
    (front : Trimmed env first second) (back : Accounted env second third)
    : Accounted env first third :=
  fun exact distinct refused =>
    back (front.exact exact) distinct (by rw [refused, front.refused])

/-- One object takes the place of its key: the ledgers stay exact if both follow it. -/
theorem Exact.replaced (exact : before.Exact env) (sound : after.Sound env)
    (holds : ∀ other, other ∈ after.tables.objects
      ↔ other = object ∨ other ∈ before.tables.objects ∧ other.key ≠ object.key)
    (bytes : after.ledger.objBytes = after.tables.residentBytes)
    (distinct : after.DistinctHashes env) (wf : after.expires.WellFormed)
    (index : ∀ h, after.expires.Holds h
      ↔ if h = env.hashKey object.key then 0 ≤ object.deadline else before.expires.Holds h)
    : after.Exact env := by
  have placed := (holds object).mpr (.inl rfl)
  refine ⟨sound, bytes, wf, fun h => ?_, distinct⟩
  rw [index]
  split
  · rename_i same
    constructor
    · exact fun dated => ⟨object, placed, same.symm, dated⟩
    · rintro ⟨other, held, hashes, dated⟩
      have named := distinct other held object placed (hashes.trans same)
      rwa [Tables.WellFormed.object_unique sound held placed named] at dated
  · rename_i apart
    rw [exact.tracked]
    constructor
    · rintro ⟨other, held, hashes, dated⟩
      refine ⟨other, (holds other).mpr (.inr ⟨held, fun named => apart ?_⟩), hashes, dated⟩
      rw [← hashes, named]
    · rintro ⟨other, held, hashes, dated⟩
      rcases (holds other).mp held with rfl | ⟨was, -⟩
      · exact absurd hashes.symm apart
      · exact ⟨other, was, hashes, dated⟩

/-- What `track_expire` makes of the index, where it is not refused. -/
theorem trackExpire_index (wf : store.expires.WellFormed) (h : BitVec 64) (object : KvObj)
    (took : (store.trackExpire h object).expireRefused = store.expireRefused)
    : (store.trackExpire h object).expires.WellFormed
      ∧ ∀ other, (store.trackExpire h object).expires.Holds other
        ↔ if other = h then 0 ≤ object.deadline else store.expires.Holds other := by
  rw [KvObj.deadline_eq_expireAtMs]
  rw [trackExpire] at took ⊢
  split
  · rename_i dated
    rw [if_pos dated] at took
    obtain ⟨wf', holds⟩ := wf.insert h store.allocations
    have answered : (store.expires.insert h store.allocations).1 = true := by
      have unmoved := took
      cases answer : (store.expires.insert h store.allocations).1 with
      | true => rfl
      | false => simp [answer] at unmoved
    refine ⟨wf', fun other => (holds other).trans ?_⟩
    split
    · rename_i same
      simp [answered, same, dated]
    · rename_i apart
      simp [apart]
  · rename_i undated
    split
    · rename_i none
      have nothing := wf.size_eq_zero.mp none
      refine ⟨wf, fun other => ?_⟩
      split
      · exact ⟨fun held => absurd held (nothing other), fun dated => absurd dated undated⟩
      · exact .rfl
    · obtain ⟨wf', holds⟩ := wf.erase h
      refine ⟨wf', fun other => (holds other).trans ?_⟩
      split
      · rename_i same
        simp [same, undated]
      · rename_i apart
        simp [apart]

theorem trackExpire_ledger (store : FlatStore) (h : BitVec 64) (object : KvObj)
    : (store.trackExpire h object).ledger = store.ledger := by
  rw [trackExpire]
  split
  · rfl
  · split
    · rfl
    · rfl

/-- An object placed, charged for the one it displaced, and tracked. -/
theorem Accounted.published {displaced : Option KvObj} (inserted : before.Sound env
      → Tables.Inserted env.hashKey before.tables object displaced after.tables)
    (bytes : after.ledger.objBytes = before.ledger.objBytes - (displaced.map kvobjSize).getD 0
      + kvobjSize object)
    (index : after.expires = before.expires) (refused : after.expireRefused = before.expireRefused)
    : Accounted env before (after.trackExpire (env.hashKey object.key) object) := by
  intro exact distinct took
  have facts := inserted exact.sound
  have unmoved := trackExpire_tables after (env.hashKey object.key) object
  have sum := facts.residentBytes exact.sound
  obtain ⟨wf, holds⟩ := trackExpire_index (by rw [index]; exact exact.index)
    (env.hashKey object.key) object (took.trans refused.symm)
  refine exact.replaced (by rw [Sound, unmoved]; exact facts.wellFormed)
    (by rw [unmoved]; exact facts.holds) ?_ distinct wf (by rw [← index]; exact holds)
  rw [trackExpire_ledger, unmoved, bytes, exact.bytes]
  have room : (displaced.map kvobjSize).getD 0 ≤ before.tables.residentBytes := by
    cases shape : displaced with
    | none => exact Nat.zero_le _
    | some current =>
      obtain ⟨held, -⟩ := (facts.took current).mp shape
      exact Tables.kvobjSize_le_residentBytes held
  omega

theorem Accounted.insertFresh (cleared : store.Sound env → ∀ old, store.tables.old = some old
      → ∀ b ∈ old.objects, b.key ≠ object.key)
    (inserted : store.insertFresh (env.hashKey object.key) object = some after)
    : Accounted env store after := by
  obtain ⟨⟨displaced, tables⟩, placed, rfl⟩ := Option.map_eq_some_iff.mp inserted
  refine .published (fun sound =>
    Tables.WellFormed.insertCur_some sound (cleared sound) placed) ?_ rfl rfl
  cases displaced with
  | none => rfl
  | some current =>
    show (store.ledger.retire current).objBytes + kvobjSize object = _
    rw [Ledger.retire_objBytes]
    rfl

theorem Trimmed.clearOld (store : FlatStore) (key : Slice)
    : Trimmed env store (store.clearOld (env.hashKey key) key) := by
  rw [FlatStore.clearOld]
  split
  · rename_i old erased found
    exact (Trimmed.eraseIn found).trans (.countExpired _ _)
  · exact .refl store

/-- Publishing accounts: the old table is cleared of the key first. -/
theorem Accounted.publish (store : FlatStore) (object : KvObj)
    : Accounted env store (store.publish (env.hashKey object.key) object).2 := by
  have cleared : Trimmed env store (store.clearOld (env.hashKey object.key) object.key) :=
    .clearOld store object.key
  intro exact
  rw [FlatStore.publish]
  split
  · rename_i published inserted
    exact cleared.before_accounted
      (.insertFresh (fun _ => (exact.sound.clearOld object.key).clear) inserted) exact
  · exact cleared.accounted exact

theorem Trimmed.insertResize (store : FlatStore)
    : Trimmed env store (store.insertResize env).2 := by
  rw [FlatStore.insertResize]
  split
  · split
    · exact .refl store
    · exact .rehashStep store
  · rename_i still
    exact .maybeStartGrow (not_rehashing still)

theorem initializeMeta_key (store : FlatStore) (object : KvObj)
    : (store.initializeMeta object).key = object.key := by
  rw [initializeMeta]
  split
  · rfl
  · split
    · rfl
    · rfl

theorem admitObject_key {admitted : KvObj}
    (granted : (store.admitObject env object).1 = some admitted) : admitted.key = object.key := by
  rw [admitObject] at granted
  split at granted
  · split at granted
    · cases granted
    · cases granted
      split
      · exact initializeMeta_key _ object
      · rfl
  · cases granted
    rfl

/-- A whole insert accounts, by the effect of each of its stages. -/
theorem Accounted.insert (store : FlatStore) (object : KvObj)
    : Accounted env store (store.insert env (env.hashKey object.key) object).2 := by
  have resized : Trimmed env store (store.insertResize env).2 := .insertResize store
  simp only [FlatStore.insert]
  split
  · rename_i next refused
    rw [refused] at resized
    exact resized.accounted
  · rename_i next ready
    rw [ready] at resized
    split
    · exact resized.accounted
    · split
      · exact resized.accounted
      · have admitted : Trimmed env next (next.admitObject env object).2 := .admitObject next object
        rw [insertAdmitted]
        split
        · rename_i last refused
          rw [refused] at admitted
          exact (resized.trans admitted).accounted
        · rename_i given last granted
          rw [granted] at admitted
          have answer : (next.admitObject env object).1 = some given := by rw [granted]
          rw [← admitObject_key answer]
          exact (resized.trans admitted).before_accounted (.publish last given)

end FlatStore

end Thredis.Store
