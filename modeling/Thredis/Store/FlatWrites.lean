import Thredis.Store.FlatAdmission

/-! What the owner's writes and lookups do to the content of the store: a lookup reaps only
keys past their deadline, and an insert either publishes its object or changes nothing but
the keys it evicted.
-/

namespace Thredis.Store
open Tables.WellFormed

namespace FlatStore

variable {env : StoreEnv} {store : FlatStore}

theorem Sound.untrackExpire (sound : store.Sound env) (h : BitVec 64)
    : Tended env store (store.untrackExpire h) [] [] :=
  .of_same sound rfl rfl ⟨rfl, rfl, rfl, rfl, rfl⟩ rfl id rfl

theorem Sound.trackExpire (sound : store.Sound env) (h : BitVec 64) (object : KvObj)
    : Tended env store (store.trackExpire h object) [] [] := by
  rw [FlatStore.trackExpire]
  split
  · refine .of_same sound rfl rfl ⟨rfl, rfl, rfl, rfl, rfl⟩ rfl (fun none => ?_) rfl
    rw [none]
    exact ExpireIndex.insert_granted _ _
  · split
    · exact .refl sound
    · exact sound.untrackExpire h

theorem trackExpire_tables (store : FlatStore) (h : BitVec 64) (object : KvObj)
    : (store.trackExpire h object).tables = store.tables := by
  rw [trackExpire]
  split
  · rfl
  · split <;> rfl

theorem trackExpire_refused (store : FlatStore) (h : BitVec 64) (object : KvObj)
    : (store.trackExpire h object).rehashRefused = store.rehashRefused := by
  rw [trackExpire]
  split
  · rfl
  · split <;> rfl

-- Publishing

structure Wrote (env : StoreEnv) (before after : FlatStore) (object : KvObj)
    (gone : List Slice) : Prop where
  sound : after.Sound env
  content : ∀ key, after.content env key
    = if key = object.key then some object.bare
      else if key ∈ gone then none else before.content env key
  deletes : after.deletes = before.deletes ++ gone
  settings : SameSettings before after
  granted : before.allocations = [] → after.allocations = []
  planned : before.snapshot.prepared = true → after.tables.cur.cap = before.tables.cur.cap

/-- The room a write needs: its key is already there, or a slot is to spare. -/
def HasPlace (env : StoreEnv) (pace : Nat) (store : FlatStore) (key : Slice) : Prop :=
  store.tables.Roomy pace 0
  ∧ (store.content env key ≠ none ∨ store.tables.Roomy pace 1)

variable {after : FlatStore} {key : Slice}

theorem HasPlace.of_tended {before : FlatStore} {gone logged : List Slice} {pace : Nat}
    (tended : Tended env before after gone logged) (small : pace ≤ 1)
    (spared : key ∉ gone) (place : before.HasPlace env pace key)
    : after.HasPlace env pace key := by
  refine ⟨(tended.room pace small 0 (Nat.zero_le 1) place.1).1, ?_⟩
  rcases place.2 with held | wide
  · refine .inl ?_
    rw [tended.content, if_neg spared]
    exact held
  · exact .inr (tended.room pace small 1 (Nat.le_refl 1) wide).1

variable {object : KvObj}

/-- The bookkeeping of a newly published object. -/
theorem Sound.insertFresh (sound : store.Sound env)
    (cleared : ∀ old, store.tables.old = some old → ∀ b ∈ old.objects, b.key ≠ object.key)
    (inserted : store.insertFresh (env.hashKey object.key) object = some after)
    : Wrote env store after object []
      ∧ ∃ displaced, Tables.Inserted env.hashKey store.tables object displaced after.tables
        ∧ after.rehashRefused = store.rehashRefused := by
  obtain ⟨⟨displaced, tables⟩, placed, shape⟩ := Option.map_eq_some_iff.mp inserted
  have facts := insertCur_some sound cleared placed
  let charged : FlatStore :=
    { store with
      tables
      ledger := (displaced.elim store.ledger store.ledger.retire).charge object }
  have middle : charged.Sound env := facts.wellFormed
  have counted := middle.countExpired
    (displaced.any (fun current => current.deadlineElapsed store.cachedNowMs))
  have tracked := counted.trans (counted.sound.trackExpire (env.hashKey object.key) object)
  have unmoved : after.tables = tables ∧ after.rehashRefused = store.rehashRefused := by
    rw [← shape]
    exact ⟨trackExpire_tables _ _ _, trackExpire_refused _ _ _⟩
  subst shape
  refine ⟨⟨tracked.sound, fun key => ?_, ?_, ?_, tracked.granted,
    fun _ => by rw [unmoved.1]; exact facts.framed.cap⟩, displaced, ?_, unmoved.2⟩
  · rw [tracked.content]
    have second : charged.Sound env := facts.wellFormed
    exact sound.content_replaced second facts.holds key
  · exact tracked.deletes
  · exact { tracked.settings with }
  · rw [unmoved.1]
    exact facts

structure Cleared (env : StoreEnv) (before after : FlatStore) (key : Slice) : Prop where
  tended : ∃ dropped, Tended env before after dropped [] ∧ ∀ other ∈ dropped, other = key
  clear : ∀ old, after.tables.old = some old → ∀ b ∈ old.objects, b.key ≠ key
  place : ∀ pace, before.HasPlace env pace key → after.HasPlace env pace key
  refused : after.rehashRefused = before.rehashRefused

theorem Sound.clearOld (sound : store.Sound env) (key : Slice)
    : Cleared env store (store.clearOld (env.hashKey key) key) key := by
  cases erased : store.eraseIn .old (env.hashKey key) key with
  | none =>
    have same : store.clearOld (env.hashKey key) key = store := by
      simp [FlatStore.clearOld, erased]
    rw [same]
    exact ⟨⟨[], .refl sound, nofun⟩, (eraseIn_none sound).mp (Option.map_eq_none_iff.mp erased),
      fun _ => id, rfl⟩
  | some result =>
    obtain ⟨old, next⟩ := result
    obtain ⟨tended, facts⟩ := sound.eraseIn_some erased
    have counted := tended.trans (tended.sound.countExpired (old.deadlineElapsed store.cachedNowMs))
    obtain ⟨⟨object', tables⟩, inTables, same⟩ := Option.map_eq_some_iff.mp erased
    have freed := eraseIn_old_load sound inTables
    have shape : store.clearOld (env.hashKey key) key
        = next.countExpired (old.deadlineElapsed store.cachedNowMs) := by
      simp [FlatStore.clearOld, erased]
    rw [shape]
    cases same
    -- the slot freed in the old table is one the current table no longer owes
    have spare : ∀ pace, store.tables.Roomy pace 0 → Tables.Roomy pace 1 tables :=
      fun pace room => room.framed facts.framed (by omega)
    refine ⟨⟨[key], by exact counted, fun other => List.mem_singleton.mp⟩, ?_,
      fun pace place => ⟨(spare pace place.1).weaken (Nat.zero_le _), .inr (spare pace place.1)⟩,
      rfl⟩
    intro rest found b inOld named
    have member := Tables.mem_objects.mpr (.inr ⟨rest, found, inOld⟩)
    exact ((facts.left b).mp member).2 named

/-- Publishing writes the object, and cannot fail while the current table has a free slot. -/
theorem Sound.publish (sound : store.Sound env) (object : KvObj)
    : (store.publish (env.hashKey object.key) object).2.Sound env
      ∧ ((store.publish (env.hashKey object.key) object).1 = .inserted
          → Wrote env store (store.publish (env.hashKey object.key) object).2 object [])
      ∧ (store.tables.Roomy 0 0 → (store.publish (env.hashKey object.key) object).1 = .inserted)
      ∧ (store.publish (env.hashKey object.key) object).1 ≠ .maxmemoryOom
      ∧ ∀ pace, store.HasPlace env pace object.key
          → (store.publish (env.hashKey object.key) object).2.tables.Roomy pace 0
            ∧ (store.publish (env.hashKey object.key) object).2.rehashRefused
              = store.rehashRefused := by
  have cleared := sound.clearOld object.key
  obtain ⟨dropped, tended, only⟩ := cleared.tended
  have roomy : ∀ pace, store.HasPlace env pace object.key
      → (store.clearOld (env.hashKey object.key) object.key).insertFresh
          (env.hashKey object.key) object ≠ none := by
    intro pace place refused
    have full := (insertCur_none tended.sound (Option.map_eq_none_iff.mp refused)).1
    have bound := (cleared.place pace place).1.cur
    simp only [Tables.load] at bound
    omega
  rw [FlatStore.publish]
  cases placed : (store.clearOld (env.hashKey object.key) object.key).insertFresh
      (env.hashKey object.key) object with
  | none =>
    refine ⟨tended.sound, by simp, fun room => ?_, by simp,
      fun pace place => absurd placed (roomy pace place)⟩
    have bound := (tended.room 0 (Nat.zero_le 1) 0 (Nat.zero_le 1) room).1.cur
    have full := (insertCur_none tended.sound (Option.map_eq_none_iff.mp placed)).1
    simp only [Tables.load] at bound
    omega
  | some after =>
    obtain ⟨wrote, displaced, inserted, refused⟩ := tended.sound.insertFresh cleared.clear placed
    refine ⟨wrote.sound, fun _ => ?_, fun _ => rfl, by simp, fun pace place => ?_⟩
    · refine ⟨wrote.sound, fun key => ?_, ?_, tended.settings.trans wrote.settings,
        fun none => wrote.granted (tended.granted none), fun prepared =>
          (wrote.planned (by rw [tended.settings.snapshot]; exact prepared)).trans
            (tended.planned prepared)⟩
      · rw [wrote.content, tended.content]
        split
        · rfl
        · rename_i other
          rw [if_neg (fun member => other (only key member))]
      · rw [wrote.deletes, tended.deletes, List.append_nil]
    · refine ⟨?_, refused.trans cleared.refused⟩
      show after.tables.Roomy pace 0
      have load := inserted.load
      obtain ⟨tight, held | wide⟩ := cleared.place pace place
      · -- a key that is still there after the clearing sits in the current table
        have replaced : displaced.isSome = true := by
          obtain ⟨current, found⟩ := Option.ne_none_iff_exists'.mp held
          obtain ⟨resident, member, named, -⟩ := (tended.sound.content_iff _ _).mp found
          rw [(inserted.took resident).mpr ⟨member, named⟩]
          rfl
        rw [replaced] at load
        exact tight.framed inserted.framed (by simp only [Bool.toNat_true] at load; omega)
      · exact wide.framed inserted.framed (by omega)

-- Inserting

theorem not_rehashing (still : store.rehashing ≠ true) : store.tables.old = none := by
  rw [rehashing, Tables.rehashing] at still
  simpa using still

/-- The resize work before an insert keeps every key. With a willing allocator it refuses
only a table beyond 32-bit capacities.
-/
theorem Sound.insertResize (sound : store.Sound env)
    : Tended env store (store.insertResize env).2 [] []
      ∧ (store.insertResize env).2.expiryTally = store.expiryTally
      ∧ ((store.insertResize env).1 = false → store.allocations = []
          → store.tables.old = none ∧ kUInt32Max < growCap store.tables.cur) := by
  rw [FlatStore.insertResize]
  split
  · split
    · exact ⟨.refl sound, rfl, nofun⟩
    · exact ⟨sound.rehashStep, rfl, nofun⟩
  · rename_i idle
    have still := not_rehashing idle
    obtain ⟨tended, -, refused, expires⟩ := sound.maybeStartGrow still
    exact ⟨tended, expires, fun no none => ⟨still, refused no none⟩⟩

/-- When an insert may rely on room: under pace 1 no capture may be near; under pace 0 a new
key that meets two tables outside a capture needs a slot to spare.
-/
structure InsertGate (env : StoreEnv) (pace : Nat) (store : FlatStore) (key : Slice)
    : Prop where
  small : pace ≤ 1
  room : store.tables.Roomy pace 0
  quiet : pace = 1 → store.snapshot.prepared = false ∧ store.snapshot.active = false
  merging : pace = 0 → store.rehashing = true → store.snapshot.active = false
    → store.content env key ≠ none ∨ store.tables.Roomy 0 1

/-- A key found in one of the tables has content. -/
theorem Sound.content_of_findIn (sound : store.Sound env) {side : Side}
    (found : (store.tables.findIn side (env.hashKey key) key).isSome = true)
    : store.content env key ≠ none := by
  obtain ⟨object, located⟩ := Option.isSome_iff_exists.mp found
  obtain ⟨⟨table, there, held⟩, named⟩ := (findIn_iff sound side key object).mp located
  intro missing
  refine sound.content_none.mp missing object (Tables.mem_objects.mpr ?_) named
  cases side with
  | cur => cases there; exact .inl held
  | old => exact .inr ⟨table, there, held⟩

/-- The checks of an insert leave a place for its key. -/
theorem InsertGate.place {pace : Nat} (sound : store.Sound env)
    (gate : InsertGate env pace store key) {ready : FlatStore}
    (resized : store.insertResize env = (true, ready))
    (unprepared : ready.preparedFull (env.hashKey key) key = false)
    (uncaptured : (store.capturing && ready.captureFull (env.hashKey key) key) = false)
    : ready.HasPlace env pace key := by
  have tended := sound.insertResize.1
  rw [resized] at tended
  have base := (tended.room pace gate.small 0 (Nat.zero_le 1) gate.room).1
  refine ⟨base, ?_⟩
  rw [insertResize] at resized
  split at resized
  · rename_i moving
    split at resized
    · -- a capture: the store is untouched and its own check decides
      rename_i active
      cases resized
      have zero : pace = 0 := by
        rcases lt_or_ge pace 1 with less | more
        · omega
        · have one := le_antisymm gate.small more
          rw [(gate.quiet one).2] at active
          cases active
      subst zero
      have capturing : store.capturing = true := by simp [capturing, moving, active]
      rw [capturing, Bool.true_and, captureFull, Bool.and_eq_false_iff] at uncaptured
      rcases uncaptured with held | wide
      · rw [Bool.not_eq_false', Bool.or_eq_true] at held
        exact .inl (held.elim sound.content_of_findIn sound.content_of_findIn)
      · refine .inr ⟨?_, base.old⟩
        have spare := of_decide_eq_false wide
        simp only [Tables.load]
        omega
    · rename_i inactive
      cases resized
      rcases lt_or_ge pace 1 with less | more
      · obtain rfl : pace = 0 := by omega
        rcases gate.merging rfl moving (by simpa using inactive) with held | wide
        · refine .inl ?_
          rw [tended.content]
          exact held
        · exact .inr (tended.room 0 (Nat.zero_le 1) 1 (Nat.le_refl 1) wide).1
      · obtain rfl := le_antisymm gate.small more
        exact .inr (sound.rehashStep_room gate.room moving)
  · rename_i idle
    have still := not_rehashing idle
    obtain ⟨-, spare, -⟩ := sound.maybeStartGrow still
    cases prepared : store.snapshot.prepared with
    | false =>
      rw [resized] at spare
      exact .inr (spare rfl prepared pace gate.small gate.room)
    | true =>
      simp only [FlatStore.maybeStartGrow, prepared, if_true, ite_self] at resized
      cases resized
      rw [preparedFull, prepared, Bool.and_true, Bool.and_eq_false_iff] at unprepared
      rcases unprepared with wide | held
      · refine .inr ((Tables.roomy_idle still pace 1).mpr ?_)
        have spare := of_decide_eq_false wide
        omega
      · rw [Option.isNone_eq_false_iff] at held
        exact .inl (sound.content_of_findIn held)

/-- What an insert has done: its object is published, or nothing but the evicted keys
changed. The latter relies on a free slot, since the old table's copy goes first.
-/
structure InsertEffect (env : StoreEnv) (store : FlatStore) (object : KvObj)
    (result : InsertResult) (after : FlatStore) (gone : List Slice) : Prop where
  sound : after.Sound env
  evictable : ∀ key ∈ gone, store.Evictable env object.key key
  unlimited : store.maxmemory.enabled = false → gone = []
  policy : store.maxmemory.policy = .noEviction → gone = []
  oom : result = .maxmemoryOom → store.maxmemory.enabled = true
  wrote : result = .inserted → Wrote env store after object gone
  kept : result ≠ .inserted → store.tables.Roomy 0 0 → Tended env store after gone gone
    ∧ (gone = [] → after.expiryTally = store.expiryTally)
  room : ∀ pace, InsertGate env pace store object.key
    → after.tables.Roomy pace 0 ∧ after.rehashRefused = store.rehashRefused
  failed : result = .failed → store.allocations = [] → store.tables.Roomy 0 0
    → store.snapshot.prepared = false → store.snapshot.active = false
    → store.tables.old = none ∧ kUInt32Max < growCap store.tables.cur

/-- A refusal before admission. -/
theorem InsertEffect.refuse
    (tended : Tended env store after [] []) (expires : after.expiryTally = store.expiryTally)
    (failed : store.allocations = [] → store.tables.Roomy 0 0
      → store.snapshot.prepared = false → store.snapshot.active = false
      → store.tables.old = none ∧ kUInt32Max < growCap store.tables.cur)
    : InsertEffect env store object .failed after [] where
  sound := tended.sound
  evictable := nofun
  unlimited := fun _ => rfl
  policy := fun _ => rfl
  oom := nofun
  wrote := nofun
  kept := fun _ _ => ⟨tended, fun _ => by rw [expires]⟩
  room := fun pace gate => tended.room pace gate.small 0 (Nat.zero_le 1) gate.room
  failed := fun _ => failed

theorem Wrote.after_tended {before middle : FlatStore} {admitted : KvObj}
    {gone gone' : List Slice} (tended : Tended env before middle gone gone)
    (wrote : Wrote env middle after admitted gone') (same : admitted.bare = object.bare)
    : Wrote env before after object (gone ++ gone') := by
  have named : admitted.key = object.key := by
    rw [← KvObj.bare_key, same, KvObj.bare_key]
  refine ⟨wrote.sound, fun key => ?_, ?_, tended.settings.trans wrote.settings,
    fun none => wrote.granted (tended.granted none), fun prepared =>
      (wrote.planned (by rw [tended.settings.snapshot]; exact prepared)).trans
        (tended.planned prepared)⟩
  · rw [wrote.content, tended.content, named, same]
    by_cases late : key ∈ gone' <;> simp [late]
  · rw [wrote.deletes, tended.deletes, List.append_assoc]

/-- The admission and publication of an insert that passed its checks. -/
theorem Tended.insertAdmitted {ready : FlatStore}
    (resized : Tended env store ready [] []) (expires : ready.expiryTally = store.expiryTally)
    (place : ∀ pace, InsertGate env pace store object.key → ready.HasPlace env pace object.key)
    : ∃ gone, InsertEffect env store object
        (ready.insertAdmitted env (env.hashKey object.key) object).1
        (ready.insertAdmitted env (env.hashKey object.key) object).2 gone := by
  obtain ⟨gone, evicted, unlimited, bare⟩ := resized.sound.admitObject object
  have evictable : ∀ key ∈ gone, store.Evictable env object.key key :=
    fun key member => (evicted.evictable key member).of_settings resized.settings
  have spared : object.key ∉ gone := fun member => (evictable _ member).1 rfl
  have noLimit : store.maxmemory.enabled = false → gone = [] :=
    fun off => (unlimited (by rw [resized.settings.maxmemory]; exact off)).1
  have noPolicy : store.maxmemory.policy = .noEviction → gone = [] :=
    fun off => evicted.policy (by rw [resized.settings.maxmemory]; exact off)
  have tracked : gone = [] → (ready.admitObject env object).2.expiryTally = store.expiryTally :=
    fun none => by rw [evicted.expires none, expires]
  have tended : Tended env store (ready.admitObject env object).2 gone gone := by
    exact resized.trans evicted.tended
  refine ⟨gone, ?_⟩
  rw [FlatStore.insertAdmitted]
  cases given : ready.admitObject env object with
  | mk answer next =>
    rw [given] at evicted tracked tended bare
    cases answer with
    | none =>
      exact { tended with
          evictable
          unlimited := noLimit
          policy := noPolicy
          oom := fun _ => by
            cases enabled : store.maxmemory.enabled with
            | true => rfl
            | false =>
              rw [given, resized.settings.maxmemory] at unlimited
              exact absurd rfl (unlimited enabled).2
          wrote := nofun
          kept := fun _ _ => ⟨tended, tracked⟩
          room := fun pace gate => tended.room pace gate.small 0 (Nat.zero_le 1) gate.room
          failed := nofun }
    | some admitted =>
      have same := bare admitted rfl
      have named : admitted.key = object.key := by
        rw [← KvObj.bare_key, same, KvObj.bare_key]
      obtain ⟨after, wrote, granted, notOom, room⟩ := tended.sound.publish admitted
      rw [named] at after wrote granted notOom room
      have free : store.tables.Roomy 0 0
          → (next.publish (env.hashKey object.key) admitted).1 = .inserted :=
        fun base => granted (tended.room 0 (Nat.zero_le 1) 0 (Nat.zero_le 1) base).1
      exact
        { sound := after
          evictable
          unlimited := noLimit
          policy := noPolicy
          oom := fun refused => absurd refused notOom
          wrote := fun inserted => by
            simpa using (wrote inserted).after_tended tended same
          kept := fun refused base => absurd (free base) refused
          room := fun pace gate => by
            have kept := (place pace gate).of_tended evicted.tended gate.small spared
            obtain ⟨wide, count⟩ := room pace kept
            exact ⟨wide, count.trans (tended.room pace gate.small 0 (Nat.zero_le 1) gate.room).2⟩
          failed := fun refused _ base => absurd (free base) (by
            intro inserted
            rw [inserted] at refused
            cases refused) }

/-- Every insert publishes its object or changes nothing but the keys it evicted. -/
theorem Sound.insert (sound : store.Sound env) (object : KvObj)
    : ∃ gone, InsertEffect env store object (store.insert env (env.hashKey object.key) object).1
        (store.insert env (env.hashKey object.key) object).2 gone := by
  obtain ⟨resized, expires, refused⟩ := sound.insertResize
  simp only [FlatStore.insert]
  cases ready : store.insertResize env with
  | mk agreed next =>
    rw [ready] at resized expires refused
    cases agreed with
    | false => exact ⟨[], .refuse resized expires (fun none _ _ _ => refused rfl none)⟩
    | true =>
      dsimp only
      cases full : next.preparedFull (env.hashKey object.key) object.key with
      | true =>
        refine ⟨[], .refuse resized expires (fun _ _ prepared _ => ?_)⟩
        have same : next.snapshot = store.snapshot := resized.settings.snapshot
        simp [preparedFull, same, prepared] at full
      | false =>
        cases captured : store.capturing
            && next.captureFull (env.hashKey object.key) object.key with
        | true =>
          refine ⟨[], .refuse resized expires (fun _ _ _ inactive => ?_)⟩
          simp [capturing, inactive] at captured
        | false =>
          exact resized.insertAdmitted expires
            (fun pace gate => gate.place sound ready full captured)

end FlatStore

end Thredis.Store
