import Thredis.Store.FlatContent

/-! Admission under a memory limit: sampling and scoring change only metadata, and making
room drops only logged keys, never the key it makes room for.
-/

namespace Thredis.Store
open Thredis.Lib

namespace FlatStore

variable {env : StoreEnv} {store : FlatStore}

/-- Changing eviction metadata through a pointer drops nothing. -/
theorem Sound.modifyObject_bare (sound : store.Sound env) (key : Slice) (object : KvObj)
    {f : KvObj → KvObj} (bare : ∀ held, (f held).bare = held.bare)
    : Tended env store (store.modifyObject (env.hashKey key) key object f) [] [] := by
  rw [modifyObject]
  split
  · rename_i pointed
    obtain ⟨held, found⟩ : ∃ held, store.tables.resident (env.hashKey key) key = some held := by
      cases resident : store.tables.resident (env.hashKey key) key with
      | none => simp [resident] at pointed
      | some held => exact ⟨held, rfl⟩
    have named : (f held).key = held.key := by
      rw [← KvObj.bare_key, bare, KvObj.bare_key]
    have modified := Tables.WellFormed.modify_some sound found f named
    refine ⟨modified.wellFormed, fun other => ?_, by simp, ⟨rfl, rfl, rfl, rfl, rfl⟩, ?_, id,
      fun _ => ⟨modified.size, rfl⟩, fun _ => modified.framed.cap⟩
    · have after : ({ store with tables := store.tables.modify (env.hashKey key) key f }).content
          env other = _ := sound.content_modified named modified other
      rw [after]
      split
      · rename_i same
        obtain ⟨member, isKey⟩ := (Tables.WellFormed.resident_iff sound key held).mp found
        rw [bare, same]
        exact ((sound.content_iff held.key held.bare).mpr ⟨held, member, rfl, rfl⟩).symm
      · rfl
    · intro pace _ slack _ room
      exact ⟨room.framed modified.framed (by rw [modified.load]), rfl⟩
  · refine .of_same sound rfl rfl ⟨rfl, rfl, rfl, rfl, ?_⟩ rfl id rfl
    simp only [AtomicPending.bare, List.map_map, Function.comp_def, AtomicEntry.mapParked_mapParked]
    congr 2
    funext entry
    congr 1
    funext parked
    split
    · exact bare parked
    · rfl

/-- A step that drops nothing and leaves the expiry counters alone. -/
structure Sampled (env : StoreEnv) (before after : FlatStore) : Prop where
  tended : Tended env before after [] []
  expires : after.expiryTally = before.expiryTally

theorem Sampled.refl (sound : store.Sound env) : Sampled env store store := ⟨.refl sound, rfl⟩

theorem Sampled.trans {first second third : FlatStore} (front : Sampled env first second)
    (back : Sampled env second third) : Sampled env first third :=
  ⟨front.tended.trans back.tended, back.expires.trans front.expires⟩

/-- What the lookup of a sampled hash finds: a volatile object of that very hash. -/
theorem findHashIn_some {hashKey : Slice → BitVec 64} {table : Table} {h : BitVec 64}
    {object : KvObj} (found : table.findHashIn hashKey h = some object)
    : object ∈ table.objects ∧ hashKey object.key = h ∧ 0 ≤ object.deadline := by
  rw [Table.findHashIn] at found
  split at found
  · rename_i place word hit
    cases found
    obtain ⟨held, accepted⟩ := probe_hit _ _ _ hit
    simp only [Bool.and_eq_true, decide_eq_true_eq, beq_iff_eq] at accepted
    exact ⟨Table.mem_objects.mpr ⟨word, List.mem_of_getElem? held, rfl⟩, accepted.1.2, accepted.2⟩
  · cases found

theorem findHash_some {h : BitVec 64} {object : KvObj} (found : store.findHash env h = some object)
    : object ∈ store.tables.objects ∧ env.hashKey object.key = h ∧ 0 ≤ object.deadline := by
  rcases Option.or_eq_some_iff.mp found with inCur | ⟨-, inOld⟩
  · obtain ⟨member, facts⟩ := findHashIn_some inCur
    exact ⟨Tables.mem_objects.mpr (.inl member), facts⟩
  · obtain ⟨old, there, located⟩ := Option.bind_eq_some_iff.mp inOld
    obtain ⟨member, facts⟩ := findHashIn_some located
    exact ⟨Tables.mem_objects.mpr (.inr ⟨old, there, member⟩), facts⟩

-- What a sample offers

theorem objectAt_mem {pos : Nat} {object : KvObj} (found : store.objectAt pos = some object)
    : object ∈ store.tables.objects := by
  simp only [objectAt] at found
  split at found
  · rename_i word held
    cases found
    split at held
    · exact Tables.mem_objects.mpr (.inl (Table.mem_objects.mpr
        ⟨word, List.mem_of_getElem? held, rfl⟩))
    · obtain ⟨old, there, held⟩ := Option.bind_eq_some_iff.mp held
      exact Tables.mem_objects.mpr (.inr ⟨old, there, Table.mem_objects.mpr
        ⟨word, List.mem_of_getElem? held, rfl⟩⟩)
  · cases found

section

variable {next : FlatStore} {object : KvObj}

theorem probeAttempts_mem {probe : FlatStore → Option KvObj × FlatStore}
    (hit : ∀ {store next object}, probe store = (some object, next) → object ∈ next.tables.objects)
    {attempts : Nat} (found : probeAttempts probe attempts store = (some object, next))
    : object ∈ next.tables.objects := by
  induction attempts generalizing store with
  | zero => cases found
  | succ attempts ih =>
    rw [FlatStore.probeAttempts] at found
    split at found
    · rename_i probed
      cases found
      exact hit probed
    · exact ih found

theorem randomAllkeysCandidate_mem (found : store.randomAllkeysCandidate = (some object, next))
    : object ∈ next.tables.objects := by
  simp only [FlatStore.randomAllkeysCandidate] at found
  split at found
  · cases found
  · split at found
    · rename_i drawn
      cases found
      refine probeAttempts_mem (fun probed => ?_) drawn
      cases (Prod.mk.inj probed).2
      exact objectAt_mem (Prod.mk.inj probed).1
    · refine probeAttempts_mem (fun probed => ?_) found
      cases (Prod.mk.inj probed).2
      exact objectAt_mem (Prod.mk.inj probed).1

/-- A candidate is a stored object, and under a volatile policy it has a deadline. -/
theorem candidate_mem (found : store.candidate env = (some object, next))
    : object ∈ next.tables.objects
      ∧ (store.maxmemory.policy.isVolatile = true → 0 ≤ object.deadline) := by
  rw [FlatStore.candidate] at found
  split at found
  · simp only [FlatStore.randomVolatileCandidate] at found
    split at found
    · cases found
    · split at found
      · cases found
      · rename_i located
        obtain ⟨member, -, carries⟩ := findHash_some located
        rw [if_neg (Int.not_lt.mpr carries)] at found
        cases found
        exact ⟨member, fun _ => carries⟩
  · rename_i allkeys
    exact ⟨randomAllkeysCandidate_mem found, fun isVolatile => absurd isVolatile allkeys⟩

end

/-- A relation kept by what sampling and touching are made of: draws, cursors and changes of
eviction metadata.
-/
structure Sampling (env : StoreEnv) (R : FlatStore → FlatStore → Prop) : Prop where
  refl : ∀ store, R store store
  trans : ∀ {first second third}, R first second → R second third → R first third
  nextRandom : ∀ store : FlatStore, R store store.nextRandom.2
  cursorProbe : ∀ store : FlatStore, R store store.cursorProbe.2
  randomHash : ∀ (store : FlatStore) (random : BitVec 64) (attempts : Nat),
    R store { store with expires := (store.expires.randomHash random attempts).2 }
  modifyObject : ∀ (store : FlatStore) (key : Slice) (object : KvObj) {f : KvObj → KvObj},
    (∀ held, (f held).bare = held.bare)
    → R store (store.modifyObject (env.hashKey key) key object f)

namespace Sampling

variable {R : FlatStore → FlatStore → Prop} (sampling : Sampling env R)

include sampling

theorem touchCount (store : FlatStore) (object : KvObj) : R store (store.touchCount object).2 := by
  rw [FlatStore.touchCount]
  generalize (if object.evictionMeta = 0 then 5 else object.evictionMeta) = count
  split
  · exact sampling.nextRandom store
  · exact sampling.refl store

theorem touch (store : FlatStore) (key : Slice) (object : KvObj)
    : R store (store.touch (env.hashKey key) key object).2 := by
  simp only [FlatStore.touch]
  split
  · exact sampling.modifyObject store key object (fun _ => rfl)
  · split
    · exact sampling.trans (sampling.touchCount store object)
        (sampling.modifyObject _ key object (fun _ => rfl))
    · exact sampling.refl store

theorem probeAttempts {probe : FlatStore → Option KvObj × FlatStore}
    (kept : ∀ store, R store (probe store).2) (attempts : Nat) (store : FlatStore)
    : R store (probeAttempts probe attempts store).2 := by
  induction attempts generalizing store with
  | zero => exact sampling.refl store
  | succ attempts ih =>
    have first := kept store
    rw [FlatStore.probeAttempts]
    split
    · rename_i object next probed
      rw [probed] at first
      exact first
    · rename_i next probed
      rw [probed] at first
      exact sampling.trans first (ih next)

variable (store : FlatStore)

theorem randomAllkeysCandidate : R store store.randomAllkeysCandidate.2 := by
  have drawn : R store (FlatStore.probeAttempts randomProbe kSampleProbeAttempts store).2 :=
    sampling.probeAttempts sampling.nextRandom _ _
  simp only [FlatStore.randomAllkeysCandidate]
  split
  · exact sampling.refl store
  · split
    · rename_i object next found
      rw [found] at drawn
      exact drawn
    · rename_i next missed
      rw [missed] at drawn
      exact sampling.trans drawn (sampling.probeAttempts sampling.cursorProbe _ _)

theorem randomVolatileCandidate
    : R store (store.randomVolatileCandidate env).2 := by
  have sampled := sampling.trans (sampling.nextRandom store) (sampling.randomHash
    store.nextRandom.2 store.nextRandom.1 kSampleProbeAttempts)
  simp only [FlatStore.randomVolatileCandidate]
  split
  · exact sampled
  · split
    · exact sampled
    · rename_i object found
      have carries := (findHash_some found).2.2
      rw [if_neg (by omega)]
      exact sampled

theorem candidate : R store (store.candidate env).2 := by
  rw [FlatStore.candidate]
  split
  · exact sampling.randomVolatileCandidate store
  · exact sampling.randomAllkeysCandidate store

theorem score (object : KvObj) : R store (store.score env object).2 := by
  have aged : R store (if object.evictionMeta = 0 then store
      else store.modifyObject (env.hashKey object.key) object.key object
        (fun held => held.setEvictionMeta (object.evictionMeta - 1))) := by
    split
    · exact sampling.refl store
    · exact sampling.modifyObject store object.key object (fun _ => rfl)
  simp only [FlatStore.score]
  split
  · exact sampling.nextRandom store
  · exact sampling.nextRandom store
  · exact sampling.nextRandom store
  · exact sampling.nextRandom store
  · exact sampling.trans aged (sampling.nextRandom _)
  · exact sampling.trans aged (sampling.nextRandom _)
  · exact sampling.refl store
  · exact sampling.refl store

/-- Choosing a victim keeps what every sample keeps.
Witness: induction over the samples.
-/
theorem chooseVictimLoop (protectedKey : Slice) (samples : Nat) (search : VictimSearch)
    (store : FlatStore)
    : R store (chooseVictimLoop env protectedKey samples search store).2 := by
  induction samples generalizing store search with
  | zero => exact sampling.refl store
  | succ samples ih =>
    have sampled := sampling.candidate store
    rw [FlatStore.chooseVictimLoop]
    split
    · rename_i next missed
      rw [missed] at sampled
      exact sampling.trans sampled (ih search next)
    · rename_i object next found
      rw [found] at sampled
      split
      · exact sampling.trans sampled (ih search next)
      · split
        · exact sampling.trans sampled (ih search next)
        · split
          · exact sampling.trans sampled (ih search next)
          · have scored := sampling.score next object
            split
            · rename_i last refused
              rw [refused] at scored
              exact sampling.trans sampled scored
            · rename_i score last given
              rw [given] at scored
              exact sampling.trans sampled (sampling.trans scored (ih _ last))

end Sampling

theorem sampling_sampled
    : Sampling env (fun before after => before.Sound env → Sampled env before after) where
  refl _ sound := .refl sound
  trans front back sound := (front sound).trans (back (front sound).tended.sound)
  nextRandom _ sound := ⟨.of_same sound rfl rfl ⟨rfl, rfl, rfl, rfl, rfl⟩ rfl id rfl, rfl⟩
  cursorProbe _ sound := ⟨.of_same sound rfl rfl ⟨rfl, rfl, rfl, rfl, rfl⟩ rfl id rfl, rfl⟩
  randomHash store _ _ sound :=
    ⟨.of_same sound rfl rfl ⟨rfl, rfl, rfl, rfl, rfl⟩ rfl id rfl,
      congrArg (fun size => (size, store.counters.expired)) (ExpireIndex.randomHash_size _ _ _)⟩
  modifyObject _ key object _ bare sound :=
    ⟨sound.modifyObject_bare key object bare, by rw [FlatStore.modifyObject]; split <;> rfl⟩

/-- An access changes eviction metadata and nothing else. -/
theorem Sound.touch (sound : store.Sound env) (key : Slice) (object : KvObj)
    : Sampled env store (store.touch (env.hashKey key) key object).2
      ∧ (store.touch (env.hashKey key) key object).1.bare = object.bare := by
  refine ⟨sampling_sampled.touch store key object sound, ?_⟩
  simp only [FlatStore.touch]
  split
  · rfl
  · split
    · rfl
    · rfl

theorem atomicKeyPending_mapParked (f : KvObj → KvObj) (h : BitVec 64) (key : Slice)
    (entries : List AtomicEntry)
    : atomicKeyPending h key (entries.map (AtomicEntry.mapParked f))
      = atomicKeyPending h key entries := by
  have isKey : (fun occurrence => AtomicKey.isKey h key (AtomicKey.mapParked f occurrence))
      = AtomicKey.isKey h key := rfl
  simp [atomicKeyPending, AtomicEntry.mapParked, Function.comp_def, isKey]

/-- Whether a write needs a version does not depend on eviction metadata. -/
theorem SameSettings.atomicNeedsVersion {before after : FlatStore}
    (settings : SameSettings before after) (h : BitVec 64) (key : Slice)
    : after.atomicNeedsVersion h key = before.atomicNeedsVersion h key := by
  have same := settings.atomics
  simp only [AtomicPending.bare, AtomicPending.mk.injEq] at same
  obtain ⟨entries, intents, -⟩ := same
  simp only [FlatStore.atomicNeedsVersion, atomicHasRecord, atomicHasScriptIntent, intents]
  rw [← atomicKeyPending_mapParked KvObj.bare h key after.atomics.entries, entries,
    atomicKeyPending_mapParked]

/-- A key that making room for `protectedKey` may drop. -/
def Evictable (env : StoreEnv) (store : FlatStore) (protectedKey key : Slice) : Prop :=
  key ≠ protectedKey ∧ store.atomicNeedsVersion (env.hashKey key) key = false

theorem Evictable.of_settings {before after : FlatStore} {protectedKey key : Slice}
    (settings : SameSettings before after) (evictable : after.Evictable env protectedKey key)
    : before.Evictable env protectedKey key :=
  ⟨evictable.1, by rw [← settings.atomicNeedsVersion]; exact evictable.2⟩

/-- An object that eviction may choose: one that may be dropped, is stored, and under a volatile
policy has a deadline.
-/
def Victim (env : StoreEnv) (store : FlatStore) (protectedKey : Slice) (object : KvObj) : Prop :=
  store.Evictable env protectedKey object.key ∧ store.content env object.key = some object.bare
    ∧ (store.maxmemory.policy.isVolatile = true → 0 ≤ object.deadline)

theorem Sampled.victim {before after : FlatStore} (sampled : Sampled env before after)
    {protectedKey : Slice} {object : KvObj}
    : after.Victim env protectedKey object ↔ before.Victim env protectedKey object := by
  have content := sampled.tended.content object.key
  rw [if_neg List.not_mem_nil] at content
  rw [Victim, Victim, Evictable, Evictable, sampled.tended.settings.atomicNeedsVersion, content,
    sampled.tended.settings.maxmemory]

/-- What a search promises of a sampled store it promises of the store before. -/
theorem Sampled.onward {next : FlatStore} {protectedKey : Slice} {answer : Option KvObj × FlatStore}
    (step : Sampled env store next) (rest : Sampled env next answer.2
      ∧ ∀ victim, answer.1 = some victim → next.Victim env protectedKey victim)
    : Sampled env store answer.2
      ∧ ∀ victim, answer.1 = some victim → store.Victim env protectedKey victim :=
  ⟨step.trans rest.1, fun victim found => step.victim.mp (rest.2 victim found)⟩

/-- The sampling loop changes only metadata, and its victim may be dropped.
Witness: induction over the samples; a candidate becomes the best one only after both tests.
-/
theorem Sound.chooseVictimLoop (sound : store.Sound env) (protectedKey : Slice) (samples : Nat)
    (search : VictimSearch)
    (fair : ∀ best, search.best = some best → store.Victim env protectedKey best.1)
    : Sampled env store (chooseVictimLoop env protectedKey samples search store).2
      ∧ ∀ victim, (chooseVictimLoop env protectedKey samples search store).1 = some victim
          → store.Victim env protectedKey victim := by
  fun_induction FlatStore.chooseVictimLoop env protectedKey samples search store with
  | case1 search store =>
    refine ⟨.refl sound, fun victim chosen => ?_⟩
    obtain ⟨best, found, rfl⟩ := Option.map_eq_some_iff.mp chosen
    exact fair best found
  | case2 _ search store next found ih | case3 _ search store _ next found _ ih
  | case4 _ search store _ next found _ _ ih | case5 _ search store _ next found _ _ _ ih =>
    have sampled := sampling_sampled.candidate store sound
    rw [found] at sampled
    exact sampled.onward (ih sampled.tended.sound
      fun best found => sampled.victim.mpr (fair best found))
  | case6 _ search store object next found _ _ _ last refused =>
    have sampled := sampling_sampled.candidate store sound
    rw [found] at sampled
    have scored := sampling_sampled.score next object sampled.tended.sound
    rw [refused] at scored
    exact ⟨sampled.trans scored, nofun⟩
  | case7 _ search store object next found other plain _ score last given better ih =>
    have sampled := sampling_sampled.candidate store sound
    rw [found] at sampled
    have scored := sampling_sampled.score next object sampled.tended.sound
    rw [given] at scored
    refine (sampled.trans scored).onward (ih scored.tended.sound fun best chosen =>
      (sampled.trans scored).victim.mpr ?_)
    split at chosen
    · cases chosen
      obtain ⟨member, carries⟩ := candidate_mem found
      refine sampled.victim.mp ⟨⟨other, by simpa using plain⟩,
        (sampled.tended.sound.content_iff _ _).mpr ⟨object, member, rfl, rfl⟩, ?_⟩
      rw [sampled.tended.settings.maxmemory]
      exact carries
    · exact fair best chosen

theorem Sound.chooseVictim (sound : store.Sound env) (protectedKey : Slice)
    : Sampled env store (store.chooseVictim env protectedKey).2
      ∧ ∀ victim, (store.chooseVictim env protectedKey).1 = some victim
          → store.Victim env protectedKey victim :=
  sound.chooseVictimLoop protectedKey _ _ nofun

/-- What making room for a key has done: exactly the logged keys are gone, none of them the
protected key or a key with a pending version; a policy that evicts nothing drops nothing.
-/
structure Evicted (env : StoreEnv) (before after : FlatStore) (protectedKey : Slice)
    (gone : List Slice) : Prop where
  tended : Tended env before after gone gone
  evictable : ∀ key ∈ gone, before.Evictable env protectedKey key
  expires : gone = [] → after.expiryTally = before.expiryTally
  policy : before.maxmemory.policy = .noEviction → gone = []

/-- What evicting for a key has done: `Evicted`, of keys that were stored, each dropped once,
and under a volatile policy only of keys with a deadline.
-/
structure Evictions (env : StoreEnv) (before after : FlatStore) (protectedKey : Slice)
    (gone : List Slice) : Prop extends Evicted env before after protectedKey gone where
  once : gone.Nodup
  stored : ∀ key ∈ gone, ∃ held, before.content env key = some held
    ∧ (before.maxmemory.policy.isVolatile = true → 0 ≤ held.deadline)

/-- What a call that holds `bytes` against the limit has done, whatever it returns. -/
structure Reclaimed (env : StoreEnv) (before : FlatStore) (protectedKey : Slice)
    (bytes : FlatStore → Nat) (after : Bool × FlatStore) : Prop where
  within : after.1 = true → bytes after.2 ≤ before.maxmemory.limit
  evicted : ∃ gone, gone.length ≤ kEvictionsPerOp
    ∧ Evictions env before after.2 protectedKey gone

/-- One victim goes, then those of the later turns, which no longer find it. -/
theorem Evictions.cons {turned last : FlatStore} {protectedKey : Slice} {victim : KvObj}
    {gone : List Slice} (chosen : store.Victim env protectedKey victim)
    (turn : Tended env store turned [victim.key] [victim.key])
    (policy : store.maxmemory.policy ≠ .noEviction)
    (rest : Evictions env turned last protectedKey gone)
    : Evictions env store last protectedKey (victim.key :: gone) := by
  have later : ∀ key ∈ gone, key ≠ victim.key ∧ ∃ held, store.content env key = some held
      ∧ (store.maxmemory.policy.isVolatile = true → 0 ≤ held.deadline) := by
    intro key member
    obtain ⟨held, found, carries⟩ := rest.stored key member
    rw [turn.content, Option.ite_none_left_eq_some, List.mem_singleton] at found
    rw [turn.settings.maxmemory] at carries
    exact ⟨found.1, held, found.2, carries⟩
  refine ⟨⟨by exact turn.trans rest.tended, ?_, nofun, fun none => absurd none policy⟩,
    List.nodup_cons.mpr ⟨fun member => (later _ member).1 rfl, rest.once⟩, ?_⟩
  · intro key member
    rcases List.mem_cons.mp member with rfl | member
    · exact chosen.1
    · exact (rest.evictable key member).of_settings turn.settings
  · intro key member
    rcases List.mem_cons.mp member with rfl | member
    · exact ⟨victim.bare, chosen.2⟩
    · exact (later key member).2

variable (protectedKey : Slice)

/-- A loop that reports success has brought its bytes within the limit. -/
theorem evictLoop_within (bytes : FlatStore → Nat) (budget : Nat) (store : FlatStore)
    (done : (evictLoop env protectedKey bytes budget store).1 = true)
    : bytes (evictLoop env protectedKey bytes budget store).2
      ≤ (evictLoop env protectedKey bytes budget store).2.maxmemory.limit := by
  induction budget generalizing store with
  | zero => simpa [evictLoop, Evictor.loop] using done
  | succ budget ih =>
    rw [evictLoop, Evictor.loop] at done ⊢
    dsimp only [id] at done ⊢
    split
    · assumption
    · rename_i above
      rw [if_neg above] at done
      split at done
      · cases done
      · split at done
        · cases done
        · rename_i smaller
          rw [if_neg smaller]
          exact ih _ done

variable (sound : store.Sound env)

include sound

theorem Evictions.refl (protectedKey : Slice) : Evictions env store store protectedKey [] :=
  ⟨⟨.refl sound, nofun, fun _ => rfl, fun _ => rfl⟩, .nil, nofun⟩

theorem Sound.countEvicted (live : Bool)
    : Tended env store (store.countEvicted live) [] [] :=
  .of_same sound rfl rfl ⟨rfl, rfl, rfl, rfl, rfl⟩ rfl id rfl

/-- Dropping one victim, as the eviction loop does it. -/
theorem Sound.evictOne (key : Slice)
    : Tended env store ((store.recordDelete key).erase env (env.hashKey key) key).2
      [key] [key] := by
  have logged := sound.recordDelete key
  exact logged.trans (logged.sound.erase key).1

variable (protectedKey : Slice) (bytes : FlatStore → Nat)

/-- The eviction loop, within its budget.
Witness: induction over the budget; every turn logs the victim it erases.
-/
theorem Sound.evictLoop (budget : Nat) (policy : store.maxmemory.policy ≠ .noEviction)
    : ∃ gone, gone.length ≤ budget
      ∧ Evictions env store (evictLoop env protectedKey bytes budget store).2
        protectedKey gone := by
  induction budget generalizing store with
  | zero => exact ⟨[], Nat.le_refl 0, .refl sound protectedKey⟩
  | succ budget ih =>
    obtain ⟨sampled, fair⟩ := sound.chooseVictim protectedKey
    rw [FlatStore.evictLoop, Evictor.loop]
    dsimp only [id]
    split
    · exact ⟨[], Nat.zero_le _, .refl sound protectedKey⟩
    · split
      · rename_i next missed
        rw [missed] at sampled
        exact ⟨[], Nat.zero_le _, ⟨sampled.tended, nofun, fun _ => sampled.expires, fun _ => rfl⟩,
          .nil, nofun⟩
      · rename_i victim next found
        rw [found] at sampled fair
        have chosen := fair victim rfl
        have dropped := sampled.tended.trans (sampled.tended.sound.evictOne victim.key)
        split
        · exact ⟨[victim.key], by simp, .cons chosen dropped policy (.refl dropped.sound _)⟩
        · have counted := dropped.trans (dropped.sound.countEvicted
            ((next.recordDelete victim.key).erase env (env.hashKey victim.key) victim.key).1)
          obtain ⟨gone, few, rest⟩ := ih counted.sound
            (by rw [counted.settings.maxmemory]; exact policy)
          exact ⟨victim.key :: gone, Nat.succ_le_succ few, .cons chosen counted policy rest⟩

theorem Sound.reclaim
    : Reclaimed env store protectedKey bytes (reclaim env protectedKey bytes store) := by
  rw [FlatStore.reclaim]
  split
  · rename_i fits
    exact ⟨fun _ => fits, [], Nat.zero_le _, .refl sound protectedKey⟩
  · split
    · exact ⟨nofun, [], Nat.zero_le _, .refl sound protectedKey⟩
    · rename_i evicting
      obtain ⟨gone, few, evictions⟩ := sound.evictLoop protectedKey bytes kEvictionsPerOp evicting
      refine ⟨fun done => ?_, gone, few, evictions⟩
      rw [← evictions.tended.settings.maxmemory]
      exact evictLoop_within protectedKey bytes _ store done

theorem Sound.makeRoomFor (protectedKey : Slice) (incomingBytes : Nat)
    : ∃ gone, Evicted env store (store.makeRoomFor env protectedKey incomingBytes).2 protectedKey
        gone := by
  rw [FlatStore.makeRoomFor]
  split
  · exact ⟨[], (Evictions.refl sound protectedKey).toEvicted⟩
  · obtain ⟨gone, -, evictions⟩ := (sound.reclaim protectedKey _).evicted
    exact ⟨gone, evictions.toEvicted⟩

/-- Admission hands the object on with at most its first eviction metadata. -/
theorem Sound.admitObject (object : KvObj)
    : ∃ gone, Evicted env store (store.admitObject env object).2 object.key gone
      ∧ (store.maxmemory.enabled = false → gone = [] ∧ (store.admitObject env object).1 ≠ none)
      ∧ ∀ admitted, (store.admitObject env object).1 = some admitted
        → admitted.bare = object.bare := by
  rw [FlatStore.admitObject]
  split
  · rename_i limited
    obtain ⟨gone, evicted⟩ := sound.makeRoomFor object.key (kvobjSize object)
    split
    · rename_i next refused
      rw [refused] at evicted
      exact ⟨gone, evicted, fun off => by simp [off] at limited, nofun⟩
    · rename_i next made
      rw [made] at evicted
      refine ⟨gone, evicted, fun off => by simp [off] at limited, fun admitted given => ?_⟩
      cases given
      split
      · rw [initializeMeta]
        split
        · rfl
        · split <;> rfl
      · rfl
  · refine ⟨[], (Evictions.refl sound _).toEvicted, fun _ => ⟨rfl, nofun⟩, fun admitted given => ?_⟩
    cases given
    rfl

end FlatStore

end Thredis.Store
