import Thredis.Store.FlatWrites

/-! Lookups and overwrites in place: whatever a lookup removes was past its deadline, and a
change through a pointer goes to the key it names.
-/

namespace Thredis.Store
open Option Tables.WellFormed

namespace FlatStore

variable {env : StoreEnv} {store : FlatStore}

-- Reaping

/-- A step that drops only keys past their deadline, each of them logged. -/
structure Reaped (env : StoreEnv) (before after : FlatStore) (gone : List Slice) : Prop where
  tended : Tended env before after gone gone
  elapsed : ∀ key ∈ gone, ∃ object, before.content env key = some object
    ∧ object.deadlineElapsed before.cachedNowMs = true

variable {before after : FlatStore}

/-- A step that drops nothing has reaped nothing. -/
theorem Reaped.of_tended (tended : Tended env before after [] [])
    : Reaped env before after [] := ⟨tended, nofun⟩

variable {gone : List Slice}

/-- Reaping composes: the first step keeps the clock and what the second finds dead. -/
theorem Reaped.trans {first second third : FlatStore} {gone' : List Slice}
    (front : Reaped env first second gone) (back : Reaped env second third gone')
    : Reaped env first third (gone ++ gone') := by
  refine ⟨front.tended.trans back.tended, fun key member => ?_⟩
  rcases List.mem_append.mp member with early | late
  · exact front.elapsed key early
  · obtain ⟨object, held, elapsed⟩ := back.elapsed key late
    rw [front.tended.content] at held
    rw [front.tended.settings.now] at elapsed
    split at held
    · cases held
    · exact ⟨object, held, elapsed⟩

def live (env : StoreEnv) (store : FlatStore) (key : Slice) : Option KvObj :=
  (store.content env key).filter (fun object => !object.deadlineElapsed store.cachedNowMs)

variable {key : Slice} {object : KvObj}

section

variable (sound : store.Sound env)

include sound

/-- What either table holds under a key is the key's resident object. -/
theorem Sound.content_of_found {side : Side}
    (found : store.tables.findIn side (env.hashKey key) key = some object)
    : store.tables.resident (env.hashKey key) key = some object := by
  obtain ⟨⟨table, there, held⟩, named⟩ := (findIn_iff sound side key object).mp found
  refine (resident_iff sound key object).mpr ⟨Tables.mem_objects.mpr ?_, named⟩
  cases side with
  | cur => cases there; exact .inl held
  | old => exact .inr ⟨table, there, held⟩

/-- What a lookup of a key has done: an answer leaves the store alone, a miss may have
reaped the key.
-/
structure LookedUp (env : StoreEnv) (store : FlatStore) (key : Slice)
    (result : Option KvObj × FlatStore) : Prop where
  reaped : ∃ gone, Reaped env store result.2 gone ∧ (gone = [] → result.2 = store)
  answer : result.1 = (store.tables.resident (env.hashKey key) key).filter
    (fun object => !object.deadlineElapsed store.cachedNowMs)
  hit : result.1 ≠ none → result.2 = store

/-- A live object is answered and a dead one reaped, except from a frozen table. -/
theorem Sound.liveOrExpire {side : Side}
    (found : store.tables.findIn side (env.hashKey key) key = some object)
    : LookedUp env store key (store.liveOrExpire side (env.hashKey key) key object) := by
  have resident := sound.content_of_found found
  have content : store.content env key = some object.bare := by
    rw [content, resident, map_some]
  have answer : (store.tables.resident (env.hashKey key) key).filter
      (fun object => !object.deadlineElapsed store.cachedNowMs)
        = if !object.deadlineElapsed store.cachedNowMs then some object else none := by
    rw [resident, filter_some]
  rw [FlatStore.liveOrExpire]
  cases elapsed : object.deadlineElapsed store.cachedNowMs with
  | false =>
    exact ⟨⟨[], .of_tended (.refl sound), fun _ => rfl⟩, by rw [answer, elapsed]; rfl, fun _ => rfl⟩
  | true =>
    simp only [Bool.not_true, Bool.false_eq_true, if_false]
    split
    · exact ⟨⟨[], .of_tended (.refl sound), fun _ => rfl⟩, by rw [answer, elapsed]; rfl,
        fun _ => rfl⟩
    · have logged := sound.recordDelete key
      -- the object is still where the lookup found it
      obtain ⟨erased, removed⟩ : ∃ erased,
          (store.recordDelete key).eraseIn side (env.hashKey key) key = some erased := by
        cases erasure : (store.recordDelete key).eraseIn side (env.hashKey key) key with
        | some erased => exact ⟨erased, rfl⟩
        | none =>
          have absent := (eraseIn_none logged.sound).mp (map_eq_none_iff.mp erasure)
          obtain ⟨⟨table, there, held⟩, named⟩ := (findIn_iff sound side key object).mp found
          exact absurd named (absent table there object held)
      have both := removed
      obtain ⟨dropped, -⟩ := logged.sound.eraseIn_some both
      have tended := (logged.trans dropped).trans (dropped.sound.countExpired true)
      rw [removed]
      refine ⟨⟨[key], ⟨by exact tended, ?_⟩, by simp⟩,
        by rw [answer, elapsed]; rfl, by simp⟩
      intro other member
      rw [List.mem_singleton.mp member]
      exact ⟨object.bare, content, elapsed⟩

/-- A key in neither table is answered without a change. -/
theorem LookedUp.miss (missing : store.tables.resident (env.hashKey key) key = none)
    : LookedUp env store key (none, store) :=
  ⟨⟨[], .of_tended (.refl sound), fun _ => rfl⟩, by simp [missing], fun _ => rfl⟩

/-- The old table answers only where the current one holds nothing of the key. -/
theorem Sound.findWithoutTouch (key : Slice)
    : LookedUp env store key (store.findWithoutTouch (env.hashKey key) key) := by
  rw [FlatStore.findWithoutTouch]
  split
  · rename_i object found
    exact sound.liveOrExpire found
  · rename_i missing
    rw [lookupIn]
    split
    · rename_i object found
      exact sound.liveOrExpire found
    · rename_i nowhere
      exact .miss sound (by rw [Tables.resident, missing, nowhere]; rfl)

end

theorem liveOrExpire_old (store : FlatStore) (h : BitVec 64) (key : Slice) (object : KvObj)
    : (store.liveOrExpire .cur h key object).2.tables.old = store.tables.old := by
  rw [liveOrExpire]
  split
  · rfl
  · split
    · rfl
    · cases erased : (store.recordDelete key).eraseIn .cur h key with
      | none => simp only [erased]; rfl
      | some result =>
        simp only [erased]
        obtain ⟨⟨object, tables⟩, removed, rfl⟩ := map_eq_some_iff.mp erased
        obtain ⟨table, -, inTable⟩ := bind_eq_some_iff.mp removed
        obtain ⟨result, -, same⟩ := map_eq_some_iff.mp inTable
        cases same
        rfl

/-- The physical lookup of `find` answers as `find_without_touch` does: a key found in the
current table is not in the old one.
-/
theorem Sound.lookup_eq (sound : store.Sound env) (key : Slice)
    : store.lookup (env.hashKey key) key = store.findWithoutTouch (env.hashKey key) key := by
  rw [FlatStore.lookup, FlatStore.findWithoutTouch, lookupIn]
  cases found : store.tables.findIn .cur (env.hashKey key) key with
  | none => rfl
  | some object =>
    have unmoved := liveOrExpire_old store (env.hashKey key) key object
    have nowhere := eq_none_iff_forall_ne_some.mpr fun _ => findIn_apart sound found
    dsimp only
    cases answered : store.liveOrExpire .cur (env.hashKey key) key object with
    | mk answer after =>
      rw [answered] at unmoved
      cases answer with
      | some live => rfl
      | none =>
        have still : after.tables.findIn .old (env.hashKey key) key = none := by
          rw [Tables.findIn, Tables.table, unmoved]
          exact nowhere
        dsimp only
        rw [lookupIn, still]

/-- `find` reaps at most its key, and without pending records answers what the key holds. -/
structure Found (env : StoreEnv) (store : FlatStore) (key : Slice)
    (result : Option KvObj × FlatStore) : Prop where
  reaped : ∃ gone, Reaped env store result.2 gone ∧ (result.1 ≠ none → gone = [])
    ∧ (gone = [] → result.2.expiryTally = store.expiryTally)
    ∧ (store.atomics.entries ≠ [] → gone = [])
  answer : store.atomics.entries = [] → result.1.map KvObj.bare = store.live env key

/-- Without pending records the answer of a lookup is that of `find`. -/
theorem LookedUp.found {result : Option KvObj × FlatStore}
    (looked : LookedUp env store key result) (settled : store.atomics.entries = [])
    : Found env store key result := by
  obtain ⟨⟨gone, reaped, same⟩, answer, hit⟩ := looked
  refine ⟨?_, fun _ => ?_⟩
  · by_cases missed : result.1 = none
    · exact ⟨gone, reaped, absurd missed, fun none => by rw [same none],
        absurd settled⟩
    · rw [hit missed] at reaped ⊢
      exact ⟨[], .of_tended (.refl reaped.tended.sound), fun _ => rfl, fun _ => rfl, fun _ => rfl⟩
  · rw [answer, live, content]
    cases store.tables.resident (env.hashKey key) key with
    | none => rfl
    | some object =>
      rw [map_some, filter_some, filter_some, KvObj.bare_deadlineElapsed]
      split <;> rfl

/-- By the records: without any it is a lookup, else it changes nothing. -/
theorem Sound.findValue (sound : store.Sound env) (key : Slice)
    : Found env store key (store.findValue env (env.hashKey key) key) := by
  rw [FlatStore.findValue]
  split
  · rename_i settled
    rw [sound.lookup_eq]
    exact (sound.findWithoutTouch key).found (List.isEmpty_iff.mp settled)
  · rename_i pending
    exact ⟨⟨[], .of_tended (.refl sound), fun _ => rfl, fun _ => rfl, fun _ => rfl⟩,
      fun none => absurd (by rw [none]; rfl) pending⟩

/-- Behind `findValue`, a touch of what was found changes its eviction metadata. -/
theorem Sound.find (sound : store.Sound env) (key : Slice)
    : Found env store key (store.find env (env.hashKey key) key) := by
  have valued := sound.findValue key
  rw [FlatStore.find]
  split
  · rename_i next missed
    rw [missed] at valued
    exact valued
  · rename_i object next hit
    rw [hit] at valued
    split
    · obtain ⟨⟨gone, reaped, quiet, tracked, -⟩, answer⟩ := valued
      obtain ⟨sampled, bare⟩ := reaped.tended.sound.touch key object
      cases quiet nofun
      refine ⟨⟨[], by exact reaped.trans (.of_tended sampled.tended), fun _ => rfl,
        fun none => sampled.expires.trans (tracked none), fun _ => rfl⟩, fun none => ?_⟩
      rw [← answer none]
      exact congrArg some bare
    · exact valued

/-- What every owner operation leaves alone or keeps. -/
structure Steady (env : StoreEnv) (pace : Nat) (before after : FlatStore) : Prop where
  sound : after.Sound env
  now : after.cachedNowMs = before.cachedNowMs
  maxmemory : after.maxmemory = before.maxmemory
  noTouch : after.noTouch = before.noTouch
  snapshot : after.snapshot = before.snapshot
  entries : before.atomics.entries = [] → after.atomics.entries = []
  granted : before.allocations = [] → after.allocations = []
  room : before.tables.Roomy pace 0
    → after.tables.Roomy pace 0 ∧ after.rehashRefused = before.rehashRefused
  planned : before.snapshot.prepared = true → after.tables.cur.cap = before.tables.cur.cap

theorem SameSettings.entries (settings : SameSettings before after)
    (none : before.atomics.entries = []) : after.atomics.entries = [] := by
  have same := congrArg AtomicPending.entries settings.atomics
  simp only [AtomicPending.bare, none] at same
  exact List.map_eq_nil_iff.mp same

variable {pace : Nat}

/-- A tending step loses no room, so it is steady at either pace. -/
theorem Tended.steady {logged : List Slice}
    (tended : Tended env before after gone logged) (small : pace ≤ 1)
    : Steady env pace before after :=
  { tended, tended.settings with
    entries := tended.settings.entries
    room := tended.room pace small 0 (Nat.zero_le 1) }

theorem Steady.trans {first second third : FlatStore}
    (front : Steady env pace first second) (back : Steady env pace second third)
    : Steady env pace first third where
  sound := back.sound
  now := back.now.trans front.now
  maxmemory := back.maxmemory.trans front.maxmemory
  noTouch := back.noTouch.trans front.noTouch
  snapshot := back.snapshot.trans front.snapshot
  entries := fun none => back.entries (front.entries none)
  granted := fun none => back.granted (front.granted none)
  room := fun room =>
    let middle := front.room room
    let last := back.room middle.1
    ⟨last.1, last.2.trans middle.2⟩
  planned := fun prepared =>
    (back.planned (by rw [front.snapshot]; exact prepared)).trans (front.planned prepared)

theorem Wrote.steady (wrote : Wrote env before after object gone) (room : before.tables.Roomy pace 0
      → after.tables.Roomy pace 0 ∧ after.rehashRefused = before.rehashRefused)
    : Steady env pace before after :=
  { wrote, wrote.settings with entries := wrote.settings.entries, room }

/-- A change of value or deadline through a pointer disturbs no table. -/
theorem Sound.modifyObject (sound : store.Sound env) (pace : Nat) (key : Slice)
    (object : KvObj) {f : KvObj → KvObj} (named : ∀ held, (f held).key = held.key)
    : Steady env pace store (store.modifyObject (env.hashKey key) key object f) := by
  rw [FlatStore.modifyObject]
  split
  · rename_i pointed
    obtain ⟨held, found, -⟩ := (any_eq_true _ _).mp pointed
    have modified := modify_some sound found f (named held)
    exact ⟨modified.wellFormed, rfl, rfl, rfl, rfl, id, id,
      fun room => ⟨room.framed modified.framed (by rw [modified.load]), rfl⟩,
      fun _ => modified.framed.cap⟩
  · exact ⟨sound, rfl, rfl, rfl, rfl, fun none => by simp [none], id, fun room => ⟨room, rfl⟩,
      fun _ => rfl⟩

/-- A change through a pointer to what a key holds is a write of the changed object. -/
theorem Sound.modifyObject_wrote (sound : store.Sound env)
    {f : KvObj → KvObj} (held : store.content env key = some object.bare)
    (named : ∀ held, (f held).key = held.key) (bare : ∀ held, (f held).bare = f held.bare)
    : Wrote env store (store.modifyObject (env.hashKey key) key object f) (f object) [] := by
  obtain ⟨resident, found, same⟩ := map_eq_some_iff.mp held
  obtain ⟨member, isKey⟩ := (resident_iff sound key resident).mp found
  have addr : resident.bare.addr = object.bare.addr := by rw [same]
  rw [KvObj.bare_addr] at addr
  have key_eq : object.key = key := by
    rw [← KvObj.bare_key, ← same, KvObj.bare_key, isKey]
  have modified := modify_some sound found f (named resident)
  rw [FlatStore.modifyObject, if_pos (by simp [found, addr])]
  refine ⟨modified.wellFormed, fun other => ?_, by simp, ⟨rfl, rfl, rfl, rfl, rfl⟩, id,
    fun _ => modified.framed.cap⟩
  have after : ({ store with tables := store.tables.modify (env.hashKey key) key f }).content
      env other = _ := sound.content_modified (named resident) modified other
  rw [after, named, key_eq, isKey, bare resident, same, ← bare object]
  simp

-- Overwrites

/-- Whether an evicting policy may give up `other` to make room for `key`. -/
def MayEvict (env : StoreEnv) (store : FlatStore) (key other : Slice) : Prop :=
  store.Evictable env key other ∧ store.maxmemory.enabled = true
    ∧ store.maxmemory.policy ≠ .noEviction

theorem MayEvict.of_settings {other : Slice}
    (settings : SameSettings before after) (mayEvict : after.MayEvict env key other)
    : before.MayEvict env key other := by
  obtain ⟨evictable, limited, policy⟩ := mayEvict
  rw [settings.maxmemory] at limited policy
  exact ⟨evictable.of_settings settings, limited, policy⟩

/-- Why a call about `key` may drop other keys: they are past their deadline, or an evicting
policy gave them up.
-/
def Drops (env : StoreEnv) (store : FlatStore) (key : Slice) (gone : List Slice) : Prop :=
  ∀ other ∈ gone, (∃ object, store.content env other = some object
      ∧ object.deadlineElapsed store.cachedNowMs = true)
    ∨ store.MayEvict env key other

/-- Reaped keys go for their deadlines. -/
theorem Reaped.drops
    (reaped : Reaped env store after gone) (key : Slice) : Drops env store key gone :=
  fun other member => .inl (reaped.elapsed other member)

/-- Evicted keys go by the policy. -/
theorem Evicted.drops
    (evicted : Evicted env store after key gone) (enabled : store.maxmemory.enabled = true)
    : Drops env store key gone := by
  refine fun other member => .inr ⟨evicted.evictable other member, enabled, fun policy => ?_⟩
  rw [evicted.policy policy] at member
  cases member

section

variable {result : InsertResult} (effect : InsertEffect env store object result after gone)

include result effect

theorem InsertEffect.mayEvict
    : ∀ other ∈ gone, store.MayEvict env object.key other := by
  intro other member
  refine ⟨effect.evictable other member, ?_, fun policy => ?_⟩
  · cases limited : store.maxmemory.enabled with
    | true => rfl
    | false =>
      rw [effect.unlimited limited] at member
      cases member
  · rw [effect.policy policy] at member
    cases member

/-- So do those an insert gives up. -/
theorem InsertEffect.drops
    : Drops env store object.key gone :=
  fun other member => .inr (effect.mayEvict other member)

end

/-- An overwrite in place is a write of the object with its new value. -/
theorem Sound.overwriteValue (sound : store.Sound env)
    (value : Slice) (held : store.content env key = some object.bare)
    : Wrote env store (store.overwriteValue (env.hashKey key) key object value)
        { object with value } []
      ∧ ∀ pace, Steady env pace store
          (store.overwriteValue (env.hashKey key) key object value) := by
  have wrote := sound.modifyObject_wrote (f := fun held => { held with value }) held
    (fun _ => rfl) (fun _ => rfl)
  refine ⟨{ wrote with settings := ⟨wrote.settings.now,
    wrote.settings.maxmemory, wrote.settings.noTouch, wrote.settings.snapshot,
    wrote.settings.atomics⟩ }, fun pace => ?_⟩
  have steady := sound.modifyObject pace key object (f := fun held => { held with value })
    (fun _ => rfl)
  exact { steady with }

/-- What a call that may write `key` has done. -/
structure WriteEffect (env : StoreEnv) (store : FlatStore) (key : Slice) (after : FlatStore)
    (gone : List Slice) (updated : Prop) (written : KvObj → KvObj → Prop) : Prop where
  drops : Drops env store key gone
  kept : ¬ updated → Tended env store after gone gone
  wrote : updated → ∃ object fresh, store.live env key = some object.bare
    ∧ written object fresh ∧ Wrote env store after fresh gone

/-- A lookup that answers has changed nothing and found the key alive. -/
theorem LookedUp.live (looked : LookedUp env store key (some object, after))
    : after = store ∧ store.live env key = some object.bare
      ∧ store.content env key = some object.bare := by
  have same := looked.hit nofun
  have answer := looked.answer
  obtain ⟨resident, unexpired⟩ := filter_eq_some_iff.mp answer.symm
  have content : store.content env key = some object.bare := by
    rw [content, resident, map_some]
  refine ⟨same, ?_, content⟩
  rw [FlatStore.live, content, filter_some, KvObj.bare_deadlineElapsed, if_pos unexpired]

/-- By the tests of `try_overwrite`: a miss reaps, a limit evicts, and only the last branch
writes.
-/
theorem Sound.tryOverwrite (sound : store.Sound env) (key value : Slice)
    : (∃ gone, WriteEffect env store key (store.tryOverwrite env (env.hashKey key) key value).2 gone
          ((store.tryOverwrite env (env.hashKey key) key value).1 = .updated)
          (fun object fresh => fresh = { object with value }))
      ∧ ∀ pace ≤ 1, Steady env pace store
          (store.tryOverwrite env (env.hashKey key) key value).2 := by
  have looked := sound.findWithoutTouch key
  rw [FlatStore.tryOverwrite]
  split
  · rename_i next missed
    rw [missed] at looked
    obtain ⟨gone, reaped, -⟩ := looked.reaped
    exact ⟨⟨gone, reaped.drops key, fun _ => reaped.tended, nofun⟩,
      fun pace => reaped.tended.steady⟩
  · rename_i object next hit
    rw [hit] at looked
    obtain ⟨rfl, live, held⟩ := looked.live
    split
    · exact ⟨⟨[], nofun, fun _ => .refl sound, nofun⟩,
        fun pace small => (Tended.refl sound).steady small⟩
    · split
      · rename_i limited
        obtain ⟨gone, evicted⟩ := sound.makeRoomFor key
          (goodSize (kvobjAllocSize object.key.length value.length false .raw))
        dsimp only
        split
        · rename_i after refused
          rw [refused] at evicted
          exact ⟨⟨gone, evicted.drops limited, fun _ => evicted.tended, nofun⟩,
            fun pace => evicted.tended.steady⟩
        · rename_i ready granted
          rw [granted] at evicted
          have spared : key ∉ gone := fun member => (evicted.evictable key member).1 rfl
          obtain ⟨sampled, bare⟩ := evicted.tended.sound.touch key object
          have tended := evicted.tended.trans sampled.tended
          rw [List.append_nil] at tended
          have still : (ready.touch (env.hashKey key) key object).2.content env key
              = some (ready.touch (env.hashKey key) key object).1.bare := by
            rw [tended.content, if_neg spared, bare, held]
          obtain ⟨wrote, steady⟩ := tended.sound.overwriteValue value still
          refine ⟨⟨gone, evicted.drops limited, absurd rfl, fun _ =>
            ⟨object, _, live, rfl, ?_⟩⟩,
            fun pace small => (tended.steady small).trans (steady pace)⟩
          simpa using wrote.after_tended tended
            (congrArg (fun held => { held with value }) bare)
      · obtain ⟨wrote, steady⟩ := sound.overwriteValue value held
        exact ⟨⟨[], nofun, absurd rfl, fun _ => ⟨object, _, live, rfl, wrote⟩⟩,
          fun pace _ => steady pace⟩

end FlatStore

end Thredis.Store
