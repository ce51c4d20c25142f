import Thredis.Lib.TimedMap
import Thredis.Store.FlatExpiry

/-! The store as a map from keys to values with deadlines: the owner's calls, the map they
maintain, and the refinement of every call.
-/

namespace Thredis.Store
open Thredis.Lib Option TimedMap Entry

inductive Call where
  | insert (object : KvObj)
  | erase (key : Slice)
  | find (key : Slice)
  | tryOverwrite (key value : Slice)
  | setExpire (key : Slice) (addr : Nat) (expireAtMs : Int)
  | persist (key : Slice)
  | activeExpire (budget : Nat)
  | clear
  | rehashStep
  deriving DecidableEq, Repr

inductive Reply where
  | insert (result : InsertResult)
  | erase (live : Bool)
  | find (value : Option KvObj)
  | overwrite (result : OverwriteResult)
  | ttl (result : TtlResult)
  | swept (removed : Nat)
  | done
  deriving DecidableEq, Repr

def Call.key : Call → Option Slice
  | .insert object => some object.key
  | .erase key => some key
  | .find key => some key
  | .tryOverwrite key _ => some key
  | .setExpire key _ _ => some key
  | .persist key => some key
  | .activeExpire _ => none
  | .clear => none
  | .rehashStep => none

def FlatStore.call (env : StoreEnv) (store : FlatStore) : Call → Reply × FlatStore
  | .insert object =>
    let result := store.insert env (env.hashKey object.key) object
    (.insert result.1, result.2)
  | .erase key =>
    let result := store.erase env (env.hashKey key) key
    (.erase result.1, result.2)
  | .find key =>
    let result := store.find env (env.hashKey key) key
    (.find result.1, result.2)
  | .tryOverwrite key value =>
    let result := store.tryOverwrite env (env.hashKey key) key value
    (.overwrite result.1, result.2)
  | .setExpire key addr expireAtMs =>
    let result := store.setExpire env (env.hashKey key) key addr expireAtMs
    (.ttl result.1, result.2)
  | .persist key =>
    let result := store.persist env (env.hashKey key) key
    (.ttl result.1, result.2)
  | .activeExpire budget =>
    let result := store.activeExpire env budget
    (.swept result.1, result.2)
  | .clear => (.done, store.clear)
  | .rehashStep => (.done, store.rehashStep env)

abbrev Keyspace := TimedMap Slice Entry

namespace Keyspace

/-- The map after a call, given its reply and the keys the store gave up under it. -/
def apply (map : Keyspace) (now : Int) (gone : List Slice) (call : Call) (reply : Reply)
    : Keyspace :=
  let kept := map.evict (Entry.due now) gone
  match call, reply with
  | .insert object, .insert .inserted => kept.put object.key object.entry
  | .erase key, _ => kept.drop [key]
  | .tryOverwrite key value, .overwrite .updated =>
    kept.alter key (fun entry => { entry with value := value })
  | .setExpire key _ expireAtMs, .ttl .updated =>
    kept.alter key (fun entry => entry.redate expireAtMs)
  | .persist key, .ttl .updated => kept.alter key (fun entry => entry.redate kNoTtlDeadline)
  | .clear, _ => TimedMap.empty
  | _, _ => kept

def Allows (map : Keyspace) (now : Int) (call : Call) (reply : Reply) : Prop :=
  let shown := map.visible (Entry.due now)
  match call, reply with
  | .insert _, .insert _ => True
  | .erase key, .erase live => live = (shown key).isSome
  | .find key, .find value => value.map KvObj.entry = shown key
  | .tryOverwrite key _, .overwrite result => result = .updated → (shown key).isSome = true
  | .setExpire key _ _, .ttl result => result = .missing ↔ shown key = none
  | .persist key, .ttl result =>
    (result = .missing ↔ shown key = none)
    ∧ (result = .noChange ↔ ∃ entry, shown key = some entry ∧ entry.expiry = none)
    ∧ result ∈ [.missing, .noChange, .updated]
  | .activeExpire _, .swept _ => True
  | .clear, .done => True
  | .rehashStep, .done => True
  | _, _ => False

end Keyspace

namespace FlatStore

variable {env : StoreEnv} {store : FlatStore}

def Shows (env : StoreEnv) (store : FlatStore) (map : Keyspace) : Prop :=
  ∀ key, (store.live env key).map KvObj.entry = map.visible (Entry.due store.cachedNowMs) key

variable {before after : FlatStore}

theorem Tended.live {gone logged : List Slice}
    (tended : Tended env before after gone logged) (key : Slice)
    : after.live env key = if key ∈ gone then none else before.live env key := by
  rw [FlatStore.live, tended.content, tended.settings.now]
  split <;> rfl

variable {map : Keyspace}

/-- Reaping shows as the map without what was reaped. -/
theorem Tended.shows {gone logged : List Slice}
    (tended : Tended env before after gone logged) (shows : before.Shows env map)
    : after.Shows env (map.evict (due before.cachedNowMs) gone) := by
  intro key
  rw [tended.live, tended.settings.now, visible_evict, ← shows key]
  split <;> rfl

variable {gone : List Slice}

/-- A write shows as the map with the new entry put. -/
theorem Wrote.shows {fresh : KvObj} (wrote : Wrote env before after fresh gone)
    (shows : before.Shows env map)
    : after.Shows env ((map.evict (due before.cachedNowMs) gone).put fresh.key fresh.entry) := by
  intro key
  rw [live, wrote.content, wrote.settings.now, visible_put, visible_evict, ← shows key]
  split
  · rw [filter_some, filter_some, KvObj.bare_deadlineElapsed,
      KvObj.entry_due]
    split <;> rfl
  · split <;> rfl

theorem Shows.later (shows : store.Shows env map) {now : Int}
    (order : store.cachedNowMs ≤ now) : (store.setCachedNowMs now).Shows env map := by
  intro key
  show ((store.setCachedNowMs now).live env key).map KvObj.entry = map.visible (due now) key
  rw [visible_later (due_later order), visible, ← shows key, live, live]
  show ((store.content env key).filter (fun object => !object.deadlineElapsed now)).map _ = _
  cases store.content env key with
  | none => rfl
  | some object =>
    have grows := due_later order object.entry
    rw [KvObj.entry_due, KvObj.entry_due] at grows
    rw [filter_some, filter_some]
    cases early : object.deadlineElapsed store.cachedNowMs with
    | true => simp [grows early]
    | false =>
      simp only [Bool.not_false, if_true, map_some, filter_some, KvObj.entry_due]
      split <;> rfl

-- Every call refines the map

/-- The state the owner's calls start from: a sound store with room for every migration it
may be in, no capture, no pending record, and an allocator that grants every request.
-/
structure Ready (env : StoreEnv) (store : FlatStore) : Prop where
  sound : store.Sound env
  room : store.tables.Roomy 1 0
  unprepared : store.snapshot.prepared = false
  inactive : store.snapshot.active = false
  records : store.atomics.entries = []
  granted : store.allocations = []

theorem Ready.of_steady (ready : store.Ready env)
    (steady : Steady env 1 store after) : after.Ready env where
  sound := steady.sound
  room := (steady.room ready.room).1
  unprepared := by rw [steady.snapshot]; exact ready.unprepared
  inactive := by rw [steady.snapshot]; exact ready.inactive
  records := steady.entries ready.records
  granted := steady.granted ready.granted

theorem Ready.base (ready : store.Ready env) : store.tables.Roomy 0 0 :=
  ⟨by have := ready.room.cur; omega, ready.room.old⟩

/-- What a call has done, seen from the map: `gone` are the keys the store gave up. -/
structure Refines (env : StoreEnv) (store : FlatStore) (map : Keyspace) (call : Call)
    (result : Reply × FlatStore) (gone : List Slice) : Prop where
  steady : Steady env 1 store result.2
  deletes : result.2.deletes = store.deletes ++ gone
  shows : result.2.Shows env (map.apply store.cachedNowMs gone call result.1)
  allows : map.Allows store.cachedNowMs call result.1
  evicted : ∀ key ∈ gone, map.visible (Entry.due store.cachedNowMs) key ≠ none
    → call.key ≠ some key ∧ store.maxmemory.enabled = true ∧ store.maxmemory.policy ≠ .noEviction

variable {key : Slice}

/-- A dropped key that still shows was evicted. -/
theorem Drops.evicted (drops : Drops env store key gone) (shows : store.Shows env map)
    : ∀ other ∈ gone, map.visible (due store.cachedNowMs) other ≠ none
      → some key ≠ some other ∧ store.maxmemory.enabled = true
        ∧ store.maxmemory.policy ≠ .noEviction := by
  intro other member shown
  rcases drops other member with ⟨object, held, elapsed⟩ | ⟨evictable, limited⟩
  · refine absurd ?_ shown
    rw [← shows other, live, held, filter_some, elapsed]
    rfl
  · exact ⟨fun same => evictable.1 (some.inj same).symm, limited⟩

/-- A call that reaps or evicts and writes nothing. -/
theorem Refines.of_tended {call : Call} {reply : Reply} (tended : Tended env store after gone gone)
    (shows : store.Shows env map) (drops : Drops env store key gone) (about : call.key = some key)
    (keeps : map.apply store.cachedNowMs gone call reply = map.evict (due store.cachedNowMs) gone)
    (allows : map.Allows store.cachedNowMs call reply)
    : Refines env store map call (reply, after) gone where
  steady := tended.steady (Nat.le_refl 1)
  deletes := tended.deletes
  shows := by
    rw [keeps]
    exact tended.shows shows
  allows
  evicted := about ▸ drops.evicted shows

/-- A call that changes the entry its key shows. -/
theorem Refines.of_wrote {call : Call} {reply : Reply} {object fresh : KvObj} {f : Entry → Entry}
    (wrote : Wrote env store after fresh gone) (steady : Steady env 1 store after)
    (shows : store.Shows env map) (drops : Drops env store key gone) (about : call.key = some key)
    (live : store.live env key = some object.bare) (named : fresh.key = key)
    (entry : fresh.entry = f object.entry) (alters : map.apply store.cachedNowMs gone call reply
      = (map.evict (due store.cachedNowMs) gone).alter key f)
    (allows : map.Allows store.cachedNowMs call reply)
    : Refines env store map call (reply, after) gone := by
  have evicted := drops.evicted shows
  have shown : map.visible (due store.cachedNowMs) key = some object.entry := by
    rw [← shows key, live]
    rfl
  -- a key that shows is not among those its own call gives up
  have spared : key ∉ gone := fun member =>
    (evicted key member (by rw [shown]; exact some_ne_none _)).1 rfl
  refine ⟨steady, wrote.deletes, ?_, allows, about ▸ evicted⟩
  have still : (map.evict (due store.cachedNowMs) gone).visible
      (due store.cachedNowMs) key = some object.entry := by
    rw [visible_evict, if_neg spared, shown]
  rw [alters, alter_eq_put f still, ← entry, ← named]
  exact wrote.shows shows

variable (ready : store.Ready env) (shows : store.Shows env map)

include ready shows

/-- An insert refines the map; without a memory limit, it succeeds while the table can grow. -/
theorem Ready.insert (object : KvObj)
    : ∃ gone, Refines env store map (.insert object) (store.call env (.insert object)) gone
      ∧ (store.maxmemory.enabled = false → growCap store.tables.cur ≤ kUInt32Max
        → (store.call env (.insert object)).1 = .insert .inserted) := by
  obtain ⟨gone, effect⟩ := ready.sound.insert object
  simp only [call]
  generalize store.insert env (env.hashKey object.key) object = result at effect
  obtain ⟨answer, after⟩ := result
  refine ⟨gone, ?_, fun unlimited fits => ?_⟩
  · cases answer with
    | inserted =>
      have wrote := effect.wrote rfl
      refine ⟨wrote.steady (fun _ => effect.room 1 ?_), wrote.deletes, wrote.shows shows, trivial,
        effect.drops.evicted shows⟩
      exact ⟨Nat.le_refl 1, ready.room, fun _ => ⟨ready.unprepared, ready.inactive⟩, nofun⟩
    | maxmemoryOom | failed =>
      exact .of_tended (effect.kept nofun ready.base).1 shows effect.drops rfl rfl trivial
  · cases answer with
    | inserted => rfl
    | maxmemoryOom => exact absurd (effect.oom rfl) (by simp [unlimited])
    | failed =>
      have wide := (effect.failed rfl ready.granted ready.base ready.unprepared ready.inactive).2
      omega

theorem Ready.erase (key : Slice)
    : Refines env store map (.erase key) (store.call env (.erase key)) [] := by
  obtain ⟨tended, answer⟩ := ready.sound.erase key
  simp only [call]
  refine ⟨tended.steady (Nat.le_refl 1), by exact tended.deletes, fun other => ?_, ?_, nofun⟩
  · have shown := tended.shows shows other
    rw [tended.settings.now, visible_evict] at shown
    simp only [Keyspace.apply]
    rw [tended.settings.now, shown, visible_drop, visible_evict]
    simp
  · simp only [Keyspace.Allows]
    rw [answer, ← shows key, live]
    cases store.content env key with
    | none => rfl
    | some object =>
      cases elapsed : object.deadlineElapsed store.cachedNowMs <;> simp

theorem Ready.find (key : Slice)
    : ∃ gone, Refines env store map (.find key) (store.call env (.find key)) gone := by
  obtain ⟨⟨gone, reaped, -⟩, answer⟩ := ready.sound.find key
  refine ⟨gone, .of_tended reaped.tended shows (reaped.drops key) rfl rfl ?_⟩
  simp only [Keyspace.Allows]
  rw [← shows key, ← answer ready.records, map_map]
  rfl

theorem Ready.tryOverwrite (key value : Slice)
    : ∃ gone, Refines env store map (.tryOverwrite key value)
        (store.call env (.tryOverwrite key value)) gone := by
  obtain ⟨⟨gone, effect⟩, steady⟩ := ready.sound.tryOverwrite key value
  have kept := steady 1 (Nat.le_refl 1)
  simp only [call]
  generalize store.tryOverwrite env (env.hashKey key) key value = result at effect kept
  obtain ⟨answer, after⟩ := result
  refine ⟨gone, ?_⟩
  cases answer with
  | updated =>
    obtain ⟨object, fresh, live, rfl, wrote⟩ := effect.wrote rfl
    have named := ready.sound.live_key live
    exact .of_wrote wrote kept shows effect.drops rfl live named rfl rfl
      (fun _ => by rw [← shows key, live]; rfl)
  | notPossible => exact .of_tended (effect.kept nofun) shows effect.drops rfl rfl nofun
  | maxmemoryOom => exact .of_tended (effect.kept nofun) shows effect.drops rfl rfl nofun

/-- A change of deadline, as the map sees it. -/
theorem TtlEffect.refines {call : Call} {expireAtMs : Int} {result : TtlResult × FlatStore}
    (effect : TtlEffect env store key expireAtMs result gone) (steady : Steady env 1 store result.2)
    (about : call.key = some key) (alters : map.apply store.cachedNowMs gone call (.ttl .updated)
      = (map.evict (due store.cachedNowMs) gone).alter key (fun entry => entry.redate expireAtMs))
    (keeps : ∀ reply ≠ TtlResult.updated, map.apply store.cachedNowMs gone call (.ttl reply)
      = map.evict (due store.cachedNowMs) gone)
    (allows : map.Allows store.cachedNowMs call (.ttl result.1))
    : Refines env store map call (.ttl result.1, result.2) gone := by
  by_cases updated : result.1 = .updated
  · obtain ⟨object, fresh, live, entry, named, wrote⟩ := effect.wrote ready.records updated
    exact .of_wrote wrote steady shows effect.drops about live named entry (by rw [updated, alters])
      allows
  · exact .of_tended (effect.kept updated ready.base).1 shows effect.drops about
      (keeps _ updated) allows

theorem Ready.setExpire (key : Slice) (addr : Nat) (expireAtMs : Int)
    : ∃ gone, Refines env store map (.setExpire key addr expireAtMs)
        (store.call env (.setExpire key addr expireAtMs)) gone := by
  have answer := (ready.sound.find key).answer ready.records
  obtain ⟨⟨gone, effect⟩, steady⟩ := ready.sound.setExpire key addr expireAtMs
    (fun object found => ready.sound.live_key (by rw [← answer, found]; rfl))
  have kept := steady 1 (Nat.le_refl 1) ready.records
    (fun _ => ⟨ready.unprepared, ready.inactive⟩) ready.room
  have missing := effect.missing ready.records
  simp only [call]
  generalize store.setExpire env (env.hashKey key) key addr expireAtMs = result
    at effect kept missing
  obtain ⟨reply, after⟩ := result
  have allows : map.Allows store.cachedNowMs (.setExpire key addr expireAtMs) (.ttl reply) := by
    simp only [Keyspace.Allows]
    rw [← shows key, map_eq_none_iff]
    exact missing
  exact ⟨gone, effect.refines ready shows kept rfl rfl
    (fun other => by cases other <;> simp [Keyspace.apply]) allows⟩

theorem Ready.persist (key : Slice)
    : ∃ gone, Refines env store map (.persist key) (store.call env (.persist key)) gone := by
  obtain ⟨⟨gone, effect⟩, unchanged, among, steady⟩ := ready.sound.persist key
  have kept := steady 1 (Nat.le_refl 1)
  have missing := effect.missing ready.records
  have same := unchanged ready.records
  simp only [call]
  generalize store.persist env (env.hashKey key) key = result at effect kept missing same among
  obtain ⟨reply, after⟩ := result
  have allows : map.Allows store.cachedNowMs (.persist key) (.ttl reply) := by
    simp only [Keyspace.Allows]
    rw [← shows key, map_eq_none_iff]
    refine ⟨missing, same.trans ?_, among⟩
    cases store.live env key with
    | none => simp
    | some object => simp [KvObj.entry, deadlineOf]
  exact ⟨gone, effect.refines ready shows kept rfl rfl
    (fun other => by cases other <;> simp [Keyspace.apply]) allows⟩

/-- Every call of the owner refines its step on the map. -/
theorem Ready.call (call : Call)
    : ∃ gone, Refines env store map call (store.call env call) gone := by
  cases call with
  | insert object =>
    obtain ⟨gone, refines, -⟩ := ready.insert shows object
    exact ⟨gone, refines⟩
  | erase key => exact ⟨[], ready.erase shows key⟩
  | find key => exact ready.find shows key
  | tryOverwrite key value => exact ready.tryOverwrite shows key value
  | setExpire key addr expireAtMs => exact ready.setExpire shows key addr expireAtMs
  | persist key => exact ready.persist shows key
  | activeExpire budget =>
    obtain ⟨gone, reaped⟩ := ready.sound.activeExpire budget
    refine ⟨gone, reaped.tended.steady (Nat.le_refl 1), reaped.tended.deletes,
      reaped.tended.shows shows, trivial, fun key member shown => ?_⟩
    exact absurd rfl ((reaped.drops key).evicted shows key member shown).1
  | clear =>
    obtain ⟨gone, -, steady⟩ := ready.sound.clear
    refine ⟨[], steady ready.unprepared 1, by simp [FlatStore.call, FlatStore.clear],
      fun key => ?_, trivial, nofun⟩
    show (store.clear.live env key).map KvObj.entry = _
    rw [live, gone key]
    rfl
  | rehashStep =>
    have tended := ready.sound.rehashStep
    exact ⟨[], tended.steady (Nat.le_refl 1), tended.deletes, tended.shows shows, trivial, nofun⟩

end FlatStore

structure Session where
  store : FlatStore
  map : Keyspace

structure TimedCall where
  tick : Nat
  call : Call
  deriving DecidableEq, Repr

namespace Session

variable (env : StoreEnv)

def start (initialCap : Nat) (maxmemory : Maxmemory) (seed : BitVec 64) : Session :=
  { store := .init initialCap maxmemory seed, map := TimedMap.empty }

variable (session : Session)

def clocked (tick : Nat) : FlatStore :=
  session.store.setCachedNowMs (session.store.cachedNowMs + tick)

def result (event : TimedCall) : Reply × FlatStore :=
  (session.clocked event.tick).call env event.call

def gone (event : TimedCall) : List Slice :=
  (session.result env event).2.deletes.drop session.store.deletes.length

def step (event : TimedCall) : Session :=
  let result := session.result env event
  { store := result.2
    map := session.map.apply (session.clocked event.tick).cachedNowMs (session.gone env event)
      event.call result.1 }

def run (events : List TimedCall) : Session :=
  events.foldl (step env) session

def shown (key : Slice) : Option Entry :=
  session.map.visible (Entry.due session.store.cachedNowMs) key

end Session

end Thredis.Store
