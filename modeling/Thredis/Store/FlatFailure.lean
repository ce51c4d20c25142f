import Thredis.Store.AtomicRanking
import Thredis.Store.FlatExpiry

/-! Failed writes: an insert or a change of deadline that reports failure leaves every key
resolving as before, except those it reaped or evicted on the way.
-/

namespace Thredis.Store
open List ResolveWalk KvObj AtomicEntry

-- Resolving does not depend on eviction metadata

variable {α β : Type}

def ResolveWalk.map (f : α → β) (walk : ResolveWalk α) : ResolveWalk β :=
  { winner := walk.winner.map f, winnerEpoch := walk.winnerEpoch
    winnerPrivate := walk.winnerPrivate, prevConnId := walk.prevConnId
    prevEpoch := walk.prevEpoch }

section

variable (words : DecisionWords) (reader : AtomicReader) (f : α → β) (g : KvObj → KvObj)
  (walk : ResolveWalk α)

/-- Changing the parked objects of a record changes nothing a walk ranks it by. -/
theorem ResolveWalk.consider_map (owner : AtomicEntry) (candidate : α)
    : (walk.map f).consider words reader (owner.mapParked g) (f candidate)
      = (walk.consider words reader owner candidate).map f := by
  have admits : ∀ epoch, reader.admits (owner.mapParked g) epoch = reader.admits owner epoch :=
    fun _ => rfl
  have carried : ∀ epoch, (walk.map f).carry (owner.mapParked g) epoch
      = (walk.carry owner epoch).map f := by
    intro epoch
    simp only [carry]
    split <;> rfl
  have unset : ∀ walk : ResolveWalk α, (walk.map f).winner.isNone = walk.winner.isNone :=
    fun walk => Option.isNone_map
  simp only [consider, carried, unset, apply_ite (map f)]
  rfl

theorem resolveOccurrences_map (previous : AtomicEntry) (rest : List (AtomicEntry × α))
    : resolveOccurrences words reader (walk.map f) (previous.mapParked g)
        (rest.map (Prod.map (mapParked g) f))
      = ((resolveOccurrences words reader walk previous rest).1.map f,
        (resolveOccurrences words reader walk previous rest).2.mapParked g) := by
  induction rest generalizing walk previous with
  | nil => rfl
  | cons next rest ih =>
    obtain ⟨entry, parked⟩ := next
    simp only [map_cons, Prod.map_apply, resolveOccurrences]
    rw [consider_map, ih]

end

theorem atomicOccurrences_mapParked (g : KvObj → KvObj) (hash : BitVec 64) (key : Slice)
    (entries : List AtomicEntry)
    : atomicOccurrences hash key (entries.map (mapParked g))
      = (atomicOccurrences hash key entries).map (Prod.map (mapParked g) (Option.map g)) := by
  induction entries with
  | nil => rfl
  | cons entry entries ih =>
    simp only [atomicOccurrences, map_cons, flatMap_cons, map_append] at ih ⊢
    congr 1
    have mask : (entry.mapParked g).membership = entry.membership := rfl
    rw [mask]
    split
    · rfl
    · have keys : (entry.mapParked g).keys.filter (AtomicKey.isKey hash key)
          = (entry.keys.filter (AtomicKey.isKey hash key)).map (AtomicKey.mapParked g) := by
        simp only [mapParked, filter_map]
        rfl
      rw [keys, map_map, map_map]
      rfl

theorem atomicLiveValue_bare (now : Int) (value : Option KvObj)
    : atomicLiveValue now (value.map bare) = (atomicLiveValue now value).map bare := by
  cases value with
  | none => rfl
  | some object =>
    simp only [atomicLiveValue, Option.map_some, Option.filter_some]
    have same : object.bare.expireAtMs = object.expireAtMs := rfl
    rw [same]
    split <;> rfl

/-- What a read resolves to, up to metadata, is decided by the records and the physical value
up to metadata.
-/
theorem atomicResolveEntries_bare (words : DecisionWords) (now : Int) (reader : AtomicReader)
    (entries : List AtomicEntry) (hash : BitVec 64) (key : Slice) (physical : Option KvObj)
    : (atomicResolveEntries words now reader (entries.map (mapParked bare))
          hash key (physical.map bare)).value
      = (atomicResolveEntries words now reader entries hash key physical).value.map bare := by
  simp only [atomicResolveEntries, atomicOccurrences_mapParked]
  cases atomicOccurrences hash key entries with
  | nil => exact atomicLiveValue_bare now physical
  | cons first rest =>
    obtain ⟨first, base⟩ := first
    let f : Option KvObj × Bool → Option KvObj × Bool := Prod.map (Option.map bare) id
    have relabel : (rest.map (Prod.map (mapParked bare) (Option.map bare))).map
        (fun occurrence => (occurrence.1, (occurrence.2, false)))
        = (rest.map (fun occurrence => (occurrence.1, (occurrence.2, false)))).map
            (Prod.map (mapParked bare) f) := by
      simp only [map_map]
      rfl
    simp only [map_cons, Prod.map_apply]
    rw [relabel]
    have walked := resolveOccurrences_map words reader f bare .init first
      (rest.map (fun occurrence => (occurrence.1, (occurrence.2, false))))
    have start : map f .init = .init := rfl
    rw [start] at walked
    rw [walked]
    have last := consider_map words reader f bare (resolveOccurrences words reader .init first
        (rest.map (fun occurrence => (occurrence.1, (occurrence.2, false))))).1
      (resolveOccurrences words reader .init first
        (rest.map (fun occurrence => (occurrence.1, (occurrence.2, false))))).2 (physical, true)
    have shape : f (physical, true) = (physical.map bare, true) := rfl
    rw [shape] at last
    rw [last, ← atomicLiveValue_bare]
    simp only [ResolveWalk.map]
    cases (consider words reader _ _ _ : ResolveWalk _).winner <;> rfl

namespace FlatStore

variable {env : StoreEnv} {store : FlatStore}

/-- A record parks objects of the keys it is about. -/
def ParkedNamed (store : FlatStore) : Prop :=
  ∀ entry ∈ store.atomics.entries, ∀ occurrence ∈ entry.keys, ∀ held ∈ occurrence.parked,
    held.key = occurrence.key

variable {key : Slice} {object : KvObj}

theorem Sound.findValue_key (sound : store.Sound env) (named : store.ParkedNamed)
    (found : (store.findValue env (env.hashKey key) key).1 = some object)
    : object.key = key := by
  by_cases settled : store.atomics.entries = []
  · have answer := (sound.findValue key).answer settled
    rw [found] at answer
    exact sound.live_key answer.symm
  · rw [FlatStore.findValue, if_neg (by simpa using settled)] at found
    refine atomicResolveEntries_holds (fun held => held.key = key)
      (fun item member held inside => ?_) (fun held there => ?_) found
    · rw [atomicOccurrences_eq] at member
      obtain ⟨entry, listed, occurs⟩ := mem_flatMap.mp member
      obtain ⟨occurrence, isKey, rfl⟩ := mem_map.mp occurs
      obtain ⟨inEntry, matched⟩ := mem_filter.mp isKey
      rw [named entry listed occurrence inEntry held inside]
      exact ((AtomicKey.isKey_iff _ _ _).mp matched).2
    · exact ((Tables.WellFormed.resident_iff sound key held).mp there).2

theorem Sound.find_key (sound : store.Sound env) (named : store.ParkedNamed)
    (found : (store.find env (env.hashKey key) key).1 = some object)
    : object.key = key := by
  have valued : ∀ held, (store.findValue env (env.hashKey key) key).1 = some held
      → held.key = key := fun _ => sound.findValue_key named
  have first := sound.findValue key
  rw [FlatStore.find] at found
  cases answered : store.findValue env (env.hashKey key) key with
  | mk answer next =>
    rw [answered] at found valued first
    cases answer with
    | none => cases found
    | some held =>
      have isKey := valued held rfl
      obtain ⟨gone, reaped, -⟩ := first.reaped
      dsimp only at found
      split at found
      · cases found
        rw [← bare_key, (reaped.tended.sound.touch key held).2, bare_key, isKey]
      · cases found
        exact isKey

-- What a failed write leaves

/-- The value and deadline a read of `key` at the cut `cut` resolves to. -/
def resolved (env : StoreEnv) (store : FlatStore) (cut : Nat) (key : Slice) : Option KvObj :=
  if store.atomics.entries.isEmpty then store.live env key
  else (store.atomicResolve env (env.hashKey key) key cut).map KvObj.bare

variable {before after : FlatStore}

theorem SameSettings.entries_isEmpty (settings : SameSettings before after)
    : after.atomics.entries.isEmpty = before.atomics.entries.isEmpty := by
  have same := congrArg AtomicPending.entries settings.atomics
  simp only [AtomicPending.bare] at same
  rw [← isEmpty_map (f := mapParked bare), same, isEmpty_map]

/-- A read is decided by the records and the content of its key, both up to metadata. -/
theorem resolved_congr (settings : SameSettings before after)
    (content : after.content env key = before.content env key) (cut : Nat)
    : after.resolved env cut key = before.resolved env cut key := by
  have entries := congrArg AtomicPending.entries settings.atomics
  have origin := congrArg AtomicPending.readOriginConnId settings.atomics
  simp only [AtomicPending.bare] at entries origin
  rw [resolved, resolved, settings.entries_isEmpty]
  split
  · rw [FlatStore.live, FlatStore.live, content, settings.now]
  · simp only [FlatStore.atomicResolve]
    rw [← atomicResolveEntries_bare, ← atomicResolveEntries_bare, entries, origin, settings.now]
    simp only [FlatStore.content] at content
    rw [content]

variable {gone : List Slice}

/-- A key reaped while no record is pending resolves to nothing, before and after. -/
theorem Tended.resolved_of_elapsed {logged : List Slice}
    (tended : Tended env before after gone logged) (settled : before.atomics.entries = [])
    (held : before.content env key = some object)
    (elapsed : object.deadlineElapsed before.cachedNowMs = true) (cut : Nat)
    : after.resolved env cut key = before.resolved env cut key := by
  by_cases member : key ∈ gone
  · have empty : before.atomics.entries.isEmpty = true := by rw [settled]; rfl
    rw [resolved, resolved, tended.settings.entries_isEmpty, if_pos empty, if_pos empty,
      FlatStore.live, FlatStore.live, tended.content, if_pos member, held, Option.filter_some,
      elapsed]
    rfl
  · refine resolved_congr tended.settings ?_ cut
    rw [tended.content, if_neg member]

/-- A refused write about `key`: the keys `gone` were dropped on the way, each of them logged
and each past its deadline or given up by an evicting policy. Reads of `key` and of every key
the policy did not give up are as before, and a refusal that dropped nothing left the key
count, the bytes and the expiry counters alone.
-/
structure Refused (env : StoreEnv) (before after : FlatStore) (key : Slice)
    (gone : List Slice) : Prop where
  logged : after.deletes = before.deletes ++ gone
  drops : Drops env before key gone
  own : ∀ cut, after.resolved env cut key = before.resolved env cut key
  others : ∀ cut other, after.resolved env cut other = before.resolved env cut other
    ∨ other ∈ gone ∧ before.MayEvict env key other
  quiet : gone = [] → after.size = before.size ∧ after.ledger = before.ledger
    ∧ after.expiryTally = before.expiryTally

theorem Tended.refused
    (tended : Tended env before after gone gone) (drops : Drops env before key gone)
    (pending : before.atomics.entries ≠ [] → ∀ other ∈ gone, before.MayEvict env key other)
    (expires : gone = [] → after.expiryTally = before.expiryTally)
    : Refused env before after key gone := by
  have others : ∀ cut other, after.resolved env cut other = before.resolved env cut other
      ∨ other ∈ gone ∧ before.MayEvict env key other := by
    intro cut other
    by_cases member : other ∈ gone
    · rcases drops other member with ⟨object, held, elapsed⟩ | evicted
      · by_cases settled : before.atomics.entries = []
        · exact .inl (tended.resolved_of_elapsed settled held elapsed cut)
        · exact .inr ⟨member, pending settled other member⟩
      · exact .inr ⟨member, evicted⟩
    · refine .inl (resolved_congr tended.settings ?_ cut)
      rw [tended.content, if_neg member]
  refine ⟨tended.deletes, drops, fun cut => ?_, others,
    fun none => ⟨(tended.quiet none).1, (tended.quiet none).2, expires none⟩⟩
  -- the key being written is not evictable for its own sake
  rcases others cut key with same | ⟨-, ⟨⟨other, -⟩, -⟩⟩
  · exact same
  · exact absurd rfl other

theorem TtlEffect.refused {expireAtMs : Int} {result : TtlResult × FlatStore}
    (effect : TtlEffect env store key expireAtMs result gone)
    (room : store.tables.Roomy 0 0) (failed : result.1 ≠ .updated)
    : Refused env store result.2 key gone := by
  obtain ⟨tended, expires⟩ := effect.kept failed room
  exact tended.refused effect.drops effect.pending expires

/-- A write that reports failure changes no read but those of the keys an evicting policy gave
up. The hypotheses are the invariants of the tables, the room of the current table for what
the old one still holds, and that records park objects of their own keys.
-/
theorem failed_write_keeps (sound : store.Sound env) (room : store.tables.Roomy 0 0)
    (named : store.ParkedNamed)
    : (∀ object, (store.insert env (env.hashKey object.key) object).1 ≠ .inserted
        → ∃ gone, Refused env store (store.insert env (env.hashKey object.key) object).2
            object.key gone)
      ∧ (∀ key addr expireAtMs,
          (store.setExpire env (env.hashKey key) key addr expireAtMs).1 ≠ .updated
          → ∃ gone, Refused env store
              (store.setExpire env (env.hashKey key) key addr expireAtMs).2 key gone)
      ∧ ∀ key, (store.persist env (env.hashKey key) key).1 ≠ .updated
          → ∃ gone, Refused env store (store.persist env (env.hashKey key) key).2 key gone := by
  refine ⟨fun object failed => ?_, fun key addr expireAtMs failed => ?_, fun key failed => ?_⟩
  · obtain ⟨gone, effect⟩ := sound.insert object
    obtain ⟨tended, expires⟩ := effect.kept failed room
    exact ⟨gone, tended.refused effect.drops (fun _ => effect.mayEvict) expires⟩
  · obtain ⟨⟨gone, effect⟩, -⟩ :=
      sound.setExpire key addr expireAtMs (fun _ => sound.find_key named)
    exact ⟨gone, effect.refused room failed⟩
  · obtain ⟨⟨gone, effect⟩, -⟩ := sound.persist key
    exact ⟨gone, effect.refused room failed⟩

def tightStore : FlatStore :=
  .init 16 { enabled := true, limit := 500, policy := .allKeysRandom, samples := 5 } 1#64

def bulkyObject : KvObj := stringObject 2 [113] (List.replicate 600 0)

theorem init_sound (memory : Maxmemory) : (init 16 memory 1#64).Sound (.boot 0#64) :=
  .empty (roundPow2_fits (v := 16) (by decide)).1 (by decide) (by decide)

def oneKeyStore : FlatStore :=
  ((FlatStore.init 16 { enabled := true, limit := 500, policy := .noEviction, samples := 5 }
    1#64).insert (.boot 0#64) (hashKeyMix 0#64 [107]) (stringObject 1 [107] [118])).2

/-- A second key is inserted during a rehash that has not reached the first. -/
def movingStore : FlatStore :=
  ((oneKeyStore.startRehash 128).2.insert (.boot 0#64) (hashKeyMix 0#64 [108])
    (stringObject 3 [108] [118])).2

theorem movingStore_sound : movingStore.Sound (.boot 0#64) := by
  obtain ⟨_, first⟩ := (init_sound _).insert (stringObject 1 [107] [118])
  have pow : Lib.PowTwo 128 := ⟨7, rfl⟩
  obtain ⟨resized, -⟩ := (first.sound : oneKeyStore.Sound _).startRehash
    (by decide +kernel) (by decide +kernel) pow (by decide) (by decide)
    (fun _ => by decide +kernel)
  obtain ⟨_, second⟩ := resized.tended.sound.insert (stringObject 3 [108] [118])
  exact second.sound

/-- Witness: in the middle of the rehash a write that does not fit leaves both keys. -/
theorem failed_write_keeps_moving
    : (movingStore.tables.old.map (·.live) = some 1 ∧ movingStore.size = 2)
      ∧ (movingStore.insert (.boot 0#64) (hashKeyMix 0#64 bulkyObject.key) bulkyObject).1
        ≠ .inserted
      ∧ ∃ gone, Refused (.boot 0#64) movingStore
          (movingStore.insert (.boot 0#64) (hashKeyMix 0#64 bulkyObject.key) bulkyObject).2
          bulkyObject.key gone := by
  have failed : (movingStore.insert (.boot 0#64) (hashKeyMix 0#64 bulkyObject.key)
      bulkyObject).1 ≠ .inserted := by decide +kernel
  have old : ∀ table ∈ movingStore.tables.old, table.live + table.tombs < table.cap := by
    decide +kernel
  have named : movingStore.ParkedNamed := by
    have none_ : movingStore.atomics.entries = [] := by decide +kernel
    simp [ParkedNamed, none_]
  exact ⟨by decide +kernel, failed,
    (failed_write_keeps movingStore_sound ⟨by decide +kernel, old⟩ named).1 bulkyObject failed⟩

/-- An insert refused for want of memory has given up another key on the way. -/
theorem refused_insert_evicts
    : let store := (tightStore.insert (.boot 0#64) (hashKeyMix 0#64 [107])
        (stringObject 1 [107] [118])).2
      let result := store.insert (.boot 0#64) (hashKeyMix 0#64 [113]) bulkyObject
      result.1 = .maxmemoryOom
        ∧ store.resolved (.boot 0#64) 0 [107] = some (stringObject 1 [107] [118])
        ∧ result.2.resolved (.boot 0#64) 0 [107] = none := by
  decide +kernel

-- Eviction outside a failed write

/-- Both callers of the eviction loop, whatever they draw: success means the limit is met; at
most `kEvictionsPerOp` keys go, each logged once and allowed to go; no other key changes.
-/
theorem eviction_exact (sound : store.Sound env) (enabled : store.maxmemory.enabled = true)
    (idle : store.snapshot.active = false) (protectedKey : Slice) (incomingBytes : Nat)
    : Reclaimed env store protectedKey
        (fun store => store.projectedBytes env protectedKey incomingBytes)
        (store.makeRoomFor env protectedKey incomingBytes)
      ∧ Reclaimed env store protectedKey accountedBytes (store.budgetAdmit env protectedKey) := by
  rw [makeRoomFor, budgetAdmit, enabled, idle]
  exact ⟨sound.reclaim protectedKey _, sound.reclaim protectedKey _⟩

theorem eviction_exact_tight
    : let store := (tightStore.insert (.boot 0#64) (hashKeyMix 0#64 [107])
        (stringObject 1 [107] [118])).2
      let made := store.makeRoomFor (.boot 0#64) [113] 600
      made.2.deletes = [[107]] ∧ Reclaimed (.boot 0#64) store [113]
        (fun store => store.projectedBytes (.boot 0#64) [113] 600) made := by
  obtain ⟨gone, effect⟩ := (init_sound tightStore.maxmemory).insert (stringObject 1 [107] [118])
  exact ⟨by decide +kernel,
    (eviction_exact effect.sound (by decide +kernel) (by decide +kernel) [113] 600).1⟩

end FlatStore

end Thredis.Store
