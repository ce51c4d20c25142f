import Thredis.Store.FlatOps
import Thredis.Store.FlatRehash

/-! What the store holds, key by key, and the effect of every step that inserts nothing: the
keys it drops, the room it leaves, and everything it must not touch.
-/

namespace Thredis.Store
open Thredis.Lib Tables.WellFormed Tables

def KvObj.bare (object : KvObj) : KvObj := { object with evictionMeta := 0 }

variable (object : KvObj)

@[simp] theorem KvObj.bare_key : object.bare.key = object.key := rfl

@[simp] theorem KvObj.bare_addr : object.bare.addr = object.addr := rfl

@[simp] theorem KvObj.bare_deadline : object.bare.deadline = object.deadline := rfl

@[simp] theorem KvObj.bare_deadlineElapsed (now : Int)
    : object.bare.deadlineElapsed now = object.deadlineElapsed now := rfl

def AtomicPending.bare (pending : AtomicPending) : AtomicPending :=
  { pending with entries := pending.entries.map (AtomicEntry.mapParked KvObj.bare) }

theorem AtomicEntry.mapParked_mapParked (f g : KvObj → KvObj) (entry : AtomicEntry)
    : (entry.mapParked f).mapParked g = entry.mapParked (fun object => g (f object)) := by
  simp [AtomicEntry.mapParked, AtomicKey.mapParked, Function.comp_def]

namespace FlatStore

variable {env : StoreEnv}

def expiryTally (store : FlatStore) : Nat × Nat := (store.expires.size, store.counters.expired)

def Sound (env : StoreEnv) (store : FlatStore) : Prop := store.tables.WellFormed env.hashKey

/-- The object the tables hold for a key, whether or not its deadline has passed. -/
def content (env : StoreEnv) (store : FlatStore) (key : Slice) : Option KvObj :=
  (store.tables.resident (env.hashKey key) key).map KvObj.bare

variable {store before after : FlatStore}

theorem Sound.content_iff (sound : store.Sound env) (key : Slice) (object : KvObj)
    : store.content env key = some object
      ↔ ∃ held ∈ store.tables.objects, held.key = key ∧ held.bare = object := by
  rw [content, Option.map_eq_some_iff]
  constructor
  · rintro ⟨held, found, same⟩
    obtain ⟨member, named⟩ := (resident_iff sound key held).mp found
    exact ⟨held, member, named, same⟩
  · rintro ⟨held, member, named, same⟩
    exact ⟨held, (resident_iff sound key held).mpr ⟨member, named⟩, same⟩

variable {key : Slice}

theorem Sound.content_none (sound : store.Sound env)
    : store.content env key = none ↔ ∀ held ∈ store.tables.objects, held.key ≠ key := by
  rw [content, Option.map_eq_none_iff]
  exact resident_none sound

/-- Two stores that hold the same objects for a key agree on its content. -/
theorem Sound.content_congr (first : before.Sound env) (second : after.Sound env)
    (same : ∀ held, held.key = key → (held ∈ after.tables.objects ↔ held ∈ before.tables.objects))
    : after.content env key = before.content env key := by
  refine Option.ext fun object => ?_
  rw [second.content_iff, first.content_iff]
  constructor
  · rintro ⟨held, member, named, bare⟩
    exact ⟨held, (same held named).mp member, named, bare⟩
  · rintro ⟨held, member, named, bare⟩
    exact ⟨held, (same held named).mpr member, named, bare⟩

variable {object : KvObj}

/-- Removing the object of a key empties that key and no other. -/
theorem Sound.content_erased {gone : Slice} (first : before.Sound env)
    (erased : Tables.Erased env.hashKey before.tables gone object after.tables) (key : Slice)
    : after.content env key = if key = gone then none else before.content env key := by
  have second : after.Sound env := erased.wellFormed
  split
  · rename_i same
    subst same
    exact second.content_none.mpr (fun held member => ((erased.left held).mp member).2)
  · rename_i other
    refine first.content_congr second (fun held named => ?_)
    rw [erased.left]
    exact ⟨fun both => both.1, fun member => ⟨member, fun same => other (named.symm.trans same)⟩⟩

/-- An object that takes the place of its key becomes the content of the key, and of no other. -/
theorem Sound.content_replaced (first : before.Sound env) (second : after.Sound env)
    (holds : ∀ other, other ∈ after.tables.objects
      ↔ other = object ∨ other ∈ before.tables.objects ∧ other.key ≠ object.key) (key : Slice)
    : after.content env key
      = if key = object.key then some object.bare else before.content env key := by
  split
  · rename_i same
    subst same
    exact (second.content_iff object.key object.bare).mpr
      ⟨object, (holds object).mpr (.inl rfl), rfl, rfl⟩
  · rename_i other
    refine first.content_congr second (fun candidate same => ?_)
    rw [holds]
    constructor
    · rintro (rfl | both)
      · exact absurd same.symm other
      · exact both.1
    · intro member
      exact .inr ⟨member, fun clash => other (same.symm.trans clash)⟩

theorem Sound.content_modified {old new : KvObj} (first : before.Sound env)
    (named : new.key = old.key)
    (modified : Tables.Modified env.hashKey before.tables old new after.tables) (key : Slice)
    : after.content env key
      = if key = old.key then some new.bare else before.content env key := by
  rw [← named]
  refine first.content_replaced modified.wellFormed ?_ key
  rw [named]
  exact modified.holds

/-- The settings and side structures a table step leaves alone, up to eviction metadata. -/
structure SameSettings (before after : FlatStore) : Prop where
  now : after.cachedNowMs = before.cachedNowMs
  maxmemory : after.maxmemory = before.maxmemory
  noTouch : after.noTouch = before.noTouch
  snapshot : after.snapshot = before.snapshot
  atomics : after.atomics.bare = before.atomics.bare

theorem SameSettings.refl (store : FlatStore) : SameSettings store store :=
  ⟨rfl, rfl, rfl, rfl, rfl⟩

theorem SameSettings.trans {first second third : FlatStore} (front : SameSettings first second)
    (back : SameSettings second third) : SameSettings first third :=
  ⟨back.now.trans front.now, back.maxmemory.trans front.maxmemory,
    back.noTouch.trans front.noTouch, back.snapshot.trans front.snapshot,
    back.atomics.trans front.atomics⟩

/-- A step that drops the keys `gone`, logs the deletes `logged` and inserts nothing. Room is
never lost; without a dropped key neither the bytes nor the key count move; a prepared
capture suppresses every resize.
-/
structure Tended (env : StoreEnv) (before after : FlatStore) (gone logged : List Slice)
    : Prop where
  sound : after.Sound env
  content : ∀ key, after.content env key = if key ∈ gone then none else before.content env key
  deletes : after.deletes = before.deletes ++ logged
  settings : SameSettings before after
  room : ∀ pace ≤ 1, ∀ slack ≤ 1, before.tables.Roomy pace slack
    → after.tables.Roomy pace slack ∧ after.rehashRefused = before.rehashRefused
  granted : before.allocations = [] → after.allocations = []
  quiet : gone = [] → after.size = before.size ∧ after.ledger = before.ledger
  planned : before.snapshot.prepared = true → after.tables.cur.cap = before.tables.cur.cap

theorem Tended.refl (sound : store.Sound env)
    : Tended env store store [] [] :=
  ⟨sound, fun _ => by simp, by simp, .refl store, fun _ _ _ _ room => ⟨room, rfl⟩, id,
    fun _ => ⟨rfl, rfl⟩, fun _ => rfl⟩

theorem Tended.trans {first second third : FlatStore} {gone gone' logged logged' : List Slice}
    (front : Tended env first second gone logged) (back : Tended env second third gone' logged')
    : Tended env first third (gone ++ gone') (logged ++ logged') := by
  refine ⟨back.sound, fun key => ?_, ?_, front.settings.trans back.settings, ?_,
    fun none => back.granted (front.granted none), fun none => ?_, fun prepared =>
      (back.planned (by rw [front.settings.snapshot]; exact prepared)).trans
        (front.planned prepared)⟩
  · rw [back.content, front.content]
    split <;> split <;> simp_all
  · rw [back.deletes, front.deletes, List.append_assoc]
  · intro pace small slack little room
    obtain ⟨middle, kept⟩ := front.room pace small slack little room
    obtain ⟨last, still⟩ := back.room pace small slack little middle
    exact ⟨last, still.trans kept⟩
  · obtain ⟨noneFirst, noneSecond⟩ := List.append_eq_nil_iff.mp none
    obtain ⟨size, ledger⟩ := front.quiet noneFirst
    obtain ⟨size', ledger'⟩ := back.quiet noneSecond
    exact ⟨size'.trans size, ledger'.trans ledger⟩

/-- A step that leaves tables, log, settings and accounts alone. -/
theorem Tended.of_same (sound : before.Sound env)
    (tables : after.tables = before.tables) (deletes : after.deletes = before.deletes)
    (settings : SameSettings before after) (refused : after.rehashRefused = before.rehashRefused)
    (granted : before.allocations = [] → after.allocations = [])
    (ledger : after.ledger = before.ledger)
    : Tended env before after [] [] := by
  refine ⟨by rw [Sound, tables]; exact sound, fun key => ?_, by rw [deletes, List.append_nil],
    settings, ?_, granted, fun _ => ⟨?_, ledger⟩, fun _ => by rw [tables]⟩
  · simp [FlatStore.content, tables]
  · intro pace _ slack _ room
    rw [tables]
    exact ⟨room, refused⟩
  · simp [size, tables]

/-- `erase_in` drops its key. -/
theorem Sound.eraseIn_some (sound : store.Sound env) {side : Side}
    (erased : store.eraseIn side (env.hashKey key) key = some (object, after))
    : Tended env store after [key] []
      ∧ Tables.Erased env.hashKey store.tables key object after.tables := by
  obtain ⟨⟨removed, tables⟩, found, same⟩ := Option.map_eq_some_iff.mp erased
  cases same
  have facts := eraseIn_some sound found
  refine ⟨⟨facts.wellFormed, fun other => ?_, by simp [untrackExpire], ⟨rfl, rfl, rfl, rfl, rfl⟩,
    ?_, id, nofun, fun _ => facts.framed.cap⟩, facts⟩
  · rw [sound.content_erased facts other]
    simp
  · intro pace _ slack _ room
    exact ⟨room.framed facts.framed (Nat.add_le_add_right facts.load slack), rfl⟩

/-- `rehash_step` drops nothing and logs nothing. -/
theorem Sound.rehashStep (sound : store.Sound env)
    : Tended env store (store.rehashStep env) [] [] := by
  obtain ⟨tables, refused, done, stepped⟩ := Tables.WellFormed.rehashStep sound
  have shape : store.rehashStep env
      = { store with tables, rehashRefused := store.rehashRefused + refused.toNat } := by
    simp [FlatStore.rehashStep, done]
  rw [shape]
  refine ⟨stepped.wellFormed, fun key => ?_, by simp, ⟨rfl, rfl, rfl, rfl, rfl⟩, ?_, id,
    fun _ => ⟨stepped.size, rfl⟩, fun _ => stepped.cap⟩
  · have after := stepped.wellFormed
    exact sound.content_congr after (fun held _ => stepped.objects held)
  · intro pace _ slack _ room
    cases moving : store.tables.rehashing with
    | true =>
      obtain ⟨granted, wide⟩ := stepped.room room moving
      exact ⟨wide.weaken (Nat.le_add_right _ _), by simp [granted]⟩
    | false =>
      have still : store.tables.old = none := by simpa [Tables.rehashing] using moving
      have kept : tables = { store.tables with old := none, rehashPos := 0 } ∧ refused = false := by
        simp [Tables.rehashStep, Tables.oldCap, still, Tables.moveSlots, finishRehash] at done
        exact ⟨done.1.symm, done.2⟩
      obtain ⟨rfl, rfl⟩ := kept
      exact ⟨(roomy_idle rfl pace slack).mpr ((roomy_idle still pace slack).mp room), rfl⟩

/-- A step of a running rehash pays back one window of the pace. -/
theorem Sound.rehashStep_room (sound : store.Sound env) {pace slack : Nat}
    (room : store.tables.Roomy pace slack) (moving : store.rehashing = true)
    : (store.rehashStep env).tables.Roomy pace (slack + pace) := by
  obtain ⟨tables, refused, done, stepped⟩ := Tables.WellFormed.rehashStep sound
  have shape : (store.rehashStep env).tables = tables := by simp [FlatStore.rehashStep, done]
  rw [shape]
  exact (stepped.room room moving).2

-- Starting a resize

theorem drawAllocation_rest {allocations : Allocations} (none : allocations = [])
    : (drawAllocation allocations).2 = [] := by
  rw [none]
  rfl

/-- What starting a resize does: no key moves, and a table that was granted leaves a slot to
spare for one insert.
-/
structure Resized (env : StoreEnv) (before : FlatStore) (after : Bool × FlatStore) : Prop where
  tended : Tended env before after.2 [] []
  spare : after.1 = true → ∀ pace ≤ 1, before.tables.Roomy pace 0 → after.2.tables.Roomy pace 1
  expires : after.2.expiryTally = before.expiryTally

theorem Sound.startRehash (sound : store.Sound env)
    (still : store.tables.old = none) (unprepared : store.snapshot.prepared = false)
    {newcap : Nat} (pow : PowTwo newcap) (minimum : kMinCap ≤ newcap) (fits : newcap ≤ 2 ^ 31)
    (wide : store.tables.cur.live + store.tables.cur.tombs < store.tables.cur.cap
      → store.tables.cur.live + (store.tables.cur.cap + 7) / 8 + 1 < newcap)
    : Resized env store (store.startRehash newcap)
      ∧ (store.allocations = [] → (store.startRehash newcap).1 = true) := by
  have largest := Nat.max_eq_left minimum
  have idle : store.rehashing = false := by simp [rehashing, Tables.rehashing, still]
  have spare : ∀ pace ≤ 1, store.tables.Roomy pace 0
      → (store.tables.demote newcap).Roomy pace 1 := by
    intro pace small room
    have full := (roomy_idle still pace 0).mp room
    refine Tables.Roomy.demote full ?_
    obtain rfl | rfl : pace = 0 ∨ pace = 1 := by omega
    · omega
    · omega
  rw [FlatStore.startRehash, idle]
  cases drawn : drawAllocation store.allocations with
  | mk granted rest =>
    have drained : store.allocations = [] → rest = [] := by
      intro none
      have := drawAllocation_rest none
      rw [drawn] at this
      exact this
    cases granted with
    | false =>
      refine ⟨⟨.of_same sound rfl rfl ⟨rfl, rfl, rfl, rfl, rfl⟩ rfl drained rfl, by simp, rfl⟩, ?_⟩
      intro none
      rw [none] at drawn
      cases drawn
    | true =>
      obtain ⟨wellFormed, objects, size⟩ :=
        demote sound still (by rw [largest]; exact pow) (by rw [largest]; exact fits)
      refine ⟨⟨⟨wellFormed, fun key => ?_, by simp, ⟨rfl, rfl, rfl, rfl, rfl⟩, ?_, drained,
        fun _ => ⟨size, rfl⟩, fun prepared => ?_⟩, fun _ => spare, rfl⟩, fun _ => rfl⟩
      · refine sound.content_congr ?_ (fun held _ => objects held)
        exact wellFormed
      · intro pace small slack little room
        exact ⟨(spare pace small (room.weaken (Nat.zero_le _))).weaken little, rfl⟩
      · rw [unprepared] at prepared
        cases prepared

theorem roundPow2From_fits (steps : Nat) {p v : Nat} (pow : PowTwo p) (least : kMinCap ≤ p)
    (most : p ≤ 2 ^ 31) (nonzero : roundPow2From steps p v ≠ 0)
    : PowTwo (roundPow2From steps p v) ∧ kMinCap ≤ roundPow2From steps p v
      ∧ roundPow2From steps p v ≤ 2 ^ 31 ∧ v ≤ roundPow2From steps p v := by
  induction steps generalizing p with
  | zero => exact absurd rfl nonzero
  | succ steps ih =>
    rw [roundPow2From] at nonzero ⊢
    split
    · rename_i reached
      exact ⟨pow, least, most, reached⟩
    · rename_i short
      rw [if_neg short] at nonzero
      split at nonzero
      · exact absurd rfl nonzero
      · rename_i small
        rw [if_neg small]
        refine ih pow.double (by omega) (not_lt.mp (fun above => small ?_)) nonzero
        exact Nat.lt_of_lt_of_le (by decide) (pow.double.double_le 31 above)

/-- A capacity that could be rounded is a power of two within the index range. -/
theorem roundPow2_fits {v : Nat} (nonzero : roundPow2 v ≠ 0)
    : PowTwo (roundPow2 v) ∧ kMinCap ≤ roundPow2 v ∧ roundPow2 v ≤ 2 ^ 31 ∧ v ≤ roundPow2 v :=
  roundPow2From_fits 32 ⟨6, rfl⟩ le_rfl (by decide) nonzero

theorem growCap_cases (table : Table)
    : growCap table = table.cap * 2
      ∨ growCap table = table.cap ∧ table.live * 200 < table.cap * kLoadPct := by
  rw [growCap]
  split
  · exact .inl rfl
  · rename_i sparse
    exact .inr ⟨rfl, not_le.mp sparse⟩

/-- Both sizes a grow may ask for leave the demoted objects room. -/
theorem growCap_wide {table : Table} {hashKey : Slice → BitVec 64}
    (wf : table.WellFormed hashKey) (within : growCap table ≤ kUInt32Max)
    : PowTwo (growCap table) ∧ kMinCap ≤ growCap table ∧ growCap table ≤ 2 ^ 31
      ∧ (table.live + table.tombs < table.cap
          → table.live + (table.cap + 7) / 8 + 1 < growCap table) := by
  have minimum := wf.minimum
  rcases growCap_cases table with doubled | ⟨same, sparse⟩
  · rw [doubled] at within ⊢
    simp only [kMinCap, kUInt32Max] at *
    refine ⟨wf.pow.double, by omega, ?_, by omega⟩
    by_contra large
    have := wf.pow.double.double_le 31 (not_le.mp large)
    omega
  · rw [same]
    simp only [kMinCap, kLoadPct] at *
    exact ⟨wf.pow, minimum, wf.fits, by omega⟩

section

variable (sound : store.Sound env)

include sound

/-- `maybe_start_grow` keeps every key. Where it agrees and no capture is prepared, one more
insert fits; with a willing allocator it refuses only a table beyond 32-bit capacities.
-/
theorem Sound.maybeStartGrow (still : store.tables.old = none)
    : Tended env store store.maybeStartGrow.2 [] []
      ∧ (store.maybeStartGrow.1 = true → store.snapshot.prepared = false
          → ∀ pace ≤ 1, store.tables.Roomy pace 0 → store.maybeStartGrow.2.tables.Roomy pace 1)
      ∧ (store.maybeStartGrow.1 = false → store.allocations = []
          → kUInt32Max < growCap store.tables.cur)
      ∧ store.maybeStartGrow.2.expiryTally = store.expiryTally := by
  have minimum := sound.cur.minimum
  simp only [FlatStore.maybeStartGrow]
  split
  · rename_i loose
    refine ⟨.refl sound, fun _ _ pace _ _ => ?_, nofun, rfl⟩
    rw [roomy_idle still]
    simp only [kLoadPct] at loose minimum
    omega
  · split
    · rename_i prepared
      exact ⟨.refl sound, by simp [prepared], nofun, rfl⟩
    · rename_i unprepared
      split
      · rename_i beyond
        exact ⟨.refl sound, nofun, fun _ _ => beyond, rfl⟩
      · rename_i within
        obtain ⟨pow, atLeast, fits, wide⟩ := growCap_wide sound.cur (not_lt.mp within)
        obtain ⟨resized, granted⟩ := sound.startRehash still (by simpa using unprepared) pow
          atLeast fits wide
        refine ⟨resized.tended, fun ok _ => resized.spare ok, fun refused none => ?_,
          resized.expires⟩
        rw [granted none] at refused
        cases refused

/-- `maybe_start_shrink` keeps every key. -/
theorem Sound.maybeStartShrink
    : Tended env store store.maybeStartShrink [] []
      ∧ store.maybeStartShrink.expiryTally = store.expiryTally := by
  simp only [FlatStore.maybeStartShrink]
  split
  · exact ⟨.refl sound, rfl⟩
  · rename_i small
    split
    · exact ⟨.refl sound, rfl⟩
    · rename_i sparse
      split
      · exact ⟨.refl sound, rfl⟩
      · rename_i unprepared
        simp only [Bool.or_eq_true, decide_eq_true_eq, not_or] at small
        obtain ⟨moving, above⟩ := small
        have still : store.tables.old = none := by
          simpa [rehashing, Tables.rehashing] using moving
        have large := sound.cur.pow.double_le 6 (not_le.mp above)
        obtain ⟨pow, double⟩ := sound.cur.pow.half (by omega)
        have fits := sound.cur.fits
        obtain ⟨resized, -⟩ := sound.startRehash still (by simpa using unprepared) pow
          (by simp only [kMinCap]; omega) (by omega) (by simp only [kLoadPct] at sparse; omega)
        exact ⟨resized.tended, resized.expires⟩

theorem Sound.countExpired (expired : Bool)
    : Tended env store (store.countExpired expired) [] [] :=
  .of_same sound rfl rfl ⟨rfl, rfl, rfl, rfl, rfl⟩ rfl id rfl

theorem Sound.recordDelete (key : Slice)
    : Tended env store (store.recordDelete key) [] [key] :=
  ⟨sound, fun _ => by simp [FlatStore.recordDelete, FlatStore.content], rfl,
    ⟨rfl, rfl, rfl, rfl, rfl⟩, fun _ _ _ _ room => ⟨room, rfl⟩, id, fun _ => ⟨rfl, rfl⟩,
    fun _ => rfl⟩

end

/-- A step that drops nothing may as well be said to drop a key that is not there. -/
theorem Tended.absent {logged : List Slice}
    (tended : Tended env before after [] logged) (missing : before.content env key = none)
    : Tended env before after [key] logged := by
  refine { tended with content := fun other => ?_, quiet := nofun }
  rw [tended.content other]
  simp only [List.not_mem_nil, if_false, List.mem_singleton]
  split
  · rename_i same
    rw [same, missing]
  · rfl

variable (sound : store.Sound env)

include sound

theorem Sound.eraseDone {side : Side} {erased : KvObj × FlatStore}
    (found : store.eraseIn side (env.hashKey key) key = some erased)
    : Tended env store (eraseDone store.cachedNowMs erased).2 [key] []
      ∧ (eraseDone store.cachedNowMs erased).1 = (store.content env key).any
        (fun object => !object.deadlineElapsed store.cachedNowMs) := by
  obtain ⟨object, after⟩ := erased
  obtain ⟨tended, facts⟩ := sound.eraseIn_some found
  obtain ⟨shrunk, -⟩ := tended.sound.maybeStartShrink
  have counted := shrunk.sound.countExpired (object.deadlineElapsed store.cachedNowMs)
  refine ⟨by exact (tended.trans shrunk).trans counted, ?_⟩
  rw [(sound.content_iff _ _).mpr ⟨_, facts.held, facts.named, rfl⟩]
  rfl

/-- `erase` drops its key and answers whether an unexpired object was there. -/
theorem Sound.erase (key : Slice)
    : Tended env store (store.erase env (env.hashKey key) key).2 [key] []
      ∧ (store.erase env (env.hashKey key) key).1 = (store.content env key).any
        (fun object => !object.deadlineElapsed store.cachedNowMs) := by
  -- the migration step first changes neither the content nor the clock
  have first : ∃ ready, Tended env store ready [] []
      ∧ ready = (if store.rehashing && !store.snapshot.active then store.rehashStep env
          else store) := by
    refine ⟨_, ?_, rfl⟩
    split
    · exact sound.rehashStep
    · exact .refl sound
  obtain ⟨ready, tended, shape⟩ := first
  have same : ready.content env key = store.content env key := by simp [tended.content key]
  simp only [FlatStore.erase, ← shape]
  rw [← same, ← tended.settings.now]
  cases inCur : ready.eraseIn .cur (env.hashKey key) key with
  | some erased =>
    obtain ⟨done, answer⟩ := tended.sound.eraseDone inCur
    exact ⟨tended.trans done, answer⟩
  | none =>
    cases inOld : ready.eraseIn .old (env.hashKey key) key with
    | some erased =>
      obtain ⟨done, answer⟩ := tended.sound.eraseDone inOld
      exact ⟨tended.trans done, answer⟩
    | none =>
      have missing : ready.content env key = none := by
        refine tended.sound.content_none.mpr (fun held member => ?_)
        have noCur := (eraseIn_none tended.sound).mp (Option.map_eq_none_iff.mp inCur)
        have noOld := (eraseIn_none tended.sound).mp (Option.map_eq_none_iff.mp inOld)
        rcases mem_objects.mp member with held | ⟨old, found, held⟩
        · exact noCur _ rfl _ held
        · exact noOld old found _ held
      exact ⟨tended.absent (by rw [← same, missing]), by simp [missing]⟩

end FlatStore

end Thredis.Store
