import Thredis.Store.FlatLookups

/-! Deadlines, the expiry cycle and the flush: a new deadline goes to the key it names, and
the cycle removes only keys past theirs.
-/

namespace Thredis.Store
open Thredis.Lib Option KvObj

namespace FlatStore

variable {env : StoreEnv} {store : FlatStore}

-- Deadlines

variable {object : KvObj} {after : FlatStore}

theorem InsertEffect.steady {result : InsertResult}
    {gone : List Slice} {pace : Nat} (effect : InsertEffect env store object result after gone)
    (gate : InsertGate env pace store object.key) : Steady env pace store after := by
  by_cases inserted : result = .inserted
  · exact (effect.wrote inserted).steady (fun _ => effect.room pace gate)
  · have base : store.tables.Roomy 0 0 := ⟨by have := gate.room.cur; omega, gate.room.old⟩
    exact (effect.kept inserted base).1.steady gate.small

/-- What a change of deadline has done; `expireAtMs` is the new one. -/
structure TtlEffect (env : StoreEnv) (store : FlatStore) (key : Slice) (expireAtMs : Int)
    (result : TtlResult × FlatStore) (gone : List Slice) : Prop where
  drops : Drops env store key gone
  pending : store.atomics.entries ≠ [] → ∀ other ∈ gone, store.MayEvict env key other
  kept : result.1 ≠ .updated → store.tables.Roomy 0 0 → Tended env store result.2 gone gone
    ∧ (gone = [] → result.2.expiryTally = store.expiryTally)
  missing : store.atomics.entries = [] → (result.1 = .missing ↔ store.live env key = none)
  wrote : store.atomics.entries = [] → result.1 = .updated
    → ∃ object fresh : KvObj, store.live env key = some object.bare
      ∧ fresh.entry = object.entry.redate expireAtMs ∧ fresh.key = key
      ∧ Wrote env store result.2 fresh gone

/-- What re-headering an object without a deadline slot has done. -/
structure RewriteEffect (env : StoreEnv) (store : FlatStore) (old fresh : KvObj)
    (result : TtlResult × FlatStore) (gone : List Slice) : Prop where
  mayEvict : ∀ other ∈ gone, store.MayEvict env old.key other
  kept : result.1 ≠ .updated → store.tables.Roomy 0 0 → Tended env store result.2 gone gone
    ∧ (gone = [] → result.2.expiryTally = store.expiryTally)
  found : result.1 ≠ .missing
  wrote : result.1 = .updated → Wrote env store result.2 fresh gone
  steady : ∀ pace, InsertGate env pace store old.key → Steady env pace store result.2

theorem Sound.rewriteExpire (sound : store.Sound env) (old : KvObj) (addr : Nat) (expireAtMs : Int)
    : ∃ gone, RewriteEffect env store old (kvobjReheader old addr expireAtMs)
        (store.rewriteExpire env (env.hashKey old.key) old addr expireAtMs) gone := by
  have drawn : Tended env store
      { store with allocations := (drawAllocation store.allocations).2 } [] [] :=
    .of_same sound rfl rfl ⟨rfl, rfl, rfl, rfl, rfl⟩ rfl drawAllocation_rest rfl
  rw [FlatStore.rewriteExpire]
  cases given : drawAllocation store.allocations with
  | mk granted rest =>
    rw [given] at drawn
    cases granted with
    | false =>
      exact ⟨[], nofun, fun _ _ => ⟨drawn, fun _ => rfl⟩, nofun, nofun,
        fun pace gate => drawn.steady gate.small⟩
    | true =>
      dsimp only
      generalize shape : (if store.maxmemory.enabled
        then (kvobjReheader old addr expireAtMs).setEvictionMeta old.evictionMeta
        else kvobjReheader old addr expireAtMs) = replacement
      have bare : replacement.bare = (kvobjReheader old addr expireAtMs).bare := by
        rw [← shape]
        split <;> rfl
      have named : replacement.key = old.key := by
        rw [← bare_key, bare, bare_key, kvobjReheader_key]
      obtain ⟨gone, effect⟩ := drawn.sound.insert replacement
      have gates : ∀ pace, InsertGate env pace store old.key
          → InsertGate env pace { store with allocations := rest } replacement.key :=
        fun pace gate => { gate with merging := named ▸ gate.merging }
      rw [named] at effect
      refine ⟨gone, named ▸ effect.mayEvict, fun refused room => ?_, ?_, fun updated => ?_,
        fun pace gate => (drawn.steady gate.small).trans (effect.steady (gates pace gate))⟩
      · have kept := effect.kept
          (fun inserted => refused (congrArg InsertResult.report inserted)) room
        exact ⟨by exact drawn.trans kept.1, kept.2⟩
      · generalize FlatStore.insert env _ _ _ = result
        cases answer : result.1 <;> simp [InsertResult.report]
      · refine (effect.wrote ?_).after_tended drawn bare
        revert updated
        generalize FlatStore.insert env _ _ _ = result
        cases result.1 <;> simp [InsertResult.report]

variable {key : Slice}

theorem Found.kept (found : Found env store key (some object, after))
    : Tended env store after [] [] ∧ after.expiryTally = store.expiryTally := by
  obtain ⟨gone, reaped, quiet, tracked, -⟩ := found.reaped
  cases quiet nofun
  exact ⟨reaped.tended, tracked rfl⟩

/-- A miss ends a change of deadline. -/
theorem Found.ttlMissing {expireAtMs : Int} (found : Found env store key (none, after))
    : ∃ gone, TtlEffect env store key expireAtMs (.missing, after) gone := by
  obtain ⟨⟨gone, reaped, -, tracked, quiet⟩, answer⟩ := found
  exact ⟨gone, reaped.drops key, fun pending => by simp [quiet pending],
    fun _ _ => ⟨reaped.tended, tracked⟩,
    fun none => iff_of_true rfl (answer none).symm, nofun⟩

/-- A key that answers a lookup is there. -/
theorem live_content (live : store.live env key = some object)
    : store.content env key = some object := (filter_eq_some_iff.mp live).1

variable (sound : store.Sound env)

include sound

theorem Sound.live_key (live : store.live env key = some object.bare) : object.key = key := by
  obtain ⟨held, -, named, same⟩ := (sound.content_iff key object.bare).mp (live_content live)
  rw [← bare_key, ← same, bare_key, named]

/-- A change of deadline in place, and the tracking that follows it. -/
theorem Sound.redate {expireAtMs : Int} (slot : object.hasTtlSlot = true)
    (held : store.content env key = some object.bare)
    (tracked : Tended env (store.modifyObject (env.hashKey key) key object
      (fun held => held.setExpireAtMs expireAtMs)) after [] [])
    : (object.setExpireAtMs expireAtMs).entry = object.entry.redate expireAtMs
      ∧ Wrote env store after (object.setExpireAtMs expireAtMs) [] := by
  have wrote := sound.modifyObject_wrote (f := fun held => held.setExpireAtMs expireAtMs) held
    (fun _ => rfl) (fun _ => rfl)
  refine ⟨?_, tracked.sound, fun other => ?_, ?_, wrote.settings.trans tracked.settings,
    fun none => tracked.granted (wrote.granted none), fun prepared =>
      (tracked.planned (by rw [wrote.settings.snapshot]; exact prepared)).trans
        (wrote.planned prepared)⟩
  · obtain ⟨at_ms, present⟩ := isSome_iff_exists.mp slot
    simp [entry, setExpireAtMs, Entry.redate, deadline, hasTtlSlot, KvObj.expireAtMs, present]
  · rw [tracked.content]
    exact wrote.content other
  · rw [tracked.deletes, wrote.deletes, List.append_nil]

theorem Sound.setExpire (key : Slice) (addr : Nat) (expireAtMs : Int)
    (named : ∀ object, (store.find env (env.hashKey key) key).1 = some object → object.key = key)
    : (∃ gone, TtlEffect env store key expireAtMs
        (store.setExpire env (env.hashKey key) key addr expireAtMs) gone)
      ∧ ∀ pace ≤ 1, store.atomics.entries = []
        → (pace = 1 → store.snapshot.prepared = false ∧ store.snapshot.active = false)
        → store.tables.Roomy pace 0
        → Steady env pace store (store.setExpire env (env.hashKey key) key addr expireAtMs).2 := by
  have found := sound.find key
  rw [FlatStore.setExpire]
  split
  · rename_i next missed
    rw [missed] at found
    obtain ⟨gone, reaped, -⟩ := found.reaped
    exact ⟨found.ttlMissing, fun pace small _ _ _ => reaped.tended.steady small⟩
  · rename_i old next hit
    have isKey := named old (by rw [hit])
    rw [hit] at found
    obtain ⟨tended, tracked⟩ := found.kept
    have lives : store.atomics.entries = [] → store.live env key = some old.bare :=
      fun none => (found.answer none).symm
    have held : store.atomics.entries = [] → next.content env key = some old.bare := fun none => by
      rw [tended.content]
      exact live_content (lives none)
    split
    · rename_i slot
      have moved := (tended.sound.modifyObject 0 key old
        (f := fun held => held.setExpireAtMs expireAtMs) (fun _ => rfl)).sound.trackExpire
          (env.hashKey key) (old.setExpireAtMs expireAtMs)
      refine ⟨⟨[], nofun, fun _ => nofun, absurd rfl, fun none => by simp [lives none],
        fun none _ => ?_⟩, fun pace small _ _ _ => ?_⟩
      · obtain ⟨entry, wrote⟩ := tended.sound.redate slot (held none) moved
        exact ⟨old, _, lives none, entry, isKey, wrote.after_tended tended rfl⟩
      · exact ((tended.steady small).trans (tended.sound.modifyObject pace key old
          (f := fun held => held.setExpireAtMs expireAtMs)
          (fun _ => rfl))).trans (moved.steady small)
    · rename_i slotless
      obtain ⟨gone, effect⟩ := tended.sound.rewriteExpire old addr expireAtMs
      rw [isKey] at effect
      have mayEvict : ∀ other ∈ gone, store.MayEvict env key other := fun other member =>
        (isKey ▸ effect.mayEvict other member).of_settings tended.settings
      refine ⟨⟨gone, fun other member => .inr (mayEvict other member), fun _ => mayEvict,
        fun refused room => ?_, fun none => ?_, fun none updated => ?_⟩,
        fun pace small none quiet room => ?_⟩
      · obtain ⟨kept, size⟩ := effect.kept refused (tended.room 0 (by omega) 0 (by omega) room).1
        exact ⟨by exact tended.trans kept, fun none => (size none).trans tracked⟩
      · simp [lives none, effect.found]
      · refine ⟨old, kvobjReheader old addr expireAtMs, lives none,
          kvobjReheader_entry addr expireAtMs (by simpa using slotless), isKey, ?_⟩
        exact (effect.wrote updated).after_tended tended rfl
      · refine (tended.steady small).trans (effect.steady pace
          ⟨small, (tended.room pace small 0 (by omega) room).1, fun one => ?_,
            fun _ _ _ => .inl ?_⟩)
        · rw [tended.settings.snapshot]
          exact quiet one
        · rw [isKey, held none]
          exact some_ne_none _

theorem Sound.persist (key : Slice)
    : (∃ gone, TtlEffect env store key kNoTtlDeadline
          (store.persist env (env.hashKey key) key) gone)
      ∧ (store.atomics.entries = [] → ((store.persist env (env.hashKey key) key).1 = .noChange
          ↔ ∃ object, store.live env key = some object ∧ object.deadline < 0))
      ∧ (store.persist env (env.hashKey key) key).1 ∈ [.missing, .noChange, .updated]
      ∧ ∀ pace ≤ 1, Steady env pace store (store.persist env (env.hashKey key) key).2 := by
  have found := sound.find key
  rw [FlatStore.persist]
  split
  · rename_i next missed
    rw [missed] at found
    obtain ⟨gone, reaped, -⟩ := found.reaped
    refine ⟨found.ttlMissing, fun none => ?_, by simp, fun pace => reaped.tended.steady⟩
    have absent := (found.answer none).symm
    simp [absent]
  · rename_i old next hit
    rw [hit] at found
    obtain ⟨tended, tracked⟩ := found.kept
    have lives : store.atomics.entries = [] → store.live env key = some old.bare :=
      fun none => (found.answer none).symm
    split
    · rename_i undated
      exact ⟨⟨[], nofun, fun _ => nofun, fun _ _ => ⟨tended, fun _ => tracked⟩,
        fun none => by simp [lives none], nofun⟩, fun none => by simp [lives none, undated],
        by simp, fun pace => tended.steady⟩
    · rename_i dated
      have slot : old.hasTtlSlot = true := by
        cases present : old.hasTtlSlot with
        | true => rfl
        | false => simp [deadline, present, kNoTtlDeadline] at dated
      have moved := (tended.sound.modifyObject 0 key old
        (f := fun held => held.setExpireAtMs kNoTtlDeadline) (fun _ => rfl)).sound.untrackExpire
          (env.hashKey key)
      refine ⟨⟨[], nofun, fun _ => nofun, absurd rfl, fun none => by simp [lives none],
        fun none _ => ?_⟩, fun none => by simp [lives none, dated], by simp,
        fun pace small => ?_⟩
      · have held : next.content env key = some old.bare := by
          rw [tended.content]
          exact live_content (lives none)
        obtain ⟨entry, wrote⟩ := tended.sound.redate slot held moved
        obtain ⟨resident, found, same⟩ := map_eq_some_iff.mp held
        have isKey : old.key = key := by
          rw [← bare_key, ← same]
          exact ((Tables.WellFormed.resident_iff tended.sound key resident).mp found).2
        exact ⟨old, _, lives none, entry, isKey, wrote.after_tended tended rfl⟩
      · exact ((tended.steady small).trans (tended.sound.modifyObject pace key old
          (f := fun held => held.setExpireAtMs kNoTtlDeadline) (fun _ => rfl))).trans
            (moved.steady small)

/-- Erasing from whichever table holds the key. -/
theorem Sound.eraseEither {erased : KvObj × FlatStore}
    (removed : (store.eraseIn .cur (env.hashKey key) key).or
      (store.eraseIn .old (env.hashKey key) key) = some erased)
    : Tended env store erased.2 [key] []
      ∧ Tables.Erased env.hashKey store.tables key erased.1 erased.2.tables := by
  rcases or_eq_some_iff.mp removed with inCur | ⟨-, inOld⟩
  · exact sound.eraseIn_some inCur
  · exact sound.eraseIn_some inOld

theorem Sound.eraseEither_of_mem (member : object ∈ store.tables.objects)
    : ∃ erased, (store.eraseIn .cur (env.hashKey object.key) object.key).or
        (store.eraseIn .old (env.hashKey object.key) object.key) = some erased := by
  refine ne_none_iff_exists'.mp (fun missed => ?_)
  obtain ⟨noCur, noOld⟩ := or_eq_none_iff.mp missed
  rcases Tables.mem_objects.mp member with held | ⟨old, there, held⟩
  · exact (Tables.WellFormed.eraseIn_none sound).mp (map_eq_none_iff.mp noCur) _ rfl _
      held rfl
  · exact (Tables.WellFormed.eraseIn_none sound).mp (map_eq_none_iff.mp noOld) old there _
      held rfl

theorem Sound.noteActiveExpireReap (deadline : Int)
    : Tended env store (store.noteActiveExpireReap deadline) [] [] := by
  rw [FlatStore.noteActiveExpireReap]
  split
  · exact .refl sound
  · exact .of_same sound rfl rfl ⟨rfl, rfl, rfl, rfl, rfl⟩ rfl id rfl

/-- One visit of the expiry cycle reaps the sampled key if its deadline has passed. -/
theorem Sound.expireVisit (h : BitVec 64)
    : ∃ gone, Reaped env store (store.expireVisit env h).2 gone := by
  rw [FlatStore.expireVisit]
  split
  · exact ⟨[], .of_tended (sound.untrackExpire h)⟩
  · rename_i object found
    obtain ⟨member, hashes, dated⟩ := findHash_some found
    split
    · exact ⟨[], .of_tended (sound.untrackExpire h)⟩
    · split
      · exact ⟨[], .of_tended (.refl sound)⟩
      · split
        · exact ⟨[], .of_tended (sound.untrackExpire h)⟩
        · split
          · exact ⟨[], .of_tended (.refl sound)⟩
          · subst hashes
            have logged := sound.recordDelete object.key
            obtain ⟨erased, removed⟩ := logged.sound.eraseEither_of_mem member
            obtain ⟨dropped, -⟩ := logged.sound.eraseEither removed
            have counted := dropped.sound.noteActiveExpireReap object.deadline
            have tended := (logged.trans dropped).trans
              (counted.trans (counted.sound.countExpired true))
            simp only [removed]
            refine ⟨[object.key], by exact tended, fun key isKey => ?_⟩
            rw [List.mem_singleton.mp isKey]
            exact ⟨object.bare, (sound.content_iff _ _).mpr ⟨object, member, rfl, rfl⟩,
              decide_eq_true ⟨dated, by rw [bare_deadline]; omega⟩⟩

theorem Sound.expireLoop (budget removed : Nat)
    : ∃ gone, Reaped env store (FlatStore.expireLoop env budget removed store).2 gone := by
  induction budget generalizing store removed with
  | zero => exact ⟨[], .of_tended (.refl sound)⟩
  | succ budget ih =>
    have indexed : ∀ index, Tended env store { store with expires := index } [] [] :=
      fun _ => .of_same sound rfl rfl ⟨rfl, rfl, rfl, rfl, rfl⟩ rfl id rfl
    rw [FlatStore.expireLoop]
    split
    · exact ⟨[], .of_tended (.refl sound)⟩
    · rename_i index sampled
      obtain ⟨gone, reaped⟩ := ih (indexed index).sound removed
      exact ⟨_, (Reaped.of_tended (indexed index)).trans reaped⟩
    · rename_i h index sampled
      obtain ⟨gone, visited⟩ := (indexed index).sound.expireVisit h
      obtain ⟨gone', rest⟩ := ih visited.tended.sound
        (removed + ({ store with expires := index }.expireVisit env h).1)
      exact ⟨_, ((Reaped.of_tended (indexed index)).trans visited).trans rest⟩

/-- The expiry cycle drops only keys past their deadline. -/
theorem Sound.activeExpire (budget : Nat)
    : ∃ gone, Reaped env store (store.activeExpire env budget).2 gone := by
  rw [FlatStore.activeExpire]
  split
  · exact ⟨[], .of_tended (.refl sound)⟩
  · have stepped : Tended env store
        (if store.rehashing then store.rehashStep env else store) [] [] := by
      split
      · exact sound.rehashStep
      · exact .refl sound
    dsimp only
    generalize (if store.rehashing then store.rehashStep env else store) = ready at stepped
    split
    · have indexed : Tended env ready { ready with
            expires := ExpireIndex.migrate ExpireIndex.kMigrateSlotsPerOp ready.expires } [] [] :=
        .of_same stepped.sound rfl rfl ⟨rfl, rfl, rfl, rfl, rfl⟩ rfl id rfl
      have moved := stepped.trans indexed
      obtain ⟨gone, reaped⟩ := moved.sound.expireLoop budget store.rehashing.toNat
      exact ⟨_, (Reaped.of_tended moved).trans reaped⟩
    · obtain ⟨gone, reaped⟩ := stepped.sound.expireLoop budget store.rehashing.toNat
      exact ⟨_, (Reaped.of_tended stepped).trans reaped⟩

/-- The flush leaves one empty table. -/
theorem Sound.clear
    : (∀ key, store.clear.content env key = none) ∧ store.clear.tables.old = none
      ∧ (store.snapshot.prepared = false → ∀ pace, Steady env pace store store.clear) := by
  obtain ⟨cap, shape, pow, minimum, fits⟩ : ∃ cap, store.clear.tables
      = { cur := Table.fresh cap, old := none, rehashPos := 0 }
      ∧ PowTwo cap ∧ kMinCap ≤ cap ∧ cap ≤ 2 ^ 31 := by
    simp only [FlatStore.clear]
    split
    · exact ⟨1024, rfl, ⟨10, rfl⟩, by decide, by decide⟩
    · exact ⟨_, rfl, sound.cur.pow, sound.cur.minimum, sound.cur.fits⟩
  have after : store.clear.Sound env := by
    rw [FlatStore.Sound, shape]
    exact .empty pow minimum fits
  refine ⟨fun key => after.content_none.mpr ?_, by rw [shape], fun unprepared pace => ?_⟩
  · simp [shape, Tables.objects]
  · refine ⟨after, rfl, rfl, rfl, rfl, id, drawAllocation_rest, fun _ => ⟨?_, rfl⟩,
      fun prepared => by rw [unprepared] at prepared; cases prepared⟩
    rw [shape]
    exact Tables.Roomy.empty (Nat.lt_of_lt_of_le (by decide) minimum)

end FlatStore

end Thredis.Store
