import Thredis.Store.FlatMap

/-! Whole sessions of an owner without captures and pending records: the tables stay
well-formed wherever a migration stands, and the store answers as the map of its calls.
-/

namespace Thredis.Store
open Thredis.Lib FlatStore

namespace FlatStore

variable {env : StoreEnv} {store : FlatStore}

/-- A store as it is constructed is ready for its owner. -/
theorem Ready.init (env : StoreEnv) {initialCap : Nat} (constructed : roundPow2 initialCap ≠ 0)
    (maxmemory : Maxmemory) (seed : BitVec 64)
    : (init initialCap maxmemory seed).Ready env := by
  obtain ⟨pow, least, most, -⟩ := roundPow2_fits constructed
  exact ⟨.empty pow least most, .empty (Nat.lt_of_lt_of_le (by decide) least), rfl, rfl, rfl, rfl⟩

end FlatStore

namespace Session

variable {env : StoreEnv} {session : Session}

structure Faithful (env : StoreEnv) (session : Session) : Prop where
  ready : session.store.Ready env
  shows : session.store.Shows env session.map

theorem Faithful.start (env : StoreEnv) {initialCap : Nat} (constructed : roundPow2 initialCap ≠ 0)
    (maxmemory : Maxmemory) (seed : BitVec 64)
    : (Session.start initialCap maxmemory seed).Faithful env := by
  have ready := FlatStore.Ready.init env constructed maxmemory seed
  refine ⟨ready, fun key => ?_⟩
  have missing : (init initialCap maxmemory seed).content env key = none :=
    ready.sound.content_none.mpr (by simp [init, Tables.objects])
  show ((init initialCap maxmemory seed).live env key).map KvObj.entry = _
  rw [live, missing]
  rfl

section

variable (faithful : session.Faithful env)

include faithful

theorem Faithful.clocked (tick : Nat)
    : (session.clocked tick).Ready env ∧ (session.clocked tick).Shows env session.map :=
  ⟨{ faithful.ready with }, faithful.shows.later (by omega)⟩

theorem Faithful.refines (event : TimedCall)
    : FlatStore.Refines env (session.clocked event.tick) session.map event.call
        (session.result env event) (session.gone env event) := by
  obtain ⟨ready, shows⟩ := faithful.clocked event.tick
  obtain ⟨gone, refines⟩ := ready.call shows event.call
  have same : session.gone env event = gone := by
    have logged : (session.result env event).2.deletes = session.store.deletes ++ gone :=
      refines.deletes
    rw [Session.gone, logged, List.drop_left]
  rw [same]
  exact refines

theorem Faithful.step (event : TimedCall)
    : (session.step env event).Faithful env :=
  have refines := faithful.refines event
  ⟨(faithful.clocked event.tick).1.of_steady refines.steady, refines.shows⟩

theorem Faithful.run (events : List TimedCall)
    : (session.run env events).Faithful env :=
  List.foldlRecOn events (Session.step env) faithful (fun _ held event _ => held.step event)

end

variable {key : Slice}

section

variable (faithful : session.Faithful env)

include faithful

theorem Faithful.find (key : Slice)
    : (session.store.find env (env.hashKey key) key).1.map KvObj.entry = session.shown key := by
  have answer := (faithful.ready.sound.find key).answer faithful.ready.records
  rw [Session.shown, ← faithful.shows key, ← answer, Option.map_map]
  rfl

/-- The keys that show are finitely many: each is the key of an object in the tables. -/
theorem Faithful.finite (shown : session.shown key ≠ none)
    : key ∈ session.store.tables.objects.map KvObj.key := by
  rw [Session.shown, ← faithful.shows key, Ne, Option.map_eq_none_iff] at shown
  obtain ⟨object, live⟩ := Option.ne_none_iff_exists'.mp shown
  obtain ⟨held, member, named, -⟩ :=
    (faithful.ready.sound.content_iff key object).mp (live_content live)
  exact List.mem_map.mpr ⟨held, member, named⟩

end

end Session

end Thredis.Store
