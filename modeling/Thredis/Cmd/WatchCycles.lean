import Thredis.Cmd.WatchClaims

/-! Which units WATCH reservations make wait for which. A wait leads to a transaction that watches
the key; a transaction waits only for a key it writes and does not watch.
-/

namespace Thredis.Cmd

open Thredis.Lib Option

namespace WatchServer

variable {κ : Type} [DecidableEq κ] {shardOf : κ → Nat} {pass : WatchPass κ}
  {server next : WatchServer κ} {token other : Nat} {key : κ} {event : WatchEvent κ}

/-- Two transactions cross where the first writes a key that the second watches and the first
does not.
-/
def Crosses (server : WatchServer κ) (token other : Nat) : Prop :=
  ∃ unit, server.units[token]? = some unit ∧ unit.kind = .execute
    ∧ ∃ wave ∈ unit.waves, ∃ key ∈ wave.keys, key ∉ unit.watched ∧ server.Watches other key

/-- The undecided transactions can be numbered so that each crosses only smaller ones. -/
def Ordered (server : WatchServer κ) : Prop :=
  ∃ rank : Nat → Nat, ∀ token other, server.has .undecided token → server.has .undecided other
    → server.Crosses token other → rank other < rank token

/-- No EXEC is published that closes a cycle of crossings among the undecided transactions. -/
def KeepsOrder (server : WatchServer κ) : WatchEvent κ → Prop
  | .dispatch unit => (server.dispatch unit).Ordered
  | _ => True

/-- A task of the unit goes back to its retry queue over a key on which the other unit holds a
blocking reservation, and both are undecided.
-/
def WaitsFor (shardOf : κ → Nat) (server : WatchServer κ) (token other : Nat) : Prop :=
  ∃ shard pass next key, server.attempt shardOf pass token shard = some (next, some key)
    ∧ next.has .undecided token ∧ next.has .undecided other
    ∧ ∃ entry ∈ next.reservations, entry.1 = key ∧ entry.2.token = other ∧ entry.2.blocking

omit [DecidableEq κ] in
theorem Ordered.of_units (ordered : server.Ordered) (units : next.units = server.units)
    (undecided : ∀ token, next.has .undecided token → server.has .undecided token)
    : next.Ordered := by
  obtain ⟨rank, descends⟩ := ordered
  refine ⟨rank, fun token other pending otherPending crosses => ?_⟩
  simp only [Crosses, Watches, units] at crosses
  exact descends token other (undecided token pending) (undecided other otherPending) crosses

omit [DecidableEq κ] in
/-- The key a loop stops at is one of its keys, refused in the state the loop leaves. -/
theorem visit_refused {act : WatchServer κ → κ → WatchServer κ × Bool} {keys : List κ}
    (stopped : visit act keys server = (next, some key))
    : key ∈ keys ∧ ∃ middle, act middle key = (next, false) := by
  induction keys generalizing server with
  | nil => simp [visit] at stopped
  | cons first rest ih =>
    rw [visit] at stopped
    split at stopped
    · obtain ⟨member, refused⟩ := ih stopped
      exact ⟨List.mem_cons_of_mem first member, refused⟩
    · rename_i refused
      obtain ⟨rfl, same⟩ := Prod.mk.inj stopped
      cases same
      exact ⟨List.mem_cons_self, server, refused⟩

omit [DecidableEq κ] in
theorem proceed_refused {asked : WatchServer κ × Bool}
    {act : WatchServer κ → WatchServer κ × Bool} (ready : ∀ middle, (act middle).2 = true)
    (refused : proceed asked act = (next, false))
    : asked = (next, false) := by
  obtain ⟨middle, false | true⟩ := asked
  · exact refused
  · have never := ready middle
    rw [show act middle = (next, false) from refused] at never
    simp at never

/-- A unit refused at a key holds no reservation there. -/
theorem watchWriteReady_refused {middle : WatchServer κ}
    (refused : middle.watchWriteReady (some token) key = (next, false))
    : ¬ next.reserves key token := by
  rw [watchWriteReady] at refused
  split at refused
  · simp at refused
  · rename_i unheld
    obtain rfl : (middle.watchFinalizeReservation key).1 = next := by rw [refused]
    refine fun held => unheld ?_
    obtain ⟨entry, member, matching⟩ := List.any_eq_true.mp held
    refine List.any_eq_true.mpr ⟨entry, ?_, matching⟩
    rw [watchFinalizeReservation] at member
    split at member <;> exact (List.mem_filter.mp member).1

omit [DecidableEq κ] in
theorem complete_refused {change : UnitProgress → UnitProgress} {result : WatchServer κ × Option κ}
    (stopped : (next, some key) = complete token change result)
    : result = (next, some key) := by
  obtain ⟨reached, none | refused⟩ := result
  · simp [complete] at stopped
  · exact stopped.symm

variable {shard : Nat}

/-- A wave is sent back over one of its keys, which the unit does not hold. -/
theorem executeWave_refused {unit : WatchUnit κ} {wave : Wave κ} (tokened : unit.kind ≠ .plain)
    (stopped : server.executeWave shardOf pass token unit wave shard = (next, some key))
    : key ∈ wave.keys ∧ ¬ next.reserves key token := by
  rw [executeWave, if_neg tokened] at stopped
  split at stopped
  · obtain ⟨member, middle, refused⟩ := visit_refused stopped
    refine ⟨(List.mem_filter.mp member).1, ?_⟩
    exact watchWriteReady_refused (proceed_refused (fun _ => rfl) refused)
  · split at stopped
    · obtain ⟨member, middle, refused⟩ := visit_refused stopped
      exact ⟨(List.mem_filter.mp member).1, watchWriteReady_refused refused⟩
    · simp at stopped

theorem attempt_refused
    (attempted : server.attempt shardOf pass token shard = some (next, some key))
    : Passes server next ∧ ∀ unit, server.units[token]? = some unit → unit.kind = .execute
      → unit.watchPhaseDone shardOf (server.progress token)
        ∧ (∃ wave ∈ unit.waves, key ∈ wave.keys) ∧ ¬ next.reserves key token := by
  obtain ⟨unit, found, ⟨done, wave, member, index, stopped⟩ | stopped⟩ := attempt_cases attempted
  · have ran := complete_refused stopped
    split at ran
    · have passes : Passes server (server.executeWave shardOf pass token unit wave shard).1 :=
        executeWave_passes unit wave shard
      rw [ran] at passes
      refine ⟨passes, fun same foundSame execute => ?_⟩
      cases found.symm.trans foundSame
      obtain ⟨written, unheld⟩ := executeWave_refused (by simp [execute]) ran
      exact ⟨done, ⟨wave, member, written⟩, unheld⟩
    · simp at ran
  · have ran := complete_refused stopped
    have passes : Passes server (server.executeWatchPhase shardOf pass token unit shard).1 :=
      executeWatchPhase_passes found shard
    rw [ran] at passes
    refine ⟨passes, fun same foundSame execute => ?_⟩
    cases found.symm.trans foundSame
    simp [executeWatchPhase, execute] at ran

/-- A wait leads to a transaction, and a transaction that waits crosses it. -/
theorem Claimed.waits (claimed : server.Claimed shardOf)
    (waits : server.WaitsFor shardOf token other)
    : server.has .undecided token ∧ server.has .undecided other
      ∧ (∃ key, server.Watches other key)
      ∧ ((∃ key, server.Watches token key) → server.Crosses token other) := by
  obtain ⟨shard, pass, next, key, attempted, pending, otherPending, entry, member, rfl, rfl,
    blocking⟩ := waits
  obtain ⟨passes, refused⟩ := attempt_refused attempted
  have after := claimed.passes passes
  have watches : server.Watches entry.2.token entry.1 := by
    have owned := after.owned entry member blocking
    rwa [Watches, passes.units] at owned
  refine ⟨passes.undecided token pending, passes.undecided _ otherPending, ⟨_, watches⟩, ?_⟩
  rintro ⟨_, unit, found, execute, _⟩
  obtain ⟨done, ⟨wave, inWaves, written⟩, unheld⟩ := refused unit found execute
  refine ⟨unit, found, execute, wave, inWaves, entry.1, written, fun watched => ?_, watches⟩
  refine unheld (after.held token entry.1 pending ⟨unit, passes.units ▸ found, execute, watched⟩ ?_)
  have everywhere : ∀ shard ∈ unit.shards shardOf, shard ∈ (server.progress token).watchDone := by
    simpa [WatchUnit.watchPhaseDone, WatchUnit.hasWatchPhase, execute] using done
  rw [passes.watchDone]
  exact everywhere _ (List.mem_append_right _ (List.mem_map_of_mem watched))

/-- What one step does to the claims: it passes, runs a task, publishes a unit, or changes the
words of a connection none of whose transactions is undecided.
-/
theorem step_cases (stepped : server.step shardOf event = some next)
    : Passes server next
      ∨ (∃ token shard pass stopped, server.attempt shardOf pass token shard = some (next, stopped))
      ∨ (∃ unit, event = .dispatch unit ∧ next = server.dispatch unit
        ∧ (unit.hasWatchPhase → (server.clients unit.client).barrier = none))
      ∨ ∃ client after, next = server.setClient client after
          ∧ ∀ token ∈ (server.clients client).barrier, ∀ unit,
            server.units[token]? = some unit → ¬ server.InFlight shardOf token unit := by
  cases event with
  | reset client =>
    rw [step, ite_none_right_eq_some] at stepped
    obtain ⟨free, made⟩ := stepped
    exact .inr (.inr (.inr ⟨client, _, (some.inj made).symm, by simp [free]⟩))
  | dispatch unit =>
    rw [step, ite_none_right_eq_some] at stepped
    obtain ⟨⟨free, _⟩, made⟩ := stepped
    exact .inr (.inr (.inl ⟨unit, rfl, (some.inj made).symm, free⟩))
  | task token shard pass =>
    rw [step, map_eq_some_iff] at stepped
    obtain ⟨⟨reached, stopped⟩, attempted, rfl⟩ := stepped
    exact .inr (.inl ⟨token, shard, pass, stopped, attempted⟩)
  | abort token =>
    obtain ⟨_, rfl⟩ := guard_taken stepped
    exact .inl (decideUnit_passes (by simp))
  | decide token =>
    rw [step, bind_eq_some_iff] at stepped
    obtain ⟨unit, _, stepped⟩ := stepped
    obtain ⟨_, rfl⟩ := guard_taken stepped
    exact .inl (decideAll_passes unit)
  | finalize key =>
    rw [← some.inj stepped]
    exact .inl watchFinalizeReservation_passes
  | serve token key =>
    obtain ⟨_, rfl⟩ := guard_taken stepped
    exact .inl noteWrite_passes
  | retire token =>
    rw [step, bind_eq_some_iff] at stepped
    obtain ⟨unit, found, stepped⟩ := stepped
    rw [ite_none_right_eq_some] at stepped
    obtain ⟨⟨mine, decided, joined⟩, made⟩ := stepped
    rw [WatchUnit.joined, Bool.and_eq_true] at joined
    have idle : ∀ other ∈ (server.clients unit.client).barrier, ∀ same,
        server.units[other]? = some same → ¬ server.InFlight shardOf other same := by
      intro other barred same foundSame flying
      cases mine.symm.trans barred
      cases found.symm.trans foundSame
      exact flying.elim decided (· joined.1)
    rw [← some.inj made]
    split
    · exact .inr (.inr (.inr ⟨unit.client, _, rfl, idle⟩))
    · exact .inr (.inr (.inr ⟨unit.client, _, rfl, idle⟩))

theorem Claimed.step (claimed : server.Claimed shardOf)
    (stepped : server.step shardOf event = some next)
    : next.Claimed shardOf := by
  obtain passes | ⟨_, _, _, _, attempted⟩ | ⟨unit, _, rfl, free⟩ | ⟨client, after, rfl, idle⟩ :=
    step_cases stepped
  · exact claimed.passes passes
  · exact claimed.attempt attempted
  · exact claimed.dispatch free
  · exact claimed.update idle after

theorem Ordered.step (ordered : server.Ordered) (keeps : server.KeepsOrder event)
    (stepped : server.step shardOf event = some next)
    : next.Ordered := by
  obtain passes | ⟨_, _, _, _, attempted⟩ | ⟨unit, rfl, rfl, _⟩ | ⟨client, after, rfl, _⟩ :=
    step_cases stepped
  · exact ordered.of_units passes.units passes.undecided
  · obtain ⟨units, undecided⟩ := attempt_keeps attempted
    exact ordered.of_units units undecided
  · exact keeps
  · exact ordered

omit [DecidableEq κ] in
theorem init_ordered : (init : WatchServer κ).Ordered :=
  ⟨id, fun _ _ _ _ ⟨_, found, _⟩ => by simp [init] at found⟩

theorem init_claimed : (init : WatchServer κ).Claimed shardOf where
  owned _ member := by simp [init] at member
  held _ _ _ watches := by simp [init, Watches] at watches
  current _ _ found := by simp [init] at found

/-- In every run in which no published EXEC closes a cycle of crossings among the undecided
transactions, no set of units waits for itself: some member waits for no other.
Witness: from a wait to a transaction, its own wait leads to one of smaller rank.
-/
theorem reservation_waits_end {events : List (WatchEvent κ)} {members : List Nat}
    (each : EachStep (step shardOf) KeepsOrder init events)
    (ran : run (step shardOf) init events = some server) (inhabited : members ≠ [])
    : ¬ ∀ token ∈ members, ∃ other ∈ members, server.WaitsFor shardOf token other := by
  intro stuck
  have claimed := run_invariant (fun _ _ _ => Claimed.step) init_claimed ran
  obtain ⟨rank, descends⟩ :=
    run_invariant_of_eachStep (fun _ _ _ => Ordered.step) init_ordered each ran
  have descent : ∀ bound token, token ∈ members → (∃ key, server.Watches token key)
      → rank token ≠ bound := by
    intro bound
    induction bound using Nat.strongRecOn with
    | ind bound ih =>
      rintro token member watches rfl
      obtain ⟨other, otherMember, waits⟩ := stuck token member
      obtain ⟨pending, otherPending, otherWatches, crosses⟩ := claimed.waits waits
      exact ih _ (descends token other pending otherPending (crosses watches)) other otherMember
        otherWatches rfl
  obtain ⟨token, member⟩ := List.exists_mem_of_ne_nil members inhabited
  obtain ⟨other, otherMember, waits⟩ := stuck token member
  exact descent _ other otherMember (claimed.waits waits).2.2.1 rfl

/-- A transaction of connection `client` that watches one key and sets another. -/
def watchAndSet (client watched written : Nat) : WatchUnit Nat where
  kind := .execute
  client
  generation := 0
  watched := [watched]
  writeKeys := [written]
  waves := [{ shards := [written], keys := [written], checkedFirst := true, child := none }]

def calmPass : WatchPass Nat where
  nowMs := 0
  deadline _ := -1
  granted _ := true

/-- Two published EXECs pass their watch phases on the owners of their keys. -/
def validated (first second : WatchUnit Nat) (shards others : List Nat) : List (WatchEvent Nat) :=
  [WatchEvent.dispatch first, WatchEvent.dispatch second]
    ++ shards.map (WatchEvent.task 0 · calmPass) ++ others.map (WatchEvent.task 1 · calmPass)

/-- The first transaction waits for the second, which sets a key nobody watches. -/
theorem reservation_waits_end_uncrossed
    : ∃ server, run (step id) init
        (validated (watchAndSet 0 0 1) (watchAndSet 1 1 2) [0, 1] [1, 2]) = some server
      ∧ server.WaitsFor id 0 1
      ∧ ¬ ∀ token ∈ [0, 1], ∃ other ∈ [0, 1], server.WaitsFor id token other := by
  have one : (init.dispatch (watchAndSet 0 0 1)).Ordered := by
    refine ⟨id, ?_⟩
    rintro (_ | token) (_ | other) - -
      ⟨unit, found, -, wave, inWaves, key, written, unwatched, foreign, here, -, watched⟩
    all_goals simp [dispatch, init] at found here
    subst found here
    exact (unwatched watched).elim
  have two : ((init.dispatch (watchAndSet 0 0 1)).dispatch (watchAndSet 1 1 2)).Ordered := by
    refine ⟨fun token => 1 - token, ?_⟩
    rintro (_ | _ | token) (_ | _ | other) - -
      ⟨unit, found, -, wave, inWaves, key, written, unwatched, foreign, here, -, watched⟩
    all_goals simp [dispatch, init, watchAndSet] at found here ⊢
    all_goals subst found here
    all_goals simp_all
  have each : EachStep (step id) KeepsOrder init
      (validated (watchAndSet 0 0 1) (watchAndSet 1 1 2) [0, 1] [1, 2]) :=
    And.intro one (And.intro two (And.intro trivial (And.intro trivial
      (And.intro trivial (And.intro trivial trivial)))))
  exact ⟨_, rfl, ⟨1, calmPass, _, 1, rfl, by decide⟩, reservation_waits_end each rfl (by simp)⟩

/-- The first connection watches key 0 and sets key 1, the second watches key 1 and sets key 0;
once both EXECs have validated, each waits for the other.
-/
theorem crossed_watches_deadlock
    : ∃ server, run (step id) init
        (validated (watchAndSet 0 0 1) (watchAndSet 1 1 0) [0, 1] [1, 0]) = some server
      ∧ server.WaitsFor id 0 1 ∧ server.WaitsFor id 1 0 :=
  ⟨_, rfl, ⟨1, calmPass, _, 1, rfl, by decide⟩, ⟨0, calmPass, _, 0, rfl, by decide⟩⟩

end WatchServer

end Thredis.Cmd
