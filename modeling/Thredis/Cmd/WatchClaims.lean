import Thredis.Cmd.Watch

/-! The claims that transactions hold on watched keys. Only an EXEC makes a blocking reservation,
and once its watch phase has passed on an owner it holds every key it watches there until it is
decided.
-/

namespace Thredis.Cmd

open List Option

namespace WatchServer

variable {κ : Type} [DecidableEq κ] {shardOf : κ → Nat} {pass : WatchPass κ}
  {server middle next : WatchServer κ} {token : Nat} {key : κ}

def Watches (server : WatchServer κ) (token : Nat) (key : κ) : Prop :=
  ∃ unit, server.units[token]? = some unit ∧ unit.kind = .execute ∧ key ∈ unit.watched

/-- What the registry calls of an owner's pass leave alone: the units, the connections'
generations and barriers, every decision once made and the reservations of undecided units; a
new blocking reservation is a transaction's on a key it watches.
-/
structure Passes (server next : WatchServer κ) : Prop where
  units : next.units = server.units
  watchDone : ∀ token, (next.progress token).watchDone = (server.progress token).watchDone
  undecided : ∀ token, next.has .undecided token → server.has .undecided token
  generation : ∀ client,
    (next.clients client).watchGeneration = (server.clients client).watchGeneration
  barrier : ∀ client, (next.clients client).barrier = (server.clients client).barrier
  dirty : ∀ client, (server.clients client).watchDirty → (next.clients client).watchDirty
  kept : ∀ key token, server.reserves key token → next.has .undecided token
    → next.reserves key token
  claims : ∀ entry ∈ next.reservations, entry.2.blocking → (∃ held ∈ server.reservations,
      held.1 = entry.1 ∧ held.2.token = entry.2.token ∧ held.2.blocking)
    ∨ server.Watches entry.2.token entry.1

/-- The calls of a pass compose. -/
theorem Passes.trans (first : Passes server middle) (second : Passes middle next)
    : Passes server next where
  units := second.units.trans first.units
  watchDone token := (second.watchDone token).trans (first.watchDone token)
  undecided token pending := first.undecided token (second.undecided token pending)
  generation client := (second.generation client).trans (first.generation client)
  barrier client := (second.barrier client).trans (first.barrier client)
  dirty client was := second.dirty client (first.dirty client was)
  kept key token held pending :=
    second.kept key token (first.kept key token held (second.undecided token pending)) pending
  claims entry member blocking := by
    obtain ⟨held, inMiddle, sameKey, sameToken, was⟩ | watches :=
      second.claims entry member blocking
    · obtain ⟨older, inServer, olderKey, olderToken, olderBlocking⟩ | watches :=
        first.claims held inMiddle was
      · exact .inl ⟨older, inServer, olderKey.trans sameKey, olderToken.trans sameToken,
          olderBlocking⟩
      · exact .inr (by rwa [← sameKey, ← sameToken])
    · exact .inr (by rwa [Watches, first.units] at watches)

/-- Calls that only touch watchers, dirty words or the write log. -/
theorem Passes.of_reservations (units : next.units = server.units)
    (progress : next.progress = server.progress)
    (reservations : next.reservations = server.reservations) (clients : ∀ client,
      (next.clients client).watchGeneration = (server.clients client).watchGeneration
      ∧ (next.clients client).barrier = (server.clients client).barrier
      ∧ ((server.clients client).watchDirty → (next.clients client).watchDirty))
    : Passes server next where
  units
  watchDone token := by rw [progress]
  undecided token pending := by rwa [has, progress] at pending
  generation client := (clients client).1
  barrier client := (clients client).2.1
  dirty client := (clients client).2.2
  kept key token held _ := by rwa [reserves, reservations]
  claims entry member blocking := .inl ⟨entry, reservations ▸ member, rfl, rfl, blocking⟩

theorem Passes.refl : Passes server server := .of_reservations rfl rfl rfl fun _ => ⟨rfl, rfl, id⟩

theorem setWatchDirty_passes (client : Nat) : Passes server (server.setWatchDirty client) := by
  refine .of_reservations rfl rfl rfl fun other => ?_
  by_cases same : other = client
  · subst same
    simp [setWatchDirty, setClient]
  · simp [setWatchDirty, setClient, same]

/-- Dirtying watchers decides nothing and takes no reservation. -/
theorem signal_passes : Passes server (server.signal key) := by
  refine .of_reservations rfl rfl rfl fun client => ?_
  simp only [signal]
  split
  · exact ⟨rfl, rfl, fun _ => rfl⟩
  · exact ⟨rfl, rfl, id⟩

/-- Only reservations of decided units go. -/
theorem watchFinalizeReservation_passes
    : Passes server (server.watchFinalizeReservation key).1 := by
  have filtered : Passes server { server with
      reservations := server.reservations.filter fun entry =>
        entry.1 ≠ key || server.has .undecided entry.2.token } :=
    { (Passes.refl : Passes server server) with
      kept := fun other token held pending => by
        obtain ⟨entry, member, matching⟩ := any_eq_true.mp held
        refine any_eq_true.mpr ⟨entry, mem_filter.mpr ⟨member, ?_⟩, matching⟩
        simp only [Bool.and_eq_true, decide_eq_true_eq] at matching
        rw [matching.2, show server.has .undecided token from pending, Bool.or_true]
      claims := fun entry member blocking =>
        .inl ⟨entry, (mem_filter.mp member).1, rfl, rfl, blocking⟩ }
  rw [watchFinalizeReservation]
  split
  · exact filtered.trans signal_passes
  · exact filtered

variable {change : UnitProgress → UnitProgress}

/-- Progress that ends no watch phase and reopens no decision. -/
theorem advance_passes (watchDone : ∀ progress, (change progress).watchDone = progress.watchDone)
    (undecided : ∀ progress,
      (change progress).decision = .undecided → progress.decision = .undecided)
    : Passes server (server.advance token change) :=
  { (Passes.refl : Passes server server) with
    watchDone := fun other => by
      by_cases same : other = token
      · subst same
        simp [advance, watchDone]
      · simp [advance, same]
    undecided := fun other pending => by
      by_cases same : other = token
      · subst same
        simp only [advance, has, Function.update_self, decide_eq_true_eq] at pending ⊢
        exact undecided _ pending
      · simpa [advance, has, same] using pending
    kept := fun _ _ held _ => held
    claims := fun entry member blocking => .inl ⟨entry, member, rfl, rfl, blocking⟩ }

/-- The first decision stands. -/
theorem decideUnit_passes {decision : Decision} (decided : decision ≠ .undecided)
    : Passes server (server.decideUnit decision token) := by
  rw [decideUnit]
  split
  · exact advance_passes (fun _ => rfl) fun _ made => absurd made decided
  · exact .refl

theorem markMutates_passes (mutates : Bool)
    : Passes server (server.markMutates key token mutates) :=
  { (Passes.refl : Passes server server) with
    kept := fun other unit held _ => by
      obtain ⟨entry, member, matching⟩ := any_eq_true.mp held
      refine any_eq_true.mpr ⟨_, mem_map_of_mem member, ?_⟩
      split
      · rename_i same
        simpa [same.1] using matching
      · exact matching
    claims := fun entry member blocking => by
      obtain ⟨held, inServer, rfl⟩ := mem_map.mp member
      refine .inl ⟨held, inServer, ?_⟩
      revert blocking
      split
      · rename_i same
        exact fun blocking => ⟨same.1, rfl, blocking⟩
      · exact fun blocking => ⟨rfl, rfl, blocking⟩ }

/-- Without memory the unit is aborted instead of reserved. -/
theorem watchAppendReservation_passes (reservation : WatchReservation)
    (lawful : reservation.blocking → server.Watches reservation.token key)
    : Passes server (server.watchAppendReservation pass key reservation) := by
  rw [watchAppendReservation]
  split
  · exact { (Passes.refl : Passes server server) with
      kept := fun _ _ held _ => by simp_all [reserves]
      claims := fun entry member blocking => by
        rcases mem_append.mp member with old | new
        · exact .inl ⟨entry, old, rfl, rfl, blocking⟩
        · obtain rfl := mem_singleton.mp new
          exact .inr (lawful blocking) }
  · exact decideUnit_passes (by simp)

/-- The gate of a write finalizes the key and looks. -/
theorem watchWriteReady_passes (asking : Option Nat)
    : Passes server (server.watchWriteReady asking key).1 := by
  rw [watchWriteReady]
  split
  · exact .refl
  · exact watchFinalizeReservation_passes

theorem watchPruneStale_passes : Passes server (server.watchPruneStale key) :=
  .of_reservations rfl rfl rfl fun _ => ⟨rfl, rfl, id⟩

theorem watchRemove_passes (client generation : Nat)
    : Passes server (server.watchRemove client generation key) :=
  .of_reservations rfl rfl rfl fun _ => ⟨rfl, rfl, id⟩

/-- What follows a gate passes on from where the gate left off. -/
theorem proceed_passes {asked : WatchServer κ × Bool}
    {act : WatchServer κ → WatchServer κ × Bool} (first : Passes server asked.1)
    (onward : ∀ middle, Passes middle (act middle).1)
    : Passes server (proceed asked act).1 := by
  obtain ⟨middle, false | true⟩ := asked
  · exact first
  · exact first.trans (onward middle)

theorem watchAdd_passes (client generation : Nat)
    : Passes server (server.watchAdd pass client generation key).1 := by
  refine proceed_passes watchFinalizeReservation_passes fun middle => ?_
  dsimp only
  split
  · exact watchPruneStale_passes
  · split
    · exact .of_reservations rfl rfl rfl fun _ => ⟨rfl, rfl, id⟩
    · exact watchPruneStale_passes

/-- The reservation of a write never blocks. -/
theorem watchReserveWrite_passes : Passes server (server.watchReserveWrite pass token key) := by
  rw [watchReserveWrite]
  split
  · exact markMutates_passes true
  · split
    · exact watchAppendReservation_passes _ (by simp)
    · exact .refl

theorem watchWriteCommitted_passes : Passes server (server.watchWriteCommitted key) :=
  proceed_passes watchFinalizeReservation_passes fun _ =>
    watchPruneStale_passes.trans signal_passes

theorem noteWrite_passes : Passes server (server.noteWrite token key) :=
  .of_reservations rfl rfl rfl fun _ => ⟨rfl, rfl, id⟩

/-- The gate, the reservation and the install, one after the other. -/
theorem prepareWriteKey_passes (owner : Nat)
    : Passes server (server.prepareWriteKey pass token owner key).1 :=
  proceed_passes (watchWriteReady_passes (some token)) fun _ =>
    watchReserveWrite_passes.trans noteWrite_passes

variable {unit : WatchUnit κ}

/-- The claim is lawful: an EXEC claims a key it watches. -/
theorem claim_passes (watches : server.Watches token key)
    : Passes server (server.claim pass token unit key) := by
  rw [claim]
  split
  · exact .refl
  · exact watchAppendReservation_passes _ fun _ => watches

theorem watchValidateAndReserve_passes (watches : server.Watches token key)
    : Passes server (server.watchValidateAndReserve pass token unit key) := by
  rw [watchValidateAndReserve]
  dsimp only
  split
  · exact markMutates_passes _
  · have asked : Passes server (server.watchFinalizeReservation key).1 :=
      watchFinalizeReservation_passes
    split
    · have dirtied := asked.trans (setWatchDirty_passes unit.client)
      exact dirtied.trans (claim_passes (by rwa [Watches, dirtied.units]))
    · exact asked.trans (claim_passes (by rwa [Watches, asked.units]))

/-- A loop over keys passes when each call does.
Witness: induction over the keys.
-/
theorem visit_passes {act : WatchServer κ → κ → WatchServer κ × Bool}
    (passes : ∀ server key, Passes server (act server key).1) (keys : List κ)
    (server : WatchServer κ)
    : Passes server (visit act keys server).1 := by
  induction keys generalizing server with
  | nil => exact .refl
  | cons key rest ih =>
    have first := passes server key
    rw [visit]
    split
    · rename_i ready
      rw [ready] at first
      exact first.trans (ih _)
    · rename_i refused
      rwa [refused] at first

theorem ready_passes (asking : Option Nat) (keys : List κ)
    : Passes server (visit (watchWriteReady asking) keys server).1 :=
  visit_passes (fun _ _ => watchWriteReady_passes asking) keys server

variable {keys : List κ}

/-- Over a list of keys, by induction with the units unchanged. -/
theorem foldl_passes {act : WatchServer κ → κ → WatchServer κ}
    (passes : ∀ middle, middle.units = server.units → ∀ key ∈ keys, Passes middle (act middle key))
    : Passes server (keys.foldl act server) := by
  induction keys generalizing server with
  | nil => exact .refl
  | cons key rest ih =>
    have first := passes server rfl key mem_cons_self
    exact first.trans (ih fun middle same other member =>
      passes middle (same.trans first.units) other (mem_cons_of_mem key member))

/-- An EXEC that is neither dirty nor aborted after validating a key has reserved it. -/
def Secured (server : WatchServer κ) (token : Nat) (unit : WatchUnit κ) (key : κ) : Prop :=
  server.has .undecided token → ¬ (server.clients unit.client).watchDirty
    → (server.clients unit.client).watchGeneration = unit.generation → server.reserves key token

/-- A client that is clean and current when it claims has its reservation, or is aborted. -/
theorem claim_secured (unit : WatchUnit κ)
    : (server.claim pass token unit key).Secured token unit key := by
  intro pending clean current
  rw [claim] at pending clean current ⊢
  split at pending
  · rename_i refused
    rw [if_pos refused] at clean current
    exact (refused.elim (· current) clean).elim
  · rw [watchAppendReservation] at pending ⊢
    split at pending
    · simp [*, reserves]
    · rw [decideUnit] at pending
      split at pending <;> simp_all [has, advance]

theorem watchValidateAndReserve_secured (unit : WatchUnit κ)
    : (server.watchValidateAndReserve pass token unit key).Secured token unit key := by
  rw [watchValidateAndReserve]
  split
  · rename_i held
    exact fun pending _ _ => (markMutates_passes _).kept key token held pending
  · exact claim_secured unit

/-- What is secured stays so: an undecided unit keeps its reservations. -/
theorem Secured.passes (secured : server.Secured token unit key) (passes : Passes server next)
    : next.Secured token unit key := fun pending clean current =>
  passes.kept key token
    (secured (passes.undecided token pending) (fun dirty => clean (passes.dirty _ dirty))
      ((passes.generation _).symm.trans current)) pending

theorem validated_passes (watches : ∀ key ∈ keys, server.Watches token key)
    : Passes server (keys.foldl (watchValidateAndReserve pass token unit) server) :=
  foldl_passes fun middle same key member => watchValidateAndReserve_passes (by
    rw [Watches, same]
    exact watches key member)

/-- The reservations after an owner's watch phase.
Witness: induction over the keys; what one call reserves, the later ones keep.
-/
theorem validated_secured (watches : ∀ key ∈ keys, server.Watches token key)
    : ∀ key ∈ keys,
      (keys.foldl (watchValidateAndReserve pass token unit) server).Secured token unit key := by
  induction keys generalizing server with
  | nil => simp
  | cons first rest ih =>
    have one : Passes server (server.watchValidateAndReserve pass token unit first) :=
      watchValidateAndReserve_passes (watches first mem_cons_self)
    have later : ∀ key ∈ rest,
        (server.watchValidateAndReserve pass token unit first).Watches token key :=
      fun key member => by
        rw [Watches, one.units]
        exact watches key (mem_cons_of_mem first member)
    intro key member
    rcases mem_cons.mp member with rfl | member
    · exact (watchValidateAndReserve_secured unit).passes (validated_passes later)
    · exact ih later key member

/-- By the kind of the unit. -/
theorem executeWatchPhase_passes (found : server.units[token]? = some unit) (shard : Nat)
    : Passes server (server.executeWatchPhase shardOf pass token unit shard).1 := by
  rw [executeWatchPhase]
  split
  · exact visit_passes (fun _ _ => watchAdd_passes _ _) _ _
  · rename_i execute
    have validated : Passes server ((unit.watched.filter (shardOf · = shard)).foldl
        (watchValidateAndReserve pass token unit) server) :=
      validated_passes fun key member => ⟨unit, found, execute, (mem_filter.mp member).1⟩
    refine Passes.trans ?_ (foldl_passes fun _ _ _ _ => watchRemove_passes _ _)
    split
    · exact validated.trans ((decideUnit_passes (by simp)).trans
        (advance_passes (fun _ => rfl) fun _ => id))
    · exact validated
  · exact visit_passes (fun _ _ => proceed_passes (watchWriteReady_passes none) fun _ =>
      watchRemove_passes _ _) _ _

/-- Writes reserve without blocking, in either order of checks and installs. -/
theorem executeWave_passes (unit : WatchUnit κ) (wave : Wave κ) (shard : Nat)
    : Passes server (server.executeWave shardOf pass token unit wave shard).1 := by
  rw [executeWave]
  split
  · have asked : Passes server
        (visit (watchWriteReady none) (wave.keys.filter (shardOf · = shard)) server).1 :=
      ready_passes none _
    split
    · rename_i ready
      rw [ready] at asked
      exact asked.trans (foldl_passes fun _ _ _ _ =>
        noteWrite_passes.trans watchWriteCommitted_passes)
    · exact asked
  · have asked : Passes server (if wave.checkedFirst = true then
        visit (watchWriteReady (some token)) (wave.keys.filter (shardOf · = shard)) server
        else (server, none)).1 := by
      split
      · exact ready_passes (some token) _
      · exact .refl
    split
    · rename_i ready
      rw [ready] at asked
      exact asked.trans (visit_passes (fun _ _ => prepareWriteKey_passes _) _ _)
    · exact asked

variable {shard : Nat}

/-- After its watch phase on a key's owner an undecided transaction holds the key. -/
theorem executeWatchPhase_reserves
    (found : server.units[token]? = some unit) (execute : unit.kind = .execute)
    (watched : key ∈ unit.watched) (owned : shardOf key = shard)
    (pending : (server.executeWatchPhase shardOf pass token unit shard).1.has .undecided token)
    (current : (server.clients unit.client).watchGeneration = unit.generation)
    : (server.executeWatchPhase shardOf pass token unit shard).1.reserves key token := by
  have watches : ∀ key ∈ unit.watched.filter (shardOf · = shard), server.Watches token key :=
    fun key member => ⟨unit, found, execute, (mem_filter.mp member).1⟩
  rw [executeWatchPhase, execute] at pending ⊢
  have removed {middle : WatchServer κ} : Passes middle ((unit.watched.filter
      (shardOf · = shard)).foldl (watchRemove unit.client unit.generation) middle) :=
    foldl_passes fun _ _ _ _ => watchRemove_passes _ _
  refine removed.kept key token ?_ pending
  have before := removed.undecided token pending
  split at before
  · simp [decideUnit, has, advance] at before
    split at before <;> simp_all
  · rename_i clean
    rw [if_neg clean]
    exact validated_secured watches key (mem_filter.mpr ⟨watched, by simpa using owned⟩)
      before clean (((validated_passes watches).generation _).trans current)

def InFlight (shardOf : κ → Nat) (server : WatchServer κ) (token : Nat) (unit : WatchUnit κ)
    : Prop :=
  server.has .undecided token ∨ ¬ unit.watchPhaseDone shardOf (server.progress token)

/-- A pass puts no unit in flight. -/
theorem InFlight.passes (flying : next.InFlight shardOf token unit) (passes : Passes server next)
    : server.InFlight shardOf token unit := by
  refine flying.imp (passes.undecided token) fun unfinished => ?_
  rwa [WatchUnit.watchPhaseDone, passes.watchDone] at unfinished

/-- What every state of a run keeps about claims. -/
structure Claimed (shardOf : κ → Nat) (server : WatchServer κ) : Prop where
  owned : ∀ entry ∈ server.reservations, entry.2.blocking → server.Watches entry.2.token entry.1
  held : ∀ token key, server.has .undecided token → server.Watches token key
    → shardOf key ∈ (server.progress token).watchDone → server.reserves key token
  current : ∀ token unit, server.units[token]? = some unit → unit.hasWatchPhase
    → server.InFlight shardOf token unit
    → (server.clients unit.client).watchGeneration = unit.generation
      ∧ (server.clients unit.client).barrier = some token

/-- The claims survive every call of a pass. -/
theorem Claimed.passes (claimed : server.Claimed shardOf) (passes : Passes server next)
    : next.Claimed shardOf where
  owned entry member blocking := by
    rw [Watches, passes.units]
    obtain ⟨held, inServer, sameKey, sameToken, was⟩ | watches :=
      passes.claims entry member blocking
    · rw [← sameKey, ← sameToken]
      exact claimed.owned held inServer was
    · exact watches
  held token key pending watches done := by
    rw [Watches, passes.units] at watches
    rw [passes.watchDone] at done
    exact passes.kept key token
      (claimed.held token key (passes.undecided token pending) watches done) pending
  current token unit found phase flying := by
    rw [passes.units] at found
    rw [passes.generation, passes.barrier]
    exact claimed.current token unit found phase (flying.passes passes)

omit [DecidableEq κ] in
theorem complete_holds {holds : WatchServer κ → Prop} {result : WatchServer κ × Option κ}
    (done : holds (result.1.advance token change)) (refused : holds result.1)
    : holds (complete token change result).1 := by
  obtain ⟨next, none | key⟩ := result
  · exact done
  · exact refused

variable {result : WatchServer κ × Option κ}

/-- An attempt runs either one owner's watch phase or its part of the next wave. -/
theorem attempt_cases (attempted : server.attempt shardOf pass token shard = some result)
    : ∃ unit, server.units[token]? = some unit
      ∧ ((unit.watchPhaseDone shardOf (server.progress token)
          ∧ ∃ wave ∈ unit.waves, ∃ index, result = complete token
            (fun progress => { progress with done := (index, shard) :: progress.done })
            (if (server.progress token).decision = .undecided then
              server.executeWave shardOf pass token unit wave shard
            else (server, none)))
        ∨ result = complete token
            (fun progress => { progress with watchDone := shard :: progress.watchDone })
            (server.executeWatchPhase shardOf pass token unit shard)) := by
  rw [attempt, bind_eq_bind, bind_eq_some_iff] at attempted
  obtain ⟨unit, found, attempted⟩ := attempted
  refine ⟨unit, found, ?_⟩
  dsimp only at attempted
  split at attempted
  · rename_i done
    rw [bind_eq_bind, bind_eq_some_iff] at attempted
    obtain ⟨⟨wave, index⟩, next, attempted⟩ := attempted
    have member := mem_of_find?_eq_some next
    rw [bind_eq_bind, bind_eq_some_iff] at attempted
    obtain ⟨_, _, attempted⟩ := attempted
    exact .inl ⟨done, wave, fst_mem_of_mem_zipIdx member, index, (some.inj attempted).symm⟩
  · rw [bind_eq_bind, bind_eq_some_iff] at attempted
    obtain ⟨_, _, attempted⟩ := attempted
    exact .inr (some.inj attempted).symm

omit [DecidableEq κ] in
theorem has_advance (keeps : ∀ progress, (change progress).decision = progress.decision)
    (decision : Decision) (other : Nat)
    : (server.advance token change).has decision other = server.has decision other := by
  by_cases same : other = token
  · subst same
    simp [has, advance, keeps]
  · simp [has, advance, same]

/-- The claims after an owner's watch phase, including those it has just made. -/
theorem Claimed.watchPhase (claimed : server.Claimed shardOf)
    (found : server.units[token]? = some unit)
    : ((server.executeWatchPhase shardOf pass token unit shard).1.advance token
        fun progress => { progress with watchDone := shard :: progress.watchDone }).Claimed
      shardOf := by
  have passes : Passes server (server.executeWatchPhase shardOf pass token unit shard).1 :=
    executeWatchPhase_passes found shard
  have after := claimed.passes passes
  refine { after with held := ?_, current := ?_ }
  · intro other key pending watches done
    have pending : (server.executeWatchPhase shardOf pass token unit shard).1.has
        .undecided other := by
      rwa [has_advance] at pending
      exact fun _ => rfl
    by_cases mine : other = token ∧ shardOf key = shard
    · obtain ⟨rfl, owned⟩ := mine
      obtain ⟨same, foundHere, execute, watched⟩ := watches
      obtain rfl : unit = same := by
        rw [show server.units[other]? = some same from passes.units ▸ foundHere] at found
        exact (some.inj found).symm
      exact executeWatchPhase_reserves found execute watched owned pending
        (claimed.current other unit found (by simp [WatchUnit.hasWatchPhase, execute])
          (.inl (passes.undecided other pending))).1
    · refine after.held other key pending watches ?_
      by_cases same : other = token
      · subst same
        simp only [advance, Function.update_self, mem_cons] at done
        exact done.resolve_left fun owned => mine ⟨rfl, owned⟩
      · simpa [advance, same] using done
  · intro other unit found phase flying
    refine after.current other unit found phase
      (flying.imp (fun pending => ?_) fun unfinished => ?_)
    · rwa [has_advance] at pending
      exact fun _ => rfl
    · refine fun finished => unfinished ?_
      by_cases same : other = token
      · simp_all [WatchUnit.watchPhaseDone, advance]
      · simpa [advance, same] using finished

theorem wave_passes {wave : Wave κ}
    : Passes server (if (server.progress token).decision = .undecided then
      server.executeWave shardOf pass token unit wave shard else (server, none)).1 := by
  split
  · exact executeWave_passes unit wave shard
  · exact .refl

/-- A watch phase that is through has secured its keys; a wave only passes. -/
theorem Claimed.attempt (claimed : server.Claimed shardOf)
    (attempted : server.attempt shardOf pass token shard = some result)
    : result.1.Claimed shardOf := by
  obtain ⟨unit, found, ⟨_, wave, _, index, rfl⟩ | rfl⟩ := attempt_cases attempted
  · exact complete_holds
      (claimed.passes (wave_passes.trans (advance_passes (fun _ => rfl) fun _ => id)))
      (claimed.passes wave_passes)
  · exact complete_holds (claimed.watchPhase found)
      (claimed.passes (executeWatchPhase_passes found shard))

/-- A task publishes no unit and takes back no decision. -/
theorem attempt_keeps (attempted : server.attempt shardOf pass token shard = some result)
    : result.1.units = server.units
      ∧ ∀ other, result.1.has .undecided other → server.has .undecided other := by
  have completed {change : UnitProgress → UnitProgress} {work : WatchServer κ × Option κ}
      (keeps : ∀ progress, (change progress).decision = progress.decision)
      (passes : Passes server work.1)
      : (complete token change work).1.units = server.units
        ∧ ∀ other, (complete token change work).1.has .undecided other
          → server.has .undecided other := by
    obtain ⟨middle, none | key⟩ := work
    · exact ⟨passes.units, fun other pending =>
        passes.undecided other (has_advance keeps .undecided other ▸ pending)⟩
    · exact ⟨passes.units, passes.undecided⟩
  obtain ⟨unit, found, ⟨_, wave, _, index, rfl⟩ | rfl⟩ := attempt_cases attempted
  · exact completed (fun _ => rfl) wave_passes
  · exact completed (fun _ => rfl) (executeWatchPhase_passes found shard)

theorem decideAll_passes (unit : WatchUnit κ) : Passes server (server.decideAll token unit) := by
  have made : (if server.has .aborted token then Decision.aborted else .committed)
      ≠ .undecided := by
    split <;> simp
  have children (tokens : List Nat) (first : WatchServer κ)
      : Passes first (tokens.foldl
        (decideUnit · (if server.has .aborted token then .aborted else .committed)) first) := by
    induction tokens generalizing first with
    | nil => exact .refl
    | cons child rest ih => exact (decideUnit_passes made).trans (ih _)
  exact (decideUnit_passes made).trans (children _ _)

/-- A connection's words may change while no transaction of its own is undecided. -/
theorem Claimed.update {client : Nat} (claimed : server.Claimed shardOf)
    (idle : ∀ token ∈ (server.clients client).barrier, ∀ unit,
      server.units[token]? = some unit → ¬ server.InFlight shardOf token unit)
    (after : WatchClient)
    : (server.setClient client after).Claimed shardOf where
  owned := claimed.owned
  held := claimed.held
  current token unit found phase flying := by
    have now := claimed.current token unit found phase flying
    have apart : unit.client ≠ client := by
      rintro rfl
      exact idle token now.2 unit found flying
    simpa [setClient, apart] using now

/-- A new unit finds the barrier free, so no other of its client is current. -/
theorem Claimed.dispatch (claimed : server.Claimed shardOf)
    (free : unit.hasWatchPhase → (server.clients unit.client).barrier = none)
    : (server.dispatch unit).Claimed shardOf := by
  have older {token : Nat} {found : WatchUnit κ}
      (here : (server.dispatch unit).units[token]? = some found)
      : (server.units[token]? = some found ∧ token ≠ server.units.length)
        ∨ (token = server.units.length
          ∧ found = { unit with generation := (server.clients unit.client).watchGeneration }) := by
    rw [WatchServer.dispatch, getElem?_append] at here
    split at here
    · rename_i inside
      exact .inl ⟨here, Nat.ne_of_lt inside⟩
    · rw [getElem?_singleton] at here
      split at here
      · exact .inr ⟨by omega, (some.inj here).symm⟩
      · simp at here
  refine { owned := ?_, held := ?_, current := ?_ }
  · intro entry member blocking
    obtain ⟨found, here, execute, watched⟩ := claimed.owned entry member blocking
    exact ⟨found, by rw [WatchServer.dispatch, getElem?_append_left
      (List.getElem?_eq_some_iff.mp here).1, here], execute, watched⟩
  · intro token key pending ⟨found, here, execute, watched⟩ done
    rcases older here with ⟨before, apart⟩ | ⟨rfl, _⟩
    · exact claimed.held token key (by simpa [WatchServer.dispatch, has, apart] using pending)
        ⟨found, before, execute, watched⟩ (by simpa [WatchServer.dispatch, apart] using done)
    · simp [WatchServer.dispatch] at done
  · intro token found here phase flying
    rcases older here with ⟨before, apart⟩ | ⟨rfl, rfl⟩
    · have now := claimed.current token found before phase
        (by simpa [InFlight, WatchServer.dispatch, has, apart] using flying)
      rw [WatchServer.dispatch]
      split
      · rename_i phase
        have apart : found.client ≠ unit.client := fun same => by
          rw [same, free phase] at now
          simp at now
        simpa [apart] using now
      · exact now
    · have phase : unit.hasWatchPhase := phase
      simp [WatchServer.dispatch, phase]

end WatchServer

end Thredis.Cmd
