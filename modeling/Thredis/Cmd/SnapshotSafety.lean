import Thredis.Store.AtomicMvcc
import Thredis.Cmd.FloorCalls
import Thredis.Core.CommitWatermark

/-! The floor handshake over whole runs: an owner that missed a registration loaded its
cutoff before the registration's confirming load, so nothing it collapses is newer than the
registered cut.
-/

namespace Thredis.Cmd

open Thredis.Core Thredis.Lib Thredis.Store Option IoThread

def FloorEvent.registers (io : Nat) : FloorEvent → List Nat
  | .register caller id true => if caller = io then [id] else []
  | _ => []

namespace FloorState

def unresolved (io : Nat) (state : FloorState) : List Nat :=
  (state.threads.getD io .init).unresolved

/-- The cuts that an event of thread `io` has to take out of its unresolved set: an unregistered
one if it is still in there, and those a refresh sees answered.
-/
def releases (io : Nat) (state : FloorState) : FloorEvent → List Nat
  | .unregister caller id => if caller = io then (state.unresolved io).filter (· = id) else []
  | .refresh caller stale =>
    if caller = io then (state.threads.getD io .init).completed stale else []
  | _ => []

/-- What thread `io` holds after an event and what it had to release, against what it held before
and registers.
-/
def Balanced (state : FloorState) (event : FloorEvent) (next : FloorState) : Prop :=
  ∀ io, (next.unresolved io ++ state.releases io event).Perm
    (state.unresolved io ++ event.registers io)

end FloorState

/-- Every cut registered by a thread in `scanned` is protected by one of the two bounds. -/
def Protected (threads : List IoThread) (scanned : Nat → Prop) (cutoff floor : Nat) : Prop :=
  ∀ io thread id, scanned io → threads[io]? = some thread → thread.Registered id →
    cutoff ≤ (thread.cutAt id).snapshot ∨ floor ≤ (thread.cutAt id).snapshot + 1

/-- What an owner knows at each point of its cleanup. -/
def OwnerPc.Knows (threads : List IoThread) (safe : Nat) : OwnerPc → Prop
  | .idle => True
  | .scan cutoff next floor =>
    cutoff ≤ safe ∧ Protected threads (fun io => io < next) cutoff floor
  | .collapse cutoff floor => cutoff ≤ safe ∧ Protected threads (fun _ => True) cutoff floor

structure FloorState.Inv (state : FloorState) : Prop where
  commit : state.commit.Inv
  bounded : state.commit.words.commitSeq < uint64Max
  alive : state.crashed = false
  sound : ∀ (io : Nat) (thread : IoThread), state.threads[io]? = some thread →
    thread.Sound state.commit.atomicSnapshot ∧ thread.Standing
  owners : ∀ (who : Nat) (pc : OwnerPc), state.owners[who]? = some pc →
    pc.Knows state.threads state.commit.atomicSnapshot

variable {state : FloorState}

theorem FloorState.Inv.safe_lt (inv : state.Inv)
    : state.commit.atomicSnapshot < uint64Max :=
  inv.commit.safeDrawn.trans_lt inv.bounded

theorem IoThread.init_sound (safe : Nat) : init.Sound safe ∧ init.Standing := by
  refine ⟨⟨⟨?_, ?_, ?_⟩, ?_, rfl⟩, rfl⟩
  · simp [init]
  · intro id index inside
    simp [init] at inside
  · intro id inside
    simp [init] at inside
  · exact ⟨⟨rfl, by simp [init, active]⟩, fun _ => ⟨rfl, rfl⟩⟩

theorem FloorState.init_inv (threads owners : Nat) : (FloorState.init threads owners).Inv where
  commit := CommitState.init_inv
  bounded := (by decide : CommitState.init.words.commitSeq < uint64Max)
  alive := rfl
  sound := by
    intro io thread found
    have := List.mem_of_getElem? found
    rw [(List.mem_replicate.mp this).2]
    exact init_sound _
  owners := by
    intro who pc found
    have := List.mem_of_getElem? found
    rw [(List.mem_replicate.mp this).2]
    trivial

-- Steps

variable {threads : List IoThread} {cutoff floor safe io : Nat} {thread next : IoThread}
  {entered gone : List Nat}

/-- A moved thread keeps what owners know: a cut it newly registered stands at the
watermark, which no loaded cutoff exceeds.
-/
theorem Protected.set {scanned : Nat → Prop} (held : Protected threads scanned cutoff floor)
    (found : threads[io]? = some thread) (moves : IoThread.Moves safe thread entered gone next)
    (cutoffLe : cutoff ≤ safe)
    : Protected (threads.set io next) scanned cutoff floor := by
  intro other candidate id inScan present placed
  rw [List.getElem?_set] at present
  split at present
  next same =>
    subst same
    split at present
    · cases present
      rcases moves.registered id placed with atSafe | ⟨before, value⟩
      · exact .inl (by omega)
      · rw [value]
        exact held io thread id inScan found before
    · cases present
  next => exact held other candidate id inScan present placed

theorem OwnerPc.Knows.set {pc : OwnerPc} (knows : pc.Knows threads safe)
    (found : threads[io]? = some thread) (moves : IoThread.Moves safe thread entered gone next)
    : pc.Knows (threads.set io next) safe := by
  cases pc with
  | idle => trivial
  | scan cutoff bound floor => exact ⟨knows.1, knows.2.set found moves knows.1⟩
  | collapse cutoff floor => exact ⟨knows.1, knows.2.set found moves knows.1⟩

/-- Loaded bounds stay good while the watermark grows. -/
theorem OwnerPc.Knows.mono {later : Nat} {pc : OwnerPc}
    (knows : pc.Knows threads safe) (grown : safe ≤ later)
    : pc.Knows threads later := by
  cases pc with
  | idle => trivial
  | scan cutoff bound floor | collapse cutoff floor => exact ⟨knows.1.trans grown, knows.2⟩

/-- Replacing one thread by a moved one keeps the invariant. -/
theorem FloorState.Inv.put (inv : state.Inv) (found : state.threads[io]? = some thread)
    (moves : IoThread.Moves state.commit.atomicSnapshot thread entered gone next)
    : (state.put io (some next)).Inv where
  commit := inv.commit
  bounded := inv.bounded
  alive := inv.alive
  sound := by
    intro other candidate present
    change (state.threads.set io next)[other]? = some candidate at present
    rw [List.getElem?_set] at present
    split at present
    · split at present
      · cases present
        exact ⟨moves.sound, moves.standing⟩
      · cases present
    · exact inv.sound other candidate present
  owners := fun who pc present => (inv.owners who pc present).set found moves

variable {event : FloorEvent}

/-- A moved thread keeps the invariant and its balance, and the other threads theirs. -/
theorem FloorState.Inv.moved (inv : state.Inv) (found : state.threads[io]? = some thread)
    (moves : IoThread.Moves state.commit.atomicSnapshot thread entered gone next)
    (enters : ∀ other, event.registers other = if io = other then entered else [])
    (leaves : ∀ other, state.releases other event = if io = other then gone else [])
    : (state.put io (some next)).Inv ∧ state.Balanced event (state.put io (some next)) := by
  refine ⟨inv.put found moves, fun other => ?_⟩
  obtain ⟨inside, rfl⟩ := List.getElem?_eq_some_iff.mp found
  rw [enters, leaves]
  by_cases here : io = other
  · subst here
    simpa [FloorState.unresolved, FloorState.put, inside] using moves.balance
  · simp [FloorState.unresolved, FloorState.put, here]

variable {next : FloorState} {body : IoThread → Option IoThread} {out : IoThread → List Nat}

/-- A call whose body moves an idle thread keeps the invariant and the balance. -/
theorem FloorState.Inv.call (inv : state.Inv) (called : state.call io body = some next)
    (moves : ∀ thread, thread.Sound state.commit.atomicSnapshot → thread.Standing →
      thread.pc = .idle → ∃ moved, body thread = some moved
        ∧ IoThread.Moves state.commit.atomicSnapshot thread [] (out thread) moved)
    (enters : ∀ other, event.registers other = [])
    (leaves : ∀ other, state.releases other event
      = if io = other then out (state.threads.getD other .init) else [])
    : next.Inv ∧ state.Balanced event next := by
  obtain ⟨thread, found, called⟩ := bind_eq_some_iff.mp called
  obtain ⟨idle, rfl⟩ := guard_taken called
  obtain ⟨sound, standing⟩ := inv.sound io thread found
  obtain ⟨moved, bodyEq, moves⟩ := moves thread sound standing idle
  rw [bodyEq]
  refine inv.moved found moves (fun other => (enters other).trans (ite_self _).symm) ?_
  intro other
  rw [leaves]
  by_cases here : io = other
  · subst here
    simp [found]
  · simp [here]

/-- A changed owner keeps the invariant when the owner's new knowledge holds. -/
theorem FloorState.Inv.owner (inv : state.Inv) (who : Nat) (moved : OwnerPc)
    (knows : moved.Knows state.threads state.commit.atomicSnapshot)
    : ({ state with owners := state.owners.set who moved } : FloorState).Inv where
  commit := inv.commit
  bounded := inv.bounded
  alive := inv.alive
  sound := inv.sound
  owners := by
    intro other pc present
    rw [List.getElem?_set] at present
    split at present
    · split at present
      · cases present
        exact knows
      · cases present
    · exact inv.owners other pc present

/-- Reading one more floor extends the scan. -/
theorem OwnerPc.Knows.scan (inv : state.Inv) {next : Nat}
    (knows : (OwnerPc.scan cutoff next floor).Knows state.threads state.commit.atomicSnapshot)
    : OwnerPc.Knows state.threads state.commit.atomicSnapshot (match state.threads[next]? with
        | some thread => .scan cutoff (next + 1) (min floor thread.readFloor)
        | none => .collapse cutoff floor) := by
  obtain ⟨cutoffLe, held⟩ := knows
  cases found : state.threads[next]? with
  | none =>
    refine ⟨cutoffLe, ?_⟩
    intro io thread id _ present placed
    refine held io thread id ?_ present placed
    have bound := (List.getElem?_eq_some_iff.mp present).1
    have past := List.getElem?_eq_none_iff.mp found
    omega
  | some thread =>
    refine ⟨cutoffLe, ?_⟩
    intro io candidate id inScan present placed
    by_cases here : io = next
    · subst here
      rw [found] at present
      cases present
      obtain ⟨sound, standing⟩ := inv.sound io thread found
      have low := sound.readFloor_le standing inv.safe_lt placed.1
      exact .inr (by omega)
    · rcases held io candidate id (by omega) present placed with covered | below
      · exact .inl covered
      · exact .inr (by omega)

/-- One event keeps the invariant and takes into and out of each unresolved set what it has to.
Witness: case analysis over the events.
-/
theorem FloorState.step_inv (inv : state.Inv) (stepped : state.step event = some next)
    : next.Inv ∧ state.Balanced event next := by
  have safeLt := inv.safe_lt
  cases event with
  | commit event =>
    obtain ⟨commit, moved, rest⟩ := bind_eq_some_iff.mp stepped
    obtain ⟨bounded, rfl⟩ := guard_taken rest
    have grown := CommitState.step_safe_mono inv.commit moved
    refine ⟨?_, fun _ => .refl _⟩
    exact {
      commit := CommitState.step_inv inv.commit moved
      bounded
      alive := inv.alive
      sound := fun io thread found =>
        have ⟨sound, standing⟩ := inv.sound io thread found
        ⟨{ sound with links := sound.links.mono grown }, standing⟩
      owners := fun who pc found => (inv.owners who pc found).mono grown
    }
  | openCut io snapshot =>
    obtain ⟨loaded, stepped⟩ := ite_none_right_eq_some.mp stepped
    exact inv.call stepped (fun thread sound standing idle =>
      ⟨_, rfl, openCut_moves sound standing idle snapshot loaded⟩) (fun _ => rfl)
      (fun _ => (ite_self []).symm)
  | register io id allocated =>
    obtain ⟨thread, found, rest⟩ := bind_eq_some_iff.mp stepped
    obtain ⟨enabled, rfl⟩ := guard_taken rest
    cases allocated with
    | false => exact ⟨inv, fun _ => .refl _⟩
    | true =>
      obtain ⟨idle, inside, fresh⟩ := enabled
      exact inv.moved found (register_moves (inv.sound io thread found).1 idle id
        inside fresh safeLt) (fun _ => rfl) (fun _ => (ite_self _).symm)
  | confirm io =>
    obtain ⟨thread, found, rest⟩ := bind_eq_some_iff.mp stepped
    obtain ⟨sound, standing⟩ := inv.sound io thread found
    split at rest
    next id cut here =>
      cases rest
      obtain ⟨moved, confirmed, moves⟩ := confirm_moves sound standing here safeLt
      rw [confirmed]
      exact inv.moved found moves (fun _ => (ite_self _).symm) (fun _ => (ite_self _).symm)
    next => cases rest
  | publish io =>
    obtain ⟨thread, found, rest⟩ := bind_eq_some_iff.mp stepped
    split at rest
    next here =>
      cases rest
      exact inv.moved found (publish_moves (inv.sound io thread found).1 here)
        (fun _ => (ite_self _).symm) (fun _ => (ite_self _).symm)
    next => cases rest
  | unregister io id =>
    exact inv.call stepped (fun thread sound standing idle =>
      unregister_moves sound standing idle id safeLt) (fun _ => rfl) (fun _ => rfl)
  | complete io id =>
    obtain ⟨thread, found, rfl⟩ := map_eq_some_iff.mp stepped
    obtain ⟨sound, standing⟩ := inv.sound io thread found
    exact inv.moved found (complete_moves sound standing id) (fun _ => (ite_self _).symm)
      (fun _ => (ite_self _).symm)
  | refresh io stale =>
    exact inv.call stepped (fun thread sound standing idle =>
      refresh_moves sound standing idle stale safeLt) (fun _ => rfl) (fun _ => rfl)
  | loadCutoff who =>
    obtain ⟨pc, found, rest⟩ := bind_eq_some_iff.mp stepped
    split at rest
    next =>
      cases rest
      refine ⟨inv.owner who _ ⟨le_rfl, ?_⟩, fun _ => .refl _⟩
      intro io thread id inScan
      exact absurd inScan (Nat.not_lt_zero io)
    next => cases rest
  | scanFloor who =>
    obtain ⟨pc, found, rest⟩ := bind_eq_some_iff.mp stepped
    split at rest
    next cutoff bound floor =>
      cases rest
      exact ⟨inv.owner who _ (OwnerPc.Knows.scan inv (inv.owners who _ found)),
        fun _ => .refl _⟩
    next => cases rest
  | collapse who =>
    obtain ⟨pc, found, rest⟩ := bind_eq_some_iff.mp stepped
    split at rest
    next =>
      cases rest
      exact ⟨inv.owner who .idle trivial, fun _ => .refl _⟩
    next => cases rest

/-- In every run: no call aborts; no owner collapses a record newer than a registered cut;
and a thread between calls publishes the successor of its lowest cut, referenced once for each
cut that stands there. The unresolved set of every thread and the cuts its unregistrations and
refreshes took out of it are together what it registered.
-/
theorem registered_cuts_protected (threads owners : Nat) (events : List FloorEvent)
    (state : FloorState)
    (ran : run FloorState.step (FloorState.init threads owners) events = some state)
    : state.crashed = false
      ∧ (∀ (io id who cutoff floor : Nat) (thread : IoThread),
          state.threads[io]? = some thread → thread.Registered id →
          state.owners[who]? = some (OwnerPc.collapse cutoff floor) →
          ∀ (words : DecisionWords) (entries : List AtomicEntry),
            ∀ record ∈ collapseSelected words floor cutoff entries,
              record.aborted words = false →
              record.atomicEpoch words ≤ (thread.cutAt id).snapshot)
      ∧ (∀ (io : Nat) (thread : IoThread), state.threads[io]? = some thread →
          thread.pc = .idle →
          thread.readFloor
              = ((thread.unresolved.map fun id => (thread.cutAt id).snapshot).min?).elim
                  uint64Max (· + 1)
          ∧ thread.held.refs = (thread.unresolved.map fun id =>
              (thread.cutAt id).snapshot + 1).count thread.readFloor)
      ∧ ∀ io : Nat,
          (state.unresolved io ++ noted FloorState.step (FloorState.releases io)
            (FloorState.init threads owners) events).Perm
          (events.flatMap (FloorEvent.registers io)) := by
  have start := FloorState.init_inv threads owners
  have inv := run_invariant (fun _ _ _ inv stepped => (FloorState.step_inv inv stepped).1)
    start ran
  refine ⟨inv.alive, ?_, ?_, ?_⟩
  · intro io id who cutoff floor thread found placed owner words entries record selected live
    obtain ⟨-, held⟩ := inv.owners who _ owner
    have test := List.mem_takeWhile_imp selected
    simp only [AtomicEntry.reclaimable, live, Bool.false_or, Bool.not_eq_true',
      Bool.or_eq_false_iff, decide_eq_false_iff_not] at test
    rcases held io thread id trivial found placed with covered | below <;> omega
  · intro io thread found idle
    obtain ⟨sound, standing⟩ := inv.sound io thread found
    exact sound.idle_exact standing idle inv.safe_lt
  · intro io
    have balance : (state.unresolved io
          ++ noted FloorState.step (·.releases io ·) (.init threads owners) events).Perm
        ((FloorState.init threads owners).unresolved io ++ events.flatMap (·.registers io)) :=
      run_noted (fun _ _ _ inv stepped =>
        ⟨(FloorState.step_inv inv stepped).1, (FloorState.step_inv inv stepped).2 io⟩) start ran
    have empty : (FloorState.init threads owners).unresolved io = [] := by
      rw [FloorState.unresolved, FloorState.init, List.getD_eq_getElem?_getD,
        List.getElem?_getD_replicate_default_eq, IoThread.init]
    rwa [empty] at balance

/-- A read opens cut 0 and registers it; a commit draws ticket 1 before the confirming load. Two
more cuts are registered: the first is unregistered, the second answers and is refreshed away. Then
an owner loads its bounds.
-/
def handshake : List FloorEvent :=
  ([.openCut 0 0, .register 0 0 true, .commit (.start 1)] : List FloorEvent)
    ++ (List.replicate 7 (.commit (.advance 0 false)) : List FloorEvent)
    ++ ([.confirm 0, .publish 0, .openCut 0 1, .register 0 1 true, .confirm 0, .openCut 0 0,
      .register 0 2 true, .confirm 0, .publish 0, .unregister 0 1, .complete 0 2, .refresh 0 [],
      .loadCutoff 0, .scanFloor 0, .scanFloor 0] : List FloorEvent)

def afterHandshake : FloorState :=
  { commit := ⟨⟨0, 1, 1, 0, [1]⟩, [.done]⟩
    threads :=
      [{ cuts := [⟨1, some 0, true, false⟩, ⟨1, none, false, false⟩, ⟨1, none, true, true⟩]
         unresolved := [0], held := ⟨2, 1⟩, published := 2
         observed := 1, completions := 1, readFloor := 2, pc := .idle }]
    owners := [.collapse 1 2]
    crashed := false }

/-- Witness: the read has adopted cut 1, the owner collapses nothing newer, and of three
registrations two were released.
-/
theorem registered_cuts_protected_handshake
    : afterHandshake.crashed = false
      ∧ (∀ (words : DecisionWords) (entries : List AtomicEntry),
          ∀ record ∈ collapseSelected words 2 1 entries, record.aborted words = false →
            record.atomicEpoch words ≤ 1)
      ∧ ((2 : Nat) = ([1] : List Nat).min?.elim uint64Max (· + 1)
        ∧ (1 : Nat) = ([2] : List Nat).count 2)
      ∧ noted FloorState.step (FloorState.releases 0) (FloorState.init 1 1) handshake = [1, 2]
      ∧ (afterHandshake.unresolved 0 ++ [1, 2]).Perm [0, 1, 2] := by
  obtain ⟨alive, safe, floors, balance⟩ :=
    registered_cuts_protected 1 1 handshake afterHandshake (by decide)
  exact ⟨alive, safe 0 0 0 1 2 _ rfl ⟨by decide, fun _ => nofun⟩ rfl, floors 0 _ rfl rfl,
    by decide, balance 0⟩

end Thredis.Cmd
