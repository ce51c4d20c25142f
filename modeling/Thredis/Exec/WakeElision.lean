import Thredis.Lib.Runs

/-! Elided wakes. A poster flags the lane it has pushed to and wakes the consumer only where it
raised the bit and finds the consumer marked blocked; the consumer clears the bits in bulk before
it drains, and looks at them once more between marking itself and going to sleep.
-/

namespace Thredis.Exec

open Thredis.Lib Option

/-- One mask, the lanes behind its bits and those who post to them. A `NotifyMask` has a lane for
each producer, a `ReadyMask` one for each write-back slot, which all executors share.
-/
structure WakeMesh where
  posters : Nat
  words : Nat
  lanes : Nat
  lanes_le : lanes ≤ 64 * words

/-- `drain_tasks`, `drain_task_producer_chunks` and `gather_tasks_unretired`. -/
inductive DrainKind where
  | all
  | chunks (limit : Nat)
  | gather (capacity : Nat)
  deriving DecidableEq

/-- The locals of a drain: the bits of the word it has taken and not visited, the lane it pops
from, and its count, which `chunks` starts anew in every lane.
-/
structure DrainPass (lanes : Nat) where
  kind : DrainKind
  masked : Bool
  word : Nat := 0
  toVisit : List (Fin lanes)
  lane : Option (Fin lanes) := none
  count : Nat := 0
  full : Bool := false
  deriving DecidableEq

inductive ConsumerAt (lanes : Nat) where
  | running
  | draining (pass : DrainPass lanes)
  | checking (reached : Nat)
  | asleep
  | leaving
  deriving DecidableEq

/-- What a poster has pushed and not flagged, the lane whose bit it has read clear, and whether it
raised a bit since its last look at the blocked word.
-/
structure Poster (lanes : Nat) where
  owed : List (Fin lanes) := []
  loaded : Option (Fin lanes) := none
  raised : Bool := false

structure WakeState (mesh : WakeMesh) where
  bits : Fin mesh.lanes → Bool
  depths : Fin mesh.lanes → Nat
  posters : Fin mesh.posters → Poster mesh.lanes
  consumer : ConsumerAt mesh.lanes
  blocked : Bool
  pending : Nat

inductive WakeEvent (mesh : WakeMesh) where
  | push (poster : Fin mesh.posters) (lane : Fin mesh.lanes)
  | load (poster : Fin mesh.posters) (lane : Fin mesh.lanes)
  | raise (poster : Fin mesh.posters)
  | wake (poster : Fin mesh.posters) (accepted : Bool)
  | startDrain (kind : DrainKind) (masked : Bool)
  | drain
  | arm
  | armFrozen
  | check
  | rouse
  | reap
  | disarm

def DrainKind.spent : DrainKind → Nat → Bool
  | .all, _ => false
  | .chunks limit, count => count = limit
  | .gather capacity, count => count = capacity

def DrainKind.laneStart : DrainKind → Nat → Nat
  | .chunks _, _ => 0
  | _, count => count

def DrainKind.gathers : DrainKind → Bool
  | .gather _ => true
  | _ => false

namespace WakeState

variable {mesh : WakeMesh}

def init (mesh : WakeMesh) : WakeState mesh where
  bits _ := false
  depths _ := 0
  posters _ := {}
  consumer := .running
  blocked := false
  pending := 0

variable (state : WakeState mesh)

def setPoster (index : Fin mesh.posters) (poster : Poster mesh.lanes)
    : WakeState mesh :=
  { state with posters := Function.update state.posters index poster }

def flag (lane : Fin mesh.lanes) : WakeState mesh :=
  { state with bits := Function.update state.bits lane true }

def flagged (word : Nat) : List (Fin mesh.lanes) :=
  (List.finRange mesh.lanes).filter fun lane => lane / 64 = word ∧ state.bits lane

/-- One step of a drain. A lane is left where it is empty or where the drain is spent; then its
bit is set again, and a masked gather gives back the bits it has not visited.
-/
def drainStep (mesh : WakeMesh) (state : WakeState mesh) (pass : DrainPass mesh.lanes)
    : WakeState mesh :=
  match pass.lane, pass.toVisit with
  | some lane, _ =>
    if pass.kind.spent pass.count then
      { state.flag lane with
        consumer := .draining { pass with lane := none, full := pass.kind.gathers } }
    else if state.depths lane = 0 then
      { state with consumer := .draining { pass with lane := none } }
    else
      { state with
        depths := Function.update state.depths lane (state.depths lane - 1)
        consumer := .draining { pass with count := pass.count + 1 } }
  | none, lane :: rest =>
    if pass.full then
      if pass.masked then
        { state.flag lane with consumer := .draining { pass with toVisit := rest } }
      else { state with consumer := .running }
    else
      { state with
        consumer := .draining { pass with
          toVisit := rest, lane := some lane, count := pass.kind.laneStart pass.count } }
  | none, [] =>
    if pass.masked ∧ pass.full = false ∧ pass.word < mesh.words then
      { state with
        bits := fun lane => state.bits lane && (lane / 64 ≠ pass.word)
        consumer := .draining { pass with
          word := pass.word + 1, toVisit := state.flagged pass.word } }
    else { state with consumer := .running }

/-- The steps of the posters and their consumer. The load and the read-modify-write of `set` are
apart; a refused wake goes unnoticed. `check` loads one mask word, or one queue's depth, at a time;
an executor that is frozen for a move marks itself and sleeps without it.
-/
def step (mesh : WakeMesh) (state : WakeState mesh)
    : WakeEvent mesh → Option (WakeState mesh)
  | .push index lane =>
    let own := state.posters index
    if own.loaded = none then
      some { state.setPoster index { own with owed := lane :: own.owed } with
        depths := Function.update state.depths lane (state.depths lane + 1) }
    else none
  | .load index lane =>
    let own := state.posters index
    if own.loaded = none ∧ lane ∈ own.owed then
      if state.bits lane then
        some (state.setPoster index { own with owed := own.owed.filter (· ≠ lane) })
      else some (state.setPoster index { own with loaded := some lane })
    else none
  | .raise index =>
    let own := state.posters index
    own.loaded.map fun lane => (state.flag lane).setPoster index {
      owed := own.owed.filter (· ≠ lane), raised := own.raised || !state.bits lane }
  | .wake index accepted =>
    let own := state.posters index
    if own.loaded = none ∧ own.raised then
      some { state.setPoster index { own with raised := false } with
        pending := if state.blocked ∧ accepted then state.pending + 1 else state.pending }
    else none
  | .startDrain kind masked =>
    match state.consumer with
    | .running =>
      if kind = .chunks 0 then none
      else
        let toVisit :=
          if masked ∨ kind = .gather 0 then [] else List.finRange mesh.lanes
        some { state with consumer := .draining { kind, masked, toVisit } }
    | _ => none
  | .drain =>
    match state.consumer with
    | .draining pass => some (drainStep mesh state pass)
    | _ => none
  | .arm =>
    match state.consumer with
    | .running => some { state with blocked := true, consumer := .checking 0 }
    | _ => none
  | .armFrozen =>
    match state.consumer with
    | .running =>
      some { state with blocked := true, consumer := .checking (mesh.words + mesh.lanes) }
    | _ => none
  | .check =>
    match state.consumer with
    | .checking reached =>
      if state.flagged reached ≠ []
          ∨ ∃ lane, mesh.words + lane.val = reached ∧ state.depths lane ≠ 0 then
        some { state with consumer := .leaving }
      else if reached < mesh.words + mesh.lanes then
        some { state with consumer := .checking (reached + 1) }
      else some { state with consumer := .asleep }
    | _ => none
  | .rouse =>
    match state.consumer with
    | .asleep => some { state with consumer := .leaving }
    | _ => none
  | .reap =>
    match state.consumer with
    | .checking _ | .asleep => none
    | _ => some { state with pending := state.pending - 1 }
  | .disarm =>
    match state.consumer with
    | .leaving => some { state with blocked := false, consumer := .running }
    | _ => none

variable {state next : WakeState mesh}

/-- The drain has taken the lane's bit and will still look at the lane. -/
def Holds : ConsumerAt mesh.lanes → Fin mesh.lanes → Prop
  | .draining pass, lane => pass.masked ∧ (lane ∈ pass.toVisit ∨ pass.lane = some lane)
  | _, _ => False

/-- Somebody is going to look at every lane with items. -/
structure Covered (state : WakeState mesh) : Prop where
  cover : ∀ lane, state.depths lane ≠ 0 → state.bits lane
    ∨ (∃ index, lane ∈ (state.posters index).owed) ∨ Holds state.consumer lane
  loaded : ∀ index, ∀ lane ∈ (state.posters index).loaded, lane ∈ (state.posters index).owed

def checkedWords : ConsumerAt mesh.lanes → Option Nat
  | .checking reached => some reached
  | .asleep => some mesh.words
  | _ => none

/-- A bit raised behind the consumer's look has its wake. -/
def Watched (state : WakeState mesh) : Prop :=
  ∀ reached ∈ checkedWords state.consumer, state.blocked
    ∧ ∀ lane : Fin mesh.lanes, lane / 64 < reached → state.bits lane
      → 0 < state.pending ∨ ∃ index, (state.posters index).raised

theorem init_covered (mesh : WakeMesh) : (init mesh).Covered := by
  constructor <;> simp [init]

variable {bits : Fin mesh.lanes → Bool} {depths : Fin mesh.lanes → Nat} {pending : Nat}

/-- A poster's step: what it owed it still owes or has flagged, and it owes what it pushed. -/
theorem Covered.setPoster (covered : state.Covered) {index : Fin mesh.posters}
    {poster : Poster mesh.lanes} (flagged : ∀ lane, state.bits lane → bits lane)
    (pushed : ∀ lane, depths lane ≠ 0 → state.depths lane ≠ 0 ∨ lane ∈ poster.owed)
    (owed : ∀ lane ∈ (state.posters index).owed, lane ∈ poster.owed ∨ bits lane)
    (loaded : ∀ lane ∈ poster.loaded, lane ∈ poster.owed)
    : Covered { state.setPoster index poster with bits, depths, pending } := by
  refine ⟨fun lane some_item => ?_, (Function.forall_update_iff state.posters fun _ own =>
    ∀ lane ∈ own.loaded, lane ∈ own.owed).mpr ⟨loaded, fun other _ => covered.loaded other⟩⟩
  have owes (mine : lane ∈ poster.owed)
      : ∃ other, lane ∈ ((state.setPoster index poster).posters other).owed :=
    ⟨index, by simpa [WakeState.setPoster] using mine⟩
  rcases pushed lane some_item with before | mine
  · rcases covered.cover lane before with set | ⟨other, owing⟩ | held
    · exact .inl (flagged lane set)
    · by_cases same : other = index
      · rcases owed lane (same ▸ owing) with mine | set
        · exact .inr (.inl (owes mine))
        · exact .inl set
      · exact .inr (.inl ⟨other, by simpa [WakeState.setPoster, same] using owing⟩)
    · exact .inr (.inr held)
  · exact .inr (.inl (owes mine))

/-- A consumer's step: no lane gets fuller, and a bit it clears or a lane it leaves is empty, held
or flagged.
-/
theorem Covered.consume (covered : state.Covered) {consumer : ConsumerAt mesh.lanes}
    {blocked : Bool} (keeps : ∀ lane, depths lane ≠ 0 → state.depths lane ≠ 0
      ∧ (state.bits lane ∨ Holds state.consumer lane → bits lane ∨ Holds consumer lane))
    : Covered { state with consumer, bits, depths, blocked, pending } := by
  refine ⟨fun lane some_item => ?_, covered.loaded⟩
  obtain ⟨before, still⟩ := keeps lane some_item
  rcases covered.cover lane before with set | owing | held
  · exact (still (.inl set)).imp_right .inr
  · exact .inr (.inl owing)
  · exact (still (.inr held)).imp_right .inr

theorem flag_bits {lane other : Fin mesh.lanes}
    : (state.flag lane).bits other ↔ other = lane ∨ state.bits other := by
  by_cases same : other = lane <;> simp [flag, same]

/-- A lane the drain leaves is empty or has its bit back. -/
theorem Covered.drainStep (covered : state.Covered) {pass : DrainPass mesh.lanes}
    (here : state.consumer = .draining pass)
    : (drainStep mesh state pass).Covered := by
  have left {lane : Fin mesh.lanes} (held : Holds state.consumer lane)
      : pass.masked ∧ (lane ∈ pass.toVisit ∨ pass.lane = some lane) := by
    rwa [here] at held
  rw [WakeState.drainStep]
  split
  · rename_i lane inside
    split
    · refine covered.consume fun other some_item => ⟨some_item, ?_⟩
      rw [flag_bits]
      rintro (set | held)
      · exact .inl (.inr set)
      · obtain ⟨masked, visit | popped⟩ := left held
        · exact .inr ⟨masked, .inl visit⟩
        · exact .inl (.inl (some.inj (popped.symm.trans inside)))
    · split
      · rename_i empty
        refine covered.consume fun other some_item => ⟨some_item, Or.imp_right fun held => ?_⟩
        obtain ⟨masked, visit | popped⟩ := left held
        · exact ⟨masked, .inl visit⟩
        · cases popped.symm.trans inside
          exact absurd empty some_item
      · refine covered.consume fun other some_item => ⟨?_, Or.imp_right left⟩
        by_cases same : other = lane <;> simp_all
  · rename_i lane rest inside visits
    split
    · split
      · rename_i masked
        refine covered.consume fun other some_item => ⟨some_item, ?_⟩
        rw [flag_bits]
        rintro (set | held)
        · exact .inl (.inr set)
        · obtain ⟨_, visit | popped⟩ := left held
          · rw [visits] at visit
            rcases List.mem_cons.mp visit with rfl | later
            · exact .inl (.inl rfl)
            · exact .inr ⟨masked, .inl later⟩
          · simp [inside] at popped
      · rename_i unmasked
        exact covered.consume fun other some_item => ⟨some_item, Or.imp_right fun held =>
          absurd (left held).1 unmasked⟩
    · refine covered.consume fun other some_item => ⟨some_item, Or.imp_right fun held => ?_⟩
      obtain ⟨masked, visit | popped⟩ := left held
      · rw [visits] at visit
        rcases List.mem_cons.mp visit with rfl | later
        · exact ⟨masked, .inr rfl⟩
        · exact ⟨masked, .inl later⟩
      · simp [inside] at popped
  · rename_i inside visits
    have none_held {lane : Fin mesh.lanes} (held : Holds state.consumer lane) : False := by
      have := (left held).2
      simp [inside, visits] at this
    split
    · rename_i taking
      refine covered.consume fun lane some_item => ⟨some_item, ?_⟩
      rintro (set | held)
      · by_cases taken : lane.val / 64 = pass.word
        · exact .inr ⟨taking.1, .inl (by simp [flagged, taken, set])⟩
        · exact .inl (by simp [set, taken])
      · exact (none_held held).elim
    · exact covered.consume fun lane some_item => ⟨some_item, Or.imp_right fun held =>
        (none_held held).elim⟩

/-- By the steps of posters and consumer. -/
theorem Covered.step (covered : state.Covered) {event : WakeEvent mesh}
    (taken : step mesh state event = some next)
    : next.Covered := by
  have calm {consumer : ConsumerAt mesh.lanes} {blocked : Bool} {pending : Nat}
      (idle : ∀ lane, ¬ Holds state.consumer lane)
      : Covered { state with consumer, blocked, pending } :=
    covered.consume fun lane some_item => ⟨some_item, Or.imp_right fun held =>
      absurd held (idle lane)⟩
  revert taken
  fun_cases WakeState.step mesh state event with
  | case1 index lane own free =>
    rintro ⟨⟩
    refine covered.setPoster (fun _ set => set) (fun other some_item => ?_)
      (fun other owing => .inl (List.mem_cons_of_mem _ owing)) (by simp [free])
    by_cases same : other = lane
    · exact .inr (by simp [same])
    · exact .inl (by simpa [same] using some_item)
  | case3 index lane own owing set =>
    rintro ⟨⟩
    refine covered.setPoster (fun _ set => set) (fun _ => .inl) (fun other owed => ?_)
      (by simp [owing.1])
    by_cases same : other = lane
    · exact .inr (same ▸ set)
    · exact .inl (by simp [own, owed, same])
  | case4 index lane own owing =>
    rintro ⟨⟩
    exact covered.setPoster (fun _ set => set) (fun _ => .inl) (fun _ => .inl)
      (by simpa using owing.2)
  | case6 index own =>
    intro taken
    obtain ⟨lane, loaded, rfl⟩ := map_eq_some_iff.mp taken
    refine covered.setPoster (fun other set => flag_bits.mpr (.inr set)) (fun _ => .inl)
      (fun other owed => ?_) (by simp)
    by_cases same : other = lane
    · exact .inr (flag_bits.mpr (.inl same))
    · exact .inl (by simp [own, owed, same])
  | case7 index accepted own free =>
    rintro ⟨⟩
    exact covered.setPoster (fun _ set => set) (fun _ => .inl) (fun _ => .inl) (by simp [free.1])
  | case12 pass here =>
    rintro ⟨⟩
    exact covered.drainStep here
  | case10 _ _ here | case14 here | case16 here | case18 _ here | case19 _ here | case20 _ here
  | case22 here | case27 here =>
    rintro ⟨⟩
    exact calm (by simp [here, Holds])
  | case26 =>
    rintro ⟨⟩
    exact covered.consume fun lane some_item => ⟨some_item, id⟩
  | _ => nofun

/-- The steps in which no wake is refused, and no executor sleeps frozen on a flagged lane. -/
def Heeded (state : WakeState mesh) : WakeEvent mesh → Prop
  | .wake _ accepted => accepted
  | .armFrozen => ∀ lane, state.bits lane = false
  | _ => True

instance (state : WakeState mesh) : (event : WakeEvent mesh)
    → Decidable (state.Heeded event)
  | .wake _ accepted => inferInstanceAs (Decidable (accepted = true))
  | .armFrozen => inferInstanceAs (Decidable (∀ lane, state.bits lane = false))
  | .push .. | .load .. | .raise _ | .startDrain .. | .drain | .arm | .check | .rouse | .reap
  | .disarm => .isTrue trivial

/-- A poster's step: what it has raised stays raised until its wake is pending. -/
theorem Watched.setPoster (watched : state.Watched) {index : Fin mesh.posters}
    {poster : Poster mesh.lanes} (flagged : ∀ lane, bits lane → state.bits lane ∨ poster.raised)
    (woken : state.pending ≤ pending)
    (raised : (state.posters index).raised → poster.raised ∨ (state.blocked → 0 < pending))
    : Watched { state.setPoster index poster with bits, depths, pending } := by
  intro reached checked
  obtain ⟨blocked, before⟩ := watched reached checked
  refine ⟨blocked, fun lane below set => ?_⟩
  have mine (up : poster.raised)
      : ∃ other, ((state.setPoster index poster).posters other).raised :=
    ⟨index, by simpa [WakeState.setPoster] using up⟩
  rcases flagged lane set with old | up
  · rcases before lane below old with waits | ⟨other, up⟩
    · exact .inl (Nat.lt_of_lt_of_le waits woken)
    · by_cases same : other = index
      · rcases raised (same ▸ up) with up | sent
        · exact .inr (mine up)
        · exact .inl (sent blocked)
      · exact .inr ⟨other, by simpa [WakeState.setPoster, same] using up⟩
  · exact .inr (mine up)

theorem flagged_eq_nil {word : Nat} (clear : state.flagged word = []) {lane : Fin mesh.lanes}
    (here : lane.val / 64 = word)
    : ¬ state.bits lane := by
  intro set
  have := List.filter_eq_nil_iff.mp clear lane (List.mem_finRange lane)
  simp [here, set] at this

theorem drainStep_awake {pass : DrainPass mesh.lanes}
    : checkedWords (drainStep mesh state pass).consumer = none := by
  rw [drainStep]
  repeat' split
  all_goals rfl

/-- A poster that raised a bit has yet to look at the blocked word. -/
theorem Watched.step (watched : state.Watched) {event : WakeEvent mesh}
    (heeded : state.Heeded event) (taken : step mesh state event = some next)
    : next.Watched := by
  revert heeded taken
  fun_cases WakeState.step mesh state event with
  | case1 | case3 | case4 =>
    rintro - ⟨⟩
    exact watched.setPoster (fun _ => .inl) (Nat.le_refl _) .inl
  | case6 index own =>
    intro _ taken
    obtain ⟨lane, _, rfl⟩ := map_eq_some_iff.mp taken
    refine watched.setPoster (fun other set => ?_) (Nat.le_refl _)
      fun up => .inl (by simp [own, up])
    rcases flag_bits.mp set with rfl | old
    · by_cases before : state.bits other
      · exact .inl before
      · exact .inr (by simp [before])
    · exact .inl old
  | case7 index accepted =>
    rintro heeded ⟨⟩
    have heeded : accepted = true := heeded
    refine watched.setPoster (fun _ => .inl) ?_ fun _ => .inr fun blocked => ?_
    · split <;> omega
    · simp [blocked, heeded]
  | case10 | case14 | case18 | case22 | case27 =>
    rintro - ⟨⟩
    simp [Watched, checkedWords]
  | case12 =>
    rintro - ⟨⟩
    simp [Watched, drainStep_awake]
  | case16 =>
    rintro heeded ⟨⟩
    have heeded : ∀ lane, state.bits lane = false := heeded
    simp [Watched, heeded]
  | case19 reached here clear more =>
    rintro - ⟨⟩ now same
    cases same
    obtain ⟨blocked, before⟩ := watched reached (by simp [here, checkedWords])
    rw [not_or, not_not] at clear
    refine ⟨blocked, fun lane below set => ?_⟩
    rcases Nat.lt_succ_iff_lt_or_eq.mp below with earlier | this
    · exact before lane earlier set
    · exact absurd set (flagged_eq_nil clear.1 this)
  | case20 reached here =>
    rintro - ⟨⟩ now same
    obtain ⟨blocked, before⟩ := watched reached (by simp [here, checkedWords])
    exact ⟨blocked, fun lane below set => before lane (by omega) set⟩
  | case26 unmarked awake =>
    rintro - ⟨⟩
    have none_checked : checkedWords state.consumer = none := by
      cases here : state.consumer with
      | checking reached => exact (unmarked reached here).elim
      | asleep => exact (awake here).elim
      | running | draining | leaving => rfl
    simp [Watched, none_checked]
  | _ => nofun

/-- The consumer sleeps on items or a set bit, and nobody is about to end its sleep. -/
def Missed (state : WakeState mesh) : Prop :=
  state.consumer = .asleep ∧ state.pending = 0
    ∧ (∀ index, (state.posters index).owed = [] ∧ (state.posters index).raised = false)
    ∧ ∃ lane, state.depths lane ≠ 0 ∨ state.bits lane

instance (state : WakeState mesh) : Decidable state.Missed :=
  inferInstanceAs (Decidable (_ ∧ _))

/-- Outside a drain every lane with items is flagged or about to be. Where every wake is accepted
and no executor sleeps frozen on a flagged lane, a consumer asleep has missed nothing. Witness:
induction over the run, with `Covered` and `Watched`.
-/
theorem asleep_missed_nothing (mesh : WakeMesh) {events : List (WakeEvent mesh)}
    {final : WakeState mesh} (ran : run (step mesh) (init mesh) events = some final)
    : ((∀ pass, final.consumer ≠ .draining pass) → ∀ lane, final.depths lane ≠ 0
        → final.bits lane ∨ ∃ index, lane ∈ (final.posters index).owed)
      ∧ (EachStep (step mesh) Heeded (init mesh) events → ¬ final.Missed) := by
  have covered := run_invariant (fun _ _ _ covered => covered.step) (init_covered mesh) ran
  refine ⟨fun outside lane some_item => ?_, fun heeded ⟨asleep, quiet, idle, lane, left⟩ => ?_⟩
  · rcases covered.cover lane some_item with set | owing | held
    · exact .inl set
    · exact .inr owing
    · cases here : final.consumer with
      | draining pass => exact (outside pass here).elim
      | running | checking | asleep | leaving => simp [Holds] at held
  · have start : (init mesh).Watched := by simp [Watched, init, checkedWords]
    have watched := run_invariant_of_eachStep
      (fun _ _ _ watched allowed taken => Watched.step watched allowed taken) start heeded ran
    have clear : ¬ final.bits lane := by
      intro set
      have := mesh.lanes_le
      rcases (watched mesh.words (by simp [asleep, checkedWords])).2 lane (by omega) set
        with waits | ⟨index, up⟩
      · omega
      · simp [(idle index).2] at up
    rcases covered.cover lane (left.resolve_right clear) with set | ⟨index, owing⟩ | held
    · exact clear set
    · simp [(idle index).1] at owing
    · simp [asleep, Holds] at held

def oneLane : WakeMesh := ⟨1, 1, 1, by decide⟩

def post (accepted : Bool) : List (WakeEvent oneLane) :=
  let producer : Fin oneLane.posters := ⟨0, by decide⟩
  let lane : Fin oneLane.lanes := ⟨0, by decide⟩
  [.push producer lane, .load producer lane, .raise producer, .wake producer accepted]

/-- Two posts find the consumer running; it gathers them one at a time and goes to sleep. -/
def gatherAndSleep : List (WakeEvent oneLane) :=
  post true ++ (post true).take 2
    ++ (.startDrain (.gather 1) true :: List.replicate 5 .drain : List (WakeEvent oneLane))
    ++ (.startDrain .all true :: List.replicate 5 .drain : List (WakeEvent oneLane))
    ++ ([.arm, .check, .check, .check] : List (WakeEvent oneLane))

theorem asleep_missed_nothing_drained
    : ∃ final, run (step oneLane) (init oneLane) gatherAndSleep = some final
      ∧ final.consumer = .asleep ∧ ¬ final.Missed := by
  have slept : (run (step oneLane) (init oneLane) gatherAndSleep).map (·.consumer)
      = some .asleep := by
    decide +kernel
  obtain ⟨final, ran, asleep⟩ := map_eq_some_iff.mp slept
  exact ⟨final, ran, asleep, (asleep_missed_nothing oneLane ran).2 (by decide +kernel)⟩

/-- An executor frozen for a move marks itself after a poster has found it unmarked, and sleeps on
the bit; and a poster whose wake finds no submission entry leaves the sleeper asleep.
-/
theorem frozen_and_refused_missed
    : (∃ final, run (step oneLane) (init oneLane) (post true ++ [.armFrozen, .check]) = some final
        ∧ final.Missed)
      ∧ ∃ final, run (step oneLane) (init oneLane)
          ([.arm, .check, .check, .check] ++ post false) = some final ∧ final.Missed := by
  have missed {events : List (WakeEvent oneLane)}
      (checked : (run (step oneLane) (init oneLane) events).any (decide ·.Missed))
      : ∃ final, run (step oneLane) (init oneLane) events = some final ∧ final.Missed := by
    simpa [any_eq_true] using checked
  exact ⟨missed (by decide +kernel), missed (by decide +kernel)⟩

end WakeState

end Thredis.Exec
