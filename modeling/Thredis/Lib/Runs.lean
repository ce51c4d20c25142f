import Mathlib

/-! Runs of a partial step function over an event list, and the induction rules that turn
a fact about one step into a fact about every state of every run.
-/

namespace Thredis.Lib
open Option

universe u v

variable {σ : Type u} {ε : Type v} (step : σ → ε → Option σ)

/-- The state after performing all events in order; `none` once a step is refused. -/
def run : σ → List ε → Option σ
  | state, [] => some state
  | state, event :: rest => (step state event).bind (fun next => run next rest)

/-- (EachStep step allowed state events) says that every step taken along the run meets
`allowed` in the state it starts from.
-/
def EachStep (allowed : σ → ε → Prop) : σ → List ε → Prop
  | _, [] => True
  | state, event :: rest =>
    allowed state event
    ∧ match step state event with
      | none => True
      | some next => EachStep allowed next rest

/-- A run of checkable steps is checkable. -/
instance EachStep.decidable {allowed : σ → ε → Prop}
    [∀ state event, Decidable (allowed state event)] (state : σ) (events : List ε)
    : Decidable (EachStep step allowed state events) :=
  match events with
  | [] => .isTrue trivial
  | event :: rest =>
    match found : step state event with
    | none =>
      decidable_of_iff (allowed state event) (by simp [EachStep, found])
    | some next =>
      have : Decidable (EachStep step allowed next rest) := EachStep.decidable next rest
      decidable_of_iff (allowed state event ∧ EachStep step allowed next rest)
        (by simp [EachStep, found])

/-- What the steps of a run note, each in the state it starts from. -/
def noted {γ : Type} (note : σ → ε → List γ) : σ → List ε → List γ
  | _, [] => []
  | state, event :: rest =>
    note state event ++ (step state event).elim [] (fun next => noted note next rest)

/-- A guarded step that was taken: its guard held. -/
theorem guard_taken {guard : Prop} [Decidable guard] {after next : σ}
    (taken : (if guard then some after else none) = some next) : guard ∧ after = next := by
  obtain ⟨held, same⟩ := ite_none_right_eq_some.mp taken
  exact ⟨held, some.inj same⟩

/-- A step that was not refused: what refuses it did not hold. -/
theorem guard_passed {guard : Prop} [Decidable guard] {after next : σ}
    (taken : (if guard then none else some after) = some next) : ¬ guard ∧ after = next := by
  obtain ⟨passed, same⟩ := ite_none_left_eq_some.mp taken
  exact ⟨passed, some.inj same⟩

variable {step}
variable {state final : σ}

/-- A nonempty run performs its first step and then runs the remaining events. -/
theorem run_cons {event : ε} {rest : List ε} (ran : run step state (event :: rest) = some final)
    : ∃ next, step state event = some next ∧ run step next rest = some final := by
  simpa [run, bind_eq_some_iff] using ran

/-- A run over joined event lists passes through the state between them. -/
theorem run_append (state : σ) (front back : List ε)
    : run step state (front ++ back) = (run step state front).bind (run step · back) := by
  induction front generalizing state with
  | nil => rfl
  | cons event rest ih =>
    rw [List.cons_append, run, run, bind_assoc]
    exact congrArg _ (funext ih)

variable {events : List ε}

/-- A run is refused exactly when one of its steps is.
Witness: induction over the events.
-/
theorem run_eq_none
    : run step state events = none
      ↔ ∃ front event back reached,
          events = front ++ event :: back ∧ run step state front = some reached
          ∧ step reached event = none := by
  induction events generalizing state with
  | nil => simp [run]
  | cons first rest ih =>
    constructor
    · intro refused
      cases stepped : step state first with
      | none => exact ⟨[], first, rest, state, rfl, rfl, stepped⟩
      | some next =>
        rw [run, stepped] at refused
        obtain ⟨front, event, back, reached, rfl, ran, blocked⟩ := ih.mp refused
        exact ⟨first :: front, event, back, reached, rfl, by simp [run, stepped, ran], blocked⟩
    · intro ⟨front, event, back, reached, split, ran, blocked⟩
      rw [split, run_append, ran, bind_some, run, blocked, bind_none]

variable {inv : σ → Prop}

/-- An invariant kept by every allowed step holds after every run of allowed steps.
Witness: induction over the events; each step hands its invariant to the next.
-/
theorem run_invariant_of_eachStep {allowed : σ → ε → Prop} (keeps : ∀ state event next,
      inv state → allowed state event → step state event = some next → inv next)
    (start : inv state) (each : EachStep step allowed state events)
    (ran : run step state events = some final)
    : inv final := by
  induction events generalizing state with
  | nil =>
    cases ran
    exact start
  | cons event rest ih =>
    obtain ⟨next, stepped, tail⟩ := run_cons ran
    have onward : EachStep step allowed next rest := by simpa [stepped] using each.2
    exact ih (keeps state event next start each.1 stepped) onward tail

/-- If an allowed step is never refused and keeps an invariant, a run of allowed steps ends in
a state with that invariant.
-/
theorem run_total_of_eachStep {allowed : σ → ε → Prop}
    (keeps : ∀ state event, inv state → allowed state event
      → ∃ next, step state event = some next ∧ inv next)
    (start : inv state) (each : EachStep step allowed state events)
    : ∃ final, run step state events = some final ∧ inv final := by
  induction events generalizing state with
  | nil => exact ⟨state, rfl, start⟩
  | cons event rest ih =>
    obtain ⟨next, stepped, kept⟩ := keeps state event start each.1
    obtain ⟨final, ran, ends⟩ := ih kept (by simpa [stepped] using each.2)
    exact ⟨final, by simp [run, stepped, ran], ends⟩

/-- What an invariant tells of every allowed step holds of each step of a run. -/
theorem EachStep.of_invariant {allowed told : σ → ε → Prop}
    (keeps : ∀ state event, inv state → allowed state event
      → told state event ∧ ∀ next, step state event = some next → inv next)
    (start : inv state) (each : EachStep step allowed state events)
    : EachStep step told state events := by
  induction events generalizing state with
  | nil => trivial
  | cons event rest ih =>
    obtain ⟨held, onward⟩ := keeps state event start each.1
    refine ⟨held, ?_⟩
    cases stepped : step state event with
    | none => trivial
    | some next => exact ih (onward next stepped) (by simpa [stepped] using each.2)

/-- Every run trivially allows each of its steps. -/
theorem eachStep_true (state : σ) (events : List ε)
    : EachStep step (fun _ _ => True) state events := by
  induction events generalizing state with
  | nil => trivial
  | cons event rest ih =>
    refine ⟨trivial, ?_⟩
    cases step state event with
    | none => trivial
    | some next => exact ih next

/-- An invariant kept by every step holds after every run. -/
theorem run_invariant
    (keeps : ∀ state event next, inv state → step state event = some next → inv next)
    (start : inv state) (ran : run step state events = some final)
    : inv final :=
  run_invariant_of_eachStep (fun state event next held _ => keeps state event next held)
    start (eachStep_true state events) ran

/-- If every step adds to what is `held` what its event gives and takes from it what the step notes,
so does every run.
Witness: induction over the events, counting each item.
-/
theorem run_noted {γ : Type} {held : σ → List γ} {gives : ε → List γ} {note : σ → ε → List γ}
    (keeps : ∀ state event next, inv state → step state event = some next
      → inv next ∧ (held next ++ note state event).Perm (held state ++ gives event))
    (start : inv state) (ran : run step state events = some final)
    : (held final ++ noted step note state events).Perm (held state ++ events.flatMap gives) := by
  classical
  induction events generalizing state with
  | nil =>
    cases ran
    exact .refl _
  | cons event rest ih =>
    obtain ⟨next, stepped, tail⟩ := run_cons ran
    obtain ⟨onward, first⟩ := keeps state event next start stepped
    rw [List.perm_iff_count]
    intro item
    have later := (ih onward tail).count_eq item
    have now := first.count_eq item
    simp only [noted, stepped, elim_some, List.flatMap_cons, List.count_append] at now later ⊢
    omega

/-- A measure that no step of an invariant state decreases grows along every run. -/
theorem run_monotone (measure : σ → Nat)
    (keeps : ∀ state event next, inv state → step state event = some next → inv next)
    (grows : ∀ state event next,
      inv state → step state event = some next → measure state ≤ measure next)
    (start : inv state) (ran : run step state events = some final)
    : measure state ≤ measure final := by
  induction events generalizing state with
  | nil =>
    cases ran
    exact Nat.le_refl _
  | cons event rest ih =>
    obtain ⟨next, stepped, tail⟩ := run_cons ran
    exact Nat.le_trans (grows state event next start stepped)
      (ih (keeps state event next start stepped) tail)

end Thredis.Lib
