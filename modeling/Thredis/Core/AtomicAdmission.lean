import Thredis.Lib.Runs

/-! The admission credits of atomic groups. One word holds the window in its high half and the
groups in flight in its low half: admissions compare-exchange it, retirements subtract from it,
and the configuration adds the difference of two windows to its high half.
-/

namespace Thredis.Core

open Thredis.Lib BitVec Function

namespace AtomicAdmissionCredits

inductive Attempt where
  | admitted | full | contended
  deriving DecidableEq, Repr

def pack (window active : BitVec 32) : BitVec 64 :=
  window.setWidth 64 <<< 32 ||| active.setWidth 64

def used (state : BitVec 64) : BitVec 32 := state.setWidth 32

def limit (state : BitVec 64) : BitVec 32 := (state >>> 32).setWidth 32

/-- An unlimited window still cannot overflow the count. -/
def hasRoom (state : BitVec 64) : Bool :=
  used state != allOnes 32 && (limit state == 0 || (used state).ult (limit state))

def windowDelta (window old : BitVec 32) : BitVec 64 := (window - old).setWidth 64 <<< 32

-- The halves as numbers

variable (state : BitVec 64)

theorem toNat_used : (used state).toNat = state.toNat % 2 ^ 32 := by
  rw [used, toNat_setWidth]

theorem toNat_limit : (limit state).toNat = state.toNat / 2 ^ 32 := by
  rw [limit, toNat_setWidth, toNat_ushiftRight, Nat.shiftRight_eq_div_pow]
  omega

theorem halves_pack (window active : BitVec 32)
    : limit (pack window active) = window ∧ used (pack window active) = active := by
  constructor
  · ext i inside
    have upper : 32 + i < 64 := by omega
    simp [limit, pack, upper, getLsbD_eq_getElem inside]
  · ext i inside
    simp [used, pack]

variable {state}

/-- Where there is room, one more group stays within the low half. -/
theorem halves_add_one (room : hasRoom state = true)
    : (limit state = 0 ∨ used state < limit state) ∧ limit (state + 1) = limit state
      ∧ (used (state + 1)).toNat = (used state).toNat + 1 := by
  simp only [hasRoom, Bool.and_eq_true, bne_iff_ne, ne_eq, Bool.or_eq_true, beq_iff_eq,
    ult_iff_lt] at room
  have short : (used state).toNat ≠ 2 ^ 32 - 1 := fun full => room.1 (eq_of_toNat_eq full)
  rw [toNat_used] at short
  have sum : (state + 1).toNat = state.toNat + 1 := by
    rw [toNat_add]
    exact Nat.mod_eq_of_lt (by change state.toNat + 1 < 2 ^ 64; omega)
  refine ⟨room.2, eq_of_toNat_eq ?_, ?_⟩
  · rw [toNat_limit, toNat_limit, sum]
    omega
  · rw [toNat_used, toNat_used, sum]
    omega

/-- A counted group leaves without borrowing from the window. -/
theorem halves_sub_one (some : (used state).toNat ≠ 0)
    : limit (state - 1) = limit state ∧ (used (state - 1)).toNat + 1 = (used state).toNat := by
  rw [toNat_used] at some
  have difference : (state - 1).toNat = state.toNat - 1 :=
    toNat_sub_of_le (by change 1 ≤ state.toNat; omega)
  refine ⟨eq_of_toNat_eq ?_, ?_⟩
  · rw [toNat_limit, toNat_limit, difference]
    omega
  · rw [toNat_used, toNat_used, difference]
    omega

/-- The difference from the window that stands installs the new one and leaves the count alone. -/
theorem halves_add_delta (state : BitVec 64) (window : BitVec 32)
    : limit (state + windowDelta window (limit state)) = window
      ∧ used (state + windowDelta window (limit state)) = used state := by
  have delta : (windowDelta window (limit state)).toNat
      = (2 ^ 32 - state.toNat / 2 ^ 32 + window.toNat) % 2 ^ 32 * 2 ^ 32 := by
    rw [windowDelta, toNat_shiftLeft, toNat_setWidth, toNat_sub, toNat_limit, Nat.shiftLeft_eq]
    omega
  refine ⟨eq_of_toNat_eq ?_, eq_of_toNat_eq ?_⟩
  · rw [toNat_limit, toNat_add, delta]
    omega
  · rw [toNat_used, toNat_used, toNat_add, delta]
    omega

end AtomicAdmissionCredits

open AtomicAdmissionCredits

/-- The word with the calls in progress: the word each thread's `try_admit` has loaded, and the
window `set_window` is to install with the one it has loaded. The rest is history: the thread of
every group admitted and not yet retired, the answers of `try_admit`, the retirements, the window
last set, and whether `retire` has aborted.
-/
structure AdmissionState where
  word : BitVec 64
  attempts : Nat → Option (BitVec 64)
  setting : Option (BitVec 32 × BitVec 32)
  groups : List Nat
  answers : List Attempt
  retirements : Nat
  window : BitVec 32
  aborted : Bool

/-- The atomic accesses of the threads and of the configuration thread. -/
inductive AdmissionEvent where
  | load (thread : Nat)
  | exchange (thread : Nat)
  | retire (thread : Nat)
  | loadWindow (window : BitVec 32)
  | addWindow
  deriving DecidableEq, Repr

namespace AdmissionState

def init (window : BitVec 32) : AdmissionState :=
  { word := pack window 0, attempts := fun _ => none, setting := none, groups := []
    answers := [], retirements := 0, window, aborted := false }

def admissions (state : AdmissionState) : Nat := state.answers.count .admitted

def step (state : AdmissionState) : AdmissionEvent → Option AdmissionState
  | .load thread =>
    match state.attempts thread with
    | none =>
      if hasRoom state.word then
        some { state with attempts := update state.attempts thread (some state.word) }
      else some { state with answers := .full :: state.answers }
    | some _ => none
  | .exchange thread =>
    match state.attempts thread with
    | none => none
    | some loaded =>
      let attempts := update state.attempts thread none
      -- a strong exchange fails only where the word has changed since the load
      if state.word = loaded then
        some { state with
               word := loaded + 1, attempts, groups := thread :: state.groups
               answers := .admitted :: state.answers }
      else some { state with attempts, answers := .contended :: state.answers }
  | .retire thread =>
    -- a thread retires between its calls, and only a group it was admitted for
    if state.attempts thread = none ∧ thread ∈ state.groups then
      some { state with
             word := state.word - 1, groups := state.groups.erase thread
             retirements := state.retirements + 1
             -- the word before the subtraction tells whether a group was counted
             aborted := state.aborted || used state.word == 0 }
    else none
  | .loadWindow window =>
    match state.setting with
    | none => some { state with setting := some (window, limit state.word) }
    | some _ => none
  | .addWindow =>
    match state.setting with
    | none => none
    | some (window, old) =>
      some { state with word := state.word + windowDelta window old, setting := none, window }

/-- What a step may do: no addition or subtraction carries from one half of the word into the
other, and an admission finds the window open.
-/
def Moves (state next : AdmissionState) : AdmissionEvent → Prop
  | .load _ | .loadWindow _ => next.word = state.word ∧ next.admissions = state.admissions
  | .exchange _ =>
    (next.word = state.word ∧ next.admissions = state.admissions)
    ∨ next.admissions = state.admissions + 1
      ∧ (limit state.word = 0 ∨ used state.word < limit state.word)
      ∧ limit next.word = limit state.word
      ∧ (used next.word).toNat = (used state.word).toNat + 1
  | .retire _ =>
    next.retirements = state.retirements + 1
    ∧ limit next.word = limit state.word
    ∧ (used next.word).toNat + 1 = (used state.word).toNat
  | .addWindow => limit next.word = next.window ∧ used next.word = used state.word

/-- The halves say what the history does, a loaded word had room, and between the two accesses of
`set_window` the window stands.
-/
structure Inv (state : AdmissionState) : Prop where
  active : (used state.word).toNat = state.groups.length
  counted : state.groups.length + state.retirements = state.answers.count .admitted
  window : limit state.word = state.window
  roomy : ∀ thread, ∀ loaded ∈ state.attempts thread, hasRoom loaded = true
  setting : ∀ pair ∈ state.setting, pair.2 = limit state.word
  running : state.aborted = false

theorem Inv.init (window : BitVec 32) : (init window).Inv := by
  obtain ⟨upper, lower⟩ := halves_pack window 0
  exact
    { active := congrArg BitVec.toNat lower, counted := rfl, window := upper, roomy := nofun
      setting := nofun, running := rfl }

variable {state next : AdmissionState}

section

variable (inv : state.Inv)

include inv

theorem Inv.roomy_update (thread : Nat) {started : Option (BitVec 64)}
    (fresh : ∀ loaded ∈ started, hasRoom loaded = true) (other : Nat)
    : ∀ loaded ∈ update state.attempts thread started other, hasRoom loaded = true := by
  by_cases same : other = thread
  · rw [same, update_self]
    exact fresh
  · rw [update_of_ne same]
    exact inv.roomy other

/-- One access.
Witness: a compare-exchange that succeeds finds the word it loaded, which had room; a thread with
a group to retire is counted.
-/
theorem Inv.step {event : AdmissionEvent} (stepped : state.step event = some next)
    : next.Inv ∧ state.Moves next event := by
  have active := inv.active
  have counted := inv.counted
  revert stepped
  fun_cases state.step event with
  | case1 thread idle room =>
    rintro ⟨rfl⟩
    exact ⟨{ inv with roomy := inv.roomy_update thread (by simpa using room) }, rfl, rfl⟩
  | case2 =>
    rintro ⟨rfl⟩
    exact ⟨{ inv with }, rfl, rfl⟩
  | case5 thread _ started =>
    rintro ⟨rfl⟩
    obtain ⟨room, same, more⟩ := halves_add_one (inv.roomy thread state.word started)
    have admitted : (Attempt.admitted :: state.answers).count .admitted = state.admissions + 1 :=
      List.count_cons_self
    refine ⟨?_, .inr ⟨admitted, room, same, more⟩⟩
    exact
      { active := by rw [more, active]; rfl
        counted := by
          rw [admitted, admissions, ← counted]
          exact Nat.add_right_comm _ _ _
        window := same.trans inv.window
        roomy := inv.roomy_update thread nofun
        setting := fun pair set => (inv.setting pair set).trans same.symm
        running := inv.running }
  | case6 thread =>
    rintro ⟨rfl⟩
    exact ⟨{ inv with roomy := inv.roomy_update thread nofun }, .inl ⟨rfl, rfl⟩⟩
  | case7 thread owned =>
    rintro ⟨rfl⟩
    -- the thread's own group is one of those the low half counts
    have fewer := List.length_erase_add_one owned.2
    have some : (used state.word).toNat ≠ 0 := by omega
    obtain ⟨same, less⟩ := halves_sub_one some
    refine ⟨?_, rfl, same, less⟩
    exact
      { active := by dsimp only; omega
        counted := by rw [← fewer, Nat.add_assoc, Nat.add_comm 1] at counted; exact counted
        window := same.trans inv.window
        roomy := inv.roomy
        setting := fun pair set => (inv.setting pair set).trans same.symm
        running := by simpa [inv.running] using fun none => some (congrArg BitVec.toNat none) }
  | case9 window =>
    rintro ⟨rfl⟩
    exact ⟨{ inv with setting := by simp }, rfl, rfl⟩
  | case12 window old set =>
    intro stepped
    -- only this thread writes the high half, so the window it loaded still stands
    obtain rfl : old = limit state.word := inv.setting (window, old) set
    obtain ⟨installed, same⟩ := halves_add_delta state.word window
    rw [← Option.some.inj stepped]
    refine ⟨{ inv with active := ?_, window := installed, setting := nofun }, installed, same⟩
    rw [same]
    exact active
  | _ => nofun

end

/-- In every interleaving of admissions, retirements and settings of the window, the low half is
the admissions less the retirements, the high half is the window last set, `retire` has not
aborted, and the next access, whichever it is, moves the halves apart from each other and admits
only into an open window.
Witness: induction over the accesses of the run.
-/
theorem credits_exact (window : BitVec 32) {events : List AdmissionEvent}
    (ran : run step (init window) events = some state)
    : (used state.word).toNat + state.retirements = state.admissions
      ∧ limit state.word = state.window
      ∧ state.aborted = false
      ∧ ∀ event next, state.step event = some next → state.Moves next event := by
  have inv := run_invariant (fun _ _ _ inv stepped => (Inv.step inv stepped).1)
    (Inv.init window) ran
  refine ⟨?_, inv.window, inv.running, fun event next stepped => (inv.step stepped).2⟩
  rw [inv.active]
  exact inv.counted

/-- Two threads load an open window of one and the second finds the word changed; the window is
raised while the group of the first retires.
-/
def contendedRun : List AdmissionEvent :=
  [.load 0, .load 1, .exchange 0, .exchange 1, .loadWindow 3, .retire 0, .addWindow]

theorem credits_exact_contended
    : ∃ state, run step (init 1) contendedRun = some state
        ∧ state.answers = [.contended, .admitted] ∧ limit state.word = 3 := by
  have ran : run step (init 1) contendedRun = some _ := rfl
  exact ⟨_, ran, rfl, (credits_exact 1 ran).2.1⟩

end AdmissionState

end Thredis.Core
