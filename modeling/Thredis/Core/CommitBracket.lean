import Mathlib

/-! The commit bracket of the server: drawing tickets, storing decision words and raising
the visible watermark. One event is one atomic access, so an event list is an interleaving.
-/

namespace Thredis.Core

/-- Where one call of `atomic_commit_batch` stands; each constructor names the next atomic
access the call performs.
-/
inductive CommitPc where
  /-- `atomic_commit_inflight_.fetch_add(1)` in `atomic_commit_reserve`. -/
  | reserve (tickets : Nat)
  /-- `commit_seq_.fetch_add(tickets)`. -/
  | draw (tickets : Nat)
  /-- `store_tickets`: the words of tickets `next` up to `last` are still to be stored. -/
  | store (next last : Nat)
  /-- `drawn = commit_seq_.load()` in `atomic_commit_publish`. -/
  | load
  /-- `atomic_commit_inflight_.fetch_sub(1)`. -/
  | release (drawn : Nat)
  /-- `safe = atomic_commit_safe_.load()`, reached only by the last committer out. -/
  | readSafe (drawn : Nat)
  /-- The `compare_exchange_weak` loop that raises `atomic_commit_safe_`. -/
  | raise (drawn safe : Nat)
  | done
  deriving DecidableEq, Repr

/-- The shared words of the bracket. `stored` lists the tickets whose epoch word has been
stored; `windows` is the counter of publications that stayed behind another committer.
-/
structure CommitWords where
  inflight : Nat
  commitSeq : Nat
  safe : Nat
  windows : Nat
  stored : List Nat
  deriving DecidableEq, Repr

structure CommitState where
  words : CommitWords
  committers : List CommitPc
  deriving DecidableEq, Repr

def CommitState.init : CommitState :=
  { words := ⟨0, 0, 0, 0, []⟩, committers := [] }

inductive CommitEvent where
  /-- A new call of `atomic_commit_batch(tickets, ..)`. -/
  | start (tickets : Nat)
  /-- Committer `who` performs its next atomic access; `spurious` is a failed weak exchange. -/
  | advance (who : Nat) (spurious : Bool)
  deriving DecidableEq, Repr

/-- One atomic access of one committer. -/
def CommitPc.advance (words : CommitWords) (spurious : Bool)
    : CommitPc → CommitWords × CommitPc
  | .reserve tickets => ({ words with inflight := words.inflight + 1 }, .draw tickets)
  | .draw tickets =>
    ({ words with commitSeq := words.commitSeq + tickets },
      .store (words.commitSeq + 1) (words.commitSeq + tickets))
  | .store next last =>
    ({ words with stored := next :: words.stored },
      if next < last then .store (next + 1) last else .load)
  | .load => (words, .release words.commitSeq)
  | .release drawn =>
    if words.inflight ≠ 1 then
      ({ words with inflight := words.inflight - 1, windows := words.windows + 1 }, .done)
    else
      ({ words with inflight := words.inflight - 1 }, .readSafe drawn)
  | .readSafe drawn => (words, .raise drawn words.safe)
  | .raise drawn safe =>
    if safe < drawn then
      if words.safe = safe ∧ spurious = false then
        ({ words with safe := drawn }, .done)
      else
        (words, .raise drawn words.safe)
    else
      (words, .done)
  | .done => (words, .done)

/-- One event of the interleaving. A reservation of zero tickets aborts the process. -/
def CommitState.step (state : CommitState) : CommitEvent → Option CommitState
  | .start tickets =>
    if tickets = 0 then none
    else some { state with committers := state.committers ++ [.reserve tickets] }
  | .advance who spurious =>
    (state.committers[who]?).map (fun pc =>
      let moved := pc.advance state.words spurious
      { words := moved.1, committers := state.committers.set who moved.2 })

def CommitState.atomicSnapshot (state : CommitState) : Nat := state.words.safe

def CommitState.Quiet (state : CommitState) : Prop :=
  ∀ pc ∈ state.committers, pc = .done

instance (state : CommitState) : Decidable state.Quiet :=
  inferInstanceAs (Decidable (∀ pc ∈ state.committers, pc = .done))

end Thredis.Core
