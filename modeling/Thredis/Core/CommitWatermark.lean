import Thredis.Lib.Runs
import Thredis.Core.CommitBracket

/-! The visible watermark of the commit bracket: what it covers in every reachable state,
and when it catches up with the drawn sequence.
-/

namespace Thredis.Core

open Thredis.Lib CommitPc List CommitState

/-- The committer is counted in `atomic_commit_inflight_`. -/
@[simp] def CommitPc.holds : CommitPc → Bool
  | .draw _ | .store _ _ | .load | .release _ => true
  | .reserve _ | .readSafe _ | .raise _ _ | .done => false

/-- The committer drew ticket `ticket` and has not stored its epoch word yet. -/
@[simp] def CommitPc.Owes (ticket : Nat) : CommitPc → Prop
  | .store next last => next ≤ ticket ∧ ticket ≤ last
  | .reserve _ | .draw _ | .load | .release _ | .readSafe _ | .raise _ _ | .done => False

/-- The committer carries `drawn`, loaded from `commit_seq_`. -/
@[simp] def CommitPc.Carries (drawn : Nat) : CommitPc → Prop
  | .release value | .readSafe value | .raise value _ => value = drawn
  | .reserve _ | .draw _ | .store _ _ | .load | .done => False

/-- The committer left the bracket last and is raising the watermark to `drawn`. -/
@[simp] def CommitPc.Raises (drawn : Nat) : CommitPc → Prop
  | .readSafe value | .raise value _ => value = drawn
  | .reserve _ | .draw _ | .store _ _ | .load | .release _ | .done => False

/-- The committer reserves or still stores a nonempty ticket range. -/
@[simp] def CommitPc.RangeOk : CommitPc → Prop
  | .reserve tickets | .draw tickets => 0 < tickets
  | .store next last => next ≤ last
  | .load | .release _ | .readSafe _ | .raise _ _ | .done => True

/-- Tickets `1` up to `bound` have all stored their epoch word. -/
def CommitWords.StoredUpTo (words : CommitWords) (bound : Nat) : Prop :=
  ∀ ticket, 1 ≤ ticket → ticket ≤ bound → ticket ∈ words.stored

/-- The facts about all program counters together that keep the watermark honest: the count
names exactly the committers inside the bracket, and a drawn ticket is stored or owed.
-/
structure CommitState.Inv (state : CommitState) : Prop where
  counted : state.words.inflight = state.committers.countP CommitPc.holds
  safeDrawn : state.words.safe ≤ state.words.commitSeq
  ranges : ∀ (who : Nat) (pc : CommitPc), state.committers[who]? = some pc → pc.RangeOk
  carried
    : ∀ (who : Nat) (pc : CommitPc) (drawn : Nat),
        state.committers[who]? = some pc → pc.Carries drawn → drawn ≤ state.words.commitSeq
  covered
    : ∀ ticket,
        1 ≤ ticket
        → ticket ≤ state.words.commitSeq
        → ticket ∈ state.words.stored
          ∨ ∃ (who : Nat) (pc : CommitPc), state.committers[who]? = some pc ∧ pc.Owes ticket
  raising
    : ∀ (who : Nat) (pc : CommitPc) (drawn : Nat),
        state.committers[who]? = some pc → pc.Raises drawn → state.words.StoredUpTo drawn
  safeStored : state.words.StoredUpTo state.words.safe

/-- Nothing is drawn and nobody runs at boot, so every clause is vacuous. -/
theorem CommitState.init_inv : init.Inv where
  counted := rfl
  safeDrawn := Nat.le_refl _
  ranges := by simp [init]
  carried := by simp [init]
  covered := by
    intro ticket low high
    simp only [init] at high
    omega
  raising := by simp [init]
  safeStored := by
    intro ticket low high
    simp only [init] at high
    omega

variable {committers : List CommitPc} {who other tickets : Nat} {moved pc old : CommitPc}

/-- The program counters after committer `who` moved: its own new one, or an old one. -/
theorem getElem?_set_cases (found : (committers.set who moved)[other]? = some pc)
    : (other = who ∧ pc = moved) ∨ (other ≠ who ∧ committers[other]? = some pc) := by
  rw [getElem?_set] at found
  split at found
  · next same =>
      split at found
      · exact Or.inl ⟨same.symm, (Option.some.inj found).symm⟩
      · exact absurd found (by simp)
  · next differs => exact Or.inr ⟨fun same => differs same.symm, found⟩

/-- The moved committer is found under its own index. -/
theorem getElem?_set_who (found : committers[who]? = some old)
    : (committers.set who moved)[who]? = some moved := by
  obtain ⟨inside, _⟩ := List.getElem?_eq_some_iff.mp found
  simp [inside]

/-- Another committer is found where it was. -/
theorem getElem?_set_other (differs : other ≠ who) (found : committers[other]? = some pc)
    : (committers.set who moved)[other]? = some pc := by
  rw [getElem?_set_ne (fun same => differs same.symm)]
  exact found

/-- The bracket count changes exactly by what the moving committer enters or leaves. -/
theorem countP_set_holds (found : committers[who]? = some old) (moved : CommitPc)
    : (committers.set who moved).countP holds + (if old.holds then 1 else 0)
      = committers.countP holds + (if moved.holds then 1 else 0) := by
  obtain ⟨inside, eq⟩ := List.getElem?_eq_some_iff.mp found
  have positive : old.holds = true → 0 < committers.countP holds := by
    intro held
    exact countP_pos_iff.mpr ⟨old, eq ▸ getElem_mem inside, held⟩
  rw [countP_set inside, eq]
  cases held : old.holds
  · simp
  · have := positive held
    simp only [if_true]
    omega

/-- When one committer alone is counted, no other committer owes a ticket.
Witness: moving it out of the bracket leaves a zero count.
-/
theorem owes_unique {ticket : Nat} (found : committers[who]? = some old) (held : old.holds = true)
    (alone : committers.countP holds = 1)
    (present : committers[other]? = some pc) (owes : pc.Owes ticket)
    : other = who := by
  by_contra differs
  have count := countP_set_holds found .done
  rw [held, alone] at count
  have zero : (committers.set who .done).countP holds = 0 := by
    simpa using count
  have member : pc ∈ committers.set who .done :=
    mem_of_getElem? (getElem?_set_other differs present)
  have quiet := countP_eq_zero.mp zero pc member
  cases pc <;> simp at owes quiet

variable {words : CommitWords}

/-- A longer list of stored words covers every bound a shorter one covered. -/
theorem CommitWords.StoredUpTo.mono {next : CommitWords} {bound : Nat}
    (stored : words.StoredUpTo bound) (grows : ∀ ticket ∈ words.stored, ticket ∈ next.stored)
    : next.StoredUpTo bound :=
  fun ticket low high => grows ticket (stored ticket low high)

-- The invariant survives every access

/-- What one access of a committer changes, in the terms the invariant speaks about. -/
structure CommitPc.Access (words : CommitWords) (old : CommitPc) (next : CommitWords)
    (moved : CommitPc) : Prop where
  count : next.inflight + (if old.holds then 1 else 0)
    = words.inflight + (if moved.holds then 1 else 0)
  seq : words.commitSeq ≤ next.commitSeq
  safe : words.safe ≤ next.safe
  stored : ∀ ticket ∈ words.stored, ticket ∈ next.stored
  range : moved.RangeOk
  carried : ∀ drawn, moved.Carries drawn → drawn ≤ next.commitSeq
  owed : ∀ ticket, old.Owes ticket → ticket ∈ next.stored ∨ moved.Owes ticket
  fresh : ∀ ticket, words.commitSeq < ticket → ticket ≤ next.commitSeq → moved.Owes ticket
  raised : ∀ drawn, moved.Raises drawn → old.Raises drawn
    ∨ old = .release drawn ∧ words.inflight = 1
  safeFrom : next.safe = words.safe ∨ old.Raises next.safe

variable {spurious : Bool}

/-- Every access is one of the shapes above. Witness: the ten branches of the source. -/
theorem CommitPc.advance_access
    (range : pc.RangeOk) (counted : pc.holds = true → 0 < words.inflight)
    (carried : ∀ drawn, pc.Carries drawn → drawn ≤ words.commitSeq)
    : pc.Access words (pc.advance words spurious).1 (pc.advance words spurious).2 := by
  fun_cases pc.advance words spurious with
  | case1 tickets =>
    have some : 0 < tickets := range
    constructor <;> simp [some]
  | case2 tickets =>
    have some : 0 < tickets := range
    constructor <;> simp <;> omega
  | case3 next last =>
    have ordered : next ≤ last := range
    split
    · constructor <;> simp +contextual <;> omega
    · constructor <;> simp +contextual
      omega
  | case5 drawn more =>
    have inside : 0 < words.inflight := counted rfl
    constructor <;> simp
    omega
  | case6 drawn alone =>
    have last : words.inflight = 1 := not_not.mp alone
    constructor <;> simp [carried drawn rfl, last]
  | case8 drawn safe lower wins =>
    constructor <;> simp
    omega
  | case7 drawn | case9 drawn => constructor <;> simp [carried drawn rfl]
  | case4 | case10 | case11 => constructor <;> simp

variable {state next : CommitState}

/-- An access by a found committer keeps the invariant.
Witness: the only new promise is made by the last committer out; it was alone in the count,
so no ticket up to its loaded sequence is still owed.
-/
theorem CommitState.Inv.access
    {next : CommitWords} (inv : state.Inv) (found : state.committers[who]? = some old)
    (access : old.Access state.words next moved)
    : CommitState.Inv ⟨next, state.committers.set who moved⟩ := by
  have alone (last : state.words.inflight = 1) (drawn : Nat) (was : old = .release drawn)
      : state.words.StoredUpTo drawn := by
    intro ticket low high
    have bound := inv.carried who old drawn found (by simp [was])
    rcases inv.covered ticket low (by omega) with stored | ⟨other, pc, present, owes⟩
    · exact stored
    · have same := owes_unique found (by simp [was]) (inv.counted ▸ last) present owes
      rw [same, found] at present
      cases present
      simp [was] at owes
  have promised (drawn : Nat) (raises : moved.Raises drawn) : next.StoredUpTo drawn := by
    rcases access.raised drawn raises with before | ⟨was, last⟩
    · exact (inv.raising who old drawn found before).mono access.stored
    · exact (alone last drawn was).mono access.stored
  refine {
    counted := ?_
    safeDrawn := ?_
    ranges := ?_
    carried := ?_
    covered := ?_
    raising := ?_
    safeStored := ?_
  }
  · have count := countP_set_holds found moved
    have counted := inv.counted
    have change := access.count
    simp only
    omega
  · rcases access.safeFrom with same | raises
    · simp only [same]
      exact Nat.le_trans inv.safeDrawn access.seq
    · have carries : old.Carries next.safe := by
        cases old <;> simp_all
      exact Nat.le_trans (inv.carried who old next.safe found carries) access.seq
  · intro other pc present
    rcases getElem?_set_cases present with ⟨_, rfl⟩ | ⟨_, before⟩
    · exact access.range
    · exact inv.ranges other pc before
  · intro other pc drawn present carries
    rcases getElem?_set_cases present with ⟨_, rfl⟩ | ⟨_, before⟩
    · exact access.carried drawn carries
    · exact Nat.le_trans (inv.carried other pc drawn before carries) access.seq
  · intro ticket low high
    by_cases old_ticket : ticket ≤ state.words.commitSeq
    · rcases inv.covered ticket low old_ticket with stored | ⟨other, pc, present, owes⟩
      · exact Or.inl (access.stored ticket stored)
      · by_cases same : other = who
        · rw [same, found] at present
          cases present
          exact (access.owed ticket owes).imp_right
            (fun still => ⟨who, moved, getElem?_set_who found, still⟩)
        · exact Or.inr ⟨other, pc, getElem?_set_other same present, owes⟩
    · exact Or.inr ⟨who, moved, getElem?_set_who found, access.fresh ticket (by omega) high⟩
  · intro other pc drawn present raises
    rcases getElem?_set_cases present with ⟨_, rfl⟩ | ⟨_, before⟩
    · exact promised drawn raises
    · exact (inv.raising other pc drawn before raises).mono access.stored
  · rcases access.safeFrom with same | raises
    · simp only [same]
      exact inv.safeStored.mono access.stored
    · exact (inv.raising who old next.safe found raises).mono access.stored

/-- The access a committer performs is described by `Access` in every invariant state. -/
theorem CommitState.Inv.advance
    (inv : state.Inv) (found : state.committers[who]? = some pc) (spurious : Bool)
    : pc.Access state.words (pc.advance state.words spurious).1
        (pc.advance state.words spurious).2 := by
  refine advance_access (inv.ranges who pc found) ?_ (inv.carried who pc · found)
  intro held
  rw [inv.counted]
  exact countP_pos_iff.mpr ⟨pc, mem_of_getElem? found, held⟩

variable {event : CommitEvent}

/-- A step either starts a committer or lets one perform its next access. -/
theorem CommitState.step_cases (stepped : state.step event = some next)
    : (∃ tickets, 0 < tickets ∧ event = .start tickets
        ∧ next = { state with committers := state.committers ++ [.reserve tickets] })
      ∨ ∃ who spurious pc,
          event = .advance who spurious
          ∧ state.committers[who]? = some pc
          ∧ next = ⟨(pc.advance state.words spurious).1,
              state.committers.set who (pc.advance state.words spurious).2⟩ := by
  cases event with
  | start tickets =>
    by_cases zero : tickets = 0
    · simp [step, zero] at stepped
    · simp only [step, zero, if_false, Option.some.injEq] at stepped
      exact Or.inl ⟨tickets, Nat.pos_of_ne_zero zero, rfl, stepped.symm⟩
  | advance who spurious =>
    obtain ⟨pc, found, eq⟩ := Option.map_eq_some_iff.mp stepped
    exact Or.inr ⟨who, spurious, pc, rfl, found, eq.symm⟩

/-- A committer of the extended list is the new one or one that already ran. -/
theorem getElem?_append_reserve (found : (committers ++ [reserve tickets])[who]? = some pc)
    : committers[who]? = some pc ∨ pc = .reserve tickets := by
  rw [getElem?_append] at found
  split at found
  · exact Or.inl found
  · obtain ⟨inside, eq⟩ := List.getElem?_eq_some_iff.mp found
    simp only [length_singleton, Nat.lt_one_iff] at inside
    simp only [inside] at eq
    exact Or.inr eq.symm

/-- Starting a committer touches no shared word and joins no one to the count. -/
theorem CommitState.Inv.start (inv : state.Inv) (positive : 0 < tickets)
    : CommitState.Inv { state with committers := state.committers ++ [.reserve tickets] } := by
  refine {
    counted := by simpa using inv.counted
    safeDrawn := inv.safeDrawn
    ranges := ?_
    carried := ?_
    covered := ?_
    raising := ?_
    safeStored := inv.safeStored
  }
  · intro who pc found
    rcases getElem?_append_reserve found with before | rfl
    · exact inv.ranges who pc before
    · exact positive
  · intro who pc drawn found carries
    rcases getElem?_append_reserve found with before | rfl
    · exact inv.carried who pc drawn before carries
    · exact False.elim carries
  · intro ticket low high
    refine (inv.covered ticket low high).imp_right ?_
    rintro ⟨who, pc, found, owes⟩
    obtain ⟨inside, _⟩ := List.getElem?_eq_some_iff.mp found
    exact ⟨who, pc, by simpa [getElem?_append_left inside] using found, owes⟩
  · intro who pc drawn found raises
    rcases getElem?_append_reserve found with before | rfl
    · exact inv.raising who pc drawn before raises
    · exact False.elim raises

/-- Every step keeps the bracket invariant. -/
theorem CommitState.step_inv (inv : state.Inv) (stepped : state.step event = some next)
    : next.Inv := by
  rcases step_cases stepped with ⟨tickets, positive, _, rfl⟩ | ⟨who, spurious, pc, _, found, rfl⟩
  · exact inv.start positive
  · exact inv.access found (inv.advance found spurious)

/-- No step lowers the watermark: it is written only by an exchange that saw a smaller one. -/
theorem CommitState.step_safe_mono (inv : state.Inv) (stepped : state.step event = some next)
    : state.words.safe ≤ next.words.safe := by
  rcases step_cases stepped with ⟨tickets, _, _, rfl⟩ | ⟨who, spurious, pc, _, found, rfl⟩
  · exact Nat.le_refl _
  · exact (inv.advance found spurious).safe

/-- In every reachable state the tickets up to the watermark have stored their epoch words,
the watermark does not pass the drawn sequence, and no continuation lowers it.
-/
theorem commit_safe_covers_stored {events more : List CommitEvent} {state later : CommitState}
    (ran : run CommitState.step .init events = some state)
    (onward : run CommitState.step state more = some later)
    : (∀ ticket, 1 ≤ ticket → ticket ≤ state.words.safe → ticket ∈ state.words.stored)
      ∧ state.words.safe ≤ later.words.safe
      ∧ state.words.safe ≤ state.words.commitSeq := by
  have inv := run_invariant (fun _ _ _ => step_inv)
      init_inv ran
  refine ⟨inv.safeStored, ?_, inv.safeDrawn⟩
  exact run_monotone (fun state => state.words.safe) (fun _ _ _ => step_inv)
    (fun _ _ _ => step_safe_mono) inv onward

/-- Two overlapping committers, the first alone raising the watermark over both tickets. -/
def overlappingCommits : List CommitEvent :=
  [.start 1, .start 1, .advance 0 false, .advance 1 false, .advance 0 false,
    .advance 1 false, .advance 1 false, .advance 1 false, .advance 1 false,
    .advance 0 false, .advance 0 false, .advance 0 false, .advance 0 false, .advance 0 false]

def overlapped : CommitState := ⟨⟨0, 2, 2, 1, [1, 2]⟩, [.done, .done]⟩

/-- The watermark stands at both tickets, and a third committer raises it to its own. -/
theorem commit_safe_covers_stored_overlapping
    : run CommitState.step .init overlappingCommits = some overlapped
      ∧ run CommitState.step overlapped (.start 1 :: List.replicate 7 (.advance 2 false))
        = some ⟨⟨0, 3, 3, 1, [3, 1, 2]⟩, [.done, .done, .done]⟩
      ∧ (∀ ticket, 1 ≤ ticket → ticket ≤ 2 → ticket ∈ [1, 2]) ∧ 2 ≤ 3 ∧ 2 ≤ 2 :=
  have ran : run step .init overlappingCommits = some overlapped := by decide
  have onward : run step overlapped (.start 1 :: replicate 7 (.advance 2 false))
      = some ⟨⟨0, 3, 3, 1, [3, 1, 2]⟩, [.done, .done, .done]⟩ := by decide
  ⟨ran, onward, commit_safe_covers_stored ran onward⟩

-- The watermark catches up when the last committer out carries the newest ticket

/-- A release that empties the bracket carries the sequence as it is now. -/
def FreshRelease (state : CommitState) : CommitEvent → Prop
  | .start _ => True
  | .advance who _ =>
    match state.committers[who]? with
    | some (.release drawn) => state.words.inflight = 1 → drawn = state.words.commitSeq
    | _ => True

instance (state : CommitState) (event : CommitEvent)
    : Decidable (FreshRelease state event) := by
  unfold FreshRelease
  split
  · infer_instance
  · split <;> infer_instance

/-- While the bracket is empty, the watermark equals the sequence or someone outside the
bracket is about to raise it there. A committer never expects more than the watermark.
-/
structure CommitState.CatchesUp (state : CommitState) : Prop where
  inv : state.Inv
  expected
    : ∀ (who drawn safe : Nat),
        state.committers[who]? = some (.raise drawn safe) → safe ≤ state.words.safe
  empty
    : state.words.inflight = 0
      → state.words.safe = state.words.commitSeq
        ∨ ∃ (who : Nat) (pc : CommitPc),
            state.committers[who]? = some pc ∧ pc.Raises state.words.commitSeq

/-- A committer that is raising the watermark either keeps raising it or has raised it. -/
theorem CommitPc.advance_raises {drawn : Nat}
    (raises : pc.Raises drawn) (expected : ∀ safe, pc = .raise drawn safe → safe ≤ words.safe)
    (spurious : Bool)
    : (pc.advance words spurious).1.commitSeq = words.commitSeq
      ∧ ((pc.advance words spurious).2.Raises drawn
        ∨ drawn ≤ (pc.advance words spurious).1.safe) := by
  cases pc with
  | readSafe value => exact ⟨rfl, Or.inl raises⟩
  | raise value safe =>
    obtain rfl := raises
    have bound := expected safe rfl
    by_cases lower : safe < value
    · by_cases wins : words.safe = safe ∧ spurious = false
      · simp [advance, lower, wins]
      · simp [advance, lower, wins]
    · simp only [advance, lower, if_false]
      exact ⟨trivial, Or.inr (by omega)⟩
  | _ => exact False.elim raises

/-- A committer enters or repeats the exchange loop with the watermark it just read. -/
theorem CommitPc.advance_expected
    {drawn safe : Nat} (moved : (pc.advance words spurious).2 = .raise drawn safe)
    : (pc.advance words spurious).1.safe = safe := by
  cases pc with
  | readSafe value =>
    simp only [advance, raise.injEq] at moved ⊢
    exact moved.2
  | raise value expected =>
    by_cases lower : expected < value
    · by_cases wins : words.safe = expected ∧ spurious = false
      · simp [advance, lower, wins] at moved
      · simp only [advance, lower, wins, if_true, if_false, raise.injEq] at moved ⊢
        exact moved.2
    · simp [advance, lower] at moved
  | store first last => by_cases more : first < last <;> simp [advance, more] at moved
  | release value => by_cases last : words.inflight = 1 <;> simp [advance, last] at moved
  | _ => simp [advance] at moved

/-- A fresh access keeps the catch-up promise.
Witness: only a release can empty the bracket, and it leaves with the newest sequence; a
committer outside the bracket draws nothing.
-/
theorem CommitState.CatchesUp.advance
    (held : state.CatchesUp) (found : state.committers[who]? = some pc)
    (fresh : FreshRelease state (.advance who spurious))
    : CommitState.CatchesUp ⟨(pc.advance state.words spurious).1,
        state.committers.set who (pc.advance state.words spurious).2⟩ := by
  have access := held.inv.advance found spurious
  have next := held.inv.access found access
  have counted : pc.holds = true → 0 < state.words.inflight := by
    intro holds
    rw [held.inv.counted]
    exact countP_pos_iff.mpr ⟨pc, mem_of_getElem? found, holds⟩
  -- An access outside the bracket draws nothing, so the earlier promise carries over.
  have outside (empty : state.words.inflight = 0)
      (seq : (pc.advance state.words spurious).1.commitSeq = state.words.commitSeq)
      : (pc.advance state.words spurious).1.safe
          = (pc.advance state.words spurious).1.commitSeq
        ∨ ∃ (other : Nat) (moved : CommitPc),
            (state.committers.set who (pc.advance state.words spurious).2)[other]? = some moved
            ∧ moved.Raises (pc.advance state.words spurious).1.commitSeq := by
    have upper := next.safeDrawn
    have grows := access.safe
    rw [seq] at upper ⊢
    simp only at upper
    rcases held.empty empty with equal | ⟨other, raiser, present, raises⟩
    · exact Or.inl (by omega)
    · by_cases same : other = who
      · rw [same, found] at present
        cases present
        have moved := advance_raises raises
          (fun safe was => held.expected who _ safe (was ▸ found)) spurious
        rcases moved.2 with still | raised
        · exact Or.inr ⟨who, _, getElem?_set_who found, still⟩
        · exact Or.inl (by omega)
      · exact Or.inr ⟨other, raiser, getElem?_set_other same present, raises⟩
  refine ⟨next, ?_, ?_⟩
  · intro other drawn safe present
    rcases getElem?_set_cases present with ⟨_, moved⟩ | ⟨_, before⟩
    · exact Nat.le_of_eq (advance_expected moved.symm).symm
    · exact Nat.le_trans (held.expected other drawn safe before) access.safe
  · intro empty
    cases pc with
    | reserve tickets => simp [advance] at empty
    | draw tickets | store first last | load =>
      have positive := counted rfl
      simp only [advance] at empty
      omega
    | release drawn =>
      have positive := counted rfl
      have last : state.words.inflight = 1 := by
        simp only [advance] at empty
        split at empty <;> simp only at empty <;> omega
      have newest : drawn = state.words.commitSeq := by
        simpa [FreshRelease, found, last] using fresh
      refine Or.inr ⟨who, _, getElem?_set_who found, ?_⟩
      simp [advance, last, newest]
    | readSafe drawn => exact outside empty rfl
    | raise drawn safe =>
      refine outside ?_ ?_
      · simp only [advance] at empty
        split at empty <;> try split at empty
        all_goals exact empty
      · simp only [advance]
        split <;> try split
        all_goals rfl
    | done => exact outside empty rfl

/-- Starting a committer leaves every promise about the watermark in place. -/
theorem CommitState.CatchesUp.start (held : state.CatchesUp) (positive : 0 < tickets)
    : CommitState.CatchesUp
        { state with committers := state.committers ++ [.reserve tickets] } := by
  refine ⟨held.inv.start positive, ?_, ?_⟩
  · intro who drawn safe found
    rcases getElem?_append_reserve found with before | new
    · exact held.expected who drawn safe before
    · simp at new
  · intro empty
    refine (held.empty empty).imp_right ?_
    rintro ⟨who, pc, found, raises⟩
    obtain ⟨inside, _⟩ := List.getElem?_eq_some_iff.mp found
    exact ⟨who, pc, by simpa [getElem?_append_left inside] using found, raises⟩

theorem CommitState.init_catchesUp : init.CatchesUp :=
  ⟨init_inv, by simp [init], fun _ => Or.inl rfl⟩

/-- In every run whose bracket-emptying releases all carry the newest sequence, a state in
which every started committer has returned shows all drawn tickets to the next snapshot.
-/
theorem commit_safe_catches_up {events : List CommitEvent} {state : CommitState}
    (fresh : EachStep CommitState.step FreshRelease .init events)
    (ran : run CommitState.step .init events = some state) (quiet : state.Quiet)
    : state.atomicSnapshot = state.words.commitSeq := by
  have held : state.CatchesUp := by
    refine run_invariant_of_eachStep ?_ init_catchesUp fresh ran
    intro before event next kept allowed stepped
    rcases step_cases stepped with
      ⟨tickets, positive, _, rfl⟩ | ⟨who, spurious, pc, rfl, found, rfl⟩
    · exact kept.start positive
    · exact kept.advance found allowed
  have none_held : state.committers.countP CommitPc.holds = 0 := by
    refine countP_eq_zero.mpr (fun pc member => ?_)
    simp [quiet pc member]
  rcases held.empty (held.inv.counted.trans none_held) with equal | ⟨who, pc, found, raises⟩
  · exact equal
  · simp [quiet pc (mem_of_getElem? found)] at raises

/-- A single committer run to its return, meeting the condition at its only release. -/
theorem commit_safe_catches_up_overlapping
    : EachStep CommitState.step FreshRelease .init overlappingCommits
      ∧ run CommitState.step .init overlappingCommits = some overlapped
      ∧ overlapped.Quiet
      ∧ overlapped.atomicSnapshot = overlapped.words.commitSeq :=
  have fresh : EachStep step FreshRelease .init overlappingCommits := by decide
  have ran : run step .init overlappingCommits = some overlapped := by decide
  ⟨fresh, ran, by decide, commit_safe_catches_up fresh ran (by decide)⟩

/-- The first committer loads the sequence, a second one draws, stores and leaves, and the
first then leaves last: both have returned and the second ticket is not covered.
-/
theorem commit_safe_left_behind
    : ∃ state,
        run CommitState.step .init
          [.start 1, .start 1, .advance 0 false, .advance 0 false, .advance 0 false,
            .advance 0 false, .advance 1 false, .advance 1 false, .advance 1 false,
            .advance 1 false, .advance 1 false, .advance 0 false, .advance 0 false,
            .advance 0 false] = some state
        ∧ state.Quiet
        ∧ state.words.commitSeq = 2
        ∧ state.atomicSnapshot ≠ state.words.commitSeq :=
  ⟨⟨⟨0, 2, 1, 1, [2, 1]⟩, [.done, .done]⟩, by decide, by decide, rfl, by decide⟩

end Thredis.Core
