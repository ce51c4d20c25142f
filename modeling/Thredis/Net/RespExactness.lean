import Thredis.Net.RespFraming

/-! Exactness of the request parser: what it accepts are frames, and its answers do not depend
on how the bytes were split over reads.
-/

namespace Thredis.Net

open Parsed

/-- What a caller can tell about a call: the op apart from the room of its vector. -/
def Parsed.answer (parsed : Parsed) : ParseResult × Nat × List Span × Option String :=
  (parsed.result, parsed.pos, parsed.op.args, parsed.err)

variable {op other : Op}

section

variable (args : op.args = other.args) (granted : op.granted = []) (granted' : other.granted = [])

include args granted granted'

theorem Op.pushArg_congr (s : Span)
    : ∃ after after', op.pushArg s = some after ∧ other.pushArg s = some after'
      ∧ after.args = after'.args ∧ after.granted = [] ∧ after'.granted = [] := by
  obtain ⟨after, pushed, still⟩ := pushArg_granted granted s
  obtain ⟨after', pushed', still'⟩ := pushArg_granted granted' s
  refine ⟨after, after', pushed, pushed', ?_, still, still'⟩
  rw [pushArg_args pushed, pushArg_args pushed', args]

/-- Answers do not depend on the room an op has left from earlier commands. -/
theorem parseArgs_congr (maxBulk start count : Nat) (rest : Bytes) (p : Nat)
    : (parseArgs maxBulk start count rest p op).answer
      = (parseArgs maxBulk start count rest p other).answer := by
  induction count generalizing rest p op other with
  | zero => simp [parseArgs, answer, args]
  | succ count ih =>
    cases rest with
    | nil => simp [parseArgs, answer, args]
    | cons c rest =>
      rw [parseArgs, parseArgs]
      split
      · simp [answer, args]
      · cases parseLenCrlf rest (p + 1) maxBulk with
        | incomplete | error => simp [answer, args]
        | ok blen q behind =>
          dsimp only
          split
          · simp [answer, args]
          · obtain ⟨after, after', pushed, pushed', same, still, still'⟩ :=
              Op.pushArg_congr args granted granted' { off := q, len := blen }
            rw [pushed, pushed']
            exact ih same still still' _ _

theorem pushInline_congr (line : Bytes) (i : Nat)
    : (pushInline line i op).1 = (pushInline line i other).1
      ∧ (pushInline line i op).2.args = (pushInline line i other).2.args := by
  induction size : line.length using Nat.strong_induction_on generalizing line i op other with
  | h size ih =>
    rw [pushInline, pushInline]
    split
    · exact ⟨rfl, args⟩
    · rename_i more
      have shorter := dropWhile_word_length more
      rw [size] at shorter
      dsimp only
      split
      · exact ih _ shorter args granted granted' _ _ rfl
      · obtain ⟨after, after', pushed, pushed', same, still, still'⟩ :=
          Op.pushArg_congr args granted granted'
            { off := i + (line.takeWhile isBlank).length
              len := ((line.dropWhile isBlank).takeWhile (fun c => !isBlank c)).length }
        rw [pushed, pushed']
        exact ih _ shorter same still still' _ _ rfl

theorem respParseT_congr (limits : Limits) (buf : Bytes) (pos : Nat)
    : (respParseT limits buf pos op).answer = (respParseT limits buf pos other).answer := by
  rw [respParseT, respParseT]
  split
  · simp [answer, args]
  · rename_i c rest tail
    split
    · rw [parseInline, parseInline]
      cases findCrlf (c :: rest) with
      | none => simp [answer, args]
      | some eol =>
        obtain ⟨stored, same⟩ := pushInline_congr args granted granted' ((c :: rest).take eol) pos
        dsimp only
        generalize pushInline ((c :: rest).take eol) pos op = pushed at stored same ⊢
        generalize pushInline ((c :: rest).take eol) pos other = pushed' at stored same ⊢
        obtain ⟨first, op⟩ := pushed
        obtain ⟨second, other⟩ := pushed'
        dsimp only at stored same
        subst stored
        have count : op.argc = other.argc := congrArg List.length same
        cases first <;> simp [answer, count, same]
    · rw [parseMultibulk, parseMultibulk]
      cases parseLenCrlf rest (pos + 1) limits.maxMultibulk with
      | incomplete | error => simp [answer, args]
      | ok nargs p behind =>
        dsimp only
        split
        · simp [answer, args]
        · exact parseArgs_congr args granted granted' _ _ _ _ _

end

/-- The parser is exact and incremental at a position of a buffer, for any op it is given: an
accepted multibulk command is a frame and its arguments are that frame's; a call that wants
more bytes leaves the position where it was, and the command read again from there, with the
op the caller resets, is answered as one read for the first time; any other answer stands
whatever arrives later.
-/
structure ParsesExactly (limits : Limits) (buf : Bytes) (pos : Nat) : Prop where
  frame : ∀ (op : Op) rest, buf.drop pos = kStar :: rest
    → (respParseT limits buf pos op.reset).result = .ok
    → ∃ bytes behind, buf.drop pos = bytes ++ behind
      ∧ (respParseT limits buf pos op.reset).pos = pos + bytes.length
      ∧ WellFormedFrame limits pos bytes (respParseT limits buf pos op.reset).op.args
  resumes : ∀ op : Op, (respParseT limits buf pos op.reset).result = .incomplete
    → (respParseT limits buf pos op.reset).pos = pos
      ∧ ∀ (more : Bytes) (fresh : Op), fresh.granted = []
        → (respParseT limits buf pos op.reset).op.granted = []
        → (respParseT limits (buf ++ more) (respParseT limits buf pos op.reset).pos
              (respParseT limits buf pos op.reset).op.reset).answer
          = (respParseT limits (buf ++ more) pos fresh.reset).answer
  stands : ∀ op : Op, (respParseT limits buf pos op.reset).result ≠ .incomplete
    → ∀ more, respParseT limits (buf ++ more) pos op.reset = respParseT limits buf pos op.reset

/-- Every frame at the position, read by its length fields alone, has CRLF behind each of its
payloads.
-/
def PayloadsTerminated (limits : Limits) (buf : Bytes) (pos : Nat) : Prop :=
  ∀ bytes behind spans, buf.drop pos = bytes ++ behind → CountedFrame limits pos bytes spans
    → ∀ span ∈ spans, (buf.drop (span.off + span.len)).take 2 = crlf

/-- The parser is exact and incremental where the payloads are terminated, and only there. -/
theorem parses_exactly_iff (limits : Limits) (buf : Bytes) (pos : Nat)
    : ParsesExactly limits buf pos ↔ PayloadsTerminated limits buf pos := by
  constructor
  · intro exact bytes behind spans here counted
    obtain ⟨digits, groups, start, -⟩ := id counted
    have ready : ({ args := [], argvCap := 0, granted := [] } : Op).granted = [] := rfl
    obtain ⟨ok, args⟩ := respParseT_complete ready here counted
    obtain ⟨whole, after, split, -, wellFormed⟩ := exact.frame _ _ (by rw [here, start]; rfl) ok
    rw [args] at wellFormed
    exact (wellFormed.tails split).1
  · intro terminated
    refine ⟨fun op rest star ok => ?_, fun op incomplete => ?_, fun op decided more => ?_⟩
    · obtain ⟨bytes, behind, here, ends, counted⟩ := respParseT_sound star ok
      exact ⟨bytes, behind, here, ends,
        (counted.tails here).2 _ (terminated bytes behind _ here counted)⟩
    · have stays := respParseT_pos incomplete
      refine ⟨stays, fun more fresh granted granted' => ?_⟩
      rw [stays]
      apply respParseT_congr
      · rfl
      · exact granted'
      · exact granted
    · exact respParseT_append limits buf more pos op.reset decided

/-- A command whose payload is followed by two other bytes is accepted. -/
theorem unterminated_payload_accepted
    : let buf : Bytes := [42, 49, 13, 10, 36, 49, 13, 10, 97, 88, 89]
      respParse buf 0 { args := [], argvCap := 0, granted := [] }
          = { result := .ok, pos := 11
              op := { args := [{ off := 8, len := 1 }], argvCap := 0, granted := [] }, err := none }
        ∧ ∀ spans, ¬ WellFormedFrame .unlimited 0 buf spans := by
  intro buf
  refine ⟨by decide, fun spans wellFormed => ?_⟩
  have here : buf.drop 0 = buf ++ [] := rfl
  have tails := (wellFormed.tails here).1
  have ready : ({ args := [], argvCap := 0, granted := [] } : Op).granted = [] := rfl
  have counted := (wellFormed.tails here).2 (fun _ => True) (fun _ _ => trivial)
  obtain ⟨-, args⟩ := respParseT_complete ready here counted
  have only : spans = [{ off := 8, len := 1 }] := args.symm.trans (by decide)
  rw [only] at tails
  exact absurd (tails _ List.mem_cons_self) (by decide)

end Thredis.Net
