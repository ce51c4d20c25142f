import Thredis.Net.Resp

/-! The frames the request parser accepts, and how its answers behave as bytes arrive. -/

namespace Thredis.Net
open List

def decimal : Bytes → Nat → Nat
  | [], v => v
  | c :: digits, v => decimal digits (v * 10 + digitValue c)

/-- More digits spell no smaller number. -/
theorem le_decimal (digits : Bytes) (v : Nat) : v ≤ decimal digits v := by
  induction digits generalizing v with
  | nil => exact Nat.le_refl v
  | cons c digits ih =>
    have more := ih (v * 10 + digitValue c)
    rw [decimal]
    omega

def crlf : Bytes := [kCr, kLf]

theorem isDigit_value {c : UInt8} (digit : isDigit c = true) : digitValue c ≤ 9 := by
  simp only [isDigit, Bool.and_eq_true, decide_eq_true_eq] at digit
  have upper := UInt8.le_iff_toNat_le.mp digit.2
  have nine : (57 : UInt8).toNat = 57 := rfl
  rw [digitValue]
  omega

variable {maxv v count p pos maxBulk start : Nat}

/-- A length within the limit takes another digit without wrapping. -/
theorem digit_fits (fits : maxv * 10 + 9 < 2 ^ 64) (within : v ≤ maxv) {c : UInt8}
    (digit : isDigit c = true)
    : (v * 10 + digitValue c) % 2 ^ 64 = v * 10 + digitValue c := by
  have small := isDigit_value digit
  exact Nat.mod_eq_of_lt (by omega)

variable {rest behind buf : Bytes}

/-- A length field that is read is digits within the limit and a CRLF. -/
theorem parseLenLoop_sound (fits : maxv * 10 + 9 < 2 ^ 64)
    {i w : Nat} {tail : Bytes} (within : v ≤ maxv)
    (read : parseLenLoop maxv rest i v count = .ok w p tail)
    : ∃ digits : Bytes, rest = digits ++ crlf ++ tail ∧ (∀ c ∈ digits, isDigit c = true)
      ∧ w = decimal digits v ∧ w ≤ maxv ∧ p = i + digits.length + 2
      ∧ count + digits.length ≠ 0 := by
  fun_induction parseLenLoop maxv rest i v count with
  | case4 i v count next rest ended =>
    simp only [not_or, not_not] at ended
    cases read
    refine ⟨[], ?_, nofun, rfl, within, rfl, by exact ended.2⟩
    rw [ended.1]
    rfl
  | case7 c rest i v count isCr digit next small ih =>
    have isDigit : isDigit c = true := by simpa using digit
    have exactly : next = v * 10 + digitValue c := digit_fits fits within isDigit
    obtain ⟨digits, split, all, value, bound, position, -⟩ := ih (by omega) read
    refine ⟨c :: digits, by simp [split], ?_, by rw [value, exactly]; rfl, bound, ?_, by simp⟩
    · exact fun d member => (mem_cons.mp member).elim (fun same => same ▸ isDigit) (all d)
    · rw [length_cons]
      omega
  | _ => cases read

/-- Digits within the limit and a CRLF are read as a length field, whatever follows. -/
theorem parseLenLoop_complete (fits : maxv * 10 + 9 < 2 ^ 64) {digits : Bytes}
    (all : ∀ c ∈ digits, isDigit c = true) (bound : decimal digits v ≤ maxv)
    (some : count + digits.length ≠ 0) (i : Nat) (tail : Bytes)
    : parseLenLoop maxv (digits ++ crlf ++ tail) i v count
      = .ok (decimal digits v) (i + digits.length + 2) tail := by
  induction digits generalizing v count i with
  | nil =>
    have counted : count ≠ 0 := by exact some
    simp [parseLenLoop, crlf, counted, decimal]
  | cons c digits ih =>
    have digit := all c mem_cons_self
    have notCr : c ≠ kCr := by
      rintro rfl
      cases digit
    have small := (le_decimal digits _).trans bound
    simp only [cons_append, parseLenLoop, if_neg notCr, digit, Bool.not_true,
      Bool.false_eq_true, if_false]
    rw [digit_fits fits (by omega) digit, if_neg (by omega),
      ih (fun d member => all d (mem_cons_of_mem _ member)) bound (by omega)]
    simp only [length_cons]
    congr 1
    omega

def LenResult.extend (more : Bytes) : LenResult → LenResult
  | .ok v p rest => .ok v p (rest ++ more)
  | .incomplete => .incomplete
  | .error => .error

/-- More bytes do not change a length field that was read or rejected. -/
theorem parseLenLoop_append (maxv : Nat) (rest more : Bytes) (i v count : Nat)
    (decided : parseLenLoop maxv rest i v count ≠ .incomplete)
    : parseLenLoop maxv (rest ++ more) i v count
      = (parseLenLoop maxv rest i v count).extend more := by
  fun_induction parseLenLoop maxv rest i v count with
  | case1 | case2 => exact absurd rfl decided
  | case3 i v count next rest bad => simp [parseLenLoop, bad, LenResult.extend]
  | case4 i v count next rest ended => simp [parseLenLoop, ended, LenResult.extend]
  | case5 c rest i v count isCr digit => simp [parseLenLoop, isCr, digit, LenResult.extend]
  | case6 c rest i v count isCr digit next big =>
    rw [cons_append, parseLenLoop.eq_def]
    simp only [isCr, digit, if_false]
    exact if_pos big
  | case7 c rest i v count isCr digit next small ih =>
    rw [← ih decided, cons_append, parseLenLoop.eq_def]
    simp only [isCr, digit, if_false]
    exact if_neg small

theorem parseLenCrlf_append (more : Bytes) (decided : parseLenCrlf rest pos maxv ≠ .incomplete)
    : parseLenCrlf (rest ++ more) pos maxv = (parseLenCrlf rest pos maxv).extend more :=
  parseLenLoop_append maxv rest more pos 0 0 decided

-- Frames

def Numeral (digits : Bytes) (v : Nat) : Prop :=
  digits ≠ [] ∧ (∀ c ∈ digits, isDigit c = true) ∧ v = decimal digits 0

/-- Groups `$<len>CRLF<len bytes><tail>` from position `start` on, with the spans of their
payloads. `Tail` says which two bytes may end a group.
-/
inductive Groups (maxBulk : Nat) (Tail : Bytes → Prop) : Nat → Bytes → List Span → Prop where
  | nil (start : Nat) : Groups maxBulk Tail start [] []
  | cons {start : Nat} {digits payload tail rest : Bytes} {spans : List Span}
      (numeral : Numeral digits payload.length) (within : payload.length ≤ maxBulk)
      (two : tail.length = 2) (ends : Tail tail)
      (more : Groups maxBulk Tail (start + 1 + digits.length + 2 + payload.length + 2) rest spans)
      : Groups maxBulk Tail start (kDollar :: (digits ++ crlf ++ (payload ++ tail ++ rest)))
          ({ off := start + 1 + digits.length + 2, len := payload.length } :: spans)

/-- A multibulk frame `*<argc>CRLF` and its groups at position `start`. -/
def Frame (limits : Limits) (Tail : Bytes → Prop) (start : Nat) (bytes : Bytes)
    (spans : List Span) : Prop :=
  ∃ digits groups, bytes = kStar :: (digits ++ crlf ++ groups)
    ∧ Numeral digits spans.length ∧ spans ≠ [] ∧ spans.length ≤ limits.maxMultibulk
    ∧ Groups limits.maxBulk Tail (start + 1 + digits.length + 2) groups spans

def WellFormedFrame (limits : Limits) (start : Nat) (bytes : Bytes) (spans : List Span) : Prop :=
  Frame limits (fun tail => tail = crlf) start bytes spans

/-- A frame with any two bytes behind each payload. -/
def CountedFrame (limits : Limits) (start : Nat) (bytes : Bytes) (spans : List Span) : Prop :=
  Frame limits (fun _ => True) start bytes spans

theorem parseLenCrlf_sound (fits : maxv * 10 + 9 < 2 ^ 64) {tail : Bytes}
    (read : parseLenCrlf rest pos maxv = .ok v p tail)
    : ∃ digits, rest = digits ++ crlf ++ tail ∧ Numeral digits v ∧ v ≤ maxv
      ∧ p = pos + digits.length + 2 := by
  obtain ⟨digits, split, all, value, bound, position, some⟩ :=
    parseLenLoop_sound fits (Nat.zero_le maxv) read
  refine ⟨digits, split, ⟨?_, all, value⟩, bound, position⟩
  rintro rfl
  exact some rfl

theorem parseLenCrlf_complete (fits : maxv * 10 + 9 < 2 ^ 64) {digits : Bytes}
    (numeral : Numeral digits v) (bound : v ≤ maxv) (pos : Nat) (tail : Bytes)
    : parseLenCrlf (digits ++ crlf ++ tail) pos maxv = .ok v (pos + digits.length + 2) tail := by
  obtain ⟨some, all, rfl⟩ := numeral
  refine parseLenLoop_complete fits all bound ?_ pos tail
  have long := length_pos_of_ne_nil some
  omega

/-- Bytes behind a length field, cut into payload, two more bytes and the rest. -/
theorem split_payload {len : Nat} (long : len + 2 ≤ behind.length)
    (after : behind.drop (len + 2) = rest)
    : ∃ payload two, behind = payload ++ two ++ rest ∧ len = payload.length ∧ two.length = 2 := by
  refine ⟨behind.take len, (behind.drop len).take 2, ?_, by simp; omega, by simp; omega⟩
  rw [← after, ← drop_drop, append_assoc, take_append_drop, take_append_drop]

variable {op : Op}

/-- The argument loop succeeds on groups only, and stores their spans. -/
theorem parseArgs_sound (fits : maxBulk * 10 + 9 < 2 ^ 64)
    (ok : (parseArgs maxBulk start count rest p op).result = .ok)
    : ∃ groups tail spans, rest = groups ++ tail ∧ spans.length = count
      ∧ Groups maxBulk (fun _ => True) p groups spans
      ∧ (parseArgs maxBulk start count rest p op).pos = p + groups.length
      ∧ (parseArgs maxBulk start count rest p op).op.args = op.args ++ spans := by
  fun_induction parseArgs maxBulk start count rest p op with
  | case1 rest p op => exact ⟨[], rest, [], rfl, rfl, .nil p, rfl, (append_nil _).symm⟩
  | case8 count c rest p op dollar blen q behind read long next pushed ih =>
    obtain ⟨digits, split, numeral, bound, position⟩ := parseLenCrlf_sound fits read
    obtain ⟨groups, tail, spans, after, counted, wellFormed, ends, args⟩ := ih ok
    subst position
    obtain ⟨payload, two, rfl, sized, pair⟩ := split_payload (by omega) after
    cases sized
    refine ⟨kDollar :: (digits ++ crlf ++ (payload ++ two ++ groups)), tail,
      { off := p + 1 + digits.length + 2, len := payload.length } :: spans,
      by simp [not_not.mp dollar, split], by simp [counted],
      .cons numeral bound pair trivial wellFormed, ?_, ?_⟩
    · rw [ends]
      simp [crlf]
      omega
    · rw [args, Op.pushArg_args pushed]
      simp
  | _ => cases ok

variable {Tail : Bytes → Prop} {spans : List Span}

/-- The argument loop succeeds on groups, whatever follows, if the vector can grow. -/
theorem parseArgs_complete (fits : maxBulk * 10 + 9 < 2 ^ 64) {groups : Bytes}
    (wellFormed : Groups maxBulk Tail p groups spans) (granted : op.granted = []) (tail : Bytes)
    : (parseArgs maxBulk start spans.length (groups ++ tail) p op).result = .ok
      ∧ (parseArgs maxBulk start spans.length (groups ++ tail) p op).op.args
          = op.args ++ spans := by
  induction wellFormed generalizing op with
  | nil p => exact ⟨rfl, (append_nil _).symm⟩
  | @cons p digits payload two rest spans numeral within pair ends more ih =>
    have read := parseLenCrlf_complete fits numeral within (p + 1) (payload ++ two ++ rest ++ tail)
    have behind : (payload ++ two ++ rest ++ tail).drop (payload.length + 2) = rest ++ tail := by
      rw [← pair, ← length_append, append_assoc, drop_left]
    have long : ¬ (payload ++ two ++ rest ++ tail).length < payload.length + 2 := by
      simp only [length_append]
      omega
    obtain ⟨next, pushed, still⟩ := Op.pushArg_granted granted
      { off := p + 1 + digits.length + 2, len := payload.length }
    have bytes : kDollar :: (digits ++ crlf ++ (payload ++ two ++ rest)) ++ tail
        = kDollar :: (digits ++ crlf ++ (payload ++ two ++ rest ++ tail)) := by simp
    have step : parseArgs maxBulk start (spans.length + 1)
        (kDollar :: (digits ++ crlf ++ (payload ++ two ++ rest)) ++ tail) p op
        = parseArgs maxBulk start spans.length (rest ++ tail)
            (p + 1 + digits.length + 2 + payload.length + 2) next := by
      rw [bytes, parseArgs, if_neg (fun no => no rfl), read]
      dsimp only
      rw [if_neg long, pushed, behind]
    rw [length_cons, step, (ih still).2, Op.pushArg_args pushed]
    exact ⟨(ih still).1, by simp⟩

/-- More bytes do not change an answer of the argument loop. -/
theorem parseArgs_append (maxBulk start count : Nat) (rest more : Bytes) (p : Nat) (op : Op)
    (decided : (parseArgs maxBulk start count rest p op).result ≠ .incomplete)
    : parseArgs maxBulk start count (rest ++ more) p op
      = parseArgs maxBulk start count rest p op := by
  fun_induction parseArgs maxBulk start count rest p op with
  | case1 => rfl
  | case2 | case4 | case6 => exact absurd rfl decided
  | case3 count c rest p op dollar => simp [parseArgs, dollar]
  | case5 count c rest p op dollar read =>
    have readMore := parseLenCrlf_append more (by rw [read]; nofun)
    simp [parseArgs, dollar, readMore, read, LenResult.extend]
  | case7 count c rest p op dollar blen q behind read long pushed =>
    have readMore := parseLenCrlf_append more (by rw [read]; nofun)
    have longer : ¬ (behind ++ more).length < blen + 2 := by rw [length_append]; omega
    simp only [parseArgs, cons_append, dollar, readMore, read, LenResult.extend, longer, pushed,
      if_false]
  | case8 count c rest p op dollar blen q behind read long next pushed ih =>
    have readMore := parseLenCrlf_append more (by rw [read]; nofun)
    have longer : ¬ (behind ++ more).length < blen + 2 := by rw [length_append]; omega
    rw [← ih decided, ← drop_append_of_le_length (by omega)]
    simp only [parseArgs, cons_append, dollar, readMore, read, LenResult.extend, longer, pushed,
      if_false]

/-- More bytes do not move the first CRLF. -/
theorem findCrlf_append {eol : Nat} (found : findCrlf rest = some eol)
    (more : Bytes) : findCrlf (rest ++ more) = some eol ∧ eol ≤ rest.length := by
  induction rest using findCrlf.induct generalizing eol with
  | case1 | case2 c => cases found
  | case3 c next rest ends =>
    rw [findCrlf, if_pos ends] at found
    cases found
    refine ⟨?_, Nat.zero_le _⟩
    rw [cons_append, cons_append, findCrlf, if_pos ends]
  | case4 c next rest ends ih =>
    rw [findCrlf, if_neg ends] at found
    obtain ⟨before, later, rfl⟩ := Option.map_eq_some_iff.mp found
    obtain ⟨same, short⟩ := ih later
    refine ⟨?_, by simpa using short⟩
    rw [cons_append, cons_append, findCrlf, if_neg ends, ← cons_append, same]
    rfl

/-- More bytes do not change an answer about an inline command. -/
theorem parseInline_append (rest more : Bytes) (pos : Nat) (op : Op)
    (decided : (parseInline rest pos op).result ≠ .incomplete)
    : parseInline (rest ++ more) pos op = parseInline rest pos op := by
  rw [parseInline] at decided
  rw [parseInline, parseInline]
  cases found : findCrlf rest with
  | none =>
    rw [found] at decided
    exact absurd rfl decided
  | some eol =>
    obtain ⟨same, short⟩ := findCrlf_append found more
    rw [same]
    dsimp only
    rw [take_append_of_le_length short]

/-- More bytes do not change an answer about a multibulk command. -/
theorem parseMultibulk_append (limits : Limits) (rest more : Bytes) (pos : Nat) (op : Op)
    (decided : (parseMultibulk limits rest pos op).result ≠ .incomplete)
    : parseMultibulk limits (rest ++ more) pos op = parseMultibulk limits rest pos op := by
  rw [parseMultibulk] at decided
  rw [parseMultibulk, parseMultibulk]
  cases read : parseLenCrlf rest (pos + 1) limits.maxMultibulk with
  | incomplete =>
    rw [read] at decided
    exact absurd rfl decided
  | error =>
    rw [parseLenCrlf_append more (by rw [read]; nofun), read]
    rfl
  | ok nargs p behind =>
    rw [read] at decided
    rw [parseLenCrlf_append more (by rw [read]; nofun), read]
    dsimp only [LenResult.extend] at decided ⊢
    split
    · rfl
    · rename_i counted
      rw [if_neg counted] at decided
      exact parseArgs_append _ _ _ _ _ _ _ decided

/-- A complete command, an empty line and an error stand whatever arrives later. -/
theorem respParseT_append (limits : Limits) (buf more : Bytes) (pos : Nat) (op : Op)
    (decided : (respParseT limits buf pos op).result ≠ .incomplete)
    : respParseT limits (buf ++ more) pos op = respParseT limits buf pos op := by
  rw [respParseT] at decided
  rw [respParseT, respParseT]
  cases tail : buf.drop pos with
  | nil =>
    rw [tail] at decided
    exact absurd rfl decided
  | cons c rest =>
    have inside : pos ≤ buf.length := by
      by_contra outside
      rw [drop_eq_nil_of_le (by omega)] at tail
      cases tail
    rw [tail] at decided
    rw [drop_append_of_le_length inside, tail]
    dsimp only [cons_append] at decided ⊢
    split
    · rename_i inline
      rw [if_pos inline] at decided
      exact parseInline_append (c :: rest) more pos op decided
    · rename_i star
      rw [if_neg star] at decided
      exact parseMultibulk_append limits rest more pos op decided

-- Whole commands

theorem parseArgs_pos (failed : (parseArgs maxBulk start count rest p op).result ≠ .ok)
    : (parseArgs maxBulk start count rest p op).pos = start := by
  fun_induction parseArgs maxBulk start count rest p op with
  | case1 => exact absurd rfl failed
  | case8 count c rest p op dollar blen q behind read long next pushed ih => exact ih failed
  | _ => rfl

variable {limits : Limits}

/-- A call that wants more bytes leaves the position alone. -/
theorem respParseT_pos (incomplete : (respParseT limits buf pos op).result = .incomplete)
    : (respParseT limits buf pos op).pos = pos := by
  revert incomplete
  fun_cases respParseT limits buf pos op with
  | case1 => exact fun _ => rfl
  | case2 c rest tail inline =>
    fun_cases parseInline (c :: rest) pos op with
    | case3 => split <;> nofun
    | _ => exact fun _ => rfl
  | case3 c rest tail star =>
    fun_cases parseMultibulk limits rest pos op with
    | case4 => exact fun incomplete => parseArgs_pos (by rw [incomplete]; nofun)
    | _ => exact fun _ => rfl

/-- A multibulk command that is accepted is a frame up to the bytes behind its payloads. -/
theorem respParseT_sound (star : buf.drop pos = kStar :: rest)
    (ok : (respParseT limits buf pos op.reset).result = .ok)
    : ∃ frame behind, buf.drop pos = frame ++ behind
      ∧ (respParseT limits buf pos op.reset).pos = pos + frame.length
      ∧ CountedFrame limits pos frame (respParseT limits buf pos op.reset).op.args := by
  rw [respParseT, star] at ok ⊢
  dsimp only at ok ⊢
  rw [if_neg (fun no => no rfl), parseMultibulk] at ok ⊢
  cases read : parseLenCrlf rest (pos + 1) limits.maxMultibulk with
  | incomplete | error => rw [read] at ok; cases ok
  | ok nargs p behind =>
    rw [read] at ok
    dsimp only at ok ⊢
    split at ok
    · cases ok
    · rename_i counted
      rw [if_neg counted]
      obtain ⟨digits, split, numeral, bound, position⟩ :=
        parseLenCrlf_sound limits.multibulkFits read
      obtain ⟨groups, tail, spans, after, count, wellFormed, ends, args⟩ :=
        parseArgs_sound limits.bulkFits ok
      subst position count after
      refine ⟨kStar :: (digits ++ crlf ++ groups), tail, by simp [split], ?_, ?_⟩
      · simp [crlf]
        omega
      · rw [args]
        refine ⟨digits, groups, rfl, numeral, ?_, bound, wellFormed⟩
        rintro none
        exact counted (by exact congrArg length none)

/-- A frame is accepted, whatever stands behind its payloads, if the vector can grow. -/
theorem respParseT_complete {frame : Bytes} (granted : op.granted = [])
    (split : buf.drop pos = frame ++ behind) (counted : CountedFrame limits pos frame spans)
    : (respParseT limits buf pos op.reset).result = .ok
      ∧ (respParseT limits buf pos op.reset).op.args = spans := by
  obtain ⟨digits, groups, rfl, numeral, some, bound, wellFormed⟩ := counted
  have read := parseLenCrlf_complete limits.multibulkFits numeral bound (pos + 1) (groups ++ behind)
  have bytes : kStar :: (digits ++ crlf ++ groups) ++ behind
      = kStar :: (digits ++ crlf ++ (groups ++ behind)) := by simp
  have count : spans.length ≠ 0 := fun none => some (length_eq_zero_iff.mp none)
  have reads : respParseT limits buf pos op.reset
      = parseArgs limits.maxBulk pos spans.length (groups ++ behind)
          (pos + 1 + digits.length + 2) op.reset := by
    rw [respParseT, split, bytes]
    dsimp only
    rw [if_neg (fun no => no rfl), parseMultibulk, read]
    dsimp only
    rw [if_neg count]
  have fresh : op.reset.granted = [] := granted
  rw [reads]
  exact parseArgs_complete limits.bulkFits wellFormed fresh behind

/-- The tails of groups stand in the buffer at the ends of their spans, so what they may be
can be told from there.
-/
theorem Groups.tails {groups : Bytes} (wellFormed : Groups maxBulk Tail p groups spans)
    (here : buf.drop p = groups ++ behind)
    : (∀ span ∈ spans, Tail ((buf.drop (span.off + span.len)).take 2))
      ∧ ∀ Other : Bytes → Prop, (∀ span ∈ spans, Other ((buf.drop (span.off + span.len)).take 2))
          → Groups maxBulk Other p groups spans := by
  induction wellFormed with
  | nil p => exact ⟨nofun, fun _ _ => .nil p⟩
  | @cons p digits payload two rest spans numeral within pair ends more ih =>
    have cut : kDollar :: (digits ++ crlf ++ (payload ++ two ++ rest)) ++ behind
        = kDollar :: (digits ++ crlf) ++ (payload ++ (two ++ (rest ++ behind))) := by simp
    have skip : p + 1 + digits.length + 2 = p + (kDollar :: (digits ++ crlf)).length := by
      simp [crlf]
      omega
    have tail : buf.drop (p + 1 + digits.length + 2 + payload.length)
        = two ++ (rest ++ behind) := by
      rw [← drop_drop, skip, ← drop_drop, here, cut, drop_left, drop_left]
    have next : buf.drop (p + 1 + digits.length + 2 + payload.length + 2) = rest ++ behind := by
      rw [← drop_drop, tail]
      exact drop_left' pair
    have ended : (buf.drop (p + 1 + digits.length + 2 + payload.length)).take 2 = two := by
      rw [tail]
      exact take_left' pair
    obtain ⟨each, rebuild⟩ := ih next
    simp only [forall_mem_cons, ended]
    exact ⟨⟨ends, each⟩, fun Other tails =>
      .cons numeral within pair tails.1 (rebuild Other tails.2)⟩

theorem Frame.tails {frame : Bytes} (framed : Frame limits Tail pos frame spans)
    (here : buf.drop pos = frame ++ behind)
    : (∀ span ∈ spans, Tail ((buf.drop (span.off + span.len)).take 2))
      ∧ ∀ Other : Bytes → Prop, (∀ span ∈ spans, Other ((buf.drop (span.off + span.len)).take 2))
          → Frame limits Other pos frame spans := by
  obtain ⟨digits, groups, rfl, numeral, some, bound, wellFormed⟩ := framed
  have skip : pos + 1 + digits.length + 2 = pos + (kStar :: (digits ++ crlf)).length := by
    simp [crlf]
    omega
  have cut : kStar :: (digits ++ crlf ++ groups) ++ behind
      = kStar :: (digits ++ crlf) ++ (groups ++ behind) := by simp
  have behindHeader : buf.drop (pos + 1 + digits.length + 2) = groups ++ behind := by
    rw [skip, ← drop_drop, here, cut, drop_left]
  obtain ⟨each, rebuild⟩ := wellFormed.tails behindHeader
  exact ⟨each, fun Other tails => ⟨digits, groups, rfl, numeral, some, bound, rebuild Other tails⟩⟩

end Thredis.Net
