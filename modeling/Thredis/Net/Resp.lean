import Mathlib

/-! Request parsing: `parse_len_crlf`, `Op::push_arg` and `resp_parse_t`, over the bytes of a
connection's read buffer. Arguments are spans of that buffer.
-/

namespace Thredis.Net

abbrev Bytes := List UInt8

def kCr : UInt8 := 13
def kLf : UInt8 := 10
def kStar : UInt8 := 42
def kDollar : UInt8 := 36
def kSpace : UInt8 := 32
def kTab : UInt8 := 9

inductive ParseResult where
  | ok | incomplete | error | empty
  deriving DecidableEq, Repr

structure Span where
  off : Nat
  len : Nat
  deriving DecidableEq, Repr

def kInlineArgv : Nat := 8

/-- The argument vector of an op. `argvCap` is zero while there is no heap vector; it outlives
`reset`. `granted` holds the coming answers of `realloc`, all of them positive once it is
exhausted.
-/
structure Op where
  args : List Span
  argvCap : Nat
  granted : List Bool
  deriving DecidableEq, Repr

namespace Op

def argc (op : Op) : Nat := op.args.length

def reset (op : Op) : Op := { op with args := [] }

def growArgv : Nat → Nat → Nat → Nat
  | 0, ncap, _ => ncap
  | steps + 1, ncap, need => if ncap < need then growArgv steps (ncap * 2) need else ncap

/-- `push_arg`; `none` when the vector cannot grow. -/
def pushArg (op : Op) (s : Span) : Option Op :=
  if op.argvCap = 0 ∧ op.argc < kInlineArgv then some { op with args := op.args ++ [s] }
  else if op.argvCap < op.argc + 1 then
    if op.granted.headD true then
      some { args := op.args ++ [s]
             argvCap := growArgv 32 (if op.argvCap = 0 then kInlineArgv * 2 else op.argvCap * 2)
               (op.argc + 1)
             granted := op.granted.tail }
    else none
  else some { op with args := op.args ++ [s] }

theorem pushArg_args {op after : Op} {s : Span} (pushed : op.pushArg s = some after)
    : after.args = op.args ++ [s] := by
  rw [pushArg] at pushed
  split at pushed
  · cases pushed; rfl
  · split at pushed
    · split at pushed
      · cases pushed; rfl
      · cases pushed
    · cases pushed; rfl

/-- With no refusal to come, a push succeeds and there is still none to come. -/
theorem pushArg_granted {op : Op} (granted : op.granted = []) (s : Span)
    : ∃ after, op.pushArg s = some after ∧ after.granted = [] := by
  rw [pushArg, granted]
  split
  · exact ⟨_, rfl, rfl⟩
  · split
    · exact ⟨_, rfl, rfl⟩
    · exact ⟨_, rfl, rfl⟩

end Op

/-- How a length field ends: with its value, the position behind its terminator and the bytes
from there on, or for want of bytes, or badly.
-/
inductive LenResult where
  | ok (v : Nat) (pos : Nat) (rest : Bytes)
  | incomplete
  | error
  deriving DecidableEq, Repr

def isDigit (c : UInt8) : Bool := 48 ≤ c && c ≤ 57

def digitValue (c : UInt8) : Nat := c.toNat - 48

/-- The loop of `parse_len_crlf` at position `i`; `rest` is the buffer from there on. -/
def parseLenLoop (maxv : Nat) : Bytes → Nat → Nat → Nat → LenResult
  | [], _, _, _ => .incomplete
  | c :: rest, i, v, digits =>
    if c = kCr then
      match rest with
      | [] => .incomplete
      | next :: rest =>
        if next ≠ kLf ∨ digits = 0 then .error else .ok v (i + 2) rest
    else if !isDigit c then .error
    else
      let v := (v * 10 + digitValue c) % 2 ^ 64
      if maxv < v then .error else parseLenLoop maxv rest (i + 1) v (digits + 1)

def parseLenCrlf (rest : Bytes) (pos maxv : Nat) : LenResult := parseLenLoop maxv rest pos 0 0

/-- The limits of a parser variant. A length within them can take one more digit without
leaving 64 bits.
-/
structure Limits where
  maxMultibulk : Nat
  maxBulk : Nat
  multibulkFits : maxMultibulk * 10 + 9 < 2 ^ 64
  bulkFits : maxBulk * 10 + 9 < 2 ^ 64

/-- The limits `resp_parse` compiles in. -/
def Limits.unlimited : Limits where
  maxMultibulk := 1024 * 1024
  maxBulk := 512 * 1024 * 1024
  multibulkFits := by decide
  bulkFits := by decide

structure Parsed where
  result : ParseResult
  pos : Nat
  op : Op
  err : Option String
  deriving DecidableEq, Repr

/-- `find_crlf`: how many bytes stand before the first CRLF. -/
def findCrlf : Bytes → Option Nat
  | [] => none
  | [_] => none
  | c :: next :: rest =>
    if c = kCr ∧ next = kLf then some 0 else (findCrlf (next :: rest)).map (· + 1)

def isBlank (c : UInt8) : Bool := c == kSpace || c == kTab

/-- What the word loop leaves of a line is shorter than the line. -/
theorem dropWhile_word_length {line : Bytes} (more : line ≠ [])
    : ((line.dropWhile isBlank).dropWhile (fun c => !isBlank c)).length < line.length := by
  cases line with
  | nil => exact absurd rfl more
  | cons c line =>
    have blanks := (List.dropWhile_suffix isBlank (l := line)).length_le
    have words := fun l : Bytes => (List.dropWhile_suffix (fun c => !isBlank c) (l := l)).length_le
    by_cases blank : isBlank c = true
    · rw [List.dropWhile_cons_of_pos blank, List.length_cons]
      have word := words (line.dropWhile isBlank)
      omega
    · rw [List.dropWhile_cons_of_neg blank, List.dropWhile_cons_of_pos (by simpa using blank),
        List.length_cons]
      have word := words line
      omega

/-- The word loop of an inline command, on the bytes of the line from position `i` on; false
when an argument could not be stored.
-/
def pushInline (line : Bytes) (i : Nat) (op : Op) : Bool × Op :=
  if _more : line = [] then (true, op)
  else
    let b := i + (line.takeWhile isBlank).length
    let word := (line.dropWhile isBlank).takeWhile (fun c => !isBlank c)
    let rest := (line.dropWhile isBlank).dropWhile (fun c => !isBlank c)
    if word = [] then pushInline rest (b + word.length) op
    else
      match op.pushArg { off := b, len := word.length } with
      | none => (false, op)
      | some op => pushInline rest (b + word.length) op
termination_by line.length
decreasing_by
  all_goals exact dropWhile_word_length _more

/-- The inline branch of `resp_parse_t`, on the bytes from `pos` on. -/
def parseInline (rest : Bytes) (pos : Nat) (op : Op) : Parsed :=
  match findCrlf rest with
  | none => { result := .incomplete, pos := pos, op := op, err := none }
  | some eol =>
    match pushInline (rest.take eol) pos op with
    | (false, op) =>
      { result := .error, pos := pos, op := op
        err := some "ERR out of memory parsing inline command" }
    | (true, op) =>
      { result := if op.argc ≠ 0 then .ok else .empty, pos := pos + eol + 2, op := op
        err := none }

/-- The argument loop of `resp_parse_t` for a command that began at `start`: so many groups
are still to come, `rest` is the buffer from `p` on.
-/
def parseArgs (maxBulk start : Nat) : Nat → Bytes → Nat → Op → Parsed
  | 0, _, p, op => { result := .ok, pos := p, op := op, err := none }
  | _ + 1, [], _, op => { result := .incomplete, pos := start, op := op, err := none }
  | more + 1, c :: rest, p, op =>
    if c ≠ kDollar then
      { result := .error, pos := start, op := op, err := some "ERR expected '$'" }
    else
      match parseLenCrlf rest (p + 1) maxBulk with
      | .incomplete => { result := .incomplete, pos := start, op := op, err := none }
      | .error =>
        { result := .error, pos := start, op := op, err := some "ERR invalid bulk length" }
      | .ok blen p rest =>
        if rest.length < blen + 2 then
          { result := .incomplete, pos := start, op := op, err := none }
        else
          match op.pushArg { off := p, len := blen } with
          | none =>
            { result := .error, pos := start, op := op
              err := some "ERR out of memory parsing command" }
          | some op => parseArgs maxBulk start more (rest.drop (blen + 2)) (p + blen + 2) op

/-- The multibulk branch of `resp_parse_t`, on the bytes behind the star at `pos`. -/
def parseMultibulk (limits : Limits) (rest : Bytes) (pos : Nat) (op : Op) : Parsed :=
  match parseLenCrlf rest (pos + 1) limits.maxMultibulk with
  | .incomplete => { result := .incomplete, pos := pos, op := op, err := none }
  | .error =>
    { result := .error, pos := pos, op := op, err := some "ERR invalid multibulk length" }
  | .ok nargs p rest =>
    if nargs = 0 then
      { result := .error, pos := pos, op := op, err := some "ERR invalid multibulk length" }
    else parseArgs limits.maxBulk pos nargs rest p op

/-- `resp_parse_t`. Positions stay below the buffer's 32-bit length, so they are plain
numbers; only the digits of a length field could overflow.
-/
def respParseT (limits : Limits) (buf : Bytes) (pos : Nat) (op : Op) : Parsed :=
  match buf.drop pos with
  | [] => { result := .incomplete, pos := pos, op := op, err := none }
  | c :: rest =>
    if c ≠ kStar then parseInline (c :: rest) pos op
    else parseMultibulk limits rest pos op

def respParse (buf : Bytes) (pos : Nat) (op : Op) : Parsed :=
  respParseT .unlimited buf pos op

end Thredis.Net
