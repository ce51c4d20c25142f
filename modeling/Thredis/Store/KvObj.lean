import Mathlib

/-! Keys, values and the object header of the store: size classes, the positional deadline
slot and the constructor that re-headers an object for a new deadline.
-/

namespace Thredis.Store

abbrev Slice := List UInt8

inductive KvType where
  | string | hash | list | set | zset | stream
  deriving DecidableEq, Repr

inductive Enc where
  | raw | int | external | compact
  deriving DecidableEq, Repr

def kNoTtlDeadline : Int := -1

def kEmbedThreshold : Nat := 192

/-- An object of the keyspace. `addr` is the block's address, the identity pointer
comparisons see; `value` holds the value's bytes wherever the encoding keeps them, and
`backing` the bytes of an external collection's own structures. `ttlSlot` is the positional
deadline slot, present exactly when the header carries `HasTtl`.
-/
structure KvObj where
  addr : Nat
  key : Slice
  type : KvType
  enc : Enc
  value : Slice
  backing : Nat
  ttlSlot : Option Int
  evictionMeta : Nat
  deriving DecidableEq, Repr

def stringObject (addr : Nat) (key value : Slice) : KvObj :=
  { addr := addr, key := key, type := .string, enc := .raw, value := value, backing := 0
    ttlSlot := none, evictionMeta := 0 }

namespace KvObj

variable (object : KvObj)

def hasTtlSlot : Bool := object.ttlSlot.isSome

def expireAtMs : Int := object.ttlSlot.getD kNoTtlDeadline

/-- Only an object built with a deadline slot can take a new deadline in place. -/
def setExpireAtMs (at_ms : Int) : KvObj :=
  { object with ttlSlot := object.ttlSlot.map (fun _ => at_ms) }

/-- The eviction metadata are five bits of the flag byte. -/
def setEvictionMeta (bits : Nat) : KvObj :=
  { object with evictionMeta := bits % 32 }

end KvObj

/-- The allocator's size class of a request: 8, then 16-spaced to 128, then four classes
for each power of two.
-/
def goodSize (n : Nat) : Nat :=
  if n = 0 then 0
  else if n ≤ 8 then 8
  else if n ≤ 128 then (n + 15) / 16 * 16
  else
    let step := 2 ^ ((n - 1).log2 - 2)
    (n + step - 1) / step * step

def kvobjAllocSize (klen vlen : Nat) (hasTtlSlot : Bool) (enc : Enc) : Nat :=
  8 + (if 255 ≤ klen then 4 else 0) + (if hasTtlSlot then 8 else 0) + klen
    + match enc with
      | .int => 8
      | .external => 8
      | .compact => vlen
      | .raw => vlen

variable (object : KvObj)

def kvobjCapacity : Nat :=
  goodSize (kvobjAllocSize object.key.length object.value.length object.hasTtlSlot object.enc)

def kvobjExternalBytes : Nat :=
  match object.enc, object.type with
  | .external, .string => goodSize object.value.length
  | .external, _ => object.backing
  | _, _ => 0

def kvobjSize : Nat := kvobjCapacity object + kvobjExternalBytes object

def KvObj.deadline : Int :=
  if object.hasTtlSlot then object.expireAtMs else kNoTtlDeadline

def KvObj.deadlineElapsed (now : Int) : Bool :=
  decide (0 ≤ object.deadline ∧ object.deadline ≤ now)

/-- What a key maps to: the value, and the deadline if there is one. -/
structure Entry where
  type : KvType
  value : Slice
  backing : Nat
  expiry : Option Int
  deriving DecidableEq, Repr

def deadlineOf (at_ms : Int) : Option Int := if 0 ≤ at_ms then some at_ms else none

def KvObj.entry : Entry :=
  { type := object.type, value := object.value, backing := object.backing
    expiry := deadlineOf object.deadline }

def Entry.redate (entry : Entry) (at_ms : Int) : Entry := { entry with expiry := deadlineOf at_ms }

def Entry.due (now : Int) (entry : Entry) : Bool := entry.expiry.any (fun at_ms => at_ms ≤ now)

theorem Entry.due_later {now later : Int} (order : now ≤ later) (entry : Entry)
    (due : entry.due now = true) : entry.due later = true := by
  obtain ⟨at_ms, held, reached⟩ := (Option.any_eq_true _ _).mp due
  exact (Option.any_eq_true _ _).mpr
    ⟨at_ms, held, decide_eq_true (Int.le_trans (of_decide_eq_true reached) order)⟩

theorem KvObj.entry_due (now : Int)
    : object.entry.due now = object.deadlineElapsed now := by
  simp only [Entry.due, KvObj.entry, deadlineOf, KvObj.deadlineElapsed]
  split
  · simp [*]
  · simp [*]

/-- `kvobj_reheader`: a fresh block at `addr` with the same key and value, keeping the
deadline slot of its source and adding one for a new deadline. A string is re-encoded from
its length; every other object keeps its encoding.
-/
def kvobjReheader (source : KvObj) (addr : Nat) (expireAtMs : Int) : KvObj :=
  { source with
    addr := addr
    enc :=
      match source.type, source.enc with
      | .string, .int => .int
      | .string, _ => if source.value.length ≤ kEmbedThreshold then .raw else .external
      | _, enc => enc
    ttlSlot := if source.hasTtlSlot || decide (0 ≤ expireAtMs) then some expireAtMs else none
    evictionMeta := 0 }

@[simp] theorem kvobjReheader_key (source : KvObj) (addr : Nat) (expireAtMs : Int)
    : (kvobjReheader source addr expireAtMs).key = source.key := rfl

/-- An object without a deadline slot has no deadline, whatever its payload. -/
theorem KvObj.deadline_eq_expireAtMs : object.deadline = object.expireAtMs := by
  cases slot : object.ttlSlot <;> simp [deadline, hasTtlSlot, expireAtMs, slot]

theorem kvobjReheader_entry {source : KvObj} (addr : Nat) (expireAtMs : Int)
    (slotless : source.hasTtlSlot = false)
    : (kvobjReheader source addr expireAtMs).entry = source.entry.redate expireAtMs := by
  have empty : source.ttlSlot = none := by simpa [KvObj.hasTtlSlot] using slotless
  by_cases dated : 0 ≤ expireAtMs <;>
    simp [KvObj.entry, Entry.redate, KvObj.deadline, kvobjReheader, empty, dated, deadlineOf,
      KvObj.hasTtlSlot, KvObj.expireAtMs, kNoTtlDeadline]

end Thredis.Store
