import Thredis.Cmd.SetMemberTable

/-! A set object in its three forms, and the commands that change it. A small set is a packed
list of integers or of members, embedded in the key's block or in an external wrapper; a large set
is a table. What only an external set has is reached through `external_as`, which is null for an
embedded one: every function that would use it there answers `none`.
-/

namespace Thredis.Cmd

open Thredis.Store

/-- The digit loop of `parse_i64_strict`. -/
def parseDigits (limit : Nat) : List UInt8 → Nat → Option Nat
  | [], value => some value
  | ch :: rest, value =>
    if ch < 48 ∨ 57 < ch then none
    else
      let digit := ch.toNat - 48
      if (limit - digit) / 10 < value then none
      else parseDigits limit rest (value * 10 + digit)

def parseI64Strict (s : Slice) : Option Int :=
  if s.length = 0 ∨ 32 ≤ s.length then none
  else
    let negative := s.head? = some 45
    let digits := if negative then s.tail else s
    match digits with
    | [] => none
    | first :: _ =>
      if digits = [48] then if negative then none else some 0
      else if first < 49 ∨ 57 < first then none
      else
        let limit := if negative then 2 ^ 63 else 2 ^ 63 - 1
        (parseDigits limit digits 0).map fun (value : Nat) =>
          if negative then -(value : Int) else (value : Int)

def widthFor (value : Int) : Nat :=
  if -2 ^ 15 ≤ value ∧ value ≤ 2 ^ 15 - 1 then 2
  else if -2 ^ 31 ≤ value ∧ value ≤ 2 ^ 31 - 1 then 4
  else 8

def i64ToDec (value : Int) : Slice :=
  let digits := (Nat.toDigits 10 value.natAbs).map fun digit => UInt8.ofNat digit.toNat
  if value < 0 then 45 :: digits else digits

def searchBetween (values : List Int) (wanted : Int) : Nat → Nat → Nat → Nat
  | 0, lo, _ => lo
  | turns + 1, lo, hi =>
    if lo < hi then
      let mid := lo + (hi - lo) / 2
      if values.getD mid 0 < wanted then searchBetween values wanted turns (mid + 1) hi
      else searchBetween values wanted turns lo mid
    else lo

/-- `integer_search`: where the integer is or belongs. -/
def integerSearch (values : List Int) (wanted : Int) : Nat × Bool :=
  let position := searchBetween values wanted values.length 0 values.length
  (position, decide (values[position]? = some wanted))

def integerTextLength (value : Int) : Nat := (i64ToDec value).length

/-- `varint_size`: seven bits of the length to a byte. -/
def varintSize (n : Nat) : Nat :=
  if n < 2 ^ 7 then 1
  else if n < 2 ^ 14 then 2
  else if n < 2 ^ 21 then 3
  else if n < 2 ^ 28 then 4
  else 5

def entryEncodedSize (n : Nat) : Nat := varintSize n + n

/-- The entries of a small set: sorted integers of one width, or members as they are. -/
inductive SmallEntries where
  | integer (values : List Int)
  | generic (members : List Slice)
  deriving DecidableEq, Repr

/-- A small set with the scalars kept beside its entries. `intWidth` stays as it was when the set
turns generic; `maxMemberBytes` is never lowered.
-/
structure SmallSet where
  entries : SmallEntries
  intWidth : Nat
  maxMemberBytes : Nat
  deriving DecidableEq, Repr

namespace SmallSet

def fresh : SmallSet := { entries := .integer [], intWidth := 2, maxMemberBytes := 0 }

def size (set : SmallSet) : Nat :=
  match set.entries with
  | .integer values => values.length
  | .generic members => members.length

def isGeneric (set : SmallSet) : Bool :=
  match set.entries with
  | .integer _ => false
  | .generic _ => true

def encodedBytes (set : SmallSet) : Nat :=
  match set.entries with
  | .integer values => values.length * (set.intWidth + 1)
  | .generic members => (members.map fun member => entryEncodedSize member.length).sum

def members (set : SmallSet) : List Slice :=
  match set.entries with
  | .integer values => values.map i64ToDec
  | .generic members => members

def noteMember (bytes : Nat) (set : SmallSet) : SmallSet :=
  { set with maxMemberBytes := max set.maxMemberBytes bytes }

end SmallSet

-- Objects

/-- The block of an embedded set: the sizes its capacity is computed from. -/
structure EmbeddedBlock where
  klen : Nat
  vlen : Nat
  hasTtl : Bool
  deriving DecidableEq, Repr

def kEmbeddedCompactBytes : Nat := 32

def EmbeddedBlock.capacity (block : EmbeddedBlock) : Nat :=
  let before := kvobjAllocSize block.klen 0 block.hasTtl .compact + kEmbeddedCompactBytes
  min (goodSize (kvobjAllocSize block.klen block.vlen block.hasTtl .compact) - before)
    kEmbedThreshold

inductive SetObject where
  | embedded (block : EmbeddedBlock) (set : SmallSet)
  | compact (set : SmallSet)
  | table (maxMemberBytes : Nat) (expanded : SetMemberTable)
  deriving DecidableEq, Repr

structure CompactLimit where
  maxEntries : Nat
  maxValue : Nat
  deriving DecidableEq, Repr

namespace SetObject

def entries : SetObject → Nat
  | .embedded _ set => set.size
  | .compact set => set.size
  | .table _ expanded => expanded.live

def isEmbedded : SetObject → Bool
  | .embedded _ _ => true
  | _ => false

/-- The small set and whether so many encoded bytes fit where it is kept. -/
def fits (encoded : Nat) : SetObject → Bool
  | .embedded block _ => decide (encoded ≤ block.capacity)
  | _ => true

def setSmall (set : SmallSet) : SetObject → SetObject
  | .embedded block _ => .embedded block set
  | .compact _ => .compact set
  | .table bytes expanded => .table bytes expanded

end SetObject

/-- `set-max-intset-entries` as the code has it. -/
def kIntsetMaxEntries : Nat := 128

def kUint32Max : Nat := 2 ^ 32 - 1

inductive AddResult where
  | added
  | exists
  | oom
  deriving DecidableEq, Repr

/-- The allocator's answers while one member is added: the new packed entries, the promotion's
table and its insertions, and the insertion of the member.
-/
structure AddGrants where
  packed : Bool
  promote : Bool
  insert : InsertGrants
  deriving DecidableEq, Repr

section Commands

variable (home : Slice → Nat)

def fillTable (members : List Slice) (table : SetMemberTable) : SetMemberTable :=
  members.foldl (fun so member => (so.insert home member ⟨true, true, true⟩).1) table

/-- `promote_to_table`. The outer `none` is the use of an external set that is not there; the
inner one a failed allocation, which leaves the set as it was.
-/
def promoteToTable (reserveEntries : Nat) (granted : Bool)
    : SetObject → Option (Option SetObject)
  | .embedded _ _ => none
  | .table _ _ => none
  | .compact set =>
    some ((SetMemberTable.fresh.reserve home reserveEntries granted).map fun table =>
      .table set.maxMemberBytes (fillTable home set.members table))

def addToTable (member : Slice) (grants : InsertGrants)
    : SetObject → Option (SetObject × AddResult)
  | .table bytes expanded =>
    match expanded.insert home member grants with
    | (after, .inserted) => some (.table (max bytes member.length) after, .added)
    | (after, .exists) => some (.table bytes after, .exists)
    | (after, .oom) => some (.table bytes after, .oom)
  | _ => none

/-- The promotion that ends three branches of `add_member`. -/
def promoteAndAdd (member : Slice) (resulting : Nat) (grants : AddGrants) (object : SetObject)
    : Option (SetObject × AddResult) :=
  match promoteToTable home resulting grants.promote object with
  | none => none
  | some none => some (object, .oom)
  | some (some promoted) => addToTable home member grants.insert promoted

variable (limit : CompactLimit)

def compactFits (resulting incomingMax : Nat) : Bool :=
  decide (resulting ≤ limit.maxEntries ∧ incomingMax ≤ limit.maxValue)

variable (member : Slice)

/-- `add_member` for a set that is not a table. -/
def addToSmall (grants : AddGrants) (set : SmallSet) (object : SetObject)
    : Option (SetObject × AddResult) :=
  if set.size = kUint32Max then some (object, .oom)
  else
    let resulting := set.size + 1
    match set.entries with
    | .integer values =>
      match parseI64Strict member with
      | some integer =>
        let (position, found) := integerSearch values integer
        if found then some (object, .exists)
        else if kIntsetMaxEntries < resulting then
          promoteAndAdd home member resulting grants object
        else
          -- `insert_integer_compact` widens every entry when the new one needs it
          let width := max set.intWidth (widthFor integer)
          if grants.packed ∧ object.fits (resulting * (width + 1)) then
            let next :=
              { set with
                entries := .integer (values.insertIdx position integer), intWidth := width }
            some (object.setSmall (next.noteMember (integerTextLength integer)), .added)
          else some (object, .oom)
      | none =>
        let incomingMax := max set.maxMemberBytes member.length
        if compactFits limit resulting incomingMax then
          -- `convert_integer_to_generic_with`
          let next := { set with entries := .generic (set.members ++ [member]) }
          if grants.packed ∧ object.fits next.encodedBytes then
            some (object.setSmall { next with maxMemberBytes := incomingMax }, .added)
          else some (object, .oom)
        else promoteAndAdd home member resulting grants object
    | .generic members =>
      if member ∈ members then some (object, .exists)
      else if !compactFits limit resulting member.length then
        promoteAndAdd home member resulting grants object
      else
        let next := { set with entries := .generic (members ++ [member]) }
        if grants.packed ∧ object.fits next.encodedBytes then
          some (object.setSmall (next.noteMember member.length), .added)
        else some (object, .oom)

def addMember (grants : AddGrants) (object : SetObject)
    : Option (SetObject × AddResult) :=
  match object with
  | .table _ _ => addToTable home member grants.insert object
  | .embedded _ set => addToSmall home limit member grants set object
  | .compact set => addToSmall home limit member grants set object

/-- The argument loop of `cmd_sadd`; it stops at the first failed allocation. -/
def addMembers (limit : CompactLimit)
    : List (Slice × AddGrants) → SetObject → Option (SetObject × Bool)
  | [], object => some (object, true)
  | (member, grants) :: rest, object =>
    match addMember home limit member grants object with
    | none => none
    | some (after, .oom) => some (after, false)
    | some (after, _) => addMembers limit rest after

/-- What the argument loop of `ensure_set_add_capacity` collects. -/
structure AddForecast where
  incomingMax : Nat
  generic : Bool
  width : Nat
  transient : Nat
  leadingIntegers : Nat
  conversionSeen : Bool
  deriving DecidableEq, Repr

/-- One turn of that loop, for a set of so many entries. -/
def AddForecast.note (entries : Nat) (forecast : AddForecast) (member : Slice) : AddForecast :=
  let forecast := { forecast with incomingMax := max forecast.incomingMax member.length }
  match parseI64Strict member with
  | none => { forecast with generic := true, conversionSeen := true }
  | some integer =>
    let width := max forecast.width (widthFor integer)
    if forecast.conversionSeen then { forecast with width := width }
    else
      { forecast with
        width := width
        leadingIntegers := forecast.leadingIntegers + 1
        transient := max forecast.transient
          ((entries + (forecast.leadingIntegers + 1)) * (width + 1)) }

def AddForecast.start (set : SmallSet) : AddForecast :=
  { incomingMax := set.maxMemberBytes, generic := set.isGeneric, width := set.intWidth
    transient := set.encodedBytes, leadingIntegers := 0, conversionSeen := set.isGeneric }

def forecastOf (set : SmallSet) (args : List Slice) : AddForecast :=
  args.foldl (AddForecast.note set.size) (.start set)

def projectedEncoded (set : SmallSet) (args : List Slice) : Nat :=
  if !(forecastOf set args).generic then
    (set.size + args.length) * ((forecastOf set args).width + 1)
  else
    (set.members.map fun member => entryEncodedSize member.length).sum
      + (args.map fun member => entryEncodedSize member.length).sum

/-- The decision of `ensure_set_add_capacity` that an embedded set can stay embedded. -/
def staysEmbedded (block : EmbeddedBlock) (set : SmallSet) (args : List Slice) : Bool :=
  let forecast := forecastOf set args
  decide (projectedEncoded set args ≤ block.capacity)
    && decide (forecast.transient ≤ block.capacity)
    && decide (set.size + args.length
        ≤ if forecast.generic then limit.maxEntries else kIntsetMaxEntries)
    && (!forecast.generic || decide (forecast.incomingMax ≤ limit.maxValue))
    && (set.isGeneric || decide (set.size + forecast.leadingIntegers ≤ kIntsetMaxEntries))

/-- `ensure_set_add_capacity`; `none` when `externalize_set` fails. -/
def ensureSetAddCapacity (externalized : Bool) (args : List Slice)
    : SetObject → Option SetObject
  | .embedded block set =>
    if staysEmbedded limit block set args then some (.embedded block set)
    else if externalized then some (.compact set) else none
  | object => some object

/-- The upgrade `cmd_sadd` makes for the number of its arguments alone. -/
def hintPromotes (hint : Nat) (set : SmallSet) : Bool :=
  decide ((if set.isGeneric then limit.maxEntries else kIntsetMaxEntries) < hint)

def newSet (hint : Nat) (first : Slice) (granted : Bool)
    : Option SetObject :=
  let expanded := (SetMemberTable.fresh.reserve home hint granted).map (SetObject.table 0)
  match parseI64Strict first with
  | none =>
    if limit.maxEntries < hint ∨ limit.maxValue < first.length then expanded
    else some (.compact { SmallSet.fresh with entries := .generic [] })
  | some _ => if kIntsetMaxEntries < hint then expanded else some (.compact .fresh)

/-- `kvobj_adopt_set`: small packed entries move into the key's block. -/
def adoptSet (klen : Nat) : SetObject → SetObject
  | .compact set =>
    if set.encodedBytes ≤ kEmbedThreshold then
      .embedded ⟨klen, kEmbeddedCompactBytes + set.encodedBytes, false⟩ set
    else .compact set
  | object => object

structure SaddGrants where
  externalized : Bool
  table : Bool
  adopted : Bool
  deriving DecidableEq, Repr

def saddExisting (grants : SaddGrants) (args : List (Slice × AddGrants)) (object : SetObject)
    : Option SetObject :=
  match ensureSetAddCapacity limit grants.externalized (args.map Prod.fst) object with
  | none => some object
  | some ready =>
    let small :=
      match ready with
      | .embedded _ set => some set
      | .compact set => some set
      | .table _ _ => none
    if small.any (hintPromotes limit args.length) then
      match promoteToTable home (max ready.entries args.length) grants.table ready with
      | none => none
      | some none => some ready
      | some (some promoted) => (addMembers home limit args promoted).map Prod.fst
    else (addMembers home limit args ready).map Prod.fst

def saddMissing (klen : Nat) (grants : SaddGrants) (args : List (Slice × AddGrants))
    : Option (Option SetObject) :=
  match args with
  | [] => some none
  | (first, _) :: _ =>
    match newSet home limit args.length first grants.table with
    | none => some none
    | some created =>
      match addMembers home limit args created with
      | none => none
      | some (_, false) => some none
      | some (filled, true) =>
        if grants.adopted then some (some (adoptSet klen filled)) else some none

def SmallSet.remove (set : SmallSet) : SmallSet :=
  match set.entries with
  | .integer values =>
    match parseI64Strict member with
    | none => set
    | some integer =>
      let (position, found) := integerSearch values integer
      if found then { set with entries := .integer (values.eraseIdx position) } else set
  | .generic members => { set with entries := .generic (members.erase member) }

def removeMember : SetObject → SetObject
  | .embedded block set => .embedded block (set.remove member)
  | .compact set => .compact (set.remove member)
  | .table bytes expanded => .table bytes (expanded.erase home member).1

def srem (args : List Slice) (object : SetObject) : Option SetObject :=
  let after := args.foldl (fun so member => removeMember home member so) object
  if after.entries = 0 then none else some after

/-- The pop loop of `cmd_spop`: `picks` are the random words. -/
def popSlots : List Nat → SetMemberTable → SetMemberTable
  | [], table => table
  | random :: rest, table =>
    popSlots rest (table.eraseAt (table.liveSlots.getD (random % table.liveSlots.length) 0))

/-- `cmd_spop` of `picks.length` members; the outer `none` is the use of an external set that is
not there.
-/
def spop (externalized granted : Bool) (picks : List Nat) (object : SetObject)
    : Option (Option SetObject) :=
  if picks = [] then some (some object)
  else if object.entries ≤ picks.length then some none
  else
    let ready :=
      match object with
      | .embedded _ set => if externalized then some (SetObject.compact set) else none
      | other => some other
    match ready with
    | none => some (some object)
    | some (.table bytes expanded) => some (some (.table bytes (popSlots picks expanded)))
    | some small =>
      match promoteToTable home object.entries granted small with
      | none => none
      | some none => some (some small)
      | some (some (.table bytes expanded)) =>
        some (some (.table bytes (popSlots picks expanded)))
      | some (some other) => some (some other)

end Commands

structure SetState where
  klen : Nat
  limit : CompactLimit
  object : Option SetObject
  deriving DecidableEq, Repr

inductive SetEvent where
  | sadd (grants : SaddGrants) (args : List (Slice × AddGrants))
  | srem (args : List Slice)
  | spop (externalized granted : Bool) (picks : List Nat)
  /-- `CONFIG SET` of the set limits. -/
  | config (limit : CompactLimit)

/-- One command; `none` when it uses the external representation of an embedded set. -/
def SetState.step (home : Slice → Nat) (state : SetState) : SetEvent → Option SetState
  | .sadd grants args =>
    match state.object with
    | none =>
      (saddMissing home state.limit state.klen grants args).map
        fun object => { state with object := object }
    | some object =>
      (saddExisting home state.limit grants args object).map
        fun after => { state with object := some after }
  | .srem args => some { state with object := state.object.bind (srem home args) }
  | .spop externalized granted picks =>
    match state.object with
    | none => some state
    | some object =>
      (spop home externalized granted picks object).map
        fun after => { state with object := after }
  | .config limit => some { state with limit := limit }

end Thredis.Cmd
