import Thredis.Lib.Runs
import Thredis.Cmd.SetValue

/-! When a set command promotes an embedded set. `ensure_set_add_capacity` decides from the
arguments whether the set stays embedded; `cmd_sadd` and `add_member` then decide whether to
promote. They agree but for one case: an integer set with more arguments than an integer set may
have entries.
-/

namespace Thredis.Cmd

open Thredis.Lib Thredis.Store List Option AddForecast SetMemberTable SmallSet SetObject

variable {value bits : Nat} {limit : Nat} {digits : List UInt8} {parsed : Nat}

/-- Witness: induction over the digits; each one multiplies the bound by ten. -/
theorem parseDigits_lt (small : value < 10 ^ bits)
    (read : parseDigits limit digits value = some parsed)
    : parsed < 10 ^ (bits + digits.length) := by
  induction digits generalizing value bits with
  | nil =>
    cases read
    exact small
  | cons ch rest ih =>
    simp only [parseDigits] at read
    split at read
    · exact absurd read (by simp)
    rename_i digit
    split at read
    · exact absurd read (by simp)
    have low : ch.toNat - 48 < 10 := by
      have top : ¬57 < ch := fun above => digit (.inr above)
      have : ch.toNat ≤ 57 := UInt8.le_iff_toNat_le.mp (UInt8.not_lt.mp top)
      omega
    have next : value * 10 + (ch.toNat - 48) < 10 ^ (bits + 1) := by
      omega
    have bound := ih next read
    rwa [Nat.add_assoc, Nat.add_comm 1] at bound

theorem parseDigits_zero_lt (read : parseDigits limit digits 0 = some parsed)
    : parsed < 10 ^ digits.length := by
  have bound := parseDigits_lt (show 0 < 10 ^ 0 by decide) read
  rwa [Nat.zero_add] at bound

section

variable (some : 0 < bits) (small : value < 10 ^ bits)

include some small

theorem natText_length_le
    : (Nat.toDigits 10 value).length ≤ bits :=
  (Nat.length_toDigits_le_iff (by decide) some).mpr small

theorem integerTextLength_neg_le
    : integerTextLength (-(value : Int)) ≤ bits + 1 := by
  have text := natText_length_le some small
  unfold integerTextLength i64ToDec
  rw [Int.natAbs_neg, Int.natAbs_natCast]
  split
  · simpa using text
  · rw [length_map]
    omega

theorem integerTextLength_natCast_le : integerTextLength (value : Int) ≤ bits := by
  have text := natText_length_le some small
  unfold integerTextLength i64ToDec
  rw [if_neg (by omega), length_map]
  exact text

end

variable {member : Slice}

/-- `parse_i64_strict` accepts only texts at least as long as the integer's own. -/
theorem integerTextLength_le {integer : Int} (parsed : parseI64Strict member = some integer)
    : integerTextLength integer ≤ member.length := by
  unfold parseI64Strict at parsed
  split at parsed
  · exact absurd parsed (by simp)
  rename_i sized
  by_cases negative : member.head? = some 45
  · cases tailEq : member.tail with
    | nil => simp [tailEq, negative] at parsed
    | cons first rest =>
      have longer : member.length = (first :: rest).length + 1 := by
        rw [← tailEq, length_tail]
        omega
      simp only [tailEq, negative, if_true] at parsed
      split at parsed
      · exact absurd parsed (by simp)
      split at parsed
      · exact absurd parsed (by simp)
      obtain ⟨value, read, rfl⟩ := map_eq_some_iff.mp parsed
      rw [longer]
      exact integerTextLength_neg_le (by simp) (parseDigits_zero_lt read)
  · cases member with
    | nil => simp at sized
    | cons first rest =>
      simp only [if_neg negative] at parsed
      split at parsed
      · cases parsed
        exact Nat.le_trans (by decide) (Nat.succ_le_succ (Nat.zero_le _))
      split at parsed
      · exact absurd parsed (by simp)
      obtain ⟨value, read, rfl⟩ := map_eq_some_iff.mp parsed
      exact integerTextLength_natCast_le (by simp) (parseDigits_zero_lt read)

def isInteger (member : Slice) : Bool := (parseI64Strict member).isSome

def leading (args : List Slice) : Nat := (args.takeWhile isInteger).length

section Forecast

variable (entries : Nat) (forecast : AddForecast) (member : Slice)

theorem note_incomingMax
    : (forecast.note entries member).incomingMax = max forecast.incomingMax member.length := by
  unfold note
  dsimp only
  split
  · rfl
  · split <;> rfl

theorem note_generic
    : (forecast.note entries member).generic = (forecast.generic || !isInteger member) := by
  unfold note isInteger
  cases parseI64Strict member with
  | none => simp
  | some integer =>
    dsimp only
    split <;> simp

theorem note_conversionSeen
    : (forecast.note entries member).conversionSeen
      = (forecast.conversionSeen || !isInteger member) := by
  unfold note isInteger
  cases parseI64Strict member with
  | none => simp
  | some integer =>
    dsimp only
    split <;> simp_all

theorem note_leadingIntegers
    : (forecast.note entries member).leadingIntegers
      = forecast.leadingIntegers
        + if forecast.conversionSeen || !isInteger member then 0 else 1 := by
  unfold note isInteger
  cases parseI64Strict member with
  | none => simp
  | some integer =>
    dsimp only
    split <;> simp_all

end Forecast

variable (entries : Nat) (args : List Slice) (forecast : AddForecast)

theorem fold_incomingMax
    : forecast.incomingMax ≤ (args.foldl (note entries) forecast).incomingMax
      ∧ ∀ member ∈ args, member.length ≤ (args.foldl (note entries) forecast).incomingMax := by
  induction args generalizing forecast with
  | nil => simp
  | cons first rest ih =>
    obtain ⟨grown, within⟩ := ih (forecast.note entries first)
    rw [note_incomingMax] at grown
    refine ⟨Nat.le_trans (Nat.le_max_left _ _) grown, ?_⟩
    intro member among
    rcases mem_cons.mp among with rfl | later
    · exact Nat.le_trans (Nat.le_max_right _ _) grown
    · exact within member later

theorem fold_generic
    : (args.foldl (note entries) forecast).generic
      = (forecast.generic || args.any fun member => !isInteger member) := by
  induction args generalizing forecast with
  | nil => simp
  | cons first rest ih => rw [foldl_cons, ih, note_generic, any_cons, Bool.or_assoc]

theorem leading_cons (first : Slice) (rest : List Slice)
    : leading (first :: rest) = if isInteger first then leading rest + 1 else 0 := by
  unfold leading
  rw [takeWhile_cons]
  split <;> rfl

theorem fold_leadingIntegers (entries : Nat) (args : List Slice) (forecast : AddForecast)
    : (args.foldl (note entries) forecast).leadingIntegers
      = forecast.leadingIntegers + if forecast.conversionSeen then 0 else leading args := by
  induction args generalizing forecast with
  | nil => simp [leading]
  | cons first rest ih =>
    rw [foldl_cons, ih, note_leadingIntegers, note_conversionSeen, leading_cons]
    cases forecast.conversionSeen <;> cases isInteger first
    · simp
    · simp only [Bool.not_true, Bool.or_self, Bool.false_eq_true, if_false, if_true]
      omega
    · simp
    · simp

/-- (Roomy limit set args) says that adding the arguments one by one promotes the set nowhere. -/
def Roomy (limit : CompactLimit) (set : SmallSet) (args : List Slice) : Prop :=
  if set.isGeneric then
    set.size + args.length ≤ limit.maxEntries ∧ ∀ member ∈ args, member.length ≤ limit.maxValue
  else
    set.size + leading args ≤ kIntsetMaxEntries
    ∧ ((∀ member ∈ args, isInteger member = true)
      ∨ set.size + args.length ≤ limit.maxEntries ∧ set.maxMemberBytes ≤ limit.maxValue
        ∧ ∀ member ∈ args, member.length ≤ limit.maxValue)

variable {block : EmbeddedBlock} {set : SmallSet} {args : List Slice}

/-- A set that may stay embedded has room for its arguments. -/
theorem Roomy.of_staysEmbedded {limit : CompactLimit}
    (stays : staysEmbedded limit block set args = true)
    : Roomy limit set args := by
  obtain ⟨grown, within⟩ := fold_incomingMax set.size args (.start set)
  have genericEq := fold_generic set.size args (.start set)
  have leadingEq := fold_leadingIntegers set.size args (.start set)
  simp only [staysEmbedded, Bool.and_eq_true, Bool.or_eq_true, Bool.not_eq_true',
    decide_eq_true_eq] at stays
  obtain ⟨⟨⟨-, count⟩, value⟩, leads⟩ := stays
  unfold forecastOf at count value leads
  generalize args.foldl (note set.size) (.start set) = forecast
    at grown within genericEq leadingEq count value leads
  replace value (generic : forecast.generic = true) := value.resolve_left (by simp [generic])
  unfold Roomy
  cases kind : set.isGeneric with
  | true =>
    have generic : forecast.generic = true := by simp [genericEq, start, kind]
    rw [if_pos generic] at count
    exact ⟨count, fun member among => Nat.le_trans (within member among) (value generic)⟩
  | false =>
    have led : forecast.leadingIntegers = leading args := by
      simp [leadingEq, start, kind]
    refine ⟨led ▸ leads.resolve_left (by simp [kind]), ?_⟩
    cases mixed : args.any fun member => !isInteger member with
    | false => exact .inl (by simpa using mixed)
    | true =>
      have generic : forecast.generic = true := by simp [genericEq, mixed]
      rw [if_pos generic] at count
      exact .inr ⟨count, Nat.le_trans grown (value generic),
        fun member among => Nat.le_trans (within member among) (value generic)⟩

section Adding

variable {home : Slice → Nat} {limit : CompactLimit} {member : Slice} {rest : List Slice}

/-- What adding one member to an embedded set with room can do: it stays embedded, and unless an
allocation failed it has room for the arguments behind.
-/
def AddsInPlace (limit : CompactLimit) (block : EmbeddedBlock) (rest : List Slice)
    (outcome : Option (SetObject × AddResult)) : Prop :=
  ∃ after result,
    outcome = some (.embedded block after, result) ∧ (result ≠ .oom → Roomy limit after rest)

variable {values : List Int} {width bytes : Nat}

theorem Roomy.integer (roomy : Roomy limit ⟨.integer values, width, bytes⟩ (member :: rest))
    (parsed : isInteger member = true) {next : List Int} {nextWidth nextBytes : Nat}
    (grown : next.length ≤ values.length + 1) (noted : nextBytes ≤ max bytes member.length)
    : Roomy limit ⟨.integer next, nextWidth, nextBytes⟩ rest := by
  obtain ⟨leads, room⟩ := roomy
  rw [leading_cons, if_pos parsed] at leads
  refine ⟨?_, ?_⟩
  · show next.length + leading rest ≤ kIntsetMaxEntries
    have leads : values.length + (leading rest + 1) ≤ kIntsetMaxEntries := leads
    omega
  rcases room with integers | ⟨count, low, short⟩
  · exact .inl fun other among => integers other (mem_cons_of_mem _ among)
  · refine .inr ⟨?_, ?_, fun other among => short other (mem_cons_of_mem _ among)⟩
    · show next.length + rest.length ≤ limit.maxEntries
      have count : values.length + (rest.length + 1) ≤ limit.maxEntries := count
      omega
    · have low : bytes ≤ limit.maxValue := low
      have first : member.length ≤ limit.maxValue := short member (by simp)
      show nextBytes ≤ limit.maxValue
      omega

variable {block : EmbeddedBlock}

section

variable (roomy : Roomy limit ⟨.integer values, width, bytes⟩ (member :: rest))

include roomy

theorem addToSmall_integer {integer : Int} (parsed : parseI64Strict member = some integer)
    (grants : AddGrants)
    : AddsInPlace limit block rest (addToSmall home limit member grants
        ⟨.integer values, width, bytes⟩ (.embedded block ⟨.integer values, width, bytes⟩)) := by
  have whole : isInteger member = true := by simp [isInteger, parsed]
  have leads := roomy.1
  rw [leading_cons, if_pos whole] at leads
  have few : ¬kIntsetMaxEntries < size ⟨.integer values, width, bytes⟩ + 1 := by
    omega
  unfold addToSmall
  split
  · exact ⟨_, .oom, rfl, absurd rfl⟩
  simp only [parsed]
  split
  · exact ⟨_, .exists, rfl, fun _ => roomy.integer whole (by omega) (Nat.le_max_left _ _)⟩
  split
  · refine ⟨_, .added, rfl, fun _ => roomy.integer whole ?_ ?_⟩
    · rw [length_insertIdx]
      split <;> omega
    · have text := integerTextLength_le parsed
      show max bytes (integerTextLength integer) ≤ max bytes member.length
      omega
  · exact ⟨_, .oom, rfl, absurd rfl⟩

theorem addToSmall_conversion (unparsed : parseI64Strict member = none) (grants : AddGrants)
    : AddsInPlace limit block rest (addToSmall home limit member grants
        ⟨.integer values, width, bytes⟩ (.embedded block ⟨.integer values, width, bytes⟩)) := by
  have text : isInteger member = false := by simp [isInteger, unparsed]
  obtain ⟨count, low, short⟩ := roomy.2.resolve_left fun integers => by
    have := integers member (by simp)
    rw [text] at this
    exact absurd this (by simp)
  have count : values.length + (rest.length + 1) ≤ limit.maxEntries := count
  have low : bytes ≤ limit.maxValue := low
  have first : member.length ≤ limit.maxValue := short member (by simp)
  have fits : compactFits limit (values.length + 1) (max bytes member.length) = true := by
    simp only [compactFits, decide_eq_true_eq]
    omega
  unfold addToSmall
  split
  · exact ⟨_, .oom, rfl, absurd rfl⟩
  simp only [unparsed, size, fits, if_true]
  split
  · refine ⟨_, .added, rfl, fun _ => ⟨?_, fun other among =>
      short other (mem_cons_of_mem _ among)⟩⟩
    simp only [SmallSet.size, SmallSet.members, length_append, length_map, length_singleton]
    omega
  · exact ⟨_, .oom, rfl, absurd rfl⟩

end

theorem addToSmall_generic {members : List Slice}
    (roomy : Roomy limit ⟨.generic members, width, bytes⟩ (member :: rest)) (grants : AddGrants)
    : AddsInPlace limit block rest (addToSmall home limit member grants
        ⟨.generic members, width, bytes⟩ (.embedded block ⟨.generic members, width, bytes⟩)) := by
  obtain ⟨count, short⟩ := roomy
  have count : members.length + (rest.length + 1) ≤ limit.maxEntries := count
  have first : member.length ≤ limit.maxValue := short member (by simp)
  have later : ∀ other ∈ rest, other.length ≤ limit.maxValue :=
    fun other among => short other (mem_cons_of_mem _ among)
  have fits : compactFits limit (members.length + 1) member.length = true := by
    simp only [compactFits, decide_eq_true_eq]
    omega
  unfold addToSmall
  split
  · exact ⟨_, .oom, rfl, absurd rfl⟩
  simp only [size, fits, Bool.not_true, Bool.false_eq_true, if_false]
  split
  · refine ⟨_, .exists, rfl, fun _ => ⟨?_, later⟩⟩
    show members.length + rest.length ≤ limit.maxEntries
    omega
  split
  · refine ⟨_, .added, rfl, fun _ => ⟨?_, later⟩⟩
    simp only [noteMember, size, length_append, length_singleton]
    omega
  · exact ⟨_, .oom, rfl, absurd rfl⟩

/-- A set with room takes its arguments without leaving its block.
Witness: induction over the arguments; each addition keeps room for those behind it.
-/
theorem addMembers_embedded (args : List (Slice × AddGrants))
    (roomy : Roomy limit set (args.map Prod.fst))
    : (addMembers home limit args (.embedded block set)).isSome := by
  induction args generalizing set with
  | nil => rfl
  | cons first rest ih =>
    obtain ⟨member, grants⟩ := first
    have inPlace : AddsInPlace limit block (rest.map Prod.fst)
        (addMember home limit member grants (.embedded block set)) := by
      obtain ⟨entries, width, bytes⟩ := set
      cases entries with
      | integer values =>
        cases parsed : parseI64Strict member with
        | some integer => exact addToSmall_integer roomy parsed grants
        | none => exact addToSmall_conversion roomy parsed grants
      | generic members => exact addToSmall_generic roomy grants
    obtain ⟨after, result, eq, onward⟩ := inPlace
    rw [addMembers, eq]
    cases result with
    | oom => rfl
    | added => exact ih (onward (by simp))
    | «exists» => exact ih (onward (by simp))

end Adding

section External

variable {home : Slice → Nat} {limit : CompactLimit}

def StaysExternal (outcome : Option (SetObject × AddResult)) : Prop :=
  ∃ after result, outcome = some (after, result) ∧ after.isEmbedded = false

theorem addToTable_external (member : Slice) (grants : InsertGrants) (bytes : Nat)
    (expanded : SetMemberTable)
    : StaysExternal (addToTable home member grants (.table bytes expanded)) := by
  simp only [addToTable]
  rcases expanded.insert home member grants with ⟨after, result⟩
  cases result with
  | inserted => exact ⟨_, _, rfl, rfl⟩
  | «exists» => exact ⟨_, _, rfl, rfl⟩
  | oom => exact ⟨_, _, rfl, rfl⟩

theorem promoteAndAdd_external (member : Slice) (resulting : Nat) (grants : AddGrants)
    (set : SmallSet)
    : StaysExternal (promoteAndAdd home member resulting grants (.compact set)) := by
  simp only [promoteAndAdd, promoteToTable]
  cases fresh.reserve home resulting grants.promote with
  | none => exact ⟨_, _, rfl, rfl⟩
  | some table => exact addToTable_external member grants.insert _ _

variable {object : SetObject} (home : Slice → Nat) (limit : CompactLimit)

theorem addMember_external (external : object.isEmbedded = false) (member : Slice)
    (grants : AddGrants)
    : StaysExternal (addMember home limit member grants object) := by
  cases object with
  | embedded block set => exact absurd external (by simp [isEmbedded])
  | table bytes expanded => exact addToTable_external member grants.insert bytes expanded
  | compact set =>
    rw [addMember]
    fun_cases addToSmall home limit member grants set (.compact set) with
    | case3 | case8 | case10 => exact promoteAndAdd_external member _ grants set
    | _ => exact ⟨_, _, rfl, rfl⟩

/-- Witness: induction over the arguments. -/
theorem addMembers_external (args : List (Slice × AddGrants)) (external : object.isEmbedded = false)
    : (addMembers home limit args object).isSome := by
  induction args generalizing object with
  | nil => rfl
  | cons first rest ih =>
    obtain ⟨member, grants⟩ := first
    obtain ⟨after, result, eq, still⟩ := addMember_external home limit external member grants
    rw [addMembers, eq]
    cases result with
    | oom => rfl
    | added => exact ih still
    | «exists» => exact ih still

end External

-- Command sequences

section Sequences

variable (home : Slice → Nat)

/-- A `SADD` of more arguments than an integer set may have entries, to an embedded integer set
that `ensure_set_add_capacity` leaves embedded.
-/
def SetState.Crossed (state : SetState) : SetEvent → Prop
  | .sadd _ args =>
    ∃ block set,
      state.object = some (.embedded block set) ∧ set.isGeneric = false
      ∧ kIntsetMaxEntries < args.length
      ∧ staysEmbedded state.limit block set (args.map Prod.fst) = true
  | _ => False

variable {limit : CompactLimit}

theorem newSet_external {hint : Nat} {first : Slice} {granted : Bool}
    {created : SetObject} (made : newSet home limit hint first granted = some created)
    : created.isEmbedded = false := by
  have expanded {created : SetObject} (made : (fresh.reserve home hint granted).map (table 0)
        = some created) : created.isEmbedded = false := by
    obtain ⟨table, _, rfl⟩ := map_eq_some_iff.mp made
    rfl
  revert made
  fun_cases newSet home limit hint first granted with
  | case1 | case3 => exact expanded
  | case2 | case4 => rintro ⟨rfl⟩; rfl

theorem saddMissing_isSome (limit : CompactLimit) (klen : Nat) (grants : SaddGrants)
    (args : List (Slice × AddGrants)) : (saddMissing home limit klen grants args).isSome := by
  cases args with
  | nil => rfl
  | cons first rest =>
    simp only [saddMissing]
    cases made : newSet home limit (first :: rest).length first.1 grants.table with
    | none => rfl
    | some created =>
      obtain ⟨⟨filled, finished⟩, added⟩ := isSome_iff_exists.mp
        (addMembers_external home limit (first :: rest) (newSet_external home made))
      simp only [added]
      cases finished with
      | false => rfl
      | true => cases grants.adopted <;> rfl

/-- On an external set `SADD` promotes what is there to promote. -/
theorem saddExisting_external (limit : CompactLimit) (grants : SaddGrants)
    (args : List (Slice × AddGrants)) {object ready : SetObject}
    (ensured : ensureSetAddCapacity limit grants.externalized (args.map Prod.fst) object
      = some ready) (external : ready.isEmbedded = false)
    : saddExisting home limit grants args object ≠ none := by
  rw [ne_none_iff_isSome]
  unfold saddExisting
  rw [ensured]
  cases ready with
  | embedded block set => exact absurd external (by simp [isEmbedded])
  | table bytes expanded =>
    simpa using addMembers_external home limit args external
  | compact set =>
    dsimp only
    split
    · simp only [promoteToTable]
      cases fresh.reserve home (max (compact set).entries args.length)
        grants.table with
      | none => rfl
      | some table => simpa using addMembers_external home limit args rfl
    · simpa using addMembers_external home limit args external

/-- On an embedded set that stays so, only the number of arguments can promote it. -/
theorem saddExisting_embedded (grants : SaddGrants) {args : List (Slice × AddGrants)}
    (stays : staysEmbedded limit block set (args.map Prod.fst) = true)
    (few : hintPromotes limit args.length set = false)
    : saddExisting home limit grants args (.embedded block set) ≠ none := by
  rw [ne_none_iff_isSome]
  have added : (addMembers home limit args (.embedded block set)).isSome :=
    addMembers_embedded args (Roomy.of_staysEmbedded stays)
  simp [saddExisting, ensureSetAddCapacity, stays, few, added]

/-- A generic set that stays embedded has fewer arguments than its limit of entries. -/
theorem hintPromotes_integer (stays : staysEmbedded limit block set args = true)
    (promotes : hintPromotes limit args.length set = true)
    : set.isGeneric = false ∧ kIntsetMaxEntries < args.length := by
  have roomy := Roomy.of_staysEmbedded stays
  cases kind : set.isGeneric with
  | false => exact ⟨rfl, by simpa [hintPromotes, kind] using promotes⟩
  | true =>
    have many : limit.maxEntries < args.length := by
      simpa [hintPromotes, kind] using promotes
    have count := (show _ ∧ _ by simpa [Roomy, kind] using roomy).1
    omega

/-- `SADD` on an existing set uses an external set that is not there exactly when the set stays
embedded and the number of arguments alone promotes it.
-/
theorem saddExisting_eq_none {grants : SaddGrants} {args : List (Slice × AddGrants)}
    : saddExisting home limit grants args object = none
      ↔ ∃ block set,
          object = .embedded block set ∧ set.isGeneric = false
          ∧ kIntsetMaxEntries < args.length
          ∧ staysEmbedded limit block set (args.map Prod.fst) = true := by
  constructor
  · intro misused
    cases object with
    | table bytes expanded =>
      exact absurd misused (saddExisting_external home limit grants args rfl rfl)
    | compact set => exact absurd misused (saddExisting_external home limit grants args rfl rfl)
    | embedded block set =>
      cases stays : staysEmbedded limit block set (args.map Prod.fst) with
      | false =>
        cases moved : grants.externalized with
        | false => simp [saddExisting, ensureSetAddCapacity, stays, moved] at misused
        | true =>
          have ensured : ensureSetAddCapacity limit grants.externalized
              (args.map Prod.fst) (.embedded block set) = some (.compact set) := by
            simp [ensureSetAddCapacity, stays, moved]
          exact absurd misused (saddExisting_external home limit grants args ensured rfl)
      | true =>
        cases promotes : hintPromotes limit args.length set with
        | false => exact absurd misused (saddExisting_embedded home grants stays promotes)
        | true =>
          have counted : hintPromotes limit (args.map Prod.fst).length set = true := by
            rwa [length_map]
          obtain ⟨integer, many⟩ := hintPromotes_integer stays counted
          exact ⟨block, set, rfl, integer, by rwa [length_map] at many, stays⟩
  · rintro ⟨block, set, rfl, integer, many, stays⟩
    have promotes : hintPromotes limit args.length set = true := by
      simp [hintPromotes, integer, many]
    simp [saddExisting, ensureSetAddCapacity, stays, promotes, promoteToTable]

theorem spop_isSome (externalized granted : Bool) (picks : List Nat) (object : SetObject)
    : (spop home externalized granted picks object).isSome := by
  unfold spop
  split
  · rfl
  split
  · rfl
  have promoted (set : SmallSet) (count : Nat)
      : promoteToTable home count granted (.compact set)
        = some ((fresh.reserve home count granted).map fun table =>
            .table set.maxMemberBytes (fillTable home set.members table)) := rfl
  cases object with
  | table bytes expanded => rfl
  | compact set =>
    simp only [promoted]
    cases fresh.reserve home (compact set).entries granted <;> rfl
  | embedded block set =>
    cases externalized with
    | false => rfl
    | true =>
      simp only [if_true, promoted]
      cases fresh.reserve home (embedded block set).entries granted <;> rfl

/-- One command uses an external set that is not there exactly in the crossed case. -/
theorem SetState.step_eq_none (state : SetState) (event : SetEvent)
    : state.step home event = none ↔ state.Crossed event := by
  cases event with
  | sadd grants args =>
    cases found : state.object with
    | none =>
      obtain ⟨after, added⟩ := isSome_iff_exists.mp
        (saddMissing_isSome home state.limit state.klen grants args)
      simp [step, found, added, Crossed]
    | some object =>
      simp [step, found, saddExisting_eq_none, Crossed]
  | srem args => simp [step, Crossed]
  | spop externalized granted picks =>
    cases found : state.object with
    | none => simp [step, found, Crossed]
    | some object =>
      obtain ⟨after, popped⟩ := isSome_iff_exists.mp
        (spop_isSome home externalized granted picks object)
      simp [step, found, popped, Crossed]
  | config limit => simp [step, Crossed]

/-- A sequence of set commands uses the external representation of an embedded set exactly when
one of its `SADD`s crosses: an embedded integer set gets more than 128 arguments and
`ensure_set_add_capacity` leaves it embedded.
Witness: the case of one command, at the first command of the sequence that fails.
-/
theorem misused_iff_crossed (state : SetState) (events : List SetEvent)
    : run (SetState.step home) state events = none
      ↔ ∃ front event back reached,
          events = front ++ event :: back
          ∧ run (SetState.step home) state front = some reached ∧ reached.Crossed event := by
  simp [run_eq_none, SetState.step_eq_none]

/-- Under limits of at most 128 entries, such as the default, no command crosses. -/
theorem SetState.not_crossed {state : SetState}
    (small : state.limit.maxEntries ≤ kIntsetMaxEntries) (event : SetEvent)
    : ¬state.Crossed event := by
  cases event with
  | sadd grants args =>
    rintro ⟨block, set, -, -, many, stays⟩
    simp only [staysEmbedded, Bool.and_eq_true, decide_eq_true_eq, length_map] at stays
    have room := stays.1.1.2
    split at room <;> omega
  | _ => exact id

/-- As long as no `CONFIG SET` raises the limit above 128 entries, no sequence of set commands
misuses a set.
Witness: induction over the commands; a command leaves the limit or sets a small one.
-/
theorem run_isSome_of_small (events : List SetEvent) (state : SetState)
    (small : state.limit.maxEntries ≤ kIntsetMaxEntries)
    (configured : ∀ limit, .config limit ∈ events → limit.maxEntries ≤ kIntsetMaxEntries)
    : (run (SetState.step home) state events).isSome := by
  induction events generalizing state with
  | nil => rfl
  | cons event rest ih =>
    cases stepped : state.step home event with
    | none =>
      exact absurd ((state.step_eq_none home event).mp stepped) (state.not_crossed small event)
    | some next =>
      rw [run, stepped, bind_some]
      refine ih next ?_ fun limit listed => configured limit (mem_cons_of_mem _ listed)
      cases event with
      | config limit =>
        cases stepped
        exact configured limit mem_cons_self
      | srem args =>
        cases stepped
        exact small
      | sadd grants args =>
        rw [SetState.step] at stepped
        split at stepped
        · obtain ⟨object, -, rfl⟩ := map_eq_some_iff.mp stepped
          exact small
        · obtain ⟨after, -, rfl⟩ := map_eq_some_iff.mp stepped
          exact small
      | spop externalized granted picks =>
        rw [SetState.step] at stepped
        split at stepped
        · cases stepped
          exact small
        · obtain ⟨after, -, rfl⟩ := map_eq_some_iff.mp stepped
          exact small

def allGranted : AddGrants := ⟨true, true, ⟨true, true, true⟩⟩

/-- With `set-max-listpack-entries 512` an integer set under a key of 2100 bytes, whose block has
room to spare, is promoted while embedded by 129 empty members.
-/
theorem mixed_sadd_misuses
    : run (SetState.step fun _ => 0) ⟨2100, ⟨512, 64⟩, none⟩
        [.sadd ⟨true, true, true⟩ [([49], allGranted)],
          .sadd ⟨true, true, true⟩ (List.replicate 129 ([], allGranted))]
      = none := by
  decide +kernel

end Sequences

end Thredis.Cmd
