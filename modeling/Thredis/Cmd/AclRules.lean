import Thredis.Lib.Runs

/-! Command rules of an ACL selector. A remembered rule replaces the earlier rules of its target, so
the list that describes a selector is not the one that was applied to it. Replayed from the base of
its future commands it sets the same bits.
-/

namespace Thredis.Cmd
open Thredis.Lib List

def lowerByte (byte : UInt8) : UInt8 :=
  if 65 ≤ byte ∧ byte ≤ 90 then byte + 32 else byte

def aclLower (value : List UInt8) : List UInt8 :=
  value.map lowerByte

def aclEqualIcase (value literal : List UInt8) : Bool :=
  aclLower value == aclLower literal

/-- The registry and `kAclCategories`: names, and the masks or the bits of categories. The `id` of a
command is its position.
-/
structure AclTables where
  commands : List (List UInt8 × BitVec 64)
  categories : List (List UInt8 × BitVec 64)

variable (tables : AclTables)

variable (target : List UInt8)

/-- The commands of a category, or the one command of a name. -/
def AclTables.named : Option (List Nat) :=
  if 1 < target.length ∧ target.head? = some 64 then
    (tables.categories.find? (aclEqualIcase target.tail ·.1)).map (fun category =>
      tables.commands.findIdxs (fun command => command.2 &&& category.2 != 0))
  else (tables.commands.findIdx? (aclEqualIcase target ·.1)).map ([·])

/-- A target after its sign; `none` stands for `@all`. -/
def AclTables.targets
    : Except String (Option (List Nat)) :=
  if 124 ∈ target then .error "Allowing first-arg of a subcommand is not supported"
  else if aclEqualIcase target [64, 97, 108, 108] then .ok none
  else
    match tables.named target with
    | none => .error "Unknown command or category name in ACL"
    | some ids => .ok (some ids)

/-- `allowedCommands` joins the four words. -/
structure AclSelector where
  allowedCommands : BitVec 256 := 0
  allCommands : Bool := false
  commandRules : List (List UInt8) := []
  deriving DecidableEq

def kAclFutureCommandBit : Nat := 255

def aclSetCommandBit (allow : Bool) (words : BitVec 256) (id : Nat) : BitVec 256 :=
  if kAclFutureCommandBit ≤ id then words
  else if allow then words ||| .twoPow 256 id
  else words &&& ~~~.twoPow 256 id

def aclFutureCommands (perm : AclSelector) : Bool :=
  perm.allowedCommands.getLsbD kAclFutureCommandBit

def aclResetCommands (all : Bool) : AclSelector where
  allowedCommands := if all then .allOnes 256 else 0
  allCommands := all

def aclUpdateCommandRule (rules : List (List UInt8)) (rule : List UInt8) : List (List UInt8) :=
  rules.filter (fun old => !(1 < old.length && aclLower old.tail == aclLower rule.tail))
    ++ [rule.take 1 ++ aclLower rule.tail]

def aclReadRule : List UInt8 → Except String (Bool × Option (List Nat))
  | [] => .error "Syntax error"
  | sign :: target =>
    if target = [] ∨ sign ≠ 43 ∧ sign ≠ 45 then .error "Syntax error"
    else (tables.targets target).map (sign == 43, ·)

def aclApplyCommandRule (remember : Bool) (perm : AclSelector) (rule : List UInt8)
    : Except String AclSelector :=
  (aclReadRule tables rule).map (fun
    | (allow, none) => aclResetCommands allow
    | (allow, some ids) => {
        allowedCommands := ids.foldl (aclSetCommandBit allow) perm.allowedCommands
        allCommands := perm.allCommands && allow
        commandRules := if remember then aclUpdateCommandRule perm.commandRules rule
          else perm.commandRules })

def aclStep (remember : Bool) (perm : AclSelector) (rule : List UInt8)
    : Option AclSelector :=
  (aclApplyCommandRule tables remember perm rule).toOption

/-- Whether `acl_verify_command_description` reaches neither abort. -/
def aclVerifyCommandDescription (perm : AclSelector) : Bool :=
  (run (aclStep tables false) (aclResetCommands (aclFutureCommands perm)) perm.commandRules).any
    (·.allowedCommands == perm.allowedCommands)

theorem aclLower_idem (value : List UInt8) : aclLower (aclLower value) = aclLower value := by
  have again (byte : UInt8) : lowerByte (lowerByte byte) = lowerByte byte := by grind [lowerByte]
  simp [aclLower, again]

/-- A target and its lowered form name the same commands. -/
theorem AclTables.targets_lower
    : tables.targets (aclLower target) = tables.targets target := by
  have kept (byte : UInt8) : (lowerByte byte = 64 ↔ byte = 64)
      ∧ (lowerByte byte = 124 ↔ byte = 124) := by grind [lowerByte]
  have same (value literal : List UInt8)
      : aclEqualIcase (aclLower value) literal = aclEqualIcase value literal := by
    rw [aclEqualIcase, aclLower_idem, aclEqualIcase]
  have tail : (aclLower target).tail = aclLower target.tail := by simp [aclLower]
  have head : (aclLower target).head? = some 64 ↔ target.head? = some 64 := by
    simp [aclLower, kept]
  have bar : 124 ∈ aclLower target ↔ 124 ∈ target := by simp [aclLower, kept]
  simp [targets, named, same, tail, head, bar, show (aclLower target).length = _ from length_map _]

/-- The bits of a target; `@all` has the bit of future commands too. -/
def touches (ids : Option (List Nat)) (i : Nat) : Bool :=
  ids.all (fun named => named.contains i && decide (i < kAclFutureCommandBit))

theorem getLsbD_setBits (allow : Bool) (ids : List Nat) (words : BitVec 256) {i : Nat}
    (bound : i < 256)
    : (ids.foldl (aclSetCommandBit allow) words).getLsbD i
      = if touches (some ids) i then allow else words.getLsbD i := by
  induction ids generalizing words with
  | nil => simp [touches]
  | cons id rest ih =>
    have one : (aclSetCommandBit allow words id).getLsbD i
        = if i = id ∧ i < kAclFutureCommandBit then allow else words.getLsbD i := by
      rw [aclSetCommandBit]
      split
      · grind
      · by_cases here : i = id <;> cases allow <;> simp_all
    rw [foldl_cons, ih, one]
    grind [touches]

variable {tables : AclTables} {perm after : AclSelector} {rule : List UInt8}

def bitAfter (tables : AclTables) (i : Nat) (bit : Bool) (rule : List UInt8) : Bool :=
  match aclReadRule tables rule with
  | .ok (allow, ids) => if touches ids i then allow else bit
  | .error _ => bit

structure Described (tables : AclTables) (perm : AclSelector) : Prop where
  accepted : ∀ rule ∈ perm.commandRules, ∃ read, aclReadRule tables rule = .ok read
  bits : ∀ i < 256, perm.allowedCommands.getLsbD i
    = perm.commandRules.foldl (bitAfter tables i) (aclFutureCommands perm)

theorem getLsbD_aclResetCommands (all : Bool) {i : Nat} (bound : i < 256)
    : (aclResetCommands all).allowedCommands.getLsbD i = all := by
  cases all <;> simp [aclResetCommands, bound, -BitVec.reduceAllOnes]

theorem aclStep_bits {remember : Bool} (taken : aclStep tables remember perm rule = some after)
    {i : Nat} (bound : i < 256)
    : after.allowedCommands.getLsbD i
      = bitAfter tables i (perm.allowedCommands.getLsbD i) rule := by
  revert taken
  rw [aclStep, aclApplyCommandRule, bitAfter]
  rcases aclReadRule tables rule with text | ⟨allow, _ | ids⟩ <;> rintro ⟨⟩
  · exact getLsbD_aclResetCommands allow bound
  · exact getLsbD_setBits allow ids _ bound

/-- Accepted rules replay to the bits they set one by one.
Witness: induction over the rules.
-/
theorem replay_bits {rules : List (List UInt8)}
    (accepted : ∀ rule ∈ rules, ∃ read, aclReadRule tables rule = .ok read) (perm : AclSelector)
    : ∃ predicted, run (aclStep tables false) perm rules = some predicted
      ∧ ∀ i < 256, predicted.allowedCommands.getLsbD i
        = rules.foldl (bitAfter tables i) (perm.allowedCommands.getLsbD i) := by
  induction rules generalizing perm with
  | nil => exact ⟨perm, rfl, fun _ _ => rfl⟩
  | cons rule rest ih =>
    obtain ⟨⟨read, found⟩, others⟩ := forall_mem_cons.mp accepted
    cases taken : aclStep tables false perm rule with
    | none => simp [aclStep, aclApplyCommandRule, found, Except.map, Except.toOption] at taken
    | some next =>
      obtain ⟨predicted, ran, bits⟩ := ih others next
      refine ⟨predicted, by rw [run, taken]; exact ran, fun i bound => ?_⟩
      rw [bits i bound, aclStep_bits taken bound, foldl_cons]

theorem Described.verify (described : Described tables perm)
    : aclVerifyCommandDescription tables perm = true := by
  obtain ⟨predicted, ran, bits⟩ :=
    replay_bits described.accepted (aclResetCommands (aclFutureCommands perm))
  rw [aclVerifyCommandDescription, ran]
  refine beq_iff_eq.mpr (BitVec.eq_of_getLsbD_eq (fun i bound => ?_))
  rw [bits i bound, getLsbD_aclResetCommands _ bound, described.bits i bound]

/-- The lowered form of an accepted rule is the same rule. -/
theorem aclReadRule_ok {read : Bool × Option (List Nat)}
    (found : aclReadRule tables rule = .ok read)
    : tables.targets rule.tail = .ok read.2
      ∧ aclReadRule tables (rule.take 1 ++ aclLower rule.tail) = .ok read := by
  rcases rule with _ | ⟨sign, target⟩
  · cases found
  · have empty : aclLower target = [] ↔ target = [] := map_eq_nil_iff
    have lower : aclReadRule tables (sign :: aclLower target) = .ok read := by
      simpa only [aclReadRule, empty, tables.targets_lower] using found
    rw [aclReadRule] at found
    split at found
    · cases found
    · cases named : tables.targets target <;> rw [named] at found <;> cases found
      exact ⟨named, lower⟩

/-- A rule of the same target leaves the bits that the target does not have. -/
theorem bitAfter_of_target {old : List UInt8} {allow : Bool} {ids : Option (List Nat)}
    (read : aclReadRule tables rule = .ok (allow, ids))
    (same : aclLower old.tail = aclLower rule.tail) {i : Nat} (outside : touches ids i = false)
    (bit : Bool)
    : bitAfter tables i bit old = bit := by
  rw [bitAfter]
  split
  · rename_i was other found
    have named := (aclReadRule_ok found).1
    rw [← tables.targets_lower, same, tables.targets_lower, (aclReadRule_ok read).1] at named
    rw [← show ids = other from Except.ok.inj named, outside, if_neg Bool.false_ne_true]
  · rfl

/-- A described selector stays described by every accepted rule. -/
theorem Described.step (described : Described tables perm)
    (taken : aclStep tables true perm rule = some after) : Described tables after := by
  have set := fun i (bound : i < 256) => aclStep_bits taken bound
  rw [aclStep, aclApplyCommandRule] at taken
  rcases read : aclReadRule tables rule with text | ⟨allow, _ | ids⟩ <;> rw [read] at taken
  · cases taken
  · cases taken
    refine ⟨fun _ member => absurd member not_mem_nil, fun i bound => ?_⟩
    exact (getLsbD_aclResetCommands _ bound).trans (getLsbD_aclResetCommands _ (by decide)).symm
  · obtain ⟨-, lower⟩ := aclReadRule_ok read
    have rules : after.commandRules = aclUpdateCommandRule perm.commandRules rule := by
      rw [← Option.some.inj taken, if_pos rfl]
    have future : aclFutureCommands after = aclFutureCommands perm := by
      rw [aclFutureCommands, set _ (by decide)]
      simp [bitAfter, read, touches, aclFutureCommands]
    rw [aclUpdateCommandRule] at rules
    constructor
    · intro old member
      rcases mem_append.mp (rules ▸ member) with kept | new
      · exact described.accepted old (mem_filter.mp kept).1
      · exact ⟨_, (mem_singleton.mp new) ▸ lower⟩
    · intro i bound
      rw [set i bound, described.bits i bound, future, rules, foldl_append, foldl_filter,
        foldl_cons, foldl_nil, bitAfter, bitAfter, read, lower]
      dsimp only
      split
      · rfl
      · rename_i outside
        -- what the filter drops has the target of this rule
        congr 1
        funext bit old
        split
        · rfl
        · exact bitAfter_of_target read (by simp_all) (Bool.eq_false_iff.mpr outside) bit

/-- After any accepted command rules the remembered ones describe the selector. -/
theorem command_description_exact (tables : AclTables) (rules : List (List UInt8))
    (perm : AclSelector) (ran : run (aclStep tables true) {} rules = some perm)
    : aclVerifyCommandDescription tables perm = true := by
  have start : Described tables {} := ⟨by simp, fun i _ => by simp [aclFutureCommands]⟩
  exact (run_invariant (fun _ _ _ described taken => described.step taken) start ran).verify

/-- `+@R`, `-GET` and `+get` where GET and SET are in the category: `-GET` is forgotten. -/
theorem command_description_exact_replaced
    : aclVerifyCommandDescription ⟨[([71, 69, 84], 1), ([83, 69, 84], 1)], [([114], 1)]⟩
        ⟨3, false, [[43, 64, 114], [43, 103, 101, 116]]⟩ = true :=
  command_description_exact _ [[43, 64, 82], [45, 71, 69, 84], [43, 103, 101, 116]] _ (by decide)

end Thredis.Cmd
