import Thredis.Persist.AofReplay

/-! Loading a shard from its section of a plan. -/

namespace Thredis.Persist

open AofRecord

/-- What the load of a shard reads besides the plan: the clock, the router, and the type hooks with
the text `hook_error` gives for a refusal.
-/
structure AofLoadEnv (V : Type) where
  now : Int
  shardOf : Bytes → Nat
  load : UInt8 → Bytes → UInt8 → BitVec 64 → Bytes → Except String V

inductive AofEffect (V : Type) where
  | clear
  | erase (key : Bytes)
  | insert (key : Bytes) (value : V)
  deriving DecidableEq, Repr

/-- The type code of a stream, the last one. -/
def aofLastType : UInt8 := 5

section
variable {V : Type}

/-- One turn of the loop of `aof_load_shard`; nothing where the record is passed over. -/
def aofLoadRecord (env : AofLoadEnv V) (committed : List (BitVec 64)) (sid : Nat)
    (record : AofRecord) : Except String (Option (AofEffect V)) :=
  if record.kind = AofRecordKind.timestamp.code
      ∨ record.kind = AofRecordKind.groupCommit.code then .ok none
  else if record.kind = AofRecordKind.flush.code then .ok (some .clear)
  else if record.isGroupFragment = true ∧ ¬ committed.contains record.group then .ok none
  else if env.shardOf record.key ≠ sid then .error "AOF key is in the wrong shard stream"
  else if record.kind = AofRecordKind.del.code ∨ record.kind = AofRecordKind.groupDel.code
      ∨ (0 ≤ record.expire.toInt ∧ record.expire.toInt ≤ env.now) then
    .ok (some (.erase record.key))
  else if (record.kind ≠ AofRecordKind.put.code ∧ record.kind ≠ AofRecordKind.groupPut.code)
      ∨ aofLastType < record.type then
    .error "invalid AOF value record"
  else
    match env.load record.type record.key record.encoding record.expire record.payload with
    | .error error => .error error
    | .ok value => .ok (some (.insert record.key value))

/-- The loop of `aof_load_shard`: the records it applies, each with its effect. -/
def aofLoadRecords (env : AofLoadEnv V) (committed : List (BitVec 64)) (sid : Nat)
    : Nat → Bytes → Except String (List (AofRecord × AofEffect V))
  | 0, _ => .ok []
  | turns + 1, bytes =>
    if bytes = [] then .ok []
    else
      match parseRecordBounds bytes with
      | .error error => .error error
      | .ok (record, rest) =>
        match aofLoadRecord env committed sid record with
        | .error error => .error error
        | .ok effect =>
          match aofLoadRecords env committed sid turns rest with
          | .error error => .error error
          | .ok applied => .ok ((effect.map (Prod.mk record)).toList ++ applied)

def aofLoadShard (env : AofLoadEnv V) (plan : AofReplayPlan) (sid : Nat)
    : Except String (List (AofRecord × AofEffect V)) :=
  match plan.sections[sid]? with
  | none => .error "AOF shard section is missing"
  | some bytes => aofLoadRecords env plan.committedGroups sid bytes.length bytes

def AofRecord.isApplied (committed : List (BitVec 64)) (record : AofRecord) : Bool :=
  record.kind != AofRecordKind.timestamp.code && record.kind != AofRecordKind.groupCommit.code
    && (!record.isGroupFragment || committed.contains record.group)

variable {env : AofLoadEnv V} {committed : List (BitVec 64)} {sid : Nat}

theorem aofLoadRecord_isApplied {record : AofRecord} {effect : Option (AofEffect V)}
    (loaded : aofLoadRecord env committed sid record = .ok effect)
    : effect.isSome = record.isApplied committed := by
  have applied (known : ¬ (record.kind = AofRecordKind.timestamp.code
      ∨ record.kind = AofRecordKind.groupCommit.code))
      (kept : ¬ (record.isGroupFragment = true ∧ ¬ committed.contains record.group))
      : true = record.isApplied committed := by
    have known := not_or.mp known
    cases fragment : record.isGroupFragment with
    | false => simp [isApplied, known, fragment]
    | true =>
      have member : committed.contains record.group = true := by
        by_contra absent
        exact kept ⟨fragment, absent⟩
      simp [isApplied, known, List.contains_iff_mem.mp member]
  revert loaded
  fun_cases aofLoadRecord env committed sid record with
  | case1 passed =>
    rintro ⟨rfl⟩
    rcases passed with passed | passed <;> simp [isApplied, passed]
  | case2 known flush =>
    rintro ⟨rfl⟩
    have plain : record.isGroupFragment = false := by
      simp only [isGroupFragment, flush]
      decide
    exact applied known (by simp [plain])
  | case3 known flush skipped =>
    rintro ⟨rfl⟩
    have absent := Bool.not_eq_true _ ▸ skipped.2
    rw [isApplied, skipped.1, absent]
    simp
  | case5 known _ kept | case8 known _ kept =>
    rintro ⟨rfl⟩
    exact applied known kept
  | _ => nofun

/-- A shard that loads applies every record of its stream but the ones passed over. -/
theorem aofLoadRecords_applied (records : List AofRecord) {turns : Nat}
    {applied : List (AofRecord × AofEffect V)} (enough : records.length ≤ turns)
    (loaded : aofLoadRecords env committed sid turns (records.flatMap bytes) = .ok applied)
    : applied.map Prod.fst = records.filter (isApplied committed) := by
  induction records generalizing turns applied with
  | nil =>
    cases turns with
    | zero | succ turns => cases loaded; rfl
  | cons record records ih =>
    cases turns with
    | zero => simp at enough
    | succ turns =>
      rw [List.flatMap_cons, aofLoadRecords, if_neg (record.bytes_append_ne_nil _)] at loaded
      simp only [parseRecordBounds_bytes] at loaded
      generalize others : aofLoadRecords env committed sid turns
        (records.flatMap bytes) = tail at loaded
      cases one : aofLoadRecord env committed sid record with
      | error error => simp only [one, reduceCtorEq] at loaded
      | ok effect =>
        cases tail with
        | error error => simp only [one, reduceCtorEq] at loaded
        | ok rest =>
          simp only [one, Except.ok.injEq] at loaded
          have head := aofLoadRecord_isApplied one
          rw [← loaded, List.map_append, List.filter_cons, ← head,
            ih (by rw [List.length_cons] at enough; omega) others]
          cases effect <;> simp

end

end Thredis.Persist
