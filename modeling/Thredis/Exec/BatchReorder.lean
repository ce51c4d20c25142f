import Thredis.Lib.BucketSort
import Thredis.Lib.ProbeTable

/-! Latency scheduling within one gathered executor batch. Runs of candidates between barriers are
sorted by the distance of each operation from its connection's flush id and by command length.
-/

namespace Thredis.Exec

open Thredis.Lib

structure CommandSpec where
  flags : Nat
  lengthClass : Nat
  deriving DecidableEq, Repr

structure SchedOp where
  spec : Option CommandSpec
  blockingState : Bool
  atomicHazard : Bool
  deriving DecidableEq, Repr

structure BatchTask where
  client : UInt64
  opId : UInt64
  shard : Int
  scatter : Bool
  op : SchedOp
  deriving DecidableEq, Repr

/-- The two executor geometries the scheduler is instantiated at. -/
inductive ExecBatch where
  | genthread
  | pipeline
  deriving DecidableEq, Repr

def ExecBatch.ops : ExecBatch → Nat
  | .genthread => 32
  | .pipeline => 128

def longClass : Nat := 2

def schedClasses : Nat := 3

def robWindow : Nat := 64

/-- `kSpecial`: Admin, ConnLocal, AllShards, RandomShard, CursorShard, ConfigRoute, ScriptRoute,
PubSub, Blocking, Transaction, StreamRoute, SubcmdRoute and FlipAsync.
-/
def specialFlags : Nat :=
  ([2, 3, 4, 5, 6, 7, 11, 12, 13, 14, 17, 20, 25].map (2 ^ ·)).sum

def exSchedCandidate (task : BatchTask) : Option Nat :=
  if task.client = 0 ∨ task.scatter then none
  else
    match task.op.spec with
    | none => none
    | some spec =>
      if task.op.blockingState ∨ spec.flags &&& specialFlags ≠ 0
          ∨ schedClasses ≤ spec.lengthClass then none
      else some (if task.op.atomicHazard then longClass else spec.lengthClass)

/-- `ExScheduleKey` with its task. -/
structure Ranked where
  task : BatchTask
  rank : Nat
  length : Nat
  deriving DecidableEq, Repr

def Ranked.bucket (ranked : Ranked) : Nat := ranked.rank * schedClasses + ranked.length

/-- The last flush id loaded, with its connection, and the keys made with it so far. -/
structure Sampled where
  client : UInt64
  head : UInt64
  keys : List Ranked

section Run

-- The flush id of each connection at each load; a run that begins at task `first` of the batch
-- makes its loads at the ticks from `first` on, newest task first.
variable (flush : Nat → UInt64 → UInt64)

/-- Ranks the tasks, newest to oldest, reusing a flush id for neighbours of one connection; none
where a task is outside its connection's window.
-/
def sampleKeys (first : Nat) : List (BatchTask × Nat) → Option Sampled
  | [] => some { client := 0, head := 0, keys := [] }
  | (task, length) :: rest => do
    let later ← sampleKeys first rest
    let head :=
      if task.client = later.client then later.head else flush (first + rest.length) task.client
    let rank := (task.opId - head).toNat
    if rank < robWindow then
      some { client := task.client, head, keys := { task, rank, length } :: later.keys }
    else
      none

def degenerate (keys : List Ranked) : Bool :=
  keys.all fun one => keys.all fun other => one.length = other.length ∧ one.rank ≤ other.rank + 1

/-- What the connection table remembers of a connection's last task. -/
structure Chain where
  client : UInt64
  opId : UInt64
  length : Nat
  deriving DecidableEq, Repr

def chainHome (slots : Nat) (client : UInt64) : Nat :=
  let hash := client ^^^ (client >>> 33)
  let hash := hash * 0xff51afd7ed558ccd
  let hash := hash ^^^ (hash >>> 33)
  hash.toUInt32.toNat &&& (slots - 1)

/-- The slot, and the length class, of the next task of a connection. -/
inductive ChainStep where
  | endless
  | fifo
  | at (slot length : Nat)

def chainStep (table : List (Slot Chain)) (key : Ranked) : ChainStep :=
  match probe (·.client = key.task.client) table table.length
      (chainHome table.length key.task.client) none with
  | .exhausted => .endless
  | .vacant slot _ => .at slot (if key.rank ≠ 0 then longClass else key.length)
  | .hit slot last =>
    if key.task.opId ≤ last.opId then .fifo
    else .at slot (if key.task.opId ≠ last.opId + 1 then longClass else max key.length last.length)

/-- Raises every length class to its connection's prefix maximum. The inner `none` keeps the
gathered order, the outer one is a probe that does not end.
-/
def widen : List (Slot Chain) → List Ranked → Option (Option (List Ranked))
  | _, [] => some (some [])
  | table, key :: rest =>
    match chainStep table key with
    | .endless => none
    | .fifo => some none
    | .at slot length =>
      let chain : Chain := { client := key.task.client, opId := key.task.opId, length }
      (widen (table.set slot (.live chain)) rest).map (·.map ({ key with length } :: ·))

def alreadyOrdered : List Ranked → Bool
  | one :: other :: rest => one.bucket ≤ other.bucket && alreadyOrdered (other :: rest)
  | _ => true

/-- Orders one run of candidates. The answer's number is 0 for a run of one connection, 1 where
the order is kept and 2 where it is permuted. Counts and cursors are bytes in the source, which
holds the at most 128 tasks of a batch.
-/
def exScheduleRun (batch : ExecBatch) (first : Nat) (tasks : List (BatchTask × Nat))
    : Option (Nat × List BatchTask) :=
  let kept := tasks.map (·.1)
  if tasks.length < 2 ∨ ∀ task ∈ kept, ∀ other ∈ kept.head?, task.client = other.client then
    some (0, kept)
  else
    match sampleKeys flush first tasks with
    | none => some (1, kept)
    | some sampled =>
      if degenerate sampled.keys then some (1, kept)
      else
        (widen (List.replicate (batch.ops * 2) .empty) sampled.keys).map fun
          | none => (1, kept)
          | some keys =>
            if degenerate keys ∨ alreadyOrdered keys then (1, kept)
            else (2, (bucketSort Ranked.bucket (robWindow * schedClasses) keys).filterMap
              (·.map Ranked.task))

/-- The candidates a batch starts with, with their length classes. -/
def candidateRun : List BatchTask → List (BatchTask × Nat)
  | [] => []
  | task :: rest =>
    match exSchedCandidate task with
    | some length => (task, length) :: candidateRun rest
    | none => []

structure ReorderResult where
  multiClientRuns : Nat := 0
  permutedRuns : Nat := 0
  deriving DecidableEq, Repr

def ReorderResult.note (result : ReorderResult) (witness : Nat) : ReorderResult where
  multiClientRuns := result.multiClientRuns + if witness ≠ 0 then 1 else 0
  permutedRuns := result.permutedRuns + if witness = 2 then 1 else 0

/-- The batch from task `first` on. The task that ends a run is not looked at again. -/
def scheduleFrom (batch : ExecBatch) (first : Nat) (result : ReorderResult)
    (tasks : List BatchTask) : Option (List BatchTask × ReorderResult) :=
  match tasks with
  | [] => some ([], result)
  | task :: rest =>
    if (exSchedCandidate task).isNone then
      (scheduleFrom batch (first + 1) result rest).map fun (out, result) => (task :: out, result)
    else
      let run := candidateRun (task :: rest)
      (exScheduleRun flush batch first run).bind fun (witness, front) =>
        match ended : rest.drop (run.length - 1) with
        | [] => some (front, result.note witness)
        | barrier :: later =>
          (scheduleFrom batch (first + run.length + 1) (result.note witness) later).map
            fun (out, result) => (front ++ barrier :: out, result)
termination_by tasks.length
decreasing_by
  · simp
  · have shorter := congrArg List.length ended
    simp at shorter ⊢
    omega

/-- `ex_schedule_batch`; none is an abort or a probe that does not end. -/
def exScheduleBatch (batch : ExecBatch) (tasks : List BatchTask)
    : Option (List BatchTask × ReorderResult) :=
  if batch.ops < tasks.length then none else scheduleFrom flush batch 0 {} tasks

end Run

end Thredis.Exec
