import Thredis.Lib.Runs
import Thredis.Lib.SwapRemove

/-! Who owns a shard. The Router's bucket entries, the threads' shard lists, the shard-owner words
and what a shard names of its owner are written one after another by a transfer; they agree after
every call, and a refused call leaves them alone.
-/

namespace Thredis.Core

open Thredis.Lib List Option Function

def numBuckets : Nat := 16384

/-- `kNoOwner`; thread ids stay below it. -/
def noOwner : Nat := 65535

/-- The sizes and homes the server is started with; `init` refuses others. -/
structure Layout where
  shards : Nat
  threads : Nat
  home : Nat → Nat
  readLocal : Bool
  some_shard : 0 < shards
  shards_le : shards ≤ 256
  threads_le : threads ≤ 128
  home_lt : ∀ shard, home shard < threads

namespace Layout

variable (layout : Layout)

def bucketBegin (shard : Nat) : Nat := shard * (numBuckets / layout.shards)

def bucketEnd (shard : Nat) : Nat :=
  if shard + 1 = layout.shards then numBuckets else (shard + 1) * (numBuckets / layout.shards)

/-- The shard `build_uniform` gives a bucket: the remainder goes to the last one. -/
def shardOf (bucket : Nat) : Nat :=
  min (bucket / (numBuckets / layout.shards)) (layout.shards - 1)

end Layout

inductive TransferPhase where
  | idle
  | preparing
  | committed
  deriving DecidableEq, Repr

/-- `Router`: the packed shard and owner of every bucket, and the transfer words. -/
structure Router where
  entries : Nat → Nat × Nat
  phase : TransferPhase
  writer : Bool
  transferBegin : Nat
  transferEnd : Nat
  destination : Nat

namespace Router

/-- Gives the buckets of a range an owner. -/
def own (entries : Nat → Nat × Nat) (first last owner : Nat) (bucket : Nat) : Nat × Nat :=
  if first ≤ bucket ∧ bucket < last then ((entries bucket).1, owner) else entries bucket

/-- The writer flag is tried first; every later refusal clears it again. -/
def beginTransfer (router : Router) (first last source destination : Nat) : Router × Bool :=
  if last ≤ first ∨ numBuckets < last ∨ source = destination ∨ noOwner ≤ source
      ∨ noOwner ≤ destination ∨ router.writer then (router, false)
  else if router.phase ≠ .idle ∨ ∃ bucket < last, first ≤ bucket
      ∧ (router.entries bucket).2 ≠ source then ({ router with writer := false }, false)
  else
    ({ router with
      phase := .preparing, writer := true, transferBegin := first, transferEnd := last,
      destination }, true)

/-- None is the abort. -/
def commitTransfer (router : Router) : Option Router :=
  if router.phase = .preparing then
    some { router with
      phase := .committed
      entries := own router.entries router.transferBegin router.transferEnd router.destination }
  else
    none

def finishTransfer (router : Router) : Option Router :=
  if router.phase = .committed then some { router with phase := .idle, writer := false } else none

end Router

/-- The four structures, and the thread whose retire sink and notification word a shard names. -/
structure Ownership where
  router : Router
  lists : Nat → List Nat
  shardOwner : Nat → Nat
  sink : Nat → Option Nat
  notify : Nat → Nat

/-- What a call meets besides the ownership structures: the executors, the threads about to
become one, the answers of the allocator, and the threads whose loop has bound its words.
-/
structure TransferEnv where
  live : Nat → Bool
  futureEx : Nat → Bool
  granted : Bool
  reserved : Bool
  bound : Nat → Bool

namespace Ownership

variable (layout : Layout)

def placeShard (state : Ownership) (shard : Nat) : Ownership :=
  { state with
    lists := Function.update state.lists (layout.home shard)
      (state.lists (layout.home shard) ++ [shard])
    router := { state.router with
      entries := Router.own state.router.entries (layout.bucketBegin shard) (layout.bucketEnd shard)
        (layout.home shard) }
    shardOwner := Function.update state.shardOwner shard (layout.home shard) }

def activate (state : Ownership) : Ownership :=
  { state with
    sink := fun shard => if layout.readLocal then some (state.shardOwner shard) else none
    notify := state.shardOwner }

def unowned : Ownership where
  router := ⟨fun bucket => (layout.shardOf bucket, noOwner), .idle, false, 0, 0, noOwner⟩
  lists _ := []
  shardOwner _ := noOwner
  sink _ := none
  notify _ := noOwner

def start : Ownership :=
  activate layout ((List.range layout.shards).foldl (placeShard layout) (unowned layout))

/-- The steps after a successful `begin_transfer`. The lists are settled first; the words of the
shards follow the Router's commit.
-/
def handOver (env : TransferEnv) (state : Ownership) (router : Router) (moving left : List Nat)
    (source destination : Nat) : Option (Ownership × Bool) :=
  if env.bound destination then do
    let committed ← router.commitTransfer
    let finished ← committed.finishTransfer
    return ({
      router := finished
      lists := Function.update (Function.update state.lists destination
        (state.lists destination ++ moving)) source left
      shardOwner := fun shard => if shard ∈ moving then destination else state.shardOwner shard
      sink := fun shard =>
        if layout.readLocal ∧ shard ∈ moving then some destination else state.sink shard
      notify := fun shard => if shard ∈ moving then destination else state.notify shard }, true)
  else
    none

/-- The shards of a range, which must be whole, in order and the source's. -/
def movingShards (state : Ownership) (first last source : Nat)
    : List Nat → Nat → Option (List Nat × Nat)
  | [], cursor => some ([], cursor)
  | shard :: rest, cursor =>
    if layout.bucketEnd shard ≤ first ∨ last ≤ layout.bucketBegin shard then
      movingShards state first last source rest cursor
    else if layout.bucketBegin shard ≠ cursor ∨ last < layout.bucketEnd shard
        ∨ state.shardOwner shard ≠ source then none
    else
      (movingShards state first last source rest (layout.bucketEnd shard)).map
        fun (moving, cursor) => (shard :: moving, cursor)

def transferBucketRange (env : TransferEnv) (state : Ownership)
    (first last source destination : Nat) : Option (Ownership × Bool) :=
  if last ≤ first ∨ numBuckets < last ∨ layout.threads ≤ source ∨ layout.threads ≤ destination
      ∨ source = destination ∨ !env.live source ∨ !env.live destination ∨ !env.granted then
    some (state, false)
  else
    match movingShards layout state first last source (List.range layout.shards) first with
    | none => some (state, false)
    | some (moving, cursor) =>
      if moving = [] ∨ cursor ≠ last
          ∨ (∃ shard ∈ moving, shard ∉ state.lists source ∨ shard ∈ state.lists destination)
          ∨ !env.reserved then some (state, false)
      else
        match state.router.beginTransfer first last source destination with
        | (router, false) => some ({ state with router }, false)
        | (router, true) =>
          handOver layout env state router moving
            ((state.lists source).filter (· ∉ moving)) source destination

def transferShard (env : TransferEnv) (state : Ownership) (shard source destination : Nat)
    : Option (Ownership × Bool) :=
  if layout.shards ≤ shard ∨ layout.threads ≤ source ∨ layout.threads ≤ destination
      ∨ source = destination ∨ !env.live source
      ∨ !(env.live destination || env.futureEx destination) ∨ state.shardOwner shard ≠ source
      ∨ shard ∉ state.lists source ∨ shard ∈ state.lists destination ∨ !env.reserved then
    some (state, false)
  else
    match state.router.beginTransfer (layout.bucketBegin shard) (layout.bucketEnd shard) source
        destination with
    | (router, false) => some ({ state with router }, false)
    | (router, true) =>
      handOver layout env state router [shard]
        (swapRemove (state.lists source) ((state.lists source).idxOf shard)) source destination

end Ownership

inductive TransferCall where
  | range (env : TransferEnv) (first last source destination : Nat)
  | shard (env : TransferEnv) (shard source destination : Nat)

namespace Ownership

def call (layout : Layout) (state : Ownership) : TransferCall → Option (Ownership × Bool)
  | .range env first last source destination =>
    transferBucketRange layout env state first last source destination
  | .shard env shard source destination => transferShard layout env state shard source destination

/-- A call's state, whatever it answers; none where it aborts. -/
def step (layout : Layout) (state : Ownership) (made : TransferCall) : Option Ownership :=
  (state.call layout made).map (·.1)

structure Agrees (layout : Layout) (state : Ownership) : Prop where
  listed : ∀ shard < layout.shards, ∀ thread,
    shard ∈ state.lists thread ↔ thread = state.shardOwner shard
  once : ∀ thread, (state.lists thread).Nodup
  known : ∀ thread, ∀ shard ∈ state.lists thread, shard < layout.shards
  entries : ∀ bucket < numBuckets, ∃ shard < layout.shards,
    layout.bucketBegin shard ≤ bucket ∧ bucket < layout.bucketEnd shard
    ∧ state.router.entries bucket = (shard, state.shardOwner shard)
  owners : ∀ shard < layout.shards, state.shardOwner shard < layout.threads
  idle : state.router.phase = .idle ∧ state.router.writer = false
  sinks : ∀ shard < layout.shards,
    state.sink shard = if layout.readLocal then some (state.shardOwner shard) else none
  targets : ∀ shard < layout.shards, state.notify shard = state.shardOwner shard

variable {layout : Layout} {state next : Ownership} {env : TransferEnv}

theorem per_pos (layout : Layout) : 0 < numBuckets / layout.shards :=
  Nat.div_pos (Nat.le_trans layout.shards_le (by decide)) layout.some_shard

theorem shardOf_lt (layout : Layout) (bucket : Nat) : layout.shardOf bucket < layout.shards := by
  have := layout.some_shard
  rw [Layout.shardOf]
  omega

/-- Each bucket is in the range of one shard, the one `build_uniform` gives it. -/
theorem mem_range_iff {bucket shard : Nat} (inside : bucket < numBuckets)
    (known : shard < layout.shards)
    : layout.bucketBegin shard ≤ bucket ∧ bucket < layout.bucketEnd shard
      ↔ shard = layout.shardOf bucket := by
  have first : layout.bucketBegin shard ≤ bucket ↔ shard ≤ bucket / (numBuckets / layout.shards) :=
    (Nat.le_div_iff_mul_le (per_pos layout)).symm
  have last : bucket < (shard + 1) * (numBuckets / layout.shards)
      ↔ bucket / (numBuckets / layout.shards) < shard + 1 :=
    (Nat.div_lt_iff_lt_mul (per_pos layout)).symm
  rw [Layout.bucketEnd, Layout.shardOf]
  split
  · omega
  · omega

theorem range_nonempty {shard : Nat} (known : shard < layout.shards)
    : layout.bucketBegin shard < layout.bucketEnd shard ∧ layout.bucketEnd shard ≤ numBuckets := by
  have per := per_pos layout
  have fits : layout.shards * (numBuckets / layout.shards) ≤ numBuckets := Nat.mul_div_le _ _
  have below : (shard + 1) * (numBuckets / layout.shards)
      ≤ layout.shards * (numBuckets / layout.shards) := Nat.mul_le_mul_right _ known
  have step : (shard + 1) * (numBuckets / layout.shards)
      = shard * (numBuckets / layout.shards) + numBuckets / layout.shards := Nat.succ_mul _ _
  rw [Layout.bucketBegin, Layout.bucketEnd]
  split <;> omega

/-- The layout after the first `placed` shards have their homes.
Witness: induction over the shards placed.
-/
theorem placed_layout {placed : Nat} (some_left : placed ≤ layout.shards)
    : let state := (range placed).foldl (placeShard layout) (unowned layout)
      (∀ thread, state.lists thread = (range placed).filter (layout.home · = thread))
      ∧ (∀ shard < placed, state.shardOwner shard = layout.home shard)
      ∧ state.router.phase = .idle ∧ state.router.writer = false
      ∧ ∀ bucket < numBuckets, state.router.entries bucket = (layout.shardOf bucket,
          if layout.shardOf bucket < placed then layout.home (layout.shardOf bucket)
          else noOwner) := by
  induction placed with
  | zero => simp [unowned]
  | succ placed ih =>
    obtain ⟨lists, owners, idle, writer, entries⟩ := ih (Nat.le_of_succ_le some_left)
    simp only [range_succ, foldl_append, foldl_cons, foldl_nil, placeShard]
    refine ⟨fun thread => ?_, fun shard below => ?_, idle, writer, fun bucket inside => ?_⟩
    · by_cases here : thread = layout.home placed
      · simp [here, lists]
      · simp [here, lists, Ne.symm here]
    · by_cases here : shard = placed
      · simp [here]
      · simpa [here] using owners shard (by omega)
    · have whole := mem_range_iff inside some_left
      simp only [Router.own, whole, entries bucket inside]
      split
      · rename_i here
        simp [← here]
      · congr 2
        simp only [eq_iff_iff]
        omega

theorem start_agrees (layout : Layout) : (start layout).Agrees layout := by
  obtain ⟨lists, owners, idle, writer, entries⟩ := placed_layout (Nat.le_refl layout.shards)
  refine ⟨fun shard known thread => ?_, fun thread => ?_, fun thread shard member => ?_,
    fun bucket inside => ⟨layout.shardOf bucket, shardOf_lt layout bucket, ?_⟩,
    fun shard known => ?_, ⟨idle, writer⟩, fun _ _ => rfl, fun _ _ => rfl⟩
  · simp only [start, activate, lists, owners shard known, mem_filter, mem_range, known,
      decide_eq_true_eq, true_and]
    exact eq_comm
  · simp only [start, activate, lists]
    exact nodup_range.filter _
  · simp only [start, activate, lists] at member
    exact mem_range.mp (mem_filter.mp member).1
  · have known := shardOf_lt layout bucket
    have inRange := (mem_range_iff inside known).mpr rfl
    have entry := entries bucket inside
    rw [if_pos known, ← owners _ known] at entry
    exact ⟨inRange.1, inRange.2, entry⟩
  · exact Nat.lt_of_le_of_lt (Nat.le_of_eq (owners shard known)) (layout.home_lt shard)

variable {first last source : Nat}

/-- Whole shards of one thread move to another; the buckets that change are theirs. -/
theorem Agrees.handOver (agrees : state.Agrees layout) {moving left : List Nat}
    {destination : Nat} (apart : source ≠ destination)
    (target : destination < layout.threads) (known : ∀ shard ∈ moving, shard < layout.shards)
    (distinct : moving.Nodup) (mine : ∀ shard ∈ moving, state.shardOwner shard = source)
    (whole : ∀ bucket < numBuckets, first ≤ bucket ∧ bucket < last ↔ layout.shardOf bucket ∈ moving)
    (leftOnce : left.Nodup)
    (remaining : ∀ shard, shard ∈ left ↔ shard ∈ state.lists source ∧ shard ∉ moving)
    {answer : Bool}
    (moved : handOver layout env state ⟨state.router.entries, .preparing, true, first, last,
      destination⟩ moving left source destination = some (next, answer))
    : next.Agrees layout ∧ answer = true := by
  simp only [Ownership.handOver, Option.ite_none_right_eq_some] at moved
  obtain ⟨_, rfl, rfl⟩ := moved
  refine ⟨⟨fun shard inside thread => ?_, fun thread => ?_, fun thread shard member => ?_,
    fun bucket inside => ?_, fun shard inside => ?_, ⟨rfl, rfl⟩, fun shard inside => ?_,
    fun shard inside => ?_⟩, rfl⟩
  · have before := agrees.listed shard inside thread
    have owned := mine shard
    by_cases here : thread = source
    · subst here
      by_cases goes : shard ∈ moving <;> simp [remaining, goes, apart, before]
    · by_cases there : thread = destination
      · subst there
        by_cases goes : shard ∈ moving <;> simp [here, goes, before]
      · by_cases goes : shard ∈ moving
        · simp [here, there, goes, before, owned goes]
        · simp [here, there, goes, before]
  · by_cases here : thread = source
    · simpa [here] using leftOnce
    · by_cases there : thread = destination
      · subst there
        have apart' : ∀ shard ∈ state.lists thread, shard ∉ moving := fun shard member goes =>
          here (((agrees.listed shard (known shard goes) thread).mp member).trans (mine shard goes))
        simpa [here] using nodup_append.mpr ⟨agrees.once thread, distinct,
          fun shard member other goes same => apart' shard member (same ▸ goes)⟩
      · simpa [here, there] using agrees.once thread
  · by_cases here : thread = source
    · simp only [here, update_self, remaining] at member
      exact agrees.known source shard member.1
    · by_cases there : thread = destination
      · simp only [there, Ne.symm apart, update_self, ne_eq, not_false_eq_true,
          update_of_ne, mem_append] at member
        exact member.elim (agrees.known destination shard) (known shard)
      · simp only [here, there, ne_eq, not_false_eq_true, update_of_ne] at member
        exact agrees.known thread shard member
  · obtain ⟨shard, inShards, low, high, entry⟩ := agrees.entries bucket inside
    obtain rfl := (mem_range_iff inside inShards).mp ⟨low, high⟩
    refine ⟨_, inShards, low, high, ?_⟩
    simp only [Router.own, whole bucket inside, entry]
    split <;> rfl
  · dsimp only
    split
    · exact target
    · exact agrees.owners shard inside
  · have before := agrees.sinks shard inside
    by_cases goes : shard ∈ moving <;> cases armed : layout.readLocal <;> simp_all
  · have before := agrees.targets shard inside
    dsimp only
    split <;> simp_all

/-- A transfer of buckets the source owns cannot be refused by the Router. -/
theorem Agrees.beginTransfer (agrees : state.Agrees layout) {destination : Nat}
    (order : first < last) (inside : last ≤ numBuckets) (apart : source ≠ destination)
    (origin : source < layout.threads) (target : destination < layout.threads)
    (mine : ∀ bucket < numBuckets, first ≤ bucket ∧ bucket < last
      → state.shardOwner (layout.shardOf bucket) = source)
    : state.router.beginTransfer first last source destination
      = (⟨state.router.entries, .preparing, true, first, last, destination⟩, true) := by
  have few := layout.threads_le
  have owned : ¬ ∃ bucket < last, first ≤ bucket ∧ (state.router.entries bucket).2 ≠ source := by
    rintro ⟨bucket, below, above, foreign⟩
    have known := Nat.lt_of_lt_of_le below inside
    obtain ⟨shard, inShards, low, high, entry⟩ := agrees.entries bucket known
    obtain rfl := (mem_range_iff known inShards).mp ⟨low, high⟩
    exact foreign (by rw [entry]; exact mine bucket known ⟨above, below⟩)
  have fits : ¬ (last ≤ first ∨ numBuckets < last ∨ source = destination ∨ noOwner ≤ source
      ∨ noOwner ≤ destination ∨ state.router.writer) := by
    simp only [agrees.idle.2, noOwner, Bool.false_eq_true, or_false]
    omega
  rw [Router.beginTransfer, if_neg fits, if_neg (by simp [agrees.idle.1, owned])]

/-- Witness: induction over the shards; the cursor never falls below the range's begin. -/
theorem movingShards_whole {cursor reached : Nat} {shards moving : List Nat}
    (ahead : first ≤ cursor)
    (made : movingShards layout state first last source shards cursor = some (moving, reached))
    : moving = shards.filter (fun shard =>
        first < layout.bucketEnd shard ∧ layout.bucketBegin shard < last)
      ∧ ∀ shard ∈ moving, first ≤ layout.bucketBegin shard ∧ layout.bucketEnd shard ≤ last
        ∧ state.shardOwner shard = source := by
  induction shards generalizing cursor moving with
  | nil =>
    obtain ⟨rfl, _⟩ := Prod.mk.inj (some.inj made)
    simp
  | cons shard rest ih =>
    rw [movingShards] at made
    split at made
    · rw [filter_cons_of_neg (by simp; omega)]
      exact ih ahead made
    · split at made
      · cases made
      · obtain ⟨⟨tail, end_⟩, collected, same⟩ := map_eq_some_iff.mp made
        obtain ⟨rfl, rfl⟩ := Prod.mk.inj same
        obtain ⟨rfl, inside⟩ := ih (by omega) collected
        rw [filter_cons_of_pos (by simp; omega)]
        refine ⟨rfl, fun other member => ?_⟩
        rcases mem_cons.mp member with rfl | member
        · omega
        · exact inside other member

/-- A transfer that is refused changes nothing; one that succeeds keeps the agreement. -/
theorem Agrees.call (agrees : state.Agrees layout) {made : TransferCall} {answer : Bool}
    (called : state.call layout made = some (next, answer))
    : next.Agrees layout ∧ (answer = false → next = state) := by
  have refused (same : some (state, false) = some (next, answer))
      : next.Agrees layout ∧ (answer = false → next = state) := by
    obtain ⟨rfl, rfl⟩ := Prod.mk.inj (some.inj same)
    exact ⟨agrees, fun _ => rfl⟩
  cases made with
  | range env first last source destination =>
    rw [Ownership.call, transferBucketRange] at called
    split at called
    · exact refused called
    split at called
    · exact refused called
    rename_i moving cursor collected
    split at called
    · exact refused called
    obtain ⟨rfl, inside⟩ := movingShards_whole (Nat.le_refl first) collected
    have whole (bucket : Nat) (known : bucket < numBuckets) : first ≤ bucket ∧ bucket < last
        ↔ layout.shardOf bucket ∈ (range layout.shards).filter (fun shard =>
          first < layout.bucketEnd shard ∧ layout.bucketBegin shard < last) := by
      have range := (mem_range_iff known (shardOf_lt layout bucket)).mpr rfl
      constructor
      · simp [shardOf_lt layout bucket]
        omega
      · intro moves
        have := inside _ moves
        omega
    rw [agrees.beginTransfer (by omega) (by omega) (by omega) (by omega) (by omega)
      fun bucket known within => (inside _ ((whole bucket known).mp within)).2.2] at called
    have moved := agrees.handOver (by omega) (by omega)
      (fun shard member => mem_range.mp (mem_filter.mp member).1)
      (nodup_range.filter _) (fun shard member => (inside shard member).2.2) whole
      ((agrees.once source).filter _)
      (fun shard => by rw [mem_filter, decide_eq_true_eq]) called
    exact ⟨moved.1, fun refusal => absurd (moved.2.symm.trans refusal) (by simp)⟩
  | shard env shard source destination =>
    rw [Ownership.call, transferShard] at called
    split at called
    · exact refused called
    rename_i checks
    simp only [not_or, Nat.not_le, not_not] at checks
    obtain ⟨known, origin, target, apart, _, _, mine, listed, _, _⟩ := checks
    have range := range_nonempty known
    have whole (bucket : Nat) (inside : bucket < numBuckets)
        : layout.bucketBegin shard ≤ bucket ∧ bucket < layout.bucketEnd shard
          ↔ layout.shardOf bucket ∈ [shard] := by
      rw [mem_range_iff inside known, mem_singleton, eq_comm]
    rw [agrees.beginTransfer range.1 range.2 apart origin target fun bucket inside within => by
      rw [mem_singleton.mp ((whole bucket inside).mp within), mine]] at called
    have removed := swapRemove_perm (getElem?_idxOf listed)
    have once := removed.nodup_iff.mpr (agrees.once source)
    have moved := agrees.handOver apart target (by simpa using known) (nodup_singleton _)
      (by simpa using mine) whole once.of_cons (fun other => by
        rw [← removed.mem_iff, mem_cons, mem_singleton]
        have := (nodup_cons.mp once).1
        constructor
        · exact fun member => ⟨.inr member, fun same => this (same ▸ member)⟩
        · exact fun ⟨either, other⟩ => either.resolve_left other) called
    exact ⟨moved.1, fun refusal => absurd (moved.2.symm.trans refusal) (by simp)⟩

/-- After every sequence of transfers from the layout built at start-up, each shard is on one
thread's list, its owner's, which every other structure names too; the Router is idle, and a call
that is refused there changes nothing.
-/
theorem ownership_agrees (layout : Layout) {calls : List TransferCall}
    (ran : run (step layout) (start layout) calls = some state)
    : (∀ shard < layout.shards,
        (∀ thread, shard ∈ state.lists thread ↔ thread = state.shardOwner shard)
        ∧ (state.lists (state.shardOwner shard)).count shard = 1
        ∧ state.shardOwner shard < layout.threads
        ∧ (∀ bucket < numBuckets, layout.bucketBegin shard ≤ bucket
          ∧ bucket < layout.bucketEnd shard → state.router.entries bucket
            = (shard, state.shardOwner shard))
        ∧ state.sink shard = (if layout.readLocal then some (state.shardOwner shard) else none)
        ∧ state.notify shard = state.shardOwner shard)
      ∧ (∀ bucket < numBuckets, (state.router.entries bucket).1 = layout.shardOf bucket)
      ∧ state.router.phase = .idle
      ∧ ∀ made next, state.call layout made = some (next, false) → next = state := by
  have agrees : state.Agrees layout := by
    refine run_invariant (fun before event after held stepped => ?_) (start_agrees layout) ran
    obtain ⟨⟨reached, answer⟩, called, rfl⟩ := map_eq_some_iff.mp stepped
    exact (held.call called).1
  refine ⟨fun shard known => ⟨agrees.listed shard known, ?_, agrees.owners shard known,
    fun bucket inside within => ?_, agrees.sinks shard known, agrees.targets shard known⟩,
    fun bucket inside => ?_, agrees.idle.1, fun made next called => (agrees.call called).2 rfl⟩
  · exact count_eq_one_of_mem (agrees.once _) ((agrees.listed shard known _).mpr rfl)
  · obtain ⟨same, inShards, low, high, entry⟩ := agrees.entries bucket inside
    obtain rfl := (mem_range_iff inside inShards).mp ⟨low, high⟩
    obtain rfl := (mem_range_iff inside known).mp within
    exact entry
  · obtain ⟨same, inShards, low, high, entry⟩ := agrees.entries bucket inside
    rw [entry]
    exact (mem_range_iff inside inShards).mp ⟨low, high⟩

def twoThreads : Layout where
  shards := 256
  threads := 2
  home := (· % 2)
  readLocal := true
  some_shard := by decide
  shards_le := by decide
  threads_le := by decide
  home_lt shard := Nat.mod_lt shard (by decide)

def readyEnv : TransferEnv := ⟨fun _ => true, fun _ => false, true, true, fun _ => true⟩

/-- Shard 0 is moved, is refused where it no longer is, and comes back with its neighbour. -/
def transfers : List TransferCall :=
  [.shard readyEnv 0 0 1, .shard readyEnv 0 0 1, .range readyEnv 0 128 1 0]

theorem ownership_agrees_moved
    : ∃ state, run (step twoThreads) (start twoThreads) transfers = some state
      ∧ (state.shardOwner 0 = 0 ∧ state.shardOwner 1 = 0)
      ∧ (∀ thread, 1 ∈ state.lists thread ↔ thread = 0) ∧ state.router.phase = .idle := by
  have moves : ((run (step twoThreads) (start twoThreads) transfers).map fun state =>
      (state.shardOwner 0, state.shardOwner 1)) = some (0, 0) := by decide +kernel
  obtain ⟨state, ran, owners⟩ := map_eq_some_iff.mp moves
  rw [Prod.mk.injEq] at owners
  obtain ⟨agrees, -, idle, -⟩ := ownership_agrees twoThreads ran
  exact ⟨state, ran, owners, fun thread => owners.2 ▸ (agrees 1 (by decide)).1 thread, idle⟩

end Ownership

end Thredis.Core
