import Thredis.Exec.BatchReorder

/-! What scheduling a batch keeps. The ids of a connection's tasks grow, its flush id only
advances while they are ranked newest first, so an older task has the smaller rank.
-/

namespace Thredis.Exec

open Thredis.Lib List Option

/-- Flush ids only grow, and stay clear of the end of their range. -/
structure Advances (flush : Nat → UInt64 → UInt64) : Prop where
  grows : ∀ {early late : Nat}, early ≤ late → ∀ client, flush early client ≤ flush late client
  clear : ∀ tick client, (flush tick client).toNat + robWindow ≤ 2 ^ 64

theorem rank_lt {older newer oldHead newHead : UInt64} (order : older < newer)
    (advanced : newHead ≤ oldHead) (clear : oldHead.toNat + robWindow ≤ 2 ^ 64)
    (oldInside : (older - oldHead).toNat < robWindow)
    : (older - oldHead).toNat < (newer - newHead).toNat := by
  rw [UInt64.lt_iff_toNat_lt] at order
  rw [UInt64.le_iff_toNat_le] at advanced
  rw [UInt64.toNat_sub] at oldInside ⊢
  rw [UInt64.toNat_sub]
  have := newer.toNat_lt
  omega

variable {flush : Nat → UInt64 → UInt64} {first : Nat}

/-- What the samples say about the keys: every rank is the distance from a flush id that is not
ahead of the ones loaded later.
-/
structure SampledFrom (flush : Nat → UInt64 → UInt64) (first : Nat)
    (tasks : List (BatchTask × Nat)) (sampled : Sampled) : Prop where
  whole : sampled.keys.map (fun key => (key.task, key.length)) = tasks
  ranks : ∀ key ∈ sampled.keys, key.rank < robWindow
  heads : ∀ key ∈ sampled.keys, ∃ head, key.rank = (key.task.opId - head).toNat
    ∧ (∀ tick ≥ first + tasks.length, head ≤ flush tick key.task.client)
    ∧ (key.task.client = sampled.client → head ≤ sampled.head)
  last : (∀ tick ≥ first + tasks.length, sampled.head ≤ flush tick sampled.client)
    ∧ sampled.head.toNat + robWindow ≤ 2 ^ 64
  ordered : sampled.keys.Pairwise fun older newer => older.task.client = newer.task.client
    → older.task.opId < newer.task.opId → older.rank < newer.rank

/-- Witness: induction over the tasks; the oldest is sampled last. -/
theorem sampleKeys_sampledFrom (advances : Advances flush) {tasks : List (BatchTask × Nat)}
    {sampled : Sampled} (made : sampleKeys flush first tasks = some sampled)
    : SampledFrom flush first tasks sampled := by
  induction tasks generalizing sampled with
  | nil =>
    cases made
    refine ⟨rfl, by simp, by simp, ⟨fun _ _ => ?_, by decide⟩, .nil⟩
    exact Nat.zero_le _
  | cons oldest rest ih =>
    obtain ⟨task, length⟩ := oldest
    simp only [sampleKeys, bind_eq_bind, bind_eq_some_iff, ite_none_right_eq_some] at made
    obtain ⟨later, sampledLater, inside, made⟩ := made
    cases made
    have before := ih sampledLater
    generalize loaded : (if task.client = later.client then later.head
      else flush (first + rest.length) task.client) = head at inside
    have clear : head.toNat + robWindow ≤ 2 ^ 64 := by
      rw [← loaded]
      split
      · exact before.last.2
      · exact advances.clear _ _
    have behind : ∀ tick ≥ first + (rest.length + 1), head ≤ flush tick task.client := by
      intro tick reached
      rw [← loaded]
      split
      · rename_i same
        exact same ▸ before.last.1 tick (by omega)
      · exact advances.grows (by omega) _
    -- Every flush id used for a newer task of this connection was loaded earlier.
    have advanced {key : Ranked} {older : UInt64}
        (ahead : ∀ tick ≥ first + rest.length, older ≤ flush tick key.task.client)
        (again : key.task.client = later.client → older ≤ later.head)
        (same : key.task.client = task.client) : older ≤ head := by
      rw [← loaded]
      split
      · rename_i neighbour
        exact again (same.trans neighbour)
      · exact same ▸ ahead _ le_rfl
    refine ⟨by simp [before.whole], ?_, ?_, ⟨behind, clear⟩, ?_⟩
    · rintro key (_ | ⟨_, member⟩)
      · exact inside
      · exact before.ranks key member
    · rintro key (_ | ⟨_, member⟩)
      · exact ⟨head, rfl, behind, fun _ => UInt64.le_refl _⟩
      · obtain ⟨older, rank, ahead, again⟩ := before.heads key member
        refine ⟨older, rank, fun tick reached => ahead tick ?_, advanced ahead again⟩
        rw [length_cons] at reached
        omega
    · refine pairwise_cons.mpr ⟨fun key member same order => ?_, before.ordered⟩
      obtain ⟨older, rank, ahead, again⟩ := before.heads key member
      rw [rank]
      exact rank_lt order (advanced ahead again same.symm) clear inside

/-- The connection table: no tombstones, every entry where its probe finds it. -/
structure ChainTable (table : List (Slot Chain)) : Prop where
  pow : PowTwo table.length
  placed : Placed (chainHome table.length ·.client) Chain.client table
  noDead : deadCount table = 0
  lengths : ∀ entry, Slot.live entry ∈ table → entry.length < schedClasses

theorem chainHome_lt {slots : Nat} (pow : PowTwo slots) (client : UInt64)
    : chainHome slots client < slots := by
  rw [chainHome, pow.and_mask]
  exact Nat.mod_lt _ pow.pos

variable {table : List (Slot Chain)}

/-- A slot the next task of a connection may be written to. -/
theorem ChainTable.set (chains : ChainTable table) {slot : Nat}
    {chain : Chain} (reach : Reach table (chainHome table.length chain.client) slot)
    (alone : ∀ {index : Nat} {other : Chain}, table[index]? = some (.live other)
      → other.client = chain.client → index = slot)
    (short : chain.length < schedClasses) (inside : slot < table.length)
    : ChainTable (table.set slot (.live chain)) where
  pow := by simpa using chains.pow
  placed := by simpa using chains.placed.write reach alone
  noDead := by
    have counted := deadCount_set (getElem?_eq_getElem inside) (.live chain)
    simp only [chains.noDead, Slot.isDead, Bool.toNat_false] at counted
    omega
  lengths entry member := by
    rcases mem_or_eq_of_mem_set member with old | same
    · exact chains.lengths entry old
    · cases same
      exact short

/-- Where the next task of a connection goes: a slot of its own, behind all its earlier tasks. -/
structure ChainPlace (table : List (Slot Chain)) (key : Ranked) (slot length : Nat) : Prop where
  inside : slot < table.length
  short : length < schedClasses
  reach : Reach table (chainHome table.length key.task.client) slot
  alone : ∀ {index : Nat} {other : Chain}, table[index]? = some (.live other)
    → other.client = key.task.client → index = slot
  own : ∀ {other : Chain}, table[slot]? = some (.live other) → other.client = key.task.client
  later : ∀ entry, Slot.live entry ∈ table → entry.client = key.task.client
    → entry.opId < key.task.opId

theorem chainStep_place (chains : ChainTable table)
    (free : Slot.empty ∈ table) {key : Ranked} (short : key.length < schedClasses)
    : chainStep table key ≠ .endless ∧ ∀ slot length, chainStep table key = .at slot length
      → ChainPlace table key slot length := by
  have home := chainHome_lt chains.pow key.task.client
  have said : WalkSays Chain.client table (chainHome table.length key.task.client) key.task.client
      (probe (·.client = key.task.client) table table.length
        (chainHome table.length key.task.client) none) :=
    chains.placed.probe_says chains.pow home le_rfl (by simp) fun _ _ same => by rw [same]
  have stops : probe (·.client = key.task.client) table table.length
      (chainHome table.length key.task.client) none ≠ .exhausted :=
    probe_stops chains.pow home le_rfl free
  rw [chainStep]
  revert said stops
  cases probe (·.client = key.task.client) table table.length
      (chainHome table.length key.task.client) none with
  | exhausted => exact fun _ stops => absurd rfl stops
  | vacant place tomb =>
    rintro ⟨empty, reach, absent, _⟩ -
    refine ⟨by simp, fun slot length same => ?_⟩
    obtain ⟨rfl, rfl⟩ := ChainStep.at.inj same
    refine ⟨(List.getElem?_eq_some_iff.mp empty).1, ?_, reach, fun held same => ?_, fun held => ?_,
      fun entry member same => absurd same (absent entry member)⟩
    · split
      · decide
      · exact short
    · exact absurd same (absent _ (mem_of_getElem? held))
    · simp [empty] at held
  | hit place last =>
    rintro ⟨held, mine⟩ -
    have member : Slot.live last ∈ table := mem_of_getElem? held
    dsimp only
    split
    · exact ⟨by simp, by simp⟩
    · rename_i order
      refine ⟨by simp, fun slot length same => ?_⟩
      obtain ⟨rfl, rfl⟩ := ChainStep.at.inj same
      refine ⟨(List.getElem?_eq_some_iff.mp held).1, ?_, ?_, fun other same => ?_, fun other => ?_,
        fun entry found same => ?_⟩
      · split
        · decide
        · exact Nat.max_lt.mpr ⟨short, chains.lengths last member⟩
      · simpa [mine] using chains.placed.reach held
      · exact chains.placed.unique other held (same.trans mine.symm)
      · rw [held] at other
        cases other
        exact mine
      · obtain ⟨index, at_index⟩ := mem_iff_getElem?.mp found
        obtain rfl := chains.placed.unique at_index held (same.trans mine.symm)
        rw [held] at at_index
        cases at_index
        exact UInt64.not_le.mp order

/-- Witness: induction over the tasks; the table holds the newest task of every connection. -/
theorem widen_ordered {keys : List Ranked} (chains : ChainTable table)
    (room : liveCount table + keys.length < table.length)
    (short : ∀ key ∈ keys, key.length < schedClasses)
    : ∃ answer, widen table keys = some answer ∧ ∀ widened ∈ answer,
      widened.map (fun key => (key.task, key.rank)) = keys.map (fun key => (key.task, key.rank))
      ∧ (∀ key ∈ widened, key.length < schedClasses)
      ∧ (∀ entry, Slot.live entry ∈ table → ∀ key ∈ widened, key.task.client = entry.client
        → entry.opId < key.task.opId)
      ∧ widened.Pairwise fun older newer => older.task.client = newer.task.client
        → older.task.opId < newer.task.opId := by
  induction keys generalizing table with
  | nil => exact ⟨some [], rfl, by simp⟩
  | cons key rest ih =>
    rw [length_cons] at room
    have free : Slot.empty ∈ table := by
      rw [← count_lt_iff_empty_mem, chains.noDead]
      omega
    obtain ⟨ends, places⟩ := chainStep_place chains free (short key mem_cons_self)
    rw [widen]
    cases stepped : chainStep table key with
    | endless => exact absurd stepped ends
    | fifo => exact ⟨none, rfl, by simp⟩
    | «at» slot length =>
      have place := places slot length stepped
      dsimp only
      generalize made : ({ key.task with length } : Chain) = chain
      have same : chain.client = key.task.client := by rw [← made]
      have newest : chain.opId = key.task.opId := by rw [← made]
      have alone {index : Nat} {other : Chain} (held : table[index]? = some (.live other))
          (its : other.client = chain.client) : index = slot :=
        place.alone held (its.trans same)
      have chained :=
        chains.set (same ▸ place.reach) alone (by rw [← made]; exact place.short) place.inside
      have counted := liveCount_set (getElem?_eq_getElem place.inside) (.live chain)
      rw [show (Slot.live chain).isLive.toNat = 1 from rfl] at counted
      obtain ⟨answer, widened, told⟩ := ih chained (by rw [length_set]; omega)
        fun later member => short later (mem_cons_of_mem key member)
      refine ⟨answer.map ({ key with length } :: ·), by rw [widened]; rfl, ?_⟩
      rintro _ found
      obtain ⟨tail, inAnswer, rfl⟩ := mem_map.mp found
      obtain ⟨tasks, lengths, behind, ordered⟩ := told tail inAnswer
      have holds (other : Chain) : Slot.live other ∈ table.set slot (.live chain)
          ↔ other = chain ∨ Slot.live other ∈ table ∧ other.client ≠ chain.client :=
        mem_write place.inside alone (fun held => (place.own held).trans same.symm) other
      have after (other : Ranked) (member : other ∈ tail)
          (its : other.task.client = key.task.client) : key.task.opId < other.task.opId :=
        newest ▸ behind chain ((holds chain).mpr (.inl rfl)) other member (its.trans same.symm)
      refine ⟨by simp [tasks], ?_, fun entry member other inside its => ?_, ?_⟩
      · rintro other (_ | ⟨_, member⟩)
        · exact place.short
        · exact lengths other member
      · rcases inside with _ | ⟨_, inside⟩
        · exact place.later entry member its.symm
        · by_cases mine : entry.client = key.task.client
          · exact UInt64.lt_trans (place.later entry member mine)
              (after other inside (its.trans mine))
          · exact behind entry ((holds entry).mpr (.inr ⟨member, fun s => mine (s.trans same)⟩))
              other inside its
      · exact pairwise_cons.mpr ⟨fun other member its => after other member its.symm, ordered⟩

/-- What scheduling keeps: the tasks, each connection's order, and every barrier's place. -/
structure Reordered (tasks out : List BatchTask) : Prop where
  perm : out.Perm tasks
  order : ∀ client, out.filter (·.client = client) = tasks.filter (·.client = client)
  barriers : ∀ place task, tasks[place]? = some task → exSchedCandidate task = none
    → out[place]? = some task ∧ (out.take place).Perm (tasks.take place)

theorem Reordered.refl (tasks : List BatchTask) : Reordered tasks tasks where
  perm := .rfl
  order _ := rfl
  barriers _ _ found _ := ⟨found, .rfl⟩

variable {tasks : List BatchTask}

theorem Reordered.append {more out next : List BatchTask} (front : Reordered tasks out)
    (back : Reordered more next)
    : Reordered (tasks ++ more) (out ++ next) where
  perm := front.perm.append back.perm
  order client := by rw [filter_append, filter_append, front.order, back.order]
  barriers place task found barrier := by
    have same := front.perm.length_eq
    rcases lt_or_ge place tasks.length with inside | beyond
    · rw [getElem?_append_left inside] at found
      rw [getElem?_append_left (by omega), take_append_of_le_length (by omega),
        take_append_of_le_length (by omega)]
      exact front.barriers place task found barrier
    · rw [getElem?_append_right beyond] at found
      obtain ⟨kept, before⟩ := back.barriers _ task found barrier
      rw [getElem?_append_right (by omega), take_append, take_append, same,
        take_of_length_le (by omega), take_of_length_le beyond]
      exact ⟨kept, front.perm.append before⟩

theorem candidateRun_candidates {entry : BatchTask × Nat} (member : entry ∈ candidateRun tasks)
    : exSchedCandidate entry.1 = some entry.2 := by
  induction tasks with
  | nil => simp [candidateRun] at member
  | cons task rest ih =>
    rw [candidateRun] at member
    split at member
    · rename_i length candidate
      rcases mem_cons.mp member with rfl | member
      · exact candidate
      · exact ih member
    · simp at member

theorem candidateRun_take (tasks : List BatchTask)
    : (candidateRun tasks).map (·.1) = tasks.take (candidateRun tasks).length := by
  induction tasks with
  | nil => rfl
  | cons task rest ih =>
    rw [candidateRun]
    split
    · simp [ih]
    · rfl

theorem candidate_length {task : BatchTask} {length : Nat}
    (candidate : exSchedCandidate task = some length)
    : length < schedClasses := by
  obtain ⟨_, candidate⟩ := ite_none_left_eq_some.mp candidate
  split at candidate
  · simp at candidate
  · split at candidate
    · simp at candidate
    · rw [← some.inj candidate]
      split
      · decide
      · omega

/-- Sorting by bucket keeps the order of a connection whose ranks grow, whatever the length
classes.
-/
theorem bucketSort_reordered {keys : List Ranked} (ranks : ∀ key ∈ keys, key.rank < robWindow)
    (lengths : ∀ key ∈ keys, key.length < schedClasses)
    (ordered : keys.Pairwise fun older newer => older.task.client = newer.task.client
      → older.rank < newer.rank)
    (candidates : ∀ key ∈ keys, exSchedCandidate key.task ≠ none)
    : Reordered (keys.map Ranked.task) ((bucketSort Ranked.bucket (robWindow * schedClasses)
        keys).filterMap (·.map Ranked.task)) := by
  have inside (key : Ranked) (member : key ∈ keys) : key.bucket < robWindow * schedClasses := by
    have := ranks key member
    have := lengths key member
    simp only [Ranked.bucket, schedClasses] at *
    omega
  have out : (inBuckets Ranked.bucket (robWindow * schedClasses) keys).filterMap
      ((·.map Ranked.task) ∘ some)
      = (inBuckets Ranked.bucket (robWindow * schedClasses) keys).map Ranked.task := by
    simp
  rw [bucketSort_eq inside, filterMap_map, out]
  refine ⟨(inBuckets_perm inside).map _, fun client => ?_, fun place task found barrier => ?_⟩
  · rw [List.filter_map, List.filter_map, filter_inBuckets inside]
    refine (ordered.filter _).imp_of_mem fun {older newer} member other less => ?_
    have mine := mem_filter.mp member
    have its := (mem_filter.mp other).2
    simp only [Function.comp_apply, decide_eq_true_eq] at mine its
    have := less (mine.2.trans its.symm)
    have := lengths older mine.1
    simp only [Ranked.bucket, schedClasses] at *
    omega
  · obtain ⟨key, member, rfl⟩ := mem_map.mp (mem_of_getElem? found)
    exact absurd barrier (candidates key member)

theorem fresh_chainTable (batch : ExecBatch)
    : ChainTable (List.replicate (batch.ops * 2) .empty) := by
  refine ⟨?_, .fresh _ _ _, deadCount_replicate _, fun entry member => ?_⟩
  · cases batch with
    | genthread => exact ⟨6, by rfl⟩
    | pipeline => exact ⟨8, by rw [length_replicate]; rfl⟩
  · exact absurd member (live_not_mem_replicate entry)

/-- A run keeps its tasks and the order of every connection.
Witness: the table has shown that the ids of a connection's tasks grow, so their ranks do.
-/
theorem exScheduleRun_reordered (advances : Advances flush) (batch : ExecBatch)
    {tasks : List (BatchTask × Nat)} (small : tasks.length ≤ batch.ops)
    (candidates : ∀ entry ∈ tasks, exSchedCandidate entry.1 = some entry.2)
    : ∃ witness out, exScheduleRun flush batch first tasks = some (witness, out)
      ∧ Reordered (tasks.map (·.1)) out := by
  have fifo := Reordered.refl (tasks.map (·.1))
  rw [exScheduleRun]
  split
  · exact ⟨_, _, rfl, fifo⟩
  cases sampled : sampleKeys flush first tasks with
  | none => exact ⟨_, _, rfl, fifo⟩
  | some made =>
    have samples := sampleKeys_sampledFrom advances sampled
    dsimp only
    split
    · exact ⟨_, _, rfl, fifo⟩
    have counted : made.keys.length = tasks.length := by
      rw [← samples.whole, length_map]
    have candidate (key : Ranked) (member : key ∈ made.keys)
        : exSchedCandidate key.task = some key.length := by
      refine candidates (key.task, key.length) ?_
      rw [← samples.whole]
      exact mem_map_of_mem member
    obtain ⟨answer, widened, told⟩ := widen_ordered (fresh_chainTable batch)
      (by rw [liveCount_replicate, length_replicate]; omega)
      fun key member => candidate_length (candidate key member)
    rw [widened]
    cases answer with
    | none => exact ⟨_, _, rfl, fifo⟩
    | some keys =>
      obtain ⟨same, lengths, _, ids⟩ := told keys rfl
      rw [map_some]
      dsimp only
      split
      · exact ⟨_, _, rfl, fifo⟩
      have from_sample (key : Ranked) (member : key ∈ keys)
          : ∃ older ∈ made.keys, older.task = key.task ∧ older.rank = key.rank := by
        have entry : (key.task, key.rank) ∈ made.keys.map (fun key => (key.task, key.rank)) := by
          rw [← same]
          exact mem_map_of_mem member
        obtain ⟨older, inside, equal⟩ := mem_map.mp entry
        exact ⟨older, inside, Prod.mk.inj equal⟩
      have distances : (keys.map fun key => (key.task, key.rank)).Pairwise fun older newer =>
          older.1.client = newer.1.client → older.1.opId < newer.1.opId → older.2 < newer.2 := by
        rw [same]
        exact pairwise_map.mpr samples.ordered
      have whole : keys.map Ranked.task = tasks.map (·.1) := by
        have firsts := congrArg (map Prod.fst) same
        simp only [List.map_map, Function.comp_def] at firsts
        rw [firsts, ← samples.whole]
        simp
      refine ⟨_, _, rfl, whole ▸ bucketSort_reordered (fun key member => ?_) lengths
        (((pairwise_map.mp distances).and ids).imp fun both mine =>
          both.1 mine (both.2 mine)) fun key member => ?_⟩
      · obtain ⟨older, inside, _, rank⟩ := from_sample key member
        exact rank ▸ samples.ranks older inside
      · obtain ⟨older, inside, task, _⟩ := from_sample key member
        rw [← task, candidate older inside]
        simp

/-- Witness: induction over the tasks left, one run and the barrier after it at a time. -/
theorem scheduleFrom_reordered (advances : Advances flush) (batch : ExecBatch)
    {result : ReorderResult} (small : tasks.length ≤ batch.ops)
    : ∃ out after, scheduleFrom flush batch first result tasks = some (out, after)
      ∧ Reordered tasks out := by
  induction length : tasks.length using Nat.strongRecOn generalizing tasks first result with
  | ind count ih =>
    subst length
    cases tasks with
    | nil => exact ⟨[], result, by rw [scheduleFrom], .refl []⟩
    | cons task rest =>
      have onward {start : Nat} {noted : ReorderResult} {later : List BatchTask}
          (fewer : later.length < (task :: rest).length)
          : ∃ out after, scheduleFrom flush batch start noted later = some (out, after)
            ∧ Reordered later out :=
        ih later.length fewer (Nat.lt_of_lt_of_le fewer small).le rfl
      rw [scheduleFrom]
      split
      · obtain ⟨out, after, made, kept⟩ := onward (Nat.lt_succ_self rest.length)
        exact ⟨task :: out, after, by rw [made]; rfl, (Reordered.refl [task]).append kept⟩
      · have starts : 0 < (candidateRun (task :: rest)).length := by
          rw [candidateRun]
          split
          · simp
          · simp_all
        have taken := candidateRun_take (task :: rest)
        have run_fits : (candidateRun (task :: rest)).length ≤ batch.ops := by
          have := congrArg length taken
          rw [length_map, length_take] at this
          omega
        obtain ⟨witness, front, scheduled, kept⟩ := exScheduleRun_reordered advances batch
          run_fits (fun _ => candidateRun_candidates)
        have whole : task :: rest = (candidateRun (task :: rest)).map (·.1)
            ++ rest.drop ((candidateRun (task :: rest)).length - 1) := by
          rw [taken]
          obtain ⟨more, length⟩ := Nat.exists_eq_add_of_lt starts
          simp [length]
        dsimp only
        rw [scheduled, bind_some]
        split
        · rename_i ended
          rw [whole, ended, append_nil]
          exact ⟨_, _, rfl, kept⟩
        · rename_i barrier later ended
          rw [ended] at whole
          have fewer : later.length < (task :: rest).length := by
            have lengths := congrArg length whole
            simp only [length_append, length_cons] at lengths ⊢
            omega
          obtain ⟨out, after, made, reordered⟩ := onward fewer
          refine ⟨front ++ barrier :: out, after, by rw [made]; rfl, ?_⟩
          rw [whole]
          exact kept.append ((Reordered.refl [barrier]).append reordered)

/-- For every batch of at most `ops` tasks and every advance of the flush ids between the loads,
the scheduler ends without an abort and puts out a permutation of the batch that keeps the order
of every connection's tasks; a task that is no candidate keeps its place, and no task crosses it.
-/
theorem exScheduleBatch_reordered (advances : Advances flush) (batch : ExecBatch)
    {tasks : List BatchTask} (small : tasks.length ≤ batch.ops)
    : ∃ out result, exScheduleBatch flush batch tasks = some (out, result)
      ∧ out.Perm tasks
      ∧ (∀ client, out.filter (·.client = client) = tasks.filter (·.client = client))
      ∧ ∀ place task, tasks[place]? = some task → exSchedCandidate task = none
        → out[place]? = some task ∧ (out.take place).Perm (tasks.take place) := by
  obtain ⟨out, result, made, kept⟩ := scheduleFrom_reordered advances batch small
  refine ⟨out, result, ?_, kept.perm, kept.order, kept.barriers⟩
  rw [exScheduleBatch, if_neg (not_lt.mpr small), made]

def getTask (client opId : UInt64) : BatchTask where
  client
  opId
  shard := -1
  scatter := false
  op := ⟨some ⟨2, 0⟩, false, false⟩

/-- Every connection's first operation is retired between two loads. -/
def retiring (tick : Nat) (_ : UInt64) : UInt64 := if tick < 2 then 0 else 1

theorem exScheduleBatch_reordered_retiring
    : ∃ out result, exScheduleBatch retiring .genthread [getTask 1 1, getTask 2 9, getTask 1 2]
        = some (out, result)
      ∧ out.Perm [getTask 1 1, getTask 2 9, getTask 1 2] := by
  have advances : Advances retiring := by
    refine ⟨fun {early late} order client => ?_, fun tick client => ?_⟩
    · simp only [retiring]
      split
      · split <;> decide
      · rw [if_neg (by omega)]
        exact UInt64.le_refl _
    · simp only [retiring]
      split <;> decide
  obtain ⟨out, result, made, perm, _⟩ :=
    exScheduleBatch_reordered advances .genthread (by decide : [getTask 1 1, getTask 2 9,
      getTask 1 2].length ≤ _)
  exact ⟨out, result, made, perm⟩

/-- With flush ids that run to the end of their range between two loads, the newer task of
connection 1 is put before the older one.
-/
theorem overrun_flush_id_inverts
    : ∃ flush : Nat → UInt64 → UInt64,
      (∀ early late, early ≤ late → ∀ client, flush early client ≤ flush late client)
      ∧ ∃ out result, exScheduleBatch flush .genthread [getTask 1 0, getTask 2 5, getTask 1 1]
          = some (out, result)
        ∧ out.filter (·.client = 1) = [getTask 1 1, getTask 1 0] := by
  refine ⟨fun tick client => if client ≠ 1 then 0 else if tick < 2 then 1 else -1,
    fun early late order client => ?_, [getTask 1 1, getTask 1 0, getTask 2 5], ⟨1, 1⟩, ?_,
    by decide⟩
  · dsimp only
    split
    · exact UInt64.le_refl _
    · split
      · split <;> decide
      · rw [if_neg (by omega)]
        exact UInt64.le_refl _
  · decide +kernel

end Thredis.Exec
