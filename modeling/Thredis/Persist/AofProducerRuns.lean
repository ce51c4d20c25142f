import Thredis.Persist.AofDelivery

/-! Every run of a producer: records, groups, decisions and flushes in any order. -/

namespace Thredis.Persist

open Thredis.Lib List Option AofProducer ChunkSink
open Function (update update_of_ne)

namespace AofProducer

/-- No group is under construction; the calls are queued or in the chunk being built. -/
structure Idle (first : BitVec 32) (decisions : Nat → AofGroupDecision)
    (calls : List (Option Nat × AofRecord)) (producer : AofProducer) : Prop where
  closed : producer.activeGroup = none
  held : ∃ held kept,
    calls = held ++ plainCalls kept ∧ producer.Holds first decisions held
    ∧ PlainOpen kept producer.build

/-- The last staged item is the group under construction. -/
def InGroup (first : BitVec 32) (decisions : Nat → AofGroupDecision)
    (calls : List (Option Nat × AofRecord)) (producer : AofProducer) : Prop :=
  ∃ held records front pending,
    calls = held ++ groupCalls pending.decision records
    ∧ producer.staged = front ++ [.group pending] ∧ producer.activeGroup = some front.length
    ∧ producer.build = none
    ∧ Holds first decisions held { producer with staged := front }
    ∧ GroupHolds pending.decision records pending

variable {first : BitVec 32} {decisions : Nat → AofGroupDecision}
  {calls : List (Option Nat × AofRecord)} {producer : AofProducer}

section

variable (idle : producer.Idle first decisions calls)

include idle

theorem Idle.recordBytes {record : AofRecord}
    (room : kAofRecordHeaderBytes + record.key.length ≤ kAofChunkBytes) (context : Bool)
    (progress : List Nat)
    : (producer.recordBytes context record progress).Idle first decisions
        (calls ++ [(none, record)]) := by
  obtain ⟨held, kept, rfl, holds, holding⟩ := idle.held
  obtain ⟨queued, still, split, holdsNow, holdingNow, active⟩ :=
    holds.recordBytes holding room context progress
  refine ⟨active.trans idle.closed, held ++ plainCalls queued, still, ?_, holdsNow, holdingNow⟩
  have joined : plainCalls kept ++ [(none, record)] = plainCalls queued ++ plainCalls still := by
    simpa [plainCalls] using congrArg plainCalls split
  rw [append_assoc, joined, append_assoc]

theorem Idle.maybeTimestamp (context : Bool) (clock : Option Int)
    : (producer.maybeTimestamp context clock).Idle first decisions
        (calls ++ (producer.dueTimestamp clock).toList.map
          fun second => (none, timestampRecord second)) := by
  unfold AofProducer.maybeTimestamp
  cases due : producer.dueTimestamp clock with
  | none => simpa using idle
  | some second =>
    have stamped : Idle first decisions calls { producer with timestampSecond := second } := by
      obtain ⟨held, kept, split, ⟨counted, done, waiting, rest⟩, holding⟩ := idle.held
      exact ⟨idle.closed, held, kept, split, ⟨{ counted with }, done, waiting, rest⟩, holding⟩
    have small : kAofRecordHeaderBytes + (timestampRecord second).key.length ≤ kAofChunkBytes :=
      show kAofRecordHeaderBytes + 0 ≤ kAofChunkBytes by decide
    exact stamped.recordBytes small context []

/-- With everything sealed all calls are queued. -/
theorem Idle.seal
    : (producer.seal false 0#32).Holds first decisions calls
      ∧ (producer.seal false 0#32).activeGroup = none := by
  obtain ⟨held, kept, rfl, holds, holding⟩ := idle.held
  obtain ⟨sealedHolds, active⟩ := holds.seal holding false
  exact ⟨sealedHolds, active.trans idle.closed⟩

end

theorem Idle.of_holds (closed : producer.activeGroup = none) (built : producer.build = none)
    (holds : producer.Holds first decisions calls) : producer.Idle first decisions calls :=
  ⟨closed, calls, [], by simp [plainCalls], holds, by rw [built]; rfl⟩

variable {decision : Nat}

theorem Idle.beginGroup (idle : producer.Idle first decisions calls)
    {next : AofProducer} (begun : producer.beginGroup decision = some next)
    : next.InGroup first decisions calls := by
  obtain ⟨holds, _⟩ := idle.seal
  simp only [AofProducer.beginGroup, idle.closed, some.injEq] at begun
  subst begun
  obtain ⟨counted, done, waiting, rest⟩ := holds
  exact ⟨calls, [], (producer.seal false 0#32).staged, ⟨decision, none, []⟩,
    by simp [groupCalls], rfl, rfl, seal_build _ _ _,
    ⟨{ counted with }, done, waiting, rest⟩, rfl, [], [], rfl, .nil, rfl⟩

theorem modify_last {α : Type} (front : List α) (last : α) (change : α → α)
    : (front ++ [last]).modify front.length change = front ++ [change last] := by
  induction front with
  | nil => rfl
  | cons item rest ih => simp [ih]

variable {pending : PendingGroup}

section

variable {front : List StagedItem} (staged : producer.staged = front ++ [.group pending])
    (active : producer.activeGroup = some front.length)

include front staged active

theorem active_eq : producer.active = some pending := by
  simp [AofProducer.active, active, staged]

theorem onActive_eq (change : PendingGroup → PendingGroup)
    : producer.onActive change
      = { producer with staged := front ++ [.group (change pending)] } := by
  simp [onActive, active, staged, modify_last, StagedItem.onGroup]

end

theorem InGroup.groupRecord (inside : producer.InGroup first decisions calls)
    (active : producer.active = some pending) (record : AofRecord) (progress : List Nat)
    : (producer.onActive (PendingGroup.recordGroupBytes record progress)).InGroup first decisions
        (calls ++ [(some pending.decision, record)]) := by
  obtain ⟨held, records, front, group, rfl, stagedEq, activeEq, built, holds, holding⟩ := inside
  obtain rfl := some.inj ((active_eq stagedEq activeEq).symm.trans active)
  have recorded := holding.recordGroupBytes record progress
  have sameDecision := recorded.1
  rw [onActive_eq stagedEq activeEq]
  refine ⟨held, records ++ [record], front, group.recordGroupBytes record progress, ?_, rfl,
    activeEq, built, holds, ?_⟩
  · rw [sameDecision]
    simp [groupCalls]
  · rw [sameDecision]
    exact recorded

/-- Finishing a group stages all it recorded. -/
theorem InGroup.finishGroup (inside : producer.InGroup first decisions calls)
    {next : AofProducer} (finished : producer.finishGroup = some next)
    : next.Idle first decisions calls := by
  obtain ⟨held, records, front, group, rfl, stagedEq, activeEq, built, holds, holding⟩ := inside
  obtain ⟨sealedBuild, sealedAll⟩ := holding.seal
  obtain ⟨sameDecision, _, resolvable⟩ := holding.finish
  simp only [finishGroup, active_eq stagedEq activeEq] at finished
  obtain ⟨chunked, rfl⟩ := guard_passed finished
  have present : records ≠ [] := by
    intro empty
    obtain ⟨out, resolved, framed⟩ := sealedAll 0 0#64
    have none : out = [] := by simpa using framed.no_frames (by simp [empty])
    cases sealedChunks : (group.seal 0#32).chunks with
    | nil => exact chunked sealedChunks
    | cons chunk rest =>
      rw [sealedChunks, mapM_cons, none] at resolved
      obtain ⟨_, _, later⟩ := bind_eq_some_iff.mp resolved
      obtain ⟨_, _, never⟩ := bind_eq_some_iff.mp later
      exact absurd never (by simp)
  rw [onActive_eq stagedEq activeEq]
  obtain ⟨counted, done, waiting, rfl, settled, framed, laid⟩ := holds
  refine .of_holds rfl built ⟨{ counted with }, done,
    waiting ++ groupCalls group.decision records, by simp, settled, framed, laid.append ?_⟩
  have last := Laid.group present resolvable .nil
  rwa [sameDecision, append_nil] at last

theorem Holds.postReady (holds : producer.Holds first decisions calls) (accepted : Nat)
    : (producer.postReady accepted).Holds first decisions calls := by
  obtain ⟨counted, done, waiting, split, settled, framed, laid⟩ := holds
  refine ⟨counted.postReady accepted, done, waiting, split, settled, ?_, laid⟩
  rwa [postReady_numbered]

/-- Between groups a flush never fails and keeps every call. -/
theorem Idle.flush (idle : producer.Idle first decisions calls) (accepted : Nat)
    : ∃ next, producer.flush decisions accepted = some next ∧ next.Idle first decisions calls := by
  obtain ⟨⟨counted, done, waiting, rfl, settled, framed, laid⟩, closed⟩ := idle.seal
  obtain ⟨resolved, eq, holds, build, active⟩ := resolveItems_holds laid counted settled framed
  refine ⟨resolved.postReady accepted, ?_, .of_holds ?_ ?_ (holds.postReady accepted)⟩
  · simp [flush, closed, eq]
  · exact active.trans closed
  · exact build.trans (seal_build _ _ _)

/-- With every group decided, `resolve_groups` leaves nothing staged.
Witness: induction over what is staged.
-/
theorem resolveItems_drains {items : List StagedItem}
    {waiting : List (Option Nat × AofRecord)} (laid : Laid items waiting)
    (settled : Settled decisions waiting) {resolved : AofProducer}
    (eq : resolveItems decisions items producer = some resolved) : resolved.staged = [] := by
  induction laid generalizing producer with
  | nil =>
    cases eq
    rfl
  | plain framed _ ih =>
    rw [resolveItems_plain] at eq
    exact ih (fun call among => settled call (mem_append_right _ among)) eq
  | @group pending records items rest present resolvable _ ih =>
    have later : Settled decisions rest := fun call among =>
      settled call (mem_append_right _ among)
    obtain ⟨record, among⟩ := exists_mem_of_ne_nil records present
    have decided := settled (some pending.decision, record)
      (mem_append_left _ (mem_map.mpr ⟨record, among, rfl⟩)) pending.decision rfl
    rw [resolveItems] at eq
    split at eq
    · exact ih later eq
    · split at eq
      · rename_i kept undecided
        rcases decided with aborted | ticket
        · exact absurd aborted kept
        · exact absurd undecided ticket
      · obtain ⟨chunks, _, onward⟩ := bind_eq_some_iff.mp eq
        exact ih later onward

/-- One flush with room in the channel empties a producer whose groups are all decided. -/
theorem Idle.drains (idle : producer.Idle first decisions calls) (settled : Settled decisions calls)
    : ∃ accepted next, producer.flush decisions accepted = some next ∧ next.hasPending = false := by
  obtain ⟨⟨counted, done, waiting, rfl, doneSettled, framed, laid⟩, closed⟩ := idle.seal
  obtain ⟨resolved, eq, holds, build, active⟩ := resolveItems_holds laid counted doneSettled framed
  have staged := resolveItems_drains laid
    (fun call among => settled call (mem_append_right _ among)) eq
  refine ⟨resolved.ready.length, resolved.postReady resolved.ready.length, ?_, ?_⟩
  · simp [AofProducer.flush, closed, eq]
  · have built := build.trans (seal_build _ _ _)
    simp [hasPending, postReady, staged, built]

theorem InGroup.flush (inside : producer.InGroup first decisions calls) (accepted : Nat)
    : producer.flush decisions accepted = some producer := by
  obtain ⟨_, _, front, pending, _, _, active, built, _⟩ := inside
  have same : producer.seal false 0#32 = producer := by simp [AofProducer.seal, built]
  simp [AofProducer.flush, same, active]

section

variable (undecided : (decisions decision).aborted = false ∧ (decisions decision).ticket = 0#64)
  (outcome : AofGroupDecision)

include undecided

/-- A decision that is made now changes no settled call. -/
theorem Holds.decide (holds : producer.Holds first decisions calls)
    : producer.Holds first (update decisions decision outcome) calls := by
  obtain ⟨counted, done, waiting, split, settled, framed, laid⟩ := holds
  have other : ∀ call ∈ done, ∀ made, call.1 = some made → made ≠ decision := by
    intro call among made grouped same
    rcases settled call among made grouped with aborted | ticket
    · rw [same, undecided.1] at aborted
      exact absurd aborted (by simp)
    · exact ticket (by rw [same, undecided.2])
  refine ⟨counted, done, waiting, split, ?_, ?_, laid⟩
  · intro call among made grouped
    rw [update_of_ne (other call among made grouped)]
    exact settled call among made grouped
  · have unchanged : done.filterMap (settle (update decisions decision outcome))
        = done.filterMap (settle decisions) := by
      refine filterMap_congr fun call among => ?_
      obtain ⟨group, record⟩ := call
      cases group with
      | none => rfl
      | some made => simp [settle, update_of_ne (other _ among made rfl)]
    rwa [unchanged]

theorem Idle.decide (idle : producer.Idle first decisions calls)
    : producer.Idle first (update decisions decision outcome) calls := by
  obtain ⟨held, kept, split, holds, holding⟩ := idle.held
  exact ⟨idle.closed, held, kept, split, holds.decide undecided outcome, holding⟩

theorem InGroup.decide (inside : producer.InGroup first decisions calls)
    : producer.InGroup first (update decisions decision outcome) calls := by
  obtain ⟨held, records, front, pending, split, staged, active, built, holds, holding⟩ := inside
  exact ⟨held, records, front, pending, split, staged, active, built,
    holds.decide undecided outcome, holding⟩

end

end AofProducer

-- Runs

namespace ProducerState

variable {first : BitVec 32}

def Standing (first : BitVec 32) (state : ProducerState) : Prop :=
  state.producer.Idle first state.decisions state.calls
  ∨ state.producer.InGroup first state.decisions state.calls

/-- The header and the key of a plain record fit one chunk. -/
def KeyFits (event : ProducerEvent) : Prop :=
  match event with
  | .record _ _ record _ => kAofRecordHeaderBytes + record.key.length ≤ kAofChunkBytes
  | _ => True

instance (event : ProducerEvent) : Decidable (KeyFits event) := by
  unfold KeyFits
  split <;> infer_instance

theorem Standing.init : Standing first (.init first) := by
  refine .inl (.of_holds rfl rfl ⟨⟨?_, ?_⟩, [], [], rfl, ?_, .nil, .nil⟩)
  · simp [Consecutive, AofProducer.numbered, ProducerState.init, AofProducer.init]
  · simp [AofProducer.numbered, ProducerState.init, AofProducer.init]
  · simp [Settled]

variable {state : ProducerState}

theorem undecided_of {decision : Nat} (undecided : ¬state.decided decision = true)
    : (state.decisions decision).aborted = false ∧ (state.decisions decision).ticket = 0#64 := by
  simpa [decided] using undecided

theorem Standing.decide (standing : state.Standing first)
    {decision : Nat} (undecided : ¬state.decided decision = true) (outcome : AofGroupDecision)
    : Standing first { state with decisions := update state.decisions decision outcome } := by
  rcases standing with idle | inside
  · exact .inl (idle.decide (undecided_of undecided) outcome)
  · exact .inr (inside.decide (undecided_of undecided) outcome)

/-- Every step whose plain record fits keeps the calls held. -/
theorem Standing.step {next : ProducerState} {event : ProducerEvent}
    (standing : state.Standing first) (fits : KeyFits event)
    (stepped : state.step event = some next) : next.Standing first := by
  cases event with
  | record context clock record progress =>
    obtain ⟨closed, rfl⟩ := guard_passed stepped
    rcases standing with idle | inside
    · exact .inl ((idle.maybeTimestamp context clock).recordBytes fits context progress)
    · obtain ⟨_, _, _, _, _, _, active, _⟩ := inside
      exact absurd (by simp [active]) closed
  | beginGroup decision =>
    obtain ⟨producer, begun, rfl⟩ := map_eq_some_iff.mp stepped
    rcases standing with idle | inside
    · exact .inr (idle.beginGroup begun)
    · obtain ⟨_, _, _, _, _, _, active, _⟩ := inside
      simp [beginGroup, active] at begun
  | groupRecord record progress =>
    obtain ⟨pending, active, rfl⟩ := map_eq_some_iff.mp stepped
    rcases standing with idle | inside
    · simp [AofProducer.active, idle.closed] at active
    · exact .inr (inside.groupRecord active record progress)
  | finishGroup =>
    obtain ⟨producer, finished, rfl⟩ := map_eq_some_iff.mp stepped
    rcases standing with idle | inside
    · simp [finishGroup, active, idle.closed] at finished
    · exact .inl (inside.finishGroup finished)
  | commit decision ticket =>
    obtain ⟨open', rfl⟩ := guard_passed stepped
    exact standing.decide (fun decided => open' (.inl decided)) _
  | abort decision =>
    obtain ⟨open', rfl⟩ := guard_passed stepped
    exact standing.decide open' _
  | flush accepted =>
    obtain ⟨producer, flushed, rfl⟩ := map_eq_some_iff.mp stepped
    rcases standing with idle | inside
    · obtain ⟨next, eq, idleNext⟩ := idle.flush accepted
      cases eq.symm.trans flushed
      exact .inl idleNext
    · cases (inside.flush accepted).symm.trans flushed
      exact .inr inside

/-- What a producer owes the writer at any point of a run. -/
structure Delivers (first : BitVec 32) (state : ProducerState) : Prop where
  consecutive : Consecutive first state.producer.posted
  sized : ∀ posted ∈ state.producer.posted, posted.chunk.bytes.length ≤ kAofChunkBytes
  /-- What was posted so far begins a framing of the first calls' records. -/
  underway : ∃ earlier later rest,
    state.calls = earlier ++ later ∧ Settled state.decisions earlier
    ∧ Framed (earlier.filterMap (settle state.decisions))
        (state.producer.posted.map (·.chunk.frame) ++ rest)
  /-- With nothing pending, what was posted frames the records of all calls. -/
  framed : state.producer.hasPending = false
    → Framed (state.calls.filterMap (settle state.decisions))
        (state.producer.posted.map (·.chunk.frame))
      ∧ state.producer.posted.flatMap (·.chunk.bytes)
        = (state.calls.filterMap (settle state.decisions)).flatMap AofRecord.bytes
  /-- No flush fails; when every group is finished and decided, it leaves nothing pending. -/
  flushes : ∀ accepted, (state.producer.flush state.decisions accepted).isSome
  drains : state.producer.activeGroup = none → Settled state.decisions state.calls
    → ∃ accepted next,
        state.producer.flush state.decisions accepted = some next ∧ next.hasPending = false

theorem Consecutive.front {chunks more : List NumberedChunk}
    (consecutive : Consecutive first (chunks ++ more)) : Consecutive first chunks := by
  intro place chunk found
  refine consecutive place chunk ?_
  rw [List.getElem?_append_left (List.getElem?_eq_some_iff.mp found).1]
  exact found

/-- With nothing pending, every call is posted. -/
theorem Standing.framed (standing : state.Standing first)
    (drained : state.producer.hasPending = false)
    : Framed (state.calls.filterMap (settle state.decisions))
        (state.producer.posted.map (·.chunk.frame)) := by
  simp only [hasPending, Bool.or_eq_false_iff, isSome_eq_false_iff,
    Option.isNone_iff_eq_none, Bool.not_eq_false', List.isEmpty_iff] at drained
  obtain ⟨⟨built, ready⟩, staged⟩ := drained
  rcases standing with idle | inside
  · obtain ⟨held, kept, callsEq, ⟨_, done, waiting, rfl, _, framed, laid⟩, holding⟩ := idle.held
    rw [built] at holding
    obtain rfl := holding
    have posted : state.producer.numbered = state.producer.posted := by
      rw [numbered, ready, List.append_nil]
    rw [laid.of_nil staged, plainCalls, List.map_nil, List.append_nil, List.append_nil] at callsEq
    rwa [callsEq, ← posted]
  · obtain ⟨_, _, front, pending, _, stagedEq, _⟩ := inside
    exact absurd (stagedEq.symm.trans staged) (by simp)

/-- What stands in the producer is delivered in order. -/
theorem Standing.delivers (standing : state.Standing first)
    : state.Delivers first := by
  -- the calls held and, behind them, those still in what is being built
  obtain ⟨earlier, later, split, consecutive, settled, framed⟩ : ∃ earlier later,
      state.calls = earlier ++ later ∧ Consecutive first state.producer.numbered
      ∧ Settled state.decisions earlier
      ∧ Framed (earlier.filterMap (settle state.decisions))
          (state.producer.numbered.map (·.chunk.frame)) := by
    rcases standing with idle | inside
    · obtain ⟨held, kept, callsEq, ⟨counted, done, waiting, rfl, settled, framed, _⟩, _⟩ :=
        idle.held
      exact ⟨done, waiting ++ plainCalls kept, by rw [callsEq, append_assoc],
        counted.consecutive, settled, framed⟩
    · obtain ⟨held, records, front, pending, callsEq, _, _, _,
        ⟨counted, done, waiting, rfl, settled, framed, _⟩, _⟩ := inside
      exact ⟨done, waiting ++ groupCalls pending.decision records,
        by rw [callsEq, append_assoc], counted.consecutive, settled, framed⟩
  have posted : state.producer.numbered.map (·.chunk.frame)
      = state.producer.posted.map (·.chunk.frame) ++ state.producer.ready.map (·.chunk.frame) :=
    map_append
  exact
    { consecutive := Consecutive.front consecutive
      sized := by
        intro chunk among
        exact framed.sized chunk.chunk.frame (by
          rw [posted]
          exact mem_append_left _ (mem_map.mpr ⟨chunk, among, rfl⟩))
      underway := ⟨earlier, later, _, split, settled, posted ▸ framed⟩
      framed := by
        intro drained
        have whole := standing.framed drained
        refine ⟨whole, ?_⟩
        rw [← whole.bytes_eq, flatMap_map]
        rfl
      flushes := by
        intro accepted
        rcases standing with idle | inside
        · obtain ⟨next, eq, _⟩ := idle.flush accepted
          rw [eq]
          rfl
        · rw [inside.flush accepted]
          rfl
      drains := by
        intro closed settled
        rcases standing with idle | inside
        · exact idle.drains settled
        · obtain ⟨_, _, _, _, _, _, active, _⟩ := inside
          exact absurd (closed.symm.trans active) (by simp) }

/-- Whatever a producer is asked to log, and whenever it is flushed, its chunks are numbered
consecutively and frame the records of the calls, as long as the header and the key of every plain
record fit one chunk.
Witness: the calls stay held by the queues along the run, step by step.
-/
theorem producer_delivers {events : List ProducerEvent} {final : ProducerState}
    (ran : run step (.init first) events = some final)
    (fits : EachStep step (fun _ event => KeyFits event) (.init first) events)
    : final.Delivers first := by
  have standing := run_invariant_of_eachStep
    (fun _ _ _ standing => standing.step) Standing.init fits ran
  exact standing.delivers

def shortRecord : AofRecord :=
  { kind := AofRecordKind.put.code, type := 0, encoding := 0, key := [107], payload := [118]
    expire := -1, group := 0, keySized := by decide, payloadSized := by decide }

def shortCalls : List ProducerEvent :=
  [.record false none shortRecord [], .beginGroup 0,
    .groupRecord { shortRecord with kind := AofRecordKind.groupPut.code } [], .finishGroup,
    .commit 0 9, .record false none shortRecord [], .flush 1, .flush 3]

theorem shortCalls_delivered
    : ∃ final, run step (.init 5) shortCalls = some final
        ∧ final.producer.posted.length = 3 ∧ final.Delivers 5 := by
  have posts : (run step (.init 5) shortCalls).map (·.producer.posted.length) = some 3 := by
    decide +kernel
  obtain ⟨final, ran, posted⟩ := map_eq_some_iff.mp posts
  exact ⟨final, ran, posted, producer_delivers ran (by decide +kernel)⟩

-- A key that does not fit

def deletion (count : Nat) (sized : count < 2 ^ 32) : AofRecord :=
  { kind := AofRecordKind.del.code, type := 0, encoding := 0, key := List.replicate count 0
    payload := [], expire := -1, group := 0
    keySized := by rwa [List.length_replicate], payloadSized := noBytes_sized }

/-- A large record's bytes that overflow the chunk being built go on in a chunk with the flags of
a first one.
-/
theorem emit_crosses {σ : Type} {sink : ChunkSink σ} {emitted : List AofChunk → σ → Prop}
    (lawful : sink.Lawful emitted) (flags : BitVec 32)
    (marked : ∀ state, sink.freshFlags true state = flags) (bytes : Bytes) {state : σ}
    {chunk : AofChunk} (built : sink.build state = some chunk)
    (short : chunk.bytes.length < kAofChunkBytes)
    (crosses : kAofChunkBytes < chunk.bytes.length + bytes.length)
    (ends : chunk.bytes.length + bytes.length ≤ 2 * kAofChunkBytes) {cut : List AofChunk}
    (sealedSo : emitted cut state)
    : ∃ front back,
        sink.build (sink.emit true bytes state) = some ((makeChunk flags).put back)
        ∧ emitted (cut ++ [chunk.put front]) (sink.emit true bytes state) := by
  generalize roomEq : kAofChunkBytes - chunk.bytes.length = room
  have more : bytes.drop room ≠ [] := by
    intro none
    have := drop_eq_nil_iff.mp none
    omega
  have filled : (chunk.put (bytes.take room)).bytes.length = kAofChunkBytes := by
    rw [AofChunk.put_bytes, length_append, length_take]
    omega
  have restSized : (bytes.drop room).length ≤ kAofChunkBytes := by
    rw [length_drop]
    omega
  obtain ⟨turns, turnsEq⟩ : ∃ turns, 2 * bytes.length = turns + 1 + 1 + 1 :=
    ⟨2 * bytes.length - 3, by omega⟩
  have nonempty : bytes ≠ [] := by
    intro none
    rw [none, drop_nil] at more
    exact more rfl
  have roomy : room ≠ 0 := by omega
  generalize sealedEq : sink.sealChunk 0#32 (sink.setBuild (chunk.put (bytes.take room)) state)
    = next
  have nextBuild : sink.build next = none := by rw [← sealedEq, lawful.build_seal]
  have nextSo : emitted (cut ++ [chunk.put (bytes.take room)]) next := by
    have so := lawful.emitted_seal _ _ 0#32 _ (lawful.emitted_setBuild cut
      (chunk.put (bytes.take room)) state sealedSo) (lawful.build_setBuild _ _)
    rwa [AofChunk.mark_zero, sealedEq] at so
  have first : sink.emit true bytes state
      = sink.emitLoop true (turns + 1 + 1) (bytes.drop room) next := by
    rw [emit, turnsEq, emitLoop, if_neg nonempty, building_of_some _ built]
    dsimp only
    rw [roomEq, if_neg roomy, if_pos ⟨rfl, filled, more⟩, sealedEq]
  have second : sink.emitLoop true (turns + 1 + 1) (bytes.drop room) next
      = sink.setBuild ((makeChunk flags).put (bytes.drop room)) next := by
    have fresh : sink.building flags next = makeChunk flags := by
      simp [building, nextBuild]
    have all := take_of_length_le restSized
    have none := drop_of_length_le restSized
    have wide : ¬kAofChunkBytes = 0 := by decide
    simp only [emitLoop, if_neg more, marked, fresh, makeChunk_bytes, length_nil,
      Nat.sub_zero, if_neg wide, all, none, ne_eq, not_true_eq_false, and_false, if_false, if_true]
  refine ⟨bytes.take room, bytes.drop room, ?_, ?_⟩
  · rw [first, second, lawful.build_setBuild]
  · rw [first, second]
    exact lawful.emitted_setBuild _ _ _ nextSo

/-- Two marked frames in a row frame nothing. -/
theorem Framed.not_begun_twice {records : List AofRecord} {front back : BitVec 32 × Bytes}
    {rest : List (BitVec 32 × Bytes)} (begun : front.1 = aofFrameLargeBegin)
    (again : back.1 ≠ 0#32) (notEnd : back.1 ≠ aofFrameLargeEnd)
    : ¬Framed records (front :: back :: rest) := by
  intro framed
  generalize framesEq : front :: back :: rest = frames at framed
  cases framed with
  | nil => exact absurd framesEq (by simp)
  | whole some unmarked =>
    obtain ⟨rfl, _⟩ := cons.inj framesEq
    rw [begun] at unmarked
    exact absurd unmarked (by decide)
  | @large record rest first middle last frames long isBegin unmarked isEnd =>
    obtain ⟨_, tail⟩ := cons.inj framesEq
    cases middle with
    | nil =>
      obtain ⟨rfl, _⟩ := cons.inj tail
      exact notEnd isEnd
    | cons next others =>
      obtain ⟨rfl, _⟩ := cons.inj tail
      exact again (unmarked back (by simp))

variable {count : Nat}

theorem deletion_bytes_length (sized : count < 2 ^ 32)
    : (deletion count sized).bytes.length = kAofRecordHeaderBytes + count := by
  rw [AofRecord.bytes_length]
  simp [deletion]

theorem inSequence_init : (AofProducer.init first).InSequence first where
  consecutive := by simp [Consecutive, AofProducer.numbered, AofProducer.init]
  next := by simp [AofProducer.numbered, AofProducer.init]

/-- A plain deletion whose key leaves no room for its last bytes in the first chunk: the second
chunk is marked as the begin of a record once more.
-/
theorem long_key_begun_twice (first : BitVec 32) (sized : count < 2 ^ 32)
    (long : kAofChunkBytes < kAofRecordHeaderBytes + count)
    (ends : kAofRecordHeaderBytes + count ≤ 2 * kAofChunkBytes)
    : ∃ front back,
        AofProducer.Queued (.init first) first [(makeChunk aofFrameLargeBegin).put front,
            ((makeChunk aofFrameLargeBegin).put back).mark aofFrameLargeEnd]
          ((AofProducer.init first).recordBytes false (deletion count sized) [])
        ∧ ((AofProducer.init first).recordBytes false (deletion count sized) []).build = none := by
  generalize recordEq : deletion count sized = record
  have headed := record.header_length
  have keyed : record.key.length = count := by simp [← recordEq, deletion]
  have large : kAofChunkBytes < record.bytes.length := by
    rwa [← recordEq, deletion_bytes_length]
  have lawful := AofProducer.sink_lawful (.init first) first false
  generalize startEq : { AofProducer.init first with
    build := some (makeChunk aofFrameLargeBegin) } = start
  have startBuild : (AofProducer.sink false).build start = some (makeChunk aofFrameLargeBegin) :=
    startEq ▸ rfl
  have startSo : AofProducer.Queued (.init first) first [] start :=
    startEq ▸ (AofProducer.Queued.refl inSequence_init).setBuild _
  have small : kAofRecordHeaderBytes < kAofChunkBytes := by decide
  obtain ⟨headBuild, headSo⟩ := lawful.emit_fits true record.header startBuild
    (by rw [makeChunk_bytes, length_nil]; omega) startSo
  obtain ⟨front, back, keyBuild, keySo⟩ := emit_crosses lawful aofFrameLargeBegin
    (fun _ => rfl) record.key headBuild
    (by rw [AofChunk.put_bytes, makeChunk_bytes, nil_append]; omega)
    (by rw [AofChunk.put_bytes, makeChunk_bytes, nil_append]; omega)
    (by rw [AofChunk.put_bytes, makeChunk_bytes, nil_append]; omega) headSo
  have written : (AofProducer.init first).recordBytes false record []
      = ((AofProducer.sink false).emit true record.key
          ((AofProducer.sink false).emit true record.header start)).seal false
            aofFrameLargeEnd := by
    have unsealed : (AofProducer.init first).seal false 0#32 = .init first := rfl
    have unbuilt : (AofProducer.init first).build = none := rfl
    have none : record.payload = [] := by simp [← recordEq, deletion]
    simp [AofProducer.recordBytes, large, unsealed,
      unbuilt, beginFlags, write, none, stream,
      streamLoop, ← startEq]
  rw [written]
  exact ⟨_, _, keySo.seal keyBuild false aofFrameLargeEnd, AofProducer.seal_build _ _ _⟩

/-- Such a deletion is posted in chunks that frame no records. -/
theorem long_key_unframed (sized : count < 2 ^ 32)
    (long : kAofChunkBytes < kAofRecordHeaderBytes + count)
    (ends : kAofRecordHeaderBytes + count ≤ 2 * kAofChunkBytes)
    : ∃ final,
        run step (.init 0) [.record false none (deletion count sized) [], .flush 2] = some final
        ∧ final.producer.hasPending = false
        ∧ ¬Framed (final.calls.filterMap (settle final.decisions))
            (final.producer.posted.map (·.chunk.frame)) := by
  obtain ⟨front, back, queued, built⟩ := long_key_begun_twice 0 sized long ends
  obtain ⟨staged, numbered⟩ := queued.direct rfl
  have closed : _ = none := queued.active
  have started : run step (.init 0) [.record false none (deletion count sized) [], .flush 2]
      = (((AofProducer.init 0).recordBytes false (deletion count sized) []).flush
          (fun _ => ⟨0#64, false⟩) 2).map fun producer =>
            { producer, decisions := fun _ => ⟨0#64, false⟩
              calls := [(none, deletion count sized)] } := by
    cases flushed : ((AofProducer.init 0).recordBytes false (deletion count sized) []).flush
      (fun _ => ⟨0#64, false⟩) 2 <;>
      simp [run, step, ProducerState.init, AofProducer.maybeTimestamp,
        AofProducer.dueTimestamp] <;> simp_all [AofProducer.init]
  generalize (AofProducer.init 0).recordBytes false (deletion count sized) [] = recorded
    at queued built staged numbered closed started
  have flushed : recorded.flush (fun _ => ⟨0#64, false⟩) 2
      = some (AofProducer.postReady 2 { recorded with staged := [] }) := by
    have same : recorded.seal false 0#32 = recorded := by simp [AofProducer.seal, built]
    simp [AofProducer.flush, same, closed, staged, AofProducer.resolveItems]
  rw [flushed] at started
  have counted := congrArg length numbered
  have few : recorded.ready.length ≤ 2 := by
    simp [AofProducer.numbered, AofProducer.init] at counted
    omega
  refine ⟨_, started, ?_, ?_⟩
  · simp [AofProducer.hasPending, AofProducer.postReady, built, drop_of_length_le few]
  · have posted : recorded.posted ++ recorded.ready.take 2 = recorded.numbered := by
      rw [take_of_length_le few]
      rfl
    have frames : (recorded.posted ++ recorded.ready.take 2).map (·.chunk.frame)
        = (recorded.numbered.map (·.chunk)).map AofChunk.frame := by
      rw [posted, List.map_map]
      rfl
    show ¬Framed _ ((recorded.posted ++ recorded.ready.take 2).map (·.chunk.frame))
    rw [frames, numbered]
    exact Framed.not_begun_twice rfl (show aofFrameLargeBegin ||| aofFrameLargeEnd ≠ 0#32 by decide)
      (show aofFrameLargeBegin ||| aofFrameLargeEnd ≠ aofFrameLargeEnd by decide)

/-- A deletion of a key of 65497 bytes is posted in two chunks that are both marked as the begin
of a record.
-/
theorem long_key_not_framed
    : ∃ record : AofRecord,
        record.key.length = 65497
        ∧ ∃ final,
            run step (.init 0) [.record false none record [], .flush 2] = some final
            ∧ final.producer.hasPending = false
            ∧ ¬Framed (final.calls.filterMap (settle final.decisions))
                (final.producer.posted.map (·.chunk.frame)) := by
  have sized : 65497 < 2 ^ 32 := by decide
  exact ⟨deletion 65497 sized, length_replicate, long_key_unframed sized (by decide) (by decide)⟩

end ProducerState

end Thredis.Persist
