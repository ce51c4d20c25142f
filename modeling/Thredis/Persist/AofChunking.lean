import Thredis.Persist.AofProducer

/-! What the cutting loops do with a record: it goes into the chunk being built as far as that
has room, and on into chunks of its own.
-/

namespace Thredis.Persist

open List AofChunk

variable (chunk : AofChunk)

@[simp]
theorem AofChunk.mark_zero : chunk.mark 0#32 = chunk := by
  simp [mark]

@[simp]
theorem AofChunk.put_bytes (bytes : Bytes)
    : (chunk.put bytes).bytes = chunk.bytes ++ bytes := rfl

@[simp]
theorem AofChunk.put_nil : chunk.put [] = chunk := by
  simp [put]

theorem AofChunk.put_put (front back : Bytes)
    : (chunk.put front).put back = chunk.put (front ++ back) := by
  simp [put]

@[simp]
theorem makeChunk_bytes (flags : BitVec 32) : (makeChunk flags).bytes = [] := rfl

/-- (Spill chunk bytes cut last) says that `bytes`, written behind what `chunk` holds, fill the
chunks `cut` to the brim and end in `last`; all chunks but the first are fresh and unmarked.
-/
inductive Spill : AofChunk → Bytes → List AofChunk → AofChunk → Prop
  | fits {chunk bytes} (room : chunk.bytes.length + bytes.length ≤ kAofChunkBytes)
    : Spill chunk bytes [] (chunk.put bytes)
  | fills {chunk front back cut last}
      (full : chunk.bytes.length + front.length = kAofChunkBytes) (more : back ≠ [])
      (onward : Spill (makeChunk 0#32) back cut last)
    : Spill chunk (front ++ back) (chunk.put front :: cut) last

variable {chunk last : AofChunk} {cut : List AofChunk} {front back : Bytes}

/-- Bytes that follow what was put into a chunk spill as if they had come with it. -/
theorem Spill.put (spilled : Spill (chunk.put front) back cut last)
    : Spill chunk (front ++ back) cut last := by
  cases spilled with
  | fits room =>
    rw [put_put]
    refine .fits ?_
    rw [put_bytes, length_append] at room
    rw [length_append]
    omega
  | @fills _ filling rest _ _ full more onward =>
    rw [put_put, ← append_assoc]
    refine .fills ?_ more onward
    rw [put_bytes, length_append] at full
    rw [length_append]
    omega

theorem Spill.nil (sized : chunk.bytes.length ≤ kAofChunkBytes)
    : Spill chunk [] [] chunk := by
  have fits : Spill chunk [] [] (chunk.put []) := .fits (by exact sized)
  rwa [put_nil] at fits

variable {bytes : Bytes}

theorem Spill.of_nil
    (spilled : Spill chunk bytes cut last) (empty : bytes = []) : last = chunk := by
  cases spilled with
  | fits room => rw [empty, put_nil]
  | fills full more onward => exact absurd (append_eq_nil_iff.mp empty).2 more

/-- Bytes that fit do not leave the chunk. -/
theorem Spill.of_room (spilled : Spill chunk bytes cut last)
    (room : chunk.bytes.length + bytes.length ≤ kAofChunkBytes)
    : cut = [] ∧ last = chunk.put bytes := by
  cases spilled with
  | fits _ => exact ⟨rfl, rfl⟩
  | fills full more onward =>
    have := length_pos_iff.mpr more
    rw [length_append] at room
    omega

/-- A full chunk is cut off and the bytes go on in a fresh one. -/
theorem Spill.brim (full : chunk.bytes.length = kAofChunkBytes) (more : bytes ≠ [])
    (onward : Spill (makeChunk 0#32) bytes cut last) : Spill chunk bytes (chunk :: cut) last := by
  have filled : Spill chunk ([] ++ bytes) (chunk.put [] :: cut) last :=
    .fills (by exact full) more onward
  rwa [put_nil] at filled

/-- Two pieces written one after the other spill as one.
Witness: induction over the first spill.
-/
theorem Spill.append {mid : AofChunk} {before after : List AofChunk}
    (first : Spill chunk front before mid) (second : Spill mid back after last)
    : Spill chunk (front ++ back) (before ++ after) last := by
  induction first with
  | fits room => exact second.put
  | fills full more _ ih =>
    rw [append_assoc]
    exact .fills full (by simp [more]) (ih second)

section

variable (spilled : Spill chunk bytes cut last)

include spilled

theorem Spill.bytes_eq
    : (cut ++ [last]).flatMap (·.bytes) = chunk.bytes ++ bytes := by
  induction spilled with
  | fits room => simp
  | fills full more _ ih => simpa using ih

theorem Spill.sized
    : ∀ piece ∈ cut ++ [last], piece.bytes.length ≤ kAofChunkBytes := by
  induction spilled with
  | fits room => simpa using room
  | fills full more _ ih =>
    intro piece among
    rcases mem_cons.mp among with rfl | later
    · simpa using full.le
    · exact ih piece later

/-- Behind the first chunk every chunk of a spill is unmarked.
Witness: induction over the spill; each further chunk starts fresh.
-/
theorem Spill.shape
    : (cut = [] ∧ last = chunk.put bytes)
      ∨ ∃ front middle,
          cut = chunk.put front :: middle ∧ chunk.bytes.length + front.length = kAofChunkBytes
          ∧ (∀ piece ∈ middle, piece = (makeChunk 0#32).put piece.bytes)
          ∧ last = (makeChunk 0#32).put last.bytes := by
  induction spilled with
  | fits room => exact .inl ⟨rfl, rfl⟩
  | @fills chunk front back cut last full more onward ih =>
    refine .inr ⟨front, cut, rfl, full, ?_⟩
    rcases ih with ⟨rfl, rfl⟩ | ⟨next, middle, rfl, _, fresh, freshLast⟩
    · exact ⟨by simp, by simp⟩
    · refine ⟨?_, freshLast⟩
      intro piece among
      rcases mem_cons.mp among with rfl | later
      · simp
      · exact fresh piece later

end

-- The loops over a lawful sink

variable {σ : Type}

/-- A sink keeps the chunk it is given, and what it has sealed grows by the chunk it seals.
`emitted` describes the states in which these chunks were sealed since some start.
-/
structure ChunkSink.Lawful (sink : ChunkSink σ) (emitted : List AofChunk → σ → Prop) : Prop where
  build_setBuild : ∀ chunk state, sink.build (sink.setBuild chunk state) = some chunk
  build_seal : ∀ flags state, sink.build (sink.sealChunk flags state) = none
  building_refill : ∀ flags state,
    sink.build (sink.refill state) = sink.build state
    ∨ sink.building flags (sink.refill state) = makeChunk 0
  emitted_setBuild : ∀ cut chunk state, emitted cut state → emitted cut (sink.setBuild chunk state)
  emitted_seal : ∀ cut chunk flags state, emitted cut state → sink.build state = some chunk
    → emitted (cut ++ [chunk.mark flags]) (sink.sealChunk flags state)
  emitted_refill : ∀ cut state, emitted cut state → emitted cut (sink.refill state)

namespace ChunkSink

variable {sink : ChunkSink σ} {emitted : List AofChunk → σ → Prop}
variable {state : σ} {chunk : AofChunk}

theorem building_of_some (flags : BitVec 32)
    (built : sink.build state = some chunk) : sink.building flags state = chunk := by
  simp [building, built]

/-- A chunk that holds something is not a fresh one. -/
theorem build_of_full {flags : BitVec 32}
    (full : kAofChunkBytes - (sink.building flags state).bytes.length = 0)
    : sink.build state = some (sink.building flags state) := by
  cases built : sink.build state with
  | none => simp [building, built, kAofChunkBytes] at full
  | some chunk => rw [building_of_some flags built]

/-- After the seal of a full chunk the next one is fresh and unmarked. -/
theorem Lawful.building_next (lawful : sink.Lawful emitted) (state : σ)
    : sink.building 0#32 (sink.refill (sink.sealChunk 0#32 state)) = makeChunk 0#32 := by
  rcases lawful.building_refill 0#32 (sink.sealChunk 0#32 state) with same | fresh
  · rw [building, same, lawful.build_seal]
    rfl
  · exact fresh

theorem readSaveWrites_le (progress : List Nat) (capacity : Nat)
    : readSaveWrites progress capacity ≤ capacity := by
  unfold readSaveWrites
  split <;> omega

theorem readSaveWrites_pos (progress : List Nat) {capacity : Nat} (some : 0 < capacity)
    : 0 < readSaveWrites progress capacity := by
  unfold readSaveWrites
  split <;> omega

/-- The bytes go from the chunk being built into those after it; `after` builds the last of them
and has sealed the others. Without bytes nothing happens.
-/
def Written (sink : ChunkSink σ) (emitted : List AofChunk → σ → Prop) (cut : List AofChunk)
    (chunk : AofChunk) (bytes : Bytes) (before after : σ) : Prop :=
  ∃ more last, Spill chunk bytes more last ∧ (bytes ≠ [] → sink.build after = some last)
    ∧ (bytes = [] → after = before) ∧ emitted (cut ++ more) after

def Spilled (sink : ChunkSink σ) (emitted : List AofChunk → σ → Prop) (cut : List AofChunk)
    (chunk : AofChunk) (bytes : Bytes) (after : σ) : Prop :=
  ∃ more last, Spill chunk bytes more last ∧ sink.build after = some last
    ∧ emitted (cut ++ more) after

variable {bytes : Bytes} {cut : List AofChunk} {before between after : σ}

theorem Written.nil (sized : chunk.bytes.length ≤ kAofChunkBytes) (sealedSo : emitted cut state)
    : sink.Written emitted cut chunk [] state state :=
  ⟨[], chunk, .nil sized, by simp, fun _ => rfl, by simpa using sealedSo⟩

/-- A full chunk is sealed first. -/
theorem Written.brim (full : chunk.bytes.length = kAofChunkBytes) (short : bytes ≠ [])
    (onward : sink.Written emitted (cut ++ [chunk.mark 0#32]) (makeChunk 0#32) bytes between after)
    : sink.Written emitted cut chunk bytes before after := by
  obtain ⟨more, last, spilled, ends, _, emits⟩ := onward
  refine ⟨chunk :: more, last, .brim full short spilled, ends, fun empty => absurd empty short, ?_⟩
  rw [mark_zero, append_assoc] at emits
  exact emits

/-- A first piece is put into the chunk. -/
theorem Written.put (whole : front ++ back = bytes) (short : bytes ≠ [])
    (built : back = [] → sink.build between = some (chunk.put front))
    (onward : sink.Written emitted cut (chunk.put front) back between after)
    : sink.Written emitted cut chunk bytes before after := by
  obtain ⟨more, last, spilled, ends, stays, emits⟩ := onward
  refine ⟨more, last, whole ▸ spilled.put, fun _ => ?_, fun empty => absurd empty short, emits⟩
  by_cases rest : back = []
  · rw [stays rest, built rest, spilled.of_nil rest]
  · exact ends rest

theorem Written.of_built (written : sink.Written emitted cut chunk bytes state after)
    (built : sink.build state = some chunk) : sink.Spilled emitted cut chunk bytes after := by
  obtain ⟨more, last, spilled, ends, stays, emits⟩ := written
  refine ⟨more, last, spilled, ?_, emits⟩
  by_cases short : bytes = []
  · rw [stays short, built, spilled.of_nil short]
  · exact ends short

/-- The value loop spills the value from the chunk being built, whatever the single calls write.
Witness: induction over the turns; a turn seals a full chunk or puts bytes into it.
-/
theorem Lawful.streamLoop_spills (lawful : sink.Lawful emitted) (turns : Nat)
    (progress : List Nat) (value : Bytes) (state : σ) (cut : List AofChunk) (chunk : AofChunk)
    (building : sink.building 0#32 state = chunk) (sized : chunk.bytes.length ≤ kAofChunkBytes)
    (sealedSo : emitted cut state) (enough : 2 * value.length ≤ turns
      + (if chunk.bytes.length = kAofChunkBytes then 0 else 1))
    : sink.Written emitted cut chunk value state (sink.streamLoop turns progress value state) := by
  induction turns generalizing progress value state cut chunk with
  | zero =>
    have short : value = [] := by
      apply eq_nil_of_length_eq_zero
      split at enough <;> omega
    subst short
    exact .nil sized sealedSo
  | succ turns ih =>
    by_cases short : value = []
    · subst short
      exact Written.nil sized sealedSo
    by_cases full : kAofChunkBytes - chunk.bytes.length = 0
    · -- the chunk is full: the turn only seals it
      have brim : chunk.bytes.length = kAofChunkBytes := by omega
      have built : sink.build state = some chunk := by
        rw [← building] at full ⊢
        exact build_of_full full
      have turn : sink.streamLoop (turns + 1) progress value state
          = sink.streamLoop turns progress value (sink.refill (sink.sealChunk 0#32 state)) := by
        simp [streamLoop, short, building, full]
      rw [turn]
      refine .brim brim short (ih progress value _ _ _ (lawful.building_next state) (by simp)
        (lawful.emitted_refill _ _ (lawful.emitted_seal cut chunk 0#32 state sealedSo built)) ?_)
      rw [if_pos brim] at enough
      rw [if_neg (by simp [kAofChunkBytes])]
      omega
    · -- the turn puts what one call of `read_save` writes
      have capacity : 0 < min (kAofChunkBytes - chunk.bytes.length) value.length := by
        have := length_pos_iff.mpr short
        omega
      generalize writtenEq : readSaveWrites progress
        (min (kAofChunkBytes - chunk.bytes.length) value.length) = written
      have positive := writtenEq ▸ readSaveWrites_pos progress capacity
      have bounded := writtenEq ▸ readSaveWrites_le progress
        (min (kAofChunkBytes - chunk.bytes.length) value.length)
      have turn : sink.streamLoop (turns + 1) progress value state
          = sink.streamLoop turns progress.tail (value.drop written)
              (sink.setBuild (chunk.put (value.take written)) state) := by
        simp [streamLoop, short, building, full, writtenEq]
      have built := lawful.build_setBuild (chunk.put (value.take written)) state
      rw [turn]
      refine .put (take_append_drop written value) short (fun _ => built)
        (ih progress.tail _ _ cut _ (building_of_some 0#32 built) ?_
          (lawful.emitted_setBuild _ _ _ sealedSo) ?_)
      · rw [put_bytes, length_append, length_take]
        omega
      · rw [length_drop]
        split at enough <;> split <;> omega

variable {cut : List AofChunk}

/-- `emit` of bytes the chunk has room for puts them there. -/
theorem Lawful.emit_fits (lawful : sink.Lawful emitted) (large : Bool) (bytes : Bytes)
    (built : sink.build state = some chunk)
    (room : chunk.bytes.length + bytes.length ≤ kAofChunkBytes) (sealedSo : emitted cut state)
    : sink.build (sink.emit large bytes state) = some (chunk.put bytes)
      ∧ emitted cut (sink.emit large bytes state) := by
  by_cases short : bytes = []
  · subst short
    exact ⟨by simp [emit, emitLoop, built], by exact sealedSo⟩
  have positive := length_pos_iff.mpr short
  obtain ⟨turns, turnsEq⟩ : ∃ turns, 2 * bytes.length = turns + 1 + 1 :=
    ⟨2 * bytes.length - 2, by omega⟩
  have roomy : kAofChunkBytes - chunk.bytes.length ≠ 0 := by omega
  have all : bytes.take (kAofChunkBytes - chunk.bytes.length) = bytes :=
    take_of_length_le (by omega)
  have none : bytes.drop (kAofChunkBytes - chunk.bytes.length) = [] := drop_of_length_le (by omega)
  have once : sink.emit large bytes state = sink.setBuild (chunk.put bytes) state := by
    simp [emit, turnsEq, emitLoop, short, building_of_some _ built, roomy, all, none]
  rw [once]
  exact ⟨lawful.build_setBuild _ _, lawful.emitted_setBuild _ _ _ sealedSo⟩

/-- Chunks that `emit` begins in the middle of a record are unmarked. -/
def Unmarked (sink : ChunkSink σ) (large : Bool) : Prop :=
  ∀ state chunk, sink.build state = some chunk
    → sink.freshFlags large (sink.sealChunk 0#32 state) = 0#32
      ∧ sink.building (sink.freshFlags large (sink.refill (sink.sealChunk 0#32 state)))
          (sink.refill (sink.sealChunk 0#32 state)) = makeChunk 0

variable (lawful : sink.Lawful emitted)

include lawful

/-- While chunks begun by `emit` are unmarked, it spills its bytes from the chunk being built.
Witness: induction over the turns, as for the value loop; a chunk filled by a large record is
sealed in the turn that fills it.
-/
theorem Lawful.emitLoop_spills (large : Bool) (unmarked : sink.Unmarked large) (turns : Nat)
    (bytes : Bytes) (state : σ) (cut : List AofChunk) (chunk : AofChunk)
    (building : sink.building (sink.freshFlags large state) state = chunk)
    (sized : chunk.bytes.length ≤ kAofChunkBytes) (sealedSo : emitted cut state)
    (enough : 2 * bytes.length ≤ turns + (if chunk.bytes.length = kAofChunkBytes then 0 else 1))
    : sink.Written emitted cut chunk bytes state (sink.emitLoop large turns bytes state) := by
  induction turns generalizing bytes state cut chunk with
  | zero =>
    have short : bytes = [] := by
      apply eq_nil_of_length_eq_zero
      split at enough <;> omega
    subst short
    exact .nil sized sealedSo
  | succ turns ih =>
    by_cases short : bytes = []
    · subst short
      exact Written.nil sized sealedSo
    by_cases full : kAofChunkBytes - chunk.bytes.length = 0
    · have brim : chunk.bytes.length = kAofChunkBytes := by omega
      have built : sink.build state = some chunk := by
        rw [← building] at full ⊢
        exact build_of_full full
      have turn : sink.emitLoop large (turns + 1) bytes state
          = sink.emitLoop large turns bytes (sink.refill (sink.sealChunk 0#32 state)) := by
        simp [emitLoop, short, building, full]
      rw [turn]
      refine .brim brim short (ih bytes _ _ _ (unmarked state chunk built).2 (by simp)
        (lawful.emitted_refill _ _ (lawful.emitted_seal cut chunk 0#32 state sealedSo built)) ?_)
      rw [if_pos brim] at enough
      rw [if_neg (by simp [kAofChunkBytes])]
      omega
    · generalize roomEq : kAofChunkBytes - chunk.bytes.length = room at full
      have whole : bytes.take room ++ bytes.drop room = bytes := take_append_drop _ _
      have built := lawful.build_setBuild (chunk.put (bytes.take room)) state
      have after := lawful.emitted_setBuild cut (chunk.put (bytes.take room)) state sealedSo
      by_cases eager : large ∧ (chunk.put (bytes.take room)).bytes.length = kAofChunkBytes
          ∧ bytes.drop room ≠ []
      · obtain ⟨_, brim, rest⟩ := eager
        have turn : sink.emitLoop large (turns + 1) bytes state
            = sink.emitLoop large turns (bytes.drop room)
                (sink.sealChunk 0#32 (sink.setBuild (chunk.put (bytes.take room)) state)) := by
          simp only [emitLoop, short, if_false, building, roomEq, full]
          rw [if_pos ⟨‹_›, brim, rest⟩]
        have fresh : sink.building (sink.freshFlags large
              (sink.sealChunk 0#32 (sink.setBuild (chunk.put (bytes.take room)) state)))
            (sink.sealChunk 0#32 (sink.setBuild (chunk.put (bytes.take room)) state))
            = makeChunk 0#32 := by
          rw [ChunkSink.building, lawful.build_seal, (unmarked _ _ built).1]
          rfl
        rw [turn]
        refine .put whole short (fun _ => built) (.brim brim rest (ih _ _ _ _ fresh (by simp)
            (lawful.emitted_seal _ _ 0#32 _ after built) ?_))
        rw [length_drop]
        split at enough <;> omega
      · have turn : sink.emitLoop large (turns + 1) bytes state
            = sink.emitLoop large turns (bytes.drop room)
                (sink.setBuild (chunk.put (bytes.take room)) state) := by
          simp only [emitLoop, short, if_false, building, roomEq, full]
          rw [if_neg eager]
        rw [turn]
        refine .put whole short (fun _ => built)
          (ih _ _ cut _ (building_of_some _ built) ?_ after ?_)
        · rw [put_bytes, length_append, length_take]
          omega
        · rw [length_drop]
          split at enough <;> split <;> omega

variable (built : sink.build state = some chunk) (sealedSo : emitted cut state)

include built sealedSo

theorem Lawful.emit_spills {large : Bool} (unmarked : sink.Unmarked large) (bytes : Bytes)
    (sized : chunk.bytes.length ≤ kAofChunkBytes)
    : sink.Spilled emitted cut chunk bytes (sink.emit large bytes state) := by
  exact (lawful.emitLoop_spills large unmarked (2 * bytes.length) bytes state cut chunk
    (building_of_some _ built) sized sealedSo (by omega)).of_built built

theorem Lawful.stream_spills (progress : List Nat) (value : Bytes)
    (sized : chunk.bytes.length ≤ kAofChunkBytes)
    : sink.Spilled emitted cut chunk value (sink.stream progress value state) := by
  exact (lawful.streamLoop_spills (2 * value.length) progress value state cut chunk
    (building_of_some _ built) sized sealedSo (by omega)).of_built built

variable (record : AofRecord) (progress : List Nat)

/-- A record spills from the chunk being built when its header and key fit there. -/
theorem Lawful.write_spills_of_room
    (room : chunk.bytes.length + (kAofRecordHeaderBytes + record.key.length) ≤ kAofChunkBytes)
    : sink.Spilled emitted cut chunk record.bytes (sink.write record progress state) := by
  have headerSized := record.header_length
  obtain ⟨headed, headedSo⟩ := lawful.emit_fits (decide (kAofChunkBytes < record.bytes.length))
    record.header built (by omega) sealedSo
  obtain ⟨keyed, keyedSo⟩ := lawful.emit_fits (decide (kAofChunkBytes < record.bytes.length))
    record.key headed (by
      rw [put_bytes, length_append]
      omega) headedSo
  obtain ⟨more, last, spilled, ends, emits⟩ := lawful.stream_spills keyed keyedSo progress
    record.payload (by
      rw [put_bytes, put_bytes, length_append, length_append]
      omega)
  exact ⟨more, last, spilled.put.put, ends, emits⟩

/-- A record spills from the chunk being built when no chunk is marked on the way. -/
theorem Lawful.write_spills
    (unmarked : sink.Unmarked (decide (kAofChunkBytes < record.bytes.length)))
    (sized : chunk.bytes.length ≤ kAofChunkBytes)
    : sink.Spilled emitted cut chunk record.bytes (sink.write record progress state) := by
  obtain ⟨first, headed, headSpilled, headBuilt, headSo⟩ :=
    lawful.emit_spills built sealedSo unmarked record.header sized
  obtain ⟨second, keyed, keySpilled, keyBuilt, keySo⟩ := lawful.emit_spills headBuilt headSo
    unmarked record.key (headSpilled.sized _ (by simp))
  obtain ⟨third, last, spilled, ends, emits⟩ := lawful.stream_spills keyBuilt keySo progress
    record.payload (keySpilled.sized _ (by simp))
  refine ⟨first ++ (second ++ third), last, headSpilled.append (keySpilled.append spilled), ends,
    ?_⟩
  simp only [append_assoc] at emits
  exact emits

end ChunkSink

/-- The chunks of a group grow by what it seals. -/
theorem PendingGroup.sink_lawful (start : PendingGroup)
    : PendingGroup.sink.Lawful fun cut group =>
        group.decision = start.decision ∧ group.chunks = start.chunks ++ cut where
  build_setBuild _ _ := rfl
  build_seal flags group := by
    cases built : group.build <;> simp [PendingGroup.sink, PendingGroup.seal, built]
  building_refill _ _ := .inl rfl
  emitted_setBuild _ _ _ so := so
  emitted_seal cut chunk flags group so built := by
    have built : group.build = some chunk := built
    simp [PendingGroup.sink, PendingGroup.seal, built, so.1, so.2]
  emitted_refill _ _ so := so

/-- Behind a group's first chunk no chunk is marked as the begin of a record. -/
theorem PendingGroup.sink_unmarked (large : Bool) : PendingGroup.sink.Unmarked large := by
  intro group chunk built
  have built : group.build = some chunk := built
  simp [PendingGroup.sink, PendingGroup.seal, ChunkSink.building, built, beginFlags]

end Thredis.Persist
