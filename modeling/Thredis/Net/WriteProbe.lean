import Thredis.Net.WriteRing

/-! The probe for in-flight writes: whatever the sidecar keeps about a write, in the parked
candidate, in the conservative generation or in the ring, a probe of a hash the write touches
finds it through the summaries.
-/

namespace Thredis.Net
open BitVec Bool List Rob ReadLocalRobState

variable {j : Nat}

theorem Rob.lowestSet_spec {bits : BitVec 64} (inside : j < 64) (set : bits.getLsbD j = true)
    : lowestSet bits ≤ j ∧ bits.getLsbD (lowestSet bits) = true := by
  rw [lowestSet]
  cases found : (range 64).find? bits.getLsbD with
  | none =>
    have unset := find?_eq_none.mp found j (mem_range.mpr inside)
    exact absurd set unset
  | some low =>
    rw [find?_range_eq_some] at found
    refine ⟨Nat.le_of_not_lt (fun above => ?_), found.1⟩
    have unset := found.2.2 j above
    simp [set] at unset

theorem getLsbD_group {shift : Nat} (inside : j < 64)
    : (0xffff#64 <<< shift).getLsbD j = decide (shift ≤ j ∧ j < shift + 16) := by
  have low : ∀ m, (0xffff#64).getLsbD m = decide (m < 16) := by
    intro m
    have shape : (0xffff#64) = BitVec.ofNat 64 (2 ^ 16 - 1) := rfl
    rw [shape, getLsbD_ofNat, Nat.testBit_two_pow_sub_one]
    by_cases small : m < 16
    · simp [Nat.lt_trans small (by decide : 16 < 64)]
    · simp [small]
  rw [getLsbD_shiftLeft, low]
  by_cases above : shift ≤ j
  · have near : j - shift < 16 ↔ j < shift + 16 := by omega
    simp [inside, above, near]
  · simp [above]

/-- The sweep finds every live slot that carries the tag.
Witness: induction over the groups left; each turn clears a whole group below all others.
-/
theorem Rob.sweepTags_true {tags : List (BitVec 16)} {tag : BitVec 16} {groups : Nat}
    {rest : BitVec 64} (few : groups ≤ 4)
    (above : ∀ i < 64, rest.getLsbD i = true → 64 - 16 * groups ≤ i)
    (inside : j < 64) (live : rest.getLsbD j = true) (tagged : tags.getD j 0#16 = tag)
    : sweepTags tags tag groups rest = true := by
  induction groups generalizing rest with
  | zero =>
    have := above j inside live
    omega
  | succ groups ih =>
    obtain ⟨least, set⟩ := lowestSet_spec inside live
    have floor := above (lowestSet rest) (by omega) set
    rw [sweepTags]
    split
    · rfl
    · rename_i missed
      have later : lowestSet rest / kTagLanes * kTagLanes + 16 ≤ j := by
        refine Nat.le_of_not_lt (fun near => missed ?_)
        refine any_eq_true.mpr ⟨j - lowestSet rest / kTagLanes * kTagLanes, ?_, ?_⟩
        · rw [mem_range]
          simp only [kTagLanes] at near ⊢
          omega
        · have place : lowestSet rest / kTagLanes * kTagLanes
              + (j - lowestSet rest / kTagLanes * kTagLanes) = j := by
            simp only [kTagLanes]
            omega
          rw [place, tagged, live]
          simp
      have next : ∀ i < 64, (rest &&& ~~~ (0xffff#64 <<<
            (lowestSet rest / kTagLanes * kTagLanes))).getLsbD i = true
          ↔ rest.getLsbD i = true
            ∧ ¬ (lowestSet rest / kTagLanes * kTagLanes ≤ i
              ∧ i < lowestSet rest / kTagLanes * kTagLanes + 16) := by
        intro i bound
        rw [getLsbD_and, getLsbD_not, getLsbD_group bound]
        simp only [bound, decide_true, Bool.true_and, Bool.and_eq_true, Bool.not_eq_true',
          decide_eq_false_iff_not]
      have onward := (next j inside).mpr ⟨live, fun near => by omega⟩
      rw [if_neg (fun zero => by rw [zero] at onward; simp at onward)]
      refine ih (by omega) (fun i bound kept => ?_) onward
      obtain ⟨before, outside⟩ := (next i bound).mp kept
      have lowest := (lowestSet_spec bound before).1
      simp only [kTagLanes] at outside
      omega

def Describes (rob : Rob) (write : Write) (hash : BitVec 64) : PendingWrite → Prop
  | .none => False
  | .overflow => True
  | .hash => write.keys = some [hash]
  | .keyset => ∃ keys, write.keys = some keys ∧ hash = Connection.keysFilter keys
      ∧ rob.opAt write.id = keys

def ReadLocalRobState.kindAt (state : ReadLocalRobState) (i : Nat) : PendingWrite :=
  if state.writeKeysetSlots.getLsbD (state.slotOf i) then .keyset else .hash

/-- The sidecar keeps a write: as the parked candidate, in the conservative generation, or in
the ring.
-/
inductive Tracked (rob : Rob) (state : ReadLocalRobState) (write : Write) : Prop
  | parked (named : state.pendingOpId = write.id)
    (described : Describes rob write state.pendingHash state.pendingWrite)
  | generation (live : state.overflow = true)
    (covered : write.id.toNat ≤ state.overflowThrough.toNat)
  | entry (i : Nat) (inside : i < state.writeCount) (named : (state.entry i).opId = write.id)
    (described : Describes rob write (state.entry i).hash (state.kindAt i))

variable {rob : Rob} {state : ReadLocalRobState} {bound : Nat} {write : Write}
variable {rob' : Rob}

/-- A description depends on the command in the write's slot only. -/
theorem describes_opAt (held : rob'.opAt write.id = rob.opAt write.id)
    (hash : BitVec 64) (kind : PendingWrite)
    : Describes rob' write hash kind ↔ Describes rob write hash kind := by
  cases kind <;> simp [Describes, held]

theorem describes_congr (ops : rob'.ops = rob.ops) (hash : BitVec 64)
    (kind : PendingWrite) : Describes rob' write hash kind ↔ Describes rob write hash kind :=
  describes_opAt (by rw [opAt, opAt, ops]) hash kind

variable {keys : List KeyHash} {hash : KeyHash}

/-- The filter of a keyset holds the bits of each of its keys. -/
theorem keysFilter_and (member : hash ∈ keys)
    : Connection.keysFilter keys &&& keysetFilter hash = keysetFilter hash := by
  have grows : ∀ (rest : List KeyHash) (filter : BitVec 64) (j : Nat), filter.getLsbD j = true
      → (rest.foldl (fun filter hash => filter ||| keysetFilter hash) filter).getLsbD j = true := by
    intro rest
    induction rest with
    | nil => exact fun _ _ set => set
    | cons first rest ih =>
      intro filter j set
      exact ih _ j (by rw [BitVec.getLsbD_or, set, Bool.true_or])
  have holds : ∀ (keys : List KeyHash) (filter : BitVec 64) (j : Nat), hash ∈ keys
      → (keysetFilter hash).getLsbD j = true
      → (keys.foldl (fun filter hash => filter ||| keysetFilter hash) filter).getLsbD j = true := by
    intro keys
    induction keys with
    | nil => exact fun _ _ member => absurd member not_mem_nil
    | cons first rest ih =>
      intro filter j member set
      rcases mem_cons.mp member with rfl | later
      · exact grows rest _ j (by rw [BitVec.getLsbD_or, set, Bool.or_true])
      · exact ih _ j later set
  refine slots_ext (fun j inside => ?_)
  rw [getLsbD_and, and_eq_true]
  exact ⟨fun both => both.2, fun set => ⟨holds keys 0#64 j member set, set⟩⟩

theorem touches_some (shape : write.keys = some keys)
    (touches : write.touches hash = true) : hash ∈ keys := by
  rw [Write.touches, shape] at touches
  simpa using touches

/-- A keyset word answers for every key of the command it stands for. -/
theorem keysetTouches_true {opId : BitVec 64} (held : rob.opAt opId = keys) (member : hash ∈ keys)
    : rob.keysetTouches (Connection.keysFilter keys) (keysetFilter hash) opId hash = true := by
  rw [keysetTouches, keysFilter_and member, held]
  simpa using member

variable {after : ReadLocalRobState}

-- The answer

theorem parked_conflicts (named : state.pendingOpId = write.id)
    (described : Describes rob write state.pendingHash state.pendingWrite)
    (touches : write.touches hash = true)
    : rob.pendingConflicts state (probeFilter state hash) hash = true := by
  rw [pendingConflicts]
  cases kind : state.pendingWrite with
  | none => rw [kind] at described; exact described.elim
  | overflow => rfl
  | hash =>
    rw [kind] at described
    have member := touches_some described touches
    simp only [mem_singleton] at member
    simp [member]
  | keyset =>
    rw [kind] at described
    obtain ⟨keys, shape, filter, held⟩ := described
    have wide : probeFilter state hash = keysetFilter hash := by simp [probeFilter, kind]
    rw [filter, wide, named]
    exact keysetTouches_true held (touches_some shape touches)

/-- The walk over the ring meets the entry of the write. -/
theorem entry_conflicts {i : Nat} {filter : BitVec 64} (inside : i < state.writeCount)
    (named : (state.entry i).opId = write.id)
    (described : Describes rob write (state.entry i).hash (state.kindAt i))
    (wide : state.kindAt i = .keyset → filter = keysetFilter hash)
    (touches : write.touches hash = true)
    : rob.ringConflicts state filter hash = true := by
  refine any_eq_true.mpr ⟨i, mem_range.mpr inside, ?_⟩
  have slot : (state.writeHead + i) % kWriteRingCapacity = state.slotOf i := rfl
  have held : state.writeRing.getD (state.slotOf i) default = state.entry i := rfl
  dsimp only
  rw [slot, held]
  split
  · rename_i set
    have kind : state.kindAt i = .keyset := by rw [kindAt, if_pos set]
    rw [kind] at described
    obtain ⟨keys, shape, stored, command⟩ := described
    rw [stored, wide kind, named]
    exact keysetTouches_true command (touches_some shape touches)
  · rename_i unset
    have kind : state.kindAt i = .hash := by rw [kindAt, if_neg unset]
    rw [kind] at described
    have member := touches_some described touches
    simp only [mem_singleton] at member
    simp [member]

section

variable (agrees : RingAgrees rob state bound) (window : rob.flush.toNat ≤ rob.dispatch.toNat)
variable (within : bound ≤ rob.dispatch.toNat) (tracked : Tracked rob state write)
variable (needed : rob.idActive write.id = true ∨ bound ≤ write.id.toNat)

include agrees window within needed

/-- The generation that keeps a write still needed is not pruned away. -/
theorem Pruned.overflowed (pruned : Pruned rob state bound rob' after)
    (live : state.overflow = true) (covered : write.id.toNat ≤ state.overflowThrough.toNat)
    : after.overflow = true := by
  have below := (agrees.generation live).2
  have flying := needed.resolve_right (by omega)
  have active : rob.idActive state.overflowThrough = true := by
    rw [idActive, readLocalIdActive_iff window] at flying ⊢
    omega
  by_contra lifted
  have gone := pruned.lifted (by simpa using lifted) live
  rw [active] at gone
  cases gone

include tracked

/-- What pruning keeps: a write in flight, or parked as the candidate of the frame. -/
theorem Tracked.pruned (pruned : Pruned rob state bound rob' after)
    : Tracked rob' after write := by
  have ops : rob'.ops = rob.ops := by rw [pruned.lane]
  have same : ∀ hash kind, Describes rob' write hash kind ↔ Describes rob write hash kind :=
    describes_congr ops
  cases tracked with
  | parked named described =>
    obtain ⟨kind, hash, id⟩ := pruned.candidate
    exact .parked (id.trans named) ((same _ _).mpr (by rw [kind, hash]; exact described))
  | generation live covered =>
    have overflowed := pruned.overflowed agrees window within needed live covered
    obtain ⟨rfl, -⟩ := pruned.generation overflowed
    exact .generation overflowed covered
  | entry i inside named described =>
    have below := agrees.below i inside
    have flying := needed.resolve_right (by rw [← named]; omega)
    obtain ⟨i', inside', entry, kind⟩ := pruned.kept i inside (by rw [named]; exact flying)
    refine .entry i' inside' (by rw [entry, named]) ((same _ _).mpr ?_)
    rw [entry, kindAt, kind]
    exact described

/-- The exact path reports every write the sidecar keeps. -/
theorem Tracked.writeConflictsPending (touches : write.touches hash = true)
    : (rob.writeConflictsPending state hash).1 = true := by
  have pruned := agrees.prune window within
  rw [Rob.writeConflictsPending]
  split
  · rfl
  · rename_i silent
    cases tracked with
    | parked named described => exact absurd (parked_conflicts named described touches) silent
    | generation live covered =>
      have overflowed := pruned.overflowed agrees window within needed live covered
      rw [if_neg (by simp [live]), if_pos overflowed]
    | entry i inside named described =>
      have some : ¬ (!state.overflow && state.writeCount == 0) = true := by
        simp only [and_eq_true, beq_iff_eq]
        omega
      have exact : (rob.prune state).2.overflow = false := by
        by_contra overflowed
        obtain ⟨same, -⟩ := pruned.generation (by simpa using overflowed)
        rw [same] at overflowed
        have := (agrees.generation (by simpa using overflowed)).1
        omega
      have below := agrees.below i inside
      have flying := needed.resolve_right (by rw [← named]; omega)
      obtain ⟨i', inside', entry, kind⟩ := pruned.kept i inside (by rw [named]; exact flying)
      have kinds : (rob.prune state).2.kindAt i' = state.kindAt i := by
        rw [kindAt, kind, kindAt]
      have ops : ({ (rob.prune state).1 with state := Option.some (rob.prune state).2 } : Rob).ops
          = rob.ops := by rw [pruned.lane]
      have held : Describes { (rob.prune state).1 with state := Option.some (rob.prune state).2 }
          write ((rob.prune state).2.entry i').hash ((rob.prune state).2.kindAt i') := by
        rw [entry, kinds]
        exact (describes_congr ops _ _).mpr described
      rw [if_neg some, if_neg (by simp [exact]), if_neg (by omega)]
      refine entry_conflicts inside' (by rw [entry, named]) held (fun isKeyset => ?_) touches
      have set : state.writeKeysetSlots.getLsbD (state.slotOf i) = true := by
        by_contra unset
        rw [kinds, kindAt, if_neg unset] at isKeyset
        cases isKeyset
      have nonzero : state.writeKeysetSlots ≠ 0#64 := fun zero => by
        rw [zero] at set
        simp at set
      simp [Rob.probeFilter, nonzero]

/-- The summaries let no probe past a write the sidecar keeps. -/
theorem Tracked.probeState (there : rob.state = some state) (touches : write.touches hash = true)
    : (rob.probeState hash).1 = true := by
  have answer := writeConflictsPending agrees window within tracked needed touches
  suffices passes : rob.inactive = false
      ∧ (rob.staged = true ∨ rob.writeTagMayMatch state hash = true) by
    obtain ⟨awake, door⟩ := passes
    rw [Rob.probeState, there]
    dsimp only
    rw [if_neg (by simp [awake]), if_neg (by rcases door with open_ | open_ <;> simp [open_])]
    exact answer
  have awake : ∀ busy : state.overflow = true ∨ 0 < state.writeCount ∨ state.pendingWrite ≠ .none,
      rob.inactive = false := by
    intro busy
    by_contra idle
    obtain ⟨exact, empty, clear⟩ := agrees.inactive (by simpa using idle)
    rcases busy with overflowed | some | parked
    · rw [exact] at overflowed
      cases overflowed
    · omega
    · exact parked clear
  cases tracked with
  | parked named described =>
    have parked : state.pendingWrite ≠ .none := fun clear => by
      rw [clear] at described
      exact described
    exact ⟨awake (.inr (.inr parked)), .inl (agrees.staged.mpr parked)⟩
  | generation live covered =>
    refine ⟨awake (.inl live), .inr ?_⟩
    rw [Rob.writeTagMayMatch, agrees.force, live, if_pos rfl]
  | entry i inside named described =>
    refine ⟨awake (.inr (.inl (by omega))), .inr ?_⟩
    have slot := state.slotOf_lt i
    have valid := (agrees.valid _ slot).mpr ⟨i, inside, rfl⟩
    have some : rob.valid ≠ 0#64 := fun zero => by
      rw [zero] at valid
      simp at valid
    rw [Rob.writeTagMayMatch]
    split
    · rfl
    · split
      · rfl
      · rename_i narrow
        have unset : state.writeKeysetSlots.getLsbD (state.slotOf i) = false := by
          by_contra set
          refine narrow (fun zero => ?_)
          have bit := congrArg (fun bits => bits.getLsbD (state.slotOf i)) zero
          rw [getLsbD_and, agrees.wide, valid, (by simpa using set :
            state.writeKeysetSlots.getLsbD (state.slotOf i) = true)] at bit
          simp at bit
        have kind : state.kindAt i = .hash := by
          rw [kindAt, unset]
          rfl
        rw [kind] at described
        have member := touches_some described touches
        simp only [mem_singleton] at member
        exact Rob.sweepTags_true (Nat.le_refl 4) (fun j _ _ => by omega) slot valid
          (by rw [agrees.tags i inside, member])

end

structure SameFrontier (before after : Rob) : Prop where
  dispatch : after.dispatch = before.dispatch
  flush : after.flush = before.flush
  ops : after.ops = before.ops
  armState : after.armState = before.armState
  unarmedWriteId : after.unarmedWriteId = before.unarmedWriteId

/-- A step of the lane that loses no write still needed. -/
structure LaneKept (rob : Rob) (state : ReadLocalRobState) (bound : Nat) (rob' : Rob) : Prop where
  frontier : SameFrontier rob rob'
  held : ∃ after, rob'.state = some after ∧ RingAgrees rob' after bound
    ∧ ∀ write, rob.idActive write.id = true ∨ bound ≤ write.id.toNat
      → Tracked rob state write → Tracked rob' after write

theorem RingAgrees.tryDeactivate (agrees : RingAgrees rob state bound)
    : RingAgrees (rob.tryDeactivate state) state bound := by
  rw [Rob.tryDeactivate]
  split
  · rename_i idle
    simp only [and_eq_true, not_eq_true', beq_iff_eq] at idle
    exact { agrees with inactive := fun _ => ⟨idle.1.1, idle.1.2, idle.2⟩ }
  · exact agrees

theorem tryDeactivate_frontier (rob : Rob) (state : ReadLocalRobState)
    : SameFrontier rob (rob.tryDeactivate state) ∧ (rob.tryDeactivate state).state = rob.state := by
  rw [tryDeactivate]
  split
  · exact ⟨⟨rfl, rfl, rfl, rfl, rfl⟩, rfl⟩
  · exact ⟨⟨rfl, rfl, rfl, rfl, rfl⟩, rfl⟩

theorem Tracked.of_opAt (held : rob'.opAt write.id = rob.opAt write.id)
    (tracked : Tracked rob state write) : Tracked rob' state write := by
  cases tracked with
  | parked named described => exact .parked named ((describes_opAt held _ _).mpr described)
  | generation live covered => exact .generation live covered
  | entry i inside named described =>
    exact .entry i inside named ((describes_opAt held _ _).mpr described)

theorem Tracked.of_ops (ops : rob'.ops = rob.ops) (tracked : Tracked rob state write)
    : Tracked rob' state write :=
  tracked.of_opAt (by rw [opAt, opAt, ops])

theorem LaneKept.deactivated (there : rob.state = some state)
    (agrees : RingAgrees rob state bound) : LaneKept rob state bound (rob.tryDeactivate state) := by
  obtain ⟨frontier, same⟩ := tryDeactivate_frontier rob state
  exact ⟨frontier, state, same.trans there, agrees.tryDeactivate,
    fun _ _ tracked => tracked.of_ops frontier.ops⟩

section

variable (pruned : Pruned rob state bound rob' after) (agrees : RingAgrees rob state bound)
  (window : rob.flush.toNat ≤ rob.dispatch.toNat)
  (within : bound ≤ rob.dispatch.toNat)

include pruned agrees window within

theorem LaneKept.stored
    : LaneKept rob state bound { rob' with state := some after } := by
  have lane := pruned.lane
  refine ⟨⟨?_, ?_, ?_, ?_, ?_⟩, after, rfl, { pruned.agrees with }, fun write needed tracked => ?_⟩
  · rw [lane]
  · rw [lane]
  · rw [lane]
  · rw [lane]
  · rw [lane]
  · have kept := tracked.pruned agrees window within needed pruned
    have sameOps : ({ rob' with state := some after } : Rob).ops = rob'.ops := rfl
    exact kept.of_ops sameOps

theorem LaneKept.then_deactivated
    : LaneKept rob state bound (tryDeactivate { rob' with state := some after } after) := by
  obtain ⟨frontier, later, there, agrees', kept⟩ := LaneKept.stored pruned agrees window within
  cases there
  obtain ⟨frontier', same⟩ := tryDeactivate_frontier { rob' with state := some after } after
  refine ⟨⟨frontier'.dispatch.trans frontier.dispatch, frontier'.flush.trans frontier.flush,
    frontier'.ops.trans frontier.ops, frontier'.armState.trans frontier.armState,
    frontier'.unarmedWriteId.trans frontier.unarmedWriteId⟩, after, same, agrees'.tryDeactivate,
    fun write needed tracked => (kept write needed tracked).of_ops frontier'.ops⟩

end

/-- A probe of an armed connection loses nothing. -/
theorem LaneKept.probeState (there : rob.state = some state) (agrees : RingAgrees rob state bound)
    (window : rob.flush.toNat ≤ rob.dispatch.toNat) (within : bound ≤ rob.dispatch.toNat)
    (hash : KeyHash) : LaneKept rob state bound (rob.probeState hash).2 := by
  have same : LaneKept rob state bound rob :=
    ⟨⟨rfl, rfl, rfl, rfl, rfl⟩, state, there, agrees, fun _ _ tracked => tracked⟩
  have pruned := agrees.prune window within
  rw [Rob.probeState, there]
  dsimp only
  split
  · exact same
  · split
    · exact same
    · rw [Rob.writeConflictsPending]
      dsimp only
      split
      · exact same
      · split
        · exact .deactivated there agrees
        · split
          · exact .stored pruned agrees window within
          · split
            · exact .then_deactivated pruned agrees window within
            · exact .stored pruned agrees window within

end Thredis.Net
