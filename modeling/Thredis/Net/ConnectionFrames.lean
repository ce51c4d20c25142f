import Thredis.Net.LaneAgreement

/-! A connection between events: the invariant that keeps every write in flight or staged
within reach of a probe, and the events that move frames, namely acquisition, marking,
publication, taking back and retirement.
-/

namespace Thredis.Net
open BitVec Rob

namespace Connection

variable {conn : Connection}

def frameId (conn : Connection) : Nat :=
  if conn.frame.any WriteFrame.published then conn.rob.dispatch.toNat - 1
  else conn.rob.dispatch.toNat

/-- The ring and every summary of it agree. -/
def Agrees (conn : Connection) : Prop := LaneAgrees conn.rob conn.frameId

/-- The commit of a parked candidate finds a free slot in the ring. -/
def RingRoom (conn : Connection) : Prop :=
  ∀ state, conn.rob.state = some state → state.pendingWrite ≠ .none
    → conn.rob.idActive state.pendingOpId = true
    → (conn.rob.unstaged.pruneAt state.unparked).2.writeCount < kWriteRingCapacity

/-- A write is behind the arming fence, or the sidecar keeps it. -/
def Kept (conn : Connection) (write : Write) : Prop :=
  conn.rob.armState ≠ .armed ∧ write.id.toNat ≤ conn.rob.unarmedWriteId.toNat
      ∧ conn.rob.unarmedWriteId.toNat ≤ conn.frameId
    ∨ ∃ state, conn.rob.state = some state ∧ Tracked conn.rob state write

/-- What holds of a connection between events. -/
structure Inv (conn : Connection) : Prop where
  window : conn.rob.flush.toNat ≤ conn.rob.dispatch.toNat
  narrow : conn.rob.dispatch.toNat ≤ conn.rob.flush.toNat + 64
  slots : conn.rob.ops.length = 64
  room : ∀ frame, conn.frame = some frame → frame.published = false
    → conn.rob.dispatch.toNat < conn.rob.flush.toNat + 64
  issued : ∀ frame, conn.frame = some frame → frame.published = true
    → 0 < conn.rob.dispatch.toNat
  command : ∀ frame, conn.frame = some frame
    → conn.rob.ops.getD (conn.frameId % kRobWindow) [] = frame.keys
  current : ∀ frame write, conn.frame = some frame → frame.write = some write
    → write.id.toNat = conn.frameId ∧ (frame.published = true → write ∈ conn.writes)
  earlier : ∀ write ∈ conn.writes, write.id.toNat < conn.frameId
    ∨ ∃ frame, conn.frame = some frame ∧ frame.published = true ∧ frame.write = some write
  agrees : conn.Agrees
  kept : ∀ write, conn.Pending write → conn.Kept write

theorem frameId_le (conn : Connection) : conn.frameId ≤ conn.rob.dispatch.toNat := by
  rw [frameId]
  split
  · exact Nat.sub_le _ _
  · exact le_rfl

theorem Inv.init : Connection.init.Inv where
  window := by decide
  narrow := by decide
  slots := by decide
  room := nofun
  issued := nofun
  command := nofun
  current := nofun
  earlier := nofun
  agrees := ⟨rfl, rfl, rfl, rfl, rfl⟩
  kept := by
    rintro write (⟨member, -⟩ | ⟨frame, there, -⟩)
    · cases member
    · cases there

variable {write : Write}

/-- A pending write is in flight, or has the id of the frame that stages it. -/
theorem Inv.needed (inv : conn.Inv) (pending : conn.Pending write)
    : conn.rob.idActive write.id = true ∨ conn.frameId ≤ write.id.toNat := by
  rcases pending with ⟨-, active⟩ | ⟨frame, there, -, staged⟩
  · exact .inl active
  · exact .inr (Nat.le_of_eq (inv.current frame write there staged).1.symm)

-- Publication and retirement

variable {next : Connection}

theorem Agrees.of_same (agrees : conn.Agrees) (id : next.frameId = conn.frameId)
    (state : next.rob.state = conn.rob.state)
    (summaries : next.rob.valid = conn.rob.valid ∧ next.rob.wide = conn.rob.wide
      ∧ next.rob.force = conn.rob.force ∧ next.rob.staged = conn.rob.staged
      ∧ next.rob.inactive = conn.rob.inactive)
    : next.Agrees := by
  rw [Agrees, id]
  exact LaneAgrees.of_same agrees state summaries

theorem Kept.of_same (kept : conn.Kept write) (id : next.frameId = conn.frameId)
    (state : next.rob.state = conn.rob.state) (ops : next.rob.ops = conn.rob.ops)
    (arm : next.rob.armState = conn.rob.armState)
    (fence : next.rob.unarmedWriteId = conn.rob.unarmedWriteId) : next.Kept write := by
  rcases kept with behind | ⟨side, there, tracked⟩
  · exact .inl (by rw [arm, fence, id]; exact behind)
  · exact .inr ⟨side, state.trans there, tracked.of_ops ops⟩

theorem Inv.retire (inv : conn.Inv) {count : Nat}
    (few : count ≤ (conn.rob.dispatch - conn.rob.flush).toNat)
    : ({ conn with rob := conn.rob.drain count } : Connection).Inv := by
  have window := inv.window
  have gap := toNat_sub_of_le window
  have flush : (conn.rob.drain count).flush.toNat = conn.rob.flush.toNat + count := by
    rw [drain, toNat_add, toNat_ofNat, Nat.add_mod_mod]
    exact Nat.mod_eq_of_lt (by omega)
  have narrow := inv.narrow
  exact { inv with
      window := by
        rw [flush]
        show conn.rob.flush.toNat + count ≤ conn.rob.dispatch.toNat
        omega
      narrow := by
        rw [flush]
        show conn.rob.dispatch.toNat ≤ _
        omega
      room := fun frame there fresh => by
        have room := inv.room frame there fresh
        rw [flush]
        show conn.rob.dispatch.toNat < _
        omega
      agrees := inv.agrees.of_same rfl rfl ⟨rfl, rfl, rfl, rfl, rfl⟩
      kept := fun write pending => by
        refine Kept.of_same (inv.kept write ?_) rfl rfl rfl rfl rfl
        rcases pending with ⟨member, active⟩ | staged
        · refine .inl ⟨member, ?_⟩
          rw [idActive, readLocalIdActive_iff window]
          rw [idActive, readLocalIdActive_iff (by
            rw [flush]
            show _ ≤ conn.rob.dispatch.toNat
            omega), flush] at active
          exact ⟨by omega, active.2⟩
        · exact .inr staged }

variable {keys : List KeyHash}

/-- Publishing the frame: its write joins those in flight, and its id stays what it was. -/
theorem Inv.publish (inv : conn.Inv) {write : Option Write}
    (there : conn.frame = some { keys, write, published := false })
    (finite : conn.rob.dispatch.toNat + 1 < 2 ^ 64)
    (stepped : next = { rob := conn.rob.publish, frame := some { keys, write, published := true }
                        writes := conn.writes ++ write.toList })
    : next.Inv := by
  have window := inv.window
  have room := inv.room _ there rfl
  have dispatch : conn.rob.publish.dispatch.toNat = conn.rob.dispatch.toNat + 1 := by
    exact Nat.mod_eq_of_lt finite
  have before : conn.frameId = conn.rob.dispatch.toNat := by simp [frameId, there]
  have after : next.frameId = conn.frameId := by
    rw [stepped, before]
    simp [frameId, dispatch]
  have flush : conn.rob.publish.flush = conn.rob.flush := rfl
  have older : ∀ other ∈ conn.writes, other.id.toNat < conn.rob.dispatch.toNat := by
    intro other member
    rcases inv.earlier other member with earlier | ⟨frame, found, fresh, -⟩
    · omega
    · rw [there] at found
      cases found
      cases fresh
  subst stepped
  exact { inv with
      window := by rw [dispatch, flush]; omega
      narrow := by rw [dispatch, flush]; omega
      room := fun frame found fresh => by cases found; cases fresh
      issued := fun _ _ _ => by rw [dispatch]; omega
      command := fun frame found => by
        cases found
        have held := inv.command _ there
        rw [after]
        exact held
      current := fun frame staged found named => by
        cases found
        obtain rfl := named
        rw [after]
        exact ⟨(inv.current _ staged there rfl).1, fun _ => by simp⟩
      earlier := fun other member => by
        rw [after]
        rcases List.mem_append.mp member with old | new
        · exact .inl (by rw [before]; exact older other old)
        · exact .inr ⟨_, rfl, rfl, Option.mem_toList.mp new⟩
      agrees := inv.agrees.of_same after rfl ⟨rfl, rfl, rfl, rfl, rfl⟩
      kept := fun other pending => by
        refine Kept.of_same (inv.kept other ?_) after rfl rfl rfl rfl
        rcases pending with ⟨member, active⟩ | ⟨frame, found, fresh, -⟩
        · rcases List.mem_append.mp member with old | new
          · refine .inl ⟨old, ?_⟩
            rw [idActive, readLocalIdActive_iff (by rw [dispatch, flush]; omega)] at active
            rw [idActive, readLocalIdActive_iff window]
            exact ⟨active.1, older other old⟩
          · exact .inr ⟨_, there, rfl, Option.mem_toList.mp new⟩
        · cases found
          cases fresh }

/-- Taking the frame back: its write is staged again. -/
theorem Inv.unpublish (inv : conn.Inv) {write : Option Write}
    (there : conn.frame = some { keys, write, published := true })
    (flying : conn.rob.flush ≠ conn.rob.dispatch)
    (stepped : next
      = { rob := conn.rob.unpublish, frame := some { keys, write, published := false }
          writes := conn.writes.filter (fun other => !write.toList.contains other) })
    : next.Inv := by
  have window := inv.window
  have narrow := inv.narrow
  have issued := inv.issued _ there rfl
  have apart : conn.rob.flush.toNat ≠ conn.rob.dispatch.toNat :=
    fun same => flying (eq_of_toNat_eq same)
  have dispatch : conn.rob.unpublish.dispatch.toNat = conn.rob.dispatch.toNat - 1 := by
    have one := issued
    exact toNat_sub_of_le one
  have before : conn.frameId = conn.rob.dispatch.toNat - 1 := by simp [frameId, there]
  have after : next.frameId = conn.frameId := by
    rw [stepped, before]
    simp [frameId, dispatch]
  subst stepped
  have flush : conn.rob.unpublish.flush = conn.rob.flush := rfl
  have older : ∀ other ∈ conn.writes.filter (fun other => !write.toList.contains other),
      other ∈ conn.writes ∧ other.id.toNat < conn.frameId := by
    intro other member
    obtain ⟨listed, others⟩ := List.mem_filter.mp member
    refine ⟨listed, (inv.earlier other listed).resolve_right ?_⟩
    rintro ⟨frame, found, -, named⟩
    rw [there] at found
    cases found
    obtain rfl := named
    simp at others
  exact { inv with
      window := by rw [dispatch, flush]; omega
      narrow := by rw [dispatch, flush]; omega
      room := fun _ _ _ => by rw [dispatch, flush]; omega
      issued := fun frame found fresh => by cases found; cases fresh
      command := fun frame found => by
        cases found
        have held := inv.command _ there
        rw [after]
        exact held
      current := fun frame staged found named => by
        cases found
        rw [after]
        exact ⟨(inv.current _ staged there named).1, nofun⟩
      earlier := fun other member => by
        rw [after]
        exact .inl (older other member).2
      agrees := inv.agrees.of_same after rfl ⟨rfl, rfl, rfl, rfl, rfl⟩
      kept := fun other pending => by
        refine Kept.of_same (inv.kept other ?_) after rfl rfl rfl rfl
        refine .inl ?_
        rw [idActive, readLocalIdActive_iff window]
        rcases pending with ⟨member, active⟩ | ⟨frame, found, -, named⟩
        · obtain ⟨listed, below⟩ := older other member
          rw [idActive, readLocalIdActive_iff (by rw [dispatch, flush]; omega)] at active
          exact ⟨listed, active.1, by omega⟩
        · cases found
          obtain ⟨id, listed⟩ := inv.current _ other there named
          exact ⟨listed rfl, by omega, by omega⟩ }

-- A new frame

variable {rob' : Rob}

/-- What a new frame keeps, whether or not the window had room for it. -/
theorem Inv.settled_kept (inv : conn.Inv) (settled : Settled conn.rob rob')
    {frame : Option WriteFrame} (fresh : frame.any WriteFrame.published = false)
    (listed : write ∈ conn.writes) (flying : conn.rob.idActive write.id = true)
    : ({ conn with rob := rob', frame } : Connection).Kept write := by
  have id : ({ conn with rob := rob', frame } : Connection).frameId
      = conn.rob.dispatch.toNat := by
    rw [frameId, if_neg (by simp [fresh])]
    exact congrArg BitVec.toNat settled.frontier.dispatch
  rcases inv.kept write (.inl ⟨listed, flying⟩) with
    ⟨unarmed, behind, fence⟩ | ⟨state, there, tracked⟩
  · left
    rw [id]
    rw [settled.frontier.armState, settled.frontier.unarmedWriteId]
    exact ⟨unarmed, behind, fence.trans conn.frameId_le⟩
  · exact .inr (settled.kept write state flying there tracked)

/-- The slot of the next id is not that of an operation in flight. -/
theorem opAt_set_of_active {rob : Rob} (window : rob.flush.toNat ≤ rob.dispatch.toNat)
    (room : rob.dispatch.toNat < rob.flush.toNat + 64) {id : BitVec 64}
    (flying : rob.idActive id = true)
    : ({ rob with ops := rob.ops.set (rob.dispatch.toNat % kRobWindow) keys } : Rob).opAt id
      = rob.opAt id := by
  rw [idActive, readLocalIdActive_iff window] at flying
  have apart : rob.dispatch.toNat % kRobWindow ≠ id.toNat % kRobWindow := by
    rw [kRobWindow]
    omega
  simp only [opAt, List.getD_eq_getElem?_getD]
  rw [List.getElem?_set_ne apart]

variable (inv : conn.Inv)

include inv

theorem Inv.full_iff {rob : Rob} (dispatch : rob.dispatch = conn.rob.dispatch)
    (flush : rob.flush = conn.rob.flush)
    : rob.full = true ↔ conn.rob.flush.toNat + 64 ≤ conn.rob.dispatch.toNat := by
  have window := inv.window
  have narrow := inv.narrow
  have gap := toNat_sub_of_le window
  rw [full, decide_eq_true_eq, dispatch, flush, toNat_setWidth, kRobWindow]
  omega

/-- Every write published has an id below the next one. -/
theorem Inv.published_lt (listed : write ∈ conn.writes)
    : write.id.toNat < conn.rob.dispatch.toNat := by
  have below := conn.frameId_le
  rcases inv.earlier write listed with earlier | ⟨frame, there, fresh, named⟩
  · omega
  · have issued := inv.issued frame there fresh
    have id := (inv.current frame write there named).1
    rw [frameId, there] at id
    simp only [Option.any_some, fresh, if_true] at id
    omega

/-- A frame that found the window full: nothing is being parsed. -/
theorem Inv.refused (settled : Settled conn.rob rob')
    (stepped : next = { conn with rob := rob', frame := none }) : next.Inv := by
  obtain ⟨dispatch, flush, ops, armState, unarmedWriteId⟩ := settled.frontier
  have id : next.frameId = conn.rob.dispatch.toNat := by
    rw [stepped]
    exact congrArg BitVec.toNat dispatch
  subst stepped
  exact
    { window := by rw [dispatch, flush]; exact inv.window
      narrow := by rw [dispatch, flush]; exact inv.narrow
      slots := by rw [ops]; exact inv.slots
      room := nofun
      issued := nofun
      command := nofun
      current := nofun
      earlier := fun write listed => .inl (by rw [id]; exact inv.published_lt listed)
      agrees := by rw [Agrees, id]; exact settled.agrees
      kept := fun write pending => by
        rcases pending with ⟨listed, flying⟩ | ⟨_, there, -⟩
        · rw [idActive, dispatch, flush] at flying
          exact inv.settled_kept settled rfl listed flying
        · cases there }

/-- A new frame in its slot. -/
theorem Inv.acquired (settled : Settled conn.rob rob')
    (free : conn.rob.dispatch.toNat < conn.rob.flush.toNat + 64) (keys : List KeyHash)
    (stepped : next = { conn with
      rob := { rob' with ops := rob'.ops.set (rob'.dispatch.toNat % kRobWindow) keys }
      frame := some { keys, write := none, published := false } })
    : next.Inv := by
  obtain ⟨dispatch, flush, ops, armState, unarmedWriteId⟩ := settled.frontier
  have id : next.frameId = conn.rob.dispatch.toNat := by
    rw [stepped]
    exact congrArg BitVec.toNat dispatch
  subst stepped
  exact
    { window := by
        rw [dispatch, flush]
        exact inv.window
      narrow := by
        rw [dispatch, flush]
        exact inv.narrow
      slots := by
        rw [List.length_set, ops]
        exact inv.slots
      room := fun _ _ _ => by
        rw [dispatch, flush]
        exact free
      issued := fun frame there fresh => by cases there; cases fresh
      command := fun frame there => by
        cases there
        have inside : conn.rob.dispatch.toNat % kRobWindow < rob'.ops.length := by
          rw [ops, inv.slots]
          exact Nat.mod_lt _ (by decide)
        rw [id]
        rw [dispatch, List.getD_eq_getElem?_getD, List.getElem?_set_self inside]
        rfl
      current := fun frame write there named => by cases there; cases named
      earlier := fun write listed => .inl (by rw [id]; exact inv.published_lt listed)
      agrees := by
        rw [Agrees, id]
        exact settled.agrees.of_same rfl ⟨rfl, rfl, rfl, rfl, rfl⟩
      kept := fun write pending => by
        rcases pending with ⟨listed, flying⟩ | ⟨_, there, -, named⟩
        · have before := flying
          have active : conn.rob.idActive write.id = true := by
            rw [idActive, dispatch, flush] at before
            exact before
          have kept : ({ conn with rob := rob', frame := none } : Connection).Kept write :=
            inv.settled_kept settled rfl listed active
          rcases kept with behind | ⟨state, there, tracked⟩
          · exact .inl behind
          · refine .inr ⟨state, there, tracked.of_opAt ?_⟩
            exact opAt_set_of_active (by rw [dispatch, flush]; exact inv.window)
              (by rw [dispatch, flush]; exact free) before
        · cases there
          cases named }

/-- Acquiring the next frame, with room for it or without. -/
theorem Inv.acquire (stepped : conn.step (.acquire keys) = some next) : next.Inv := by
  have settled := LaneAgrees.settled inv.agrees inv.window inv.narrow conn.frameId_le
  rw [step, acquireReadLocal] at stepped
  generalize (if conn.rob.staged then conn.rob.resolveReadLocalWrite else conn.rob) = rob'
    at settled stepped
  have full := inv.full_iff settled.frontier.dispatch settled.frontier.flush
  by_cases refused : rob'.full = true
  · simp only [refused] at stepped
    exact inv.refused settled (Option.some.inj stepped).symm
  · simp only [refused] at stepped
    rw [full] at refused
    exact inv.acquired settled (by omega) keys (Option.some.inj stepped).symm

/-- Marking the frame's write: the writes in flight stay kept, and the new one is. -/
theorem Inv.mark {allocated : Bool} {candidate : Candidate}
    (there : conn.frame = some { keys, write := none, published := false })
    (marked : markWrite conn.rob keys allocated candidate = some rob')
    (stepped : next = { conn with
      rob := rob'
      frame := some
        { keys, write := some { id := conn.rob.dispatch, keys := Candidate.keys keys candidate }
          published := false } })
    : next.Inv := by
  have id : conn.frameId = conn.rob.dispatch.toNat := by simp [frameId, there]
  have window := inv.window
  have held : conn.rob.opAt conn.rob.dispatch = keys := by
    have command := inv.command _ there
    rw [id] at command
    exact command
  have agrees : LaneAgrees conn.rob conn.rob.dispatch.toNat := by
    rw [← id]
    exact inv.agrees
  have spec := agrees.markWrite window held marked
  obtain ⟨dispatch, flush, ops⟩ : rob'.dispatch = conn.rob.dispatch
      ∧ rob'.flush = conn.rob.flush ∧ rob'.ops = conn.rob.ops := by
    rcases spec with rfl | ⟨after, parked, -⟩
    · exact ⟨rfl, rfl, rfl⟩
    · exact ⟨parked.frontier.dispatch, parked.frontier.flush, parked.frontier.ops⟩
  have same : next.frameId = conn.rob.dispatch.toNat := by
    rw [stepped]
    exact congrArg BitVec.toNat dispatch
  subst stepped
  exact
    { window := by rw [dispatch, flush]; exact window
      narrow := by rw [dispatch, flush]; exact inv.narrow
      slots := by rw [ops]; exact inv.slots
      room := fun _ _ _ => by
        rw [dispatch, flush]
        exact inv.room _ there rfl
      issued := fun frame found fresh => by cases found; cases fresh
      command := fun frame found => by
        cases found
        rw [same]
        rw [ops]
        exact held
      current := fun frame write found named => by
        cases found
        cases named
        exact ⟨same.symm, by simp⟩
      earlier := fun write listed => .inl (by rw [same]; exact inv.published_lt listed)
      agrees := by
        rw [Agrees, same]
        rcases spec with rfl | ⟨after, parked, -⟩
        · exact agrees.of_same rfl ⟨rfl, rfl, rfl, rfl, rfl⟩
        · rw [LaneAgrees, parked.there]
          exact parked.agrees
      kept := fun write pending => by
        rcases spec with rfl | ⟨after, parked, tracked⟩
        · refine .inl ⟨by simp, ?_, Nat.le_of_eq same.symm⟩
          rcases pending with ⟨listed, -⟩ | ⟨frame, found, -, named⟩
          · exact (inv.published_lt listed).le
          · cases found
            cases named
            exact le_rfl
        · rcases pending with ⟨listed, flying⟩ | ⟨frame, found, -, named⟩
          · rw [idActive, dispatch, flush] at flying
            rcases inv.kept write (.inl ⟨listed, flying⟩) with
              ⟨unarmed, behind, fence⟩ | ⟨state, found, before⟩
            · left
              rw [same, parked.frontier.armState, parked.frontier.unarmedWriteId, ← id]
              exact ⟨unarmed, behind, fence⟩
            · exact .inr ⟨after, parked.there, parked.kept write state flying found before⟩
          · cases found
            cases named
            exact .inr ⟨after, parked.there, tracked⟩ }

end Connection

end Thredis.Net
