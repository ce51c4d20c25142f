import Thredis.Lib.Runs
import Thredis.Net.ConnectionFrames

/-! Whole connections: a probe reports every write of the connection that is in flight or
staged, through arming, commits, abandoned frames and retirement, as long as no read arms the
connection over an unpublished write frame and the operation ids do not wrap.
-/

namespace Thredis.Net
open Thredis.Lib

namespace Connection

variable {conn : Connection}

-- A probe

/-- A change to the lane alone. -/
theorem Inv.of_lane (inv : conn.Inv) {rob' : Rob} (dispatch : rob'.dispatch = conn.rob.dispatch)
    (flush : rob'.flush = conn.rob.flush) (ops : rob'.ops = conn.rob.ops)
    (agrees : LaneAgrees rob' conn.frameId)
    (kept : ∀ write, conn.Pending write → ({ conn with rob := rob' } : Connection).Kept write)
    : ({ conn with rob := rob' } : Connection).Inv := by
  have id : ({ conn with rob := rob' } : Connection).frameId = conn.frameId := by
    rw [frameId, frameId]
    rw [dispatch]
  exact
    { window := by rw [dispatch, flush]; exact inv.window
      narrow := by rw [dispatch, flush]; exact inv.narrow
      slots := by rw [ops]; exact inv.slots
      room := by rw [dispatch, flush]; exact inv.room
      issued := by rw [dispatch]; exact inv.issued
      command := by rw [id, ops]; exact inv.command
      current := by rw [id]; exact inv.current
      earlier := by rw [id]; exact inv.earlier
      agrees := by rw [Agrees, id]; exact agrees
      kept := fun write pending => kept write (by
        rw [Pending, Rob.idActive, dispatch, flush] at pending
        exact pending) }

/-- What a read may do: probe an armed connection; or an unarmed one whose last write marked
without the sidecar has been published, or that has no write to protect. Operation ids do not
run out.
-/
def Prompt (conn : Connection) : ConnEvent → Prop
  | .probe _ => conn.rob.armState ≠ .armed → conn.rob.unarmedWriteId = conn.rob.dispatch
      → ∀ write, ¬ conn.Pending write
  | .publish => conn.rob.dispatch.toNat + 1 < 2 ^ 64
  | _ => True

/-- Nothing is pending once every write has retired and the frame has staged none. -/
theorem idle_iff (conn : Connection)
    : (∀ write, ¬ conn.Pending write)
      ↔ (∀ write ∈ conn.writes, conn.rob.idActive write.id = false)
        ∧ ∀ frame ∈ conn.frame, frame.published = true ∨ frame.write = none := by
  constructor
  · intro idle
    refine ⟨fun write listed => ?_, fun frame there => ?_⟩
    · by_contra flying
      exact idle write (.inl ⟨listed, by simpa using flying⟩)
    · by_contra staging
      simp only [not_or, Bool.not_eq_true] at staging
      obtain ⟨write, staged⟩ := Option.ne_none_iff_exists'.mp staging.2
      exact idle write (.inr ⟨frame, there, staging.1, staged⟩)
  · rintro ⟨retired, quiet⟩ write (⟨listed, flying⟩ | ⟨frame, there, fresh, staged⟩)
    · rw [retired write listed] at flying
      cases flying
    · rcases quiet frame there with published | none
      · rw [fresh] at published
        cases published
      · rw [staged] at none
        cases none

instance (conn : Connection) (event : ConnEvent) : Decidable (conn.Prompt event) :=
  match event with
  | .probe _ =>
    have : Decidable (∀ write, ¬ conn.Pending write) := decidable_of_iff _ conn.idle_iff.symm
    inferInstanceAs (Decidable (conn.rob.armState ≠ .armed
      → conn.rob.unarmedWriteId = conn.rob.dispatch → ∀ write, ¬ conn.Pending write))
  | .publish => inferInstanceAs (Decidable (_ < _))
  | .acquire _ | .mark _ _ | .unpublish | .retire _ => .isTrue trivial

variable {hash : KeyHash}

section

variable (inv : conn.Inv)

include inv

/-- Behind the fence means retired, once the fence itself has. -/
theorem Inv.tracked (prompt : conn.Prompt (.probe hash))
    (open_ : conn.rob.armState = .armed ∨ conn.rob.idActive conn.rob.unarmedWriteId = false)
    {write : Write} (pending : conn.Pending write)
    : ∃ state, conn.rob.state = some state ∧ Tracked conn.rob state write := by
  refine (inv.kept write pending).resolve_left ?_
  rintro ⟨unarmed, behind, fence⟩
  have inactive := open_.resolve_left unarmed
  have window := inv.window
  have below := conn.frameId_le
  have unpublished : conn.rob.unarmedWriteId.toNat ≠ conn.rob.dispatch.toNat := fun same =>
    prompt unarmed (BitVec.eq_of_toNat_eq same) write pending
  have retired : conn.rob.unarmedWriteId.toNat < conn.rob.flush.toNat := by
    by_contra ahead
    have active : conn.rob.idActive conn.rob.unarmedWriteId = true := by
      rw [Rob.idActive, readLocalIdActive_iff window]
      omega
    rw [active] at inactive
    cases inactive
  rcases pending with ⟨-, flying⟩ | ⟨frame, there, fresh, staged⟩
  · rw [Rob.idActive, readLocalIdActive_iff window] at flying
    omega
  · have id := (inv.current frame write there staged).1
    rw [frameId, there] at id
    simp only [Option.any_some, fresh, Bool.false_eq_true, if_false] at id
    omega

/-- A probe past the fence, on a lane that differs from the connection's in its arming. -/
theorem Inv.probeState {armed : Rob} (lane : armed = { conn.rob with
      armState := armed.armState, unarmedWriteId := armed.unarmedWriteId })
    (tracked : ∀ write, conn.Pending write
      → ∃ state, conn.rob.state = some state ∧ Tracked conn.rob state write)
    : ({ conn with rob := (armed.probeState hash).2 } : Connection).Inv
      ∧ ∀ write, conn.Pending write → write.touches hash = true
        → (armed.probeState hash).1 = true := by
  have dispatch : armed.dispatch = conn.rob.dispatch := by rw [lane]
  have flush : armed.flush = conn.rob.flush := by rw [lane]
  have ops : armed.ops = conn.rob.ops := by rw [lane]
  have state : armed.state = conn.rob.state := by rw [lane]
  have agrees : LaneAgrees armed conn.frameId := by
    refine LaneAgrees.of_same inv.agrees state ⟨?_, ?_, ?_, ?_, ?_⟩
    · rw [lane]
    · rw [lane]
    · rw [lane]
    · rw [lane]
    · rw [lane]
  have window : armed.flush.toNat ≤ armed.dispatch.toNat := by
    rw [dispatch, flush]
    exact inv.window
  have within : conn.frameId ≤ armed.dispatch.toNat := by
    rw [dispatch]
    exact conn.frameId_le
  have needed : ∀ write, conn.Pending write
      → armed.idActive write.id = true ∨ conn.frameId ≤ write.id.toNat := by
    intro write pending
    rw [Rob.idActive, dispatch, flush]
    exact inv.needed pending
  obtain ⟨frontier, agrees', kept⟩ := agrees.probeState window within hash
  refine ⟨inv.of_lane (frontier.dispatch.trans dispatch) (frontier.flush.trans flush)
    (frontier.ops.trans ops) agrees' (fun write pending => .inr ?_),
    fun write pending touches => ?_⟩
  · obtain ⟨side, there, before⟩ := tracked write pending
    exact kept write side (needed write pending) (state.trans there) (before.of_ops ops)
  · obtain ⟨side, there, before⟩ := tracked write pending
    have found := state.trans there
    rw [LaneAgrees, found] at agrees
    exact (before.of_ops ops).probeState agrees window within (needed write pending) found touches

/-- A prompt probe reports every pending write it touches, and the connection stays in order. -/
theorem Inv.probe (prompt : conn.Prompt (.probe hash))
    : ({ conn with rob := (conn.rob.readLocalWriteConflicts hash).2 } : Connection).Inv
      ∧ ∀ write, conn.Pending write → write.touches hash = true
        → (conn.rob.readLocalWriteConflicts hash).1 = true := by
  rw [Rob.readLocalWriteConflicts]
  split
  · rename_i armed
    exact inv.probeState rfl (fun write pending => inv.tracked prompt (.inl armed) pending)
  rw [Rob.readLocalArm]
  split
  · -- The fence still stands: the read takes the owner path.
    rename_i before fenced shape
    split at shape
    · obtain ⟨-, rfl⟩ := Prod.mk.inj shape
      refine ⟨?_, fun _ _ _ => rfl⟩
      split
      · rename_i fresh
        refine inv.of_lane rfl rfl rfl
          (LaneAgrees.of_same inv.agrees rfl ⟨rfl, rfl, rfl, rfl, rfl⟩) (fun write pending => ?_)
        rcases inv.kept write pending with ⟨-, behind⟩ | tracked
        · exact .inl ⟨nofun, behind⟩
        · obtain ⟨side, there, tracked⟩ := tracked
          refine .inr ⟨side, there, Tracked.of_ops ?_ tracked⟩
          rfl
      · exact inv
    · cases shape
  · rename_i before lifted shape
    split at shape
    · cases shape
    · rename_i inactive
      obtain ⟨-, rfl⟩ := Prod.mk.inj shape
      exact inv.probeState rfl
        (fun write pending => inv.tracked prompt (.inr (by simpa using inactive)) pending)

/-- A commit finds room: the ids in the ring are distinct, in flight and older than the
candidate's.
-/
theorem Inv.ringRoom : conn.RingRoom := by
  intro state there parked flying
  have window := inv.window
  have narrow := inv.narrow
  have agrees : RingAgrees conn.rob state conn.frameId := by
    have lane := inv.agrees
    rw [Agrees, LaneAgrees, there] at lane
    exact lane
  have pruned := agrees.unparked.pruneAt window conn.frameId_le
  have lane := pruned.lane
  have dispatch : (conn.rob.unstaged.pruneAt state.unparked).1.dispatch = conn.rob.dispatch := by
    rw [lane]
    rfl
  have flush : (conn.rob.unstaged.pruneAt state.unparked).1.flush = conn.rob.flush := by
    rw [lane]
    rfl
  have named := agrees.pending parked
  rw [Rob.idActive, readLocalIdActive_iff window] at flying
  refine pruned.agrees.room ?_ ?_ (fun i inside => ?_)
  · rw [dispatch, flush]
    exact window
  · rw [flush]
    omega
  · rw [Rob.idActive, dispatch, flush]
    exact pruned.active i inside

/-- One event. -/
theorem Inv.step {event : ConnEvent} {next : Connection} (prompt : conn.Prompt event)
    (stepped : conn.step event = some next) : next.Inv := by
  cases event with
  | acquire keys => exact inv.acquire stepped
  | mark candidate allocated =>
    rw [Connection.step] at stepped
    split at stepped
    · rename_i keys there
      obtain ⟨rob', marked, rfl⟩ := Option.map_eq_some_iff.mp stepped
      exact inv.mark there marked rfl
    · cases stepped
  | publish =>
    rw [Connection.step] at stepped
    split at stepped
    · rename_i keys write there
      exact inv.publish there prompt (Option.some.inj stepped).symm
    · cases stepped
  | unpublish =>
    rw [Connection.step] at stepped
    split at stepped
    · rename_i keys write there
      obtain ⟨flying, rfl⟩ := guard_passed stepped
      exact inv.unpublish there flying rfl
    · cases stepped
  | retire count =>
    obtain ⟨few, rfl⟩ := guard_taken stepped
    exact inv.retire few
  | probe hash =>
    rw [← Option.some.inj stepped]
    exact (inv.probe prompt).1

end

/-- Along every run of prompt events the summaries agree with the ring, a commit finds a free
slot, and a prompt probe reports each write it touches that is in flight or staged, those
from before the connection was armed included.
-/
theorem own_writes_are_reported {events : List ConnEvent} {conn : Connection}
    (prompt : EachStep step Prompt init events) (ran : run step init events = some conn)
    : conn.Agrees ∧ conn.RingRoom
      ∧ ∀ hash write, conn.Prompt (.probe hash) → conn.Pending write → write.touches hash = true
        → (conn.rob.readLocalWriteConflicts hash).1 = true := by
  have inv := run_invariant_of_eachStep (fun _ _ _ inv => inv.step)
      Inv.init prompt ran
  exact ⟨inv.agrees, inv.ringRoom, fun hash write allowed pending touches =>
    (inv.probe allowed).2 write pending touches⟩

/-- A read arms the connection, a write of another key follows and is committed by the next
frame.
-/
theorem own_writes_are_reported_once
    : ∃ conn, run step init
        [.probe 5#64, .acquire [1#64], .mark (.hash 1#64) true, .publish, .acquire [2#64]]
          = some conn
      ∧ (conn.rob.readLocalWriteConflicts 1#64).1 = true := by
  have prompt : EachStep step Prompt init
      [.probe 5#64, .acquire [1#64], .mark (.hash 1#64) true, .publish, .acquire [2#64]] := by
    decide
  refine ⟨_, rfl, (own_writes_are_reported prompt rfl).2.2 1#64
    { id := 0#64, keys := some [1#64] } (absurd rfl) (.inl ?_) rfl⟩
  decide

/-- A write frame marked on an unarmed connection and then refused by its shard leaves the
arming fence at an id that is not published. The next read takes the fence for passed, arms,
and misses the write of its own key that is still in flight.
-/
theorem refused_frame_hides_write
    : ∃ conn, run step init [.acquire [1#64], .mark (.hash 1#64) true, .publish,
          .acquire [2#64], .mark (.hash 2#64) true, .publish, .unpublish,
          .acquire [1#64]] = some conn
      ∧ conn.Pending { id := 0#64, keys := some [1#64] }
      ∧ (conn.rob.readLocalWriteConflicts 1#64).1 = false := by
  refine ⟨_, rfl, .inl ?_, ?_⟩
  · decide
  · decide

end Connection

end Thredis.Net
