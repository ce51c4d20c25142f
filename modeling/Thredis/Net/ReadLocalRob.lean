import Mathlib

/-! The read-your-own-writes lane of a connection's reorder buffer: the ring of in-flight
writes in its sidecar, the tag filter in front of it, the conservative generation, and the
arming of a connection by its first local read.
-/

namespace Thredis.Net

abbrev KeyHash := BitVec 64

def kRobWindow : Nat := 64

def kWriteRingCapacity : Nat := kRobWindow

def kMaxPreciseKeysetKeys : Nat := 16

def slotBit (i : Nat) : BitVec 64 := 1#64 <<< i

def keysetFilter (hash : KeyHash) : BitVec 64 :=
  slotBit (hash &&& 63#64).toNat ||| slotBit ((hash >>> 32) &&& 63#64).toNat

inductive PendingWrite where
  | none | hash | keyset | overflow
  deriving DecidableEq, Repr

structure WriteKey where
  hash : BitVec 64
  opId : BitVec 64
  deriving DecidableEq, Repr, Inhabited

/-- The sidecar, `ReadLocalRobState`. -/
structure ReadLocalRobState where
  writeTags : List (BitVec 16)
  pendingHash : BitVec 64
  pendingOpId : BitVec 64
  overflowThrough : BitVec 64
  writeKeysetSlots : BitVec 64
  writeHead : Nat
  writeCount : Nat
  pendingWrite : PendingWrite
  overflow : Bool
  writeRing : List WriteKey
  deriving DecidableEq, Repr

def ReadLocalRobState.init : ReadLocalRobState :=
  { writeTags := List.replicate kWriteRingCapacity 0#16, pendingHash := 0#64
    pendingOpId := 0#64, overflowThrough := 0#64, writeKeysetSlots := 0#64, writeHead := 0
    writeCount := 0, pendingWrite := .none, overflow := false
    writeRing := List.replicate kWriteRingCapacity default }

/-- `read_local_arm_state_`: 0, `kReadLocalUnarmed` or `kReadLocalArmFence`. -/
inductive ArmState where
  | armed | unarmed | armFence
  deriving DecidableEq, Repr

/-- The fields of a `Rob<64>` the lane uses. `state` is the sidecar behind
`read_local_state_`, whose two tag bits are `inactive` and `staged`; `ops` holds, slot by slot,
the key hashes of the command in the slot.
-/
structure Rob where
  dispatch : BitVec 64
  flush : BitVec 64
  ops : List (List KeyHash)
  valid : BitVec 64
  wide : BitVec 64
  force : Bool
  armState : ArmState
  unarmedWriteId : BitVec 64
  state : Option ReadLocalRobState
  inactive : Bool
  staged : Bool
  deriving DecidableEq, Repr

def Rob.init : Rob :=
  { dispatch := 0#64, flush := 0#64, ops := List.replicate kRobWindow []
    valid := 0#64, wide := 0#64, force := false, armState := .unarmed
    unarmedWriteId := BitVec.allOnes 64, state := none, inactive := false, staged := false }

def readLocalIdActive (opId dispatch flush : BitVec 64) : Bool :=
  decide (opId - flush < dispatch - flush)

namespace Rob

variable (rob : Rob)

def full : Bool := decide (kRobWindow ≤ ((rob.dispatch - rob.flush).setWidth 32).toNat)

/-- `at`: the key hashes of the command an id names. -/
def opAt (id : BitVec 64) : List KeyHash := rob.ops.getD (id.toNat % kRobWindow) []

def idActive (opId : BitVec 64) : Bool :=
  readLocalIdActive opId rob.dispatch rob.flush

def writeResetSlots : Rob := { rob with valid := 0#64, wide := 0#64 }

def writeEnterOverflow : Rob := { rob.writeResetSlots with force := true }

def writeLeaveOverflow : Rob := { rob.writeResetSlots with force := false }

/-- The loop of `read_local_prune` over the entries left: the sidecar and the slots retired. -/
def popRetired (rob : Rob) : Nat → ReadLocalRobState → BitVec 64
    → ReadLocalRobState × BitVec 64
  | 0, state, retired => (state, retired)
  | left + 1, state, retired =>
    if rob.idActive (state.writeRing.getD state.writeHead default).opId then (state, retired)
    else
      popRetired rob left { state with
          writeKeysetSlots := state.writeKeysetSlots &&& ~~~ slotBit state.writeHead
          writeHead := (state.writeHead + 1) % kWriteRingCapacity
          writeCount := state.writeCount - 1 }
        (retired ||| slotBit state.writeHead)

variable (state : ReadLocalRobState)

/-- `read_local_prune` with the frontier. -/
def pruneAt : Rob × ReadLocalRobState :=
  if state.overflow then
    if rob.idActive state.overflowThrough then (rob, state)
    else
      (rob.writeLeaveOverflow,
        { state with overflow := false, writeHead := 0, writeCount := 0
                     writeKeysetSlots := 0#64 })
  else
    let popped := rob.popRetired state.writeCount state 0#64
    if popped.1.writeCount = 0 then
      (rob.writeResetSlots, { popped.1 with writeHead := 0, writeKeysetSlots := 0#64 })
    else
      ({ rob with valid := rob.valid &&& ~~~ popped.2, wide := rob.wide &&& ~~~ popped.2 },
        popped.1)

/-- `read_local_prune`: nothing to do without entries and generation. -/
def prune : Rob × ReadLocalRobState :=
  if !state.overflow && state.writeCount == 0 then (rob, state) else rob.pruneAt state

def tryDeactivate : Rob :=
  if !state.overflow && state.writeCount == 0 && state.pendingWrite == .none then
    { rob with inactive := true }
  else rob

/-- A committed candidate takes the slot behind the last entry. -/
def pushEntry (pending : PendingWrite) (hash opId : BitVec 64)
    : Rob × ReadLocalRobState :=
  let tail := (state.writeHead + state.writeCount) % kWriteRingCapacity
  let bit := slotBit tail
  let keyset := decide (pending = .keyset)
  ({ rob with
     valid := rob.valid ||| bit
     wide := if keyset then rob.wide ||| bit else rob.wide &&& ~~~ bit },
    { state with
      writeRing := state.writeRing.set tail { hash := hash, opId := opId }
      writeTags := state.writeTags.set tail (hash.setWidth 16)
      writeKeysetSlots :=
        if keyset then state.writeKeysetSlots ||| bit else state.writeKeysetSlots &&& ~~~ bit
      writeCount := state.writeCount + 1 })

/-- A committed candidate starts or extends the conservative generation. -/
def joinOverflow (opId : BitVec 64)
    : Rob × ReadLocalRobState :=
  (if state.overflow then rob else rob.writeEnterOverflow,
    { state with overflow := true, overflowThrough := opId, writeHead := 0, writeCount := 0
                 writeKeysetSlots := 0#64 })

def resolvePendingBody : Rob × ReadLocalRobState :=
  if state.pendingWrite = .none then (rob, state)
  else
    let pending := state.pendingWrite
    let state := { state with pendingWrite := .none }
    if !rob.idActive state.pendingOpId then (rob, state)
    else
      let pruned := rob.pruneAt state
      if pruned.2.overflow || pending == .overflow then
        pruned.1.joinOverflow pruned.2 state.pendingOpId
      else pruned.1.pushEntry pruned.2 pending state.pendingHash state.pendingOpId

def unstaged : Rob := { rob with staged := false }

/-- `resolve_read_local_write`; without a sidecar nothing is staged. -/
def resolveReadLocalWrite : Rob :=
  match rob.state with
  | none => rob
  | some state =>
    let resolved := rob.unstaged.resolvePendingBody state
    { resolved.1.tryDeactivate resolved.2 with state := some resolved.2 }

/-- `acquire_read_local` and the parse of the frame into its slot; `false` when the window is
full.
-/
def acquireReadLocal (keys : List KeyHash) : Bool × Rob :=
  let rob := if rob.staged then rob.resolveReadLocalWrite else rob
  if rob.full then (false, rob)
  else (true, { rob with ops := rob.ops.set (rob.dispatch.toNat % kRobWindow) keys })

def publish : Rob := { rob with dispatch := rob.dispatch + 1#64 }

def unpublish : Rob := { rob with dispatch := rob.dispatch - 1#64 }

/-- `drain`, once it has found the first `count` operations done. -/
def drain (count : Nat) : Rob := { rob with flush := rob.flush + BitVec.ofNat 64 count }

/-- `mark_current_write`: `allocated` is the allocator's answer, should the sidecar be needed.
`none` is the abort on a candidate already staged.
-/
def markCurrentWrite (allocated : Bool) : Option Rob :=
  let unarmedWrite := { rob with armState := .unarmed, unarmedWriteId := rob.dispatch }
  if rob.armState = .unarmed then some unarmedWrite
  else
    match rob.state.or (if allocated then some .init else none) with
    | none => some unarmedWrite
    | some state =>
      if state.pendingWrite ≠ .none then none
      else
        let pruned := { rob with inactive := false }.prune state
        some { pruned.1 with
               staged := true
               state := some { pruned.2 with
                 pendingOpId := rob.dispatch, pendingHash := 0#64, pendingWrite := .overflow } }

/-- `refine_current_write_hash` and `refine_current_write_keyset` once their own bounds are
passed: the candidate staged by this frame becomes precise, unless a generation is live.
-/
def refine (pending : PendingWrite) (hash : BitVec 64) : Option Rob :=
  if rob.armState = .unarmed then some rob
  else
    match rob.state with
    | none => none
    | some state =>
      if state.pendingWrite ≠ .overflow ∨ state.pendingOpId ≠ rob.dispatch then none
      else if state.overflow then some rob
      else
        some { rob with state := some { state with pendingHash := hash, pendingWrite := pending } }

def refineCurrentWriteHash (hash : KeyHash) : Option Rob := rob.refine .hash hash

def refineCurrentWriteKeyset (filter : BitVec 64) (keyCount : Nat) : Option Rob :=
  if keyCount = 0 ∨ kMaxPreciseKeysetKeys < keyCount ∨ filter = 0#64 then some rob
  else rob.refine .keyset filter

/-- `read_local_arm`: whether the read must take the owner path. -/
def readLocalArm : Bool × Rob :=
  if rob.idActive rob.unarmedWriteId then
    (true, if rob.armState = .unarmed then { rob with armState := .armFence } else rob)
  else (false, { rob with armState := .armed, unarmedWriteId := BitVec.allOnes 64 })

def lowestSet (bits : BitVec 64) : Nat :=
  ((List.range 64).find? (fun i => bits.getLsbD i)).getD 64

def kTagLanes : Nat := 16

/-- The sweep over the groups of sixteen tags that hold a live slot. -/
def sweepTags (tags : List (BitVec 16)) (tag : BitVec 16) : Nat → BitVec 64 → Bool
  | 0, _ => false
  | groups + 1, rest =>
    let shift := lowestSet rest / kTagLanes * kTagLanes
    let next := rest &&& ~~~ (0xffff#64 <<< shift)
    if (List.range kTagLanes).any (fun i =>
        tags.getD (shift + i) 0#16 == tag && rest.getLsbD (shift + i)) then true
    else if next = 0#64 then false
    else sweepTags tags tag groups next

/-- `read_local_write_tag_may_match`; sixty-four slots are four groups. -/
def writeTagMayMatch (hash : KeyHash) : Bool :=
  if rob.force then true
  else if rob.valid = 0#64 then false
  else if rob.wide &&& rob.valid ≠ 0#64 then true
  else sweepTags state.writeTags (hash.setWidth 16) 4 rob.valid

/-- A stored key filter may hold the hash, and the command it stands for does. -/
def keysetTouches (filter probeFilter opId : BitVec 64) (hash : KeyHash) : Bool :=
  decide (filter &&& probeFilter = probeFilter) && (rob.opAt opId).contains hash

def pendingConflicts (probeFilter : BitVec 64) (hash : KeyHash)
    : Bool :=
  match state.pendingWrite with
  | .none => false
  | .overflow => true
  | .hash => decide (state.pendingHash = hash)
  | .keyset => rob.keysetTouches state.pendingHash probeFilter state.pendingOpId hash

def ringConflicts (probeFilter : BitVec 64) (hash : KeyHash) : Bool :=
  (List.range state.writeCount).any (fun i =>
    let slot := (state.writeHead + i) % kWriteRingCapacity
    let entry := state.writeRing.getD slot default
    if state.writeKeysetSlots.getLsbD slot then
      rob.keysetTouches entry.hash probeFilter entry.opId hash
    else decide (entry.hash = hash))

/-- The filter a probe compares stored key filters with, computed only if there are any. -/
def probeFilter (hash : KeyHash) : BitVec 64 :=
  if decide (state.pendingWrite = .keyset) || decide (state.writeKeysetSlots ≠ 0#64) then
    keysetFilter hash
  else 0#64

def writeConflictsPending (hash : KeyHash)
    : Bool × Rob :=
  let filter := probeFilter state hash
  if rob.pendingConflicts state filter hash then (true, rob)
  else if !state.overflow && state.writeCount == 0 then (false, rob.tryDeactivate state)
  else
    let pruned := rob.prune state
    let rob := { pruned.1 with state := some pruned.2 }
    if pruned.2.overflow then (true, rob)
    else if pruned.2.writeCount = 0 then (false, rob.tryDeactivate pruned.2)
    else (rob.ringConflicts pruned.2 filter hash, rob)

def probeState (hash : KeyHash) : Bool × Rob :=
  match rob.state with
  | none => (false, rob)
  | some state =>
    if rob.inactive then (false, rob)
    else if !rob.staged && !rob.writeTagMayMatch state hash then (false, rob)
    else rob.writeConflictsPending state hash

def readLocalWriteConflicts (hash : KeyHash) : Bool × Rob :=
  if rob.armState = .armed then rob.probeState hash
  else
    match rob.readLocalArm with
    | (true, rob) => (true, rob)
    | (false, rob) => rob.probeState hash

end Rob

inductive Candidate where
  | hash (hash : KeyHash)
  | keyset
  | overflow
  deriving DecidableEq, Repr

/-- A write of the connection: its operation id, and the hashes it touches; a write that was
not refined may touch any.
-/
structure Write where
  id : BitVec 64
  keys : Option (List KeyHash)
  deriving DecidableEq, Repr

def Write.touches (write : Write) (hash : KeyHash) : Bool :=
  write.keys.all (fun keys => keys.contains hash)

/-- The frame being parsed: the keys of its command, the write it has marked, and whether it
has been published.
-/
structure WriteFrame where
  keys : List KeyHash
  write : Option Write
  published : Bool
  deriving DecidableEq, Repr

/-- A connection. `writes`, the writes published and not taken back, is not in the source. -/
structure Connection where
  rob : Rob
  frame : Option WriteFrame
  writes : List Write
  deriving DecidableEq, Repr

def Connection.init : Connection := { rob := .init, frame := none, writes := [] }

inductive ConnEvent where
  | acquire (keys : List KeyHash)
  | mark (candidate : Candidate) (allocated : Bool)
  | publish
  | unpublish
  | retire (count : Nat)
  | probe (hash : KeyHash)
  deriving DecidableEq, Repr

namespace Connection

def keysFilter (keys : List KeyHash) : BitVec 64 :=
  keys.foldl (fun filter hash => filter ||| keysetFilter hash) 0#64

/-- `mark_current_write` and the refinement the frame's command allows. -/
def markWrite (rob : Rob) (keys : List KeyHash) (allocated : Bool) : Candidate → Option Rob
  | .hash hash => (rob.markCurrentWrite allocated).bind (fun rob => rob.refineCurrentWriteHash hash)
  | .keyset =>
    (rob.markCurrentWrite allocated).bind (fun rob =>
      rob.refineCurrentWriteKeyset (keysFilter keys) keys.length)
  | .overflow => rob.markCurrentWrite allocated

def Candidate.keys (keys : List KeyHash) : Candidate → Option (List KeyHash)
  | .hash hash => some [hash]
  | .keyset => some keys
  | .overflow => none

/-- One event. A frame marks at most one write and before it is published; only the frame
published last is taken back, while it has not retired; retirement passes published
operations only.
-/
def step (conn : Connection) : ConnEvent → Option Connection
  | .acquire keys =>
    match conn.rob.acquireReadLocal keys with
    | (true, rob) =>
      some { conn with
        rob := rob
        frame := some { keys := keys, write := none, published := false } }
    | (false, rob) => some { conn with rob := rob, frame := none }
  | .mark candidate allocated =>
    match conn.frame with
    | some { keys, write := none, published := false } =>
      (markWrite conn.rob keys allocated candidate).map (fun rob =>
        { conn with
          rob := rob
          frame := some
            { keys := keys
              write := some { id := conn.rob.dispatch, keys := Candidate.keys keys candidate }
              published := false } })
    | _ => none
  | .publish =>
    match conn.frame with
    | some { keys, write, published := false } =>
      some { rob := conn.rob.publish
             frame := some { keys := keys, write := write, published := true }
             writes := conn.writes ++ write.toList }
    | _ => none
  | .unpublish =>
    match conn.frame with
    | some { keys, write, published := true } =>
      if conn.rob.flush = conn.rob.dispatch then none
      else
        some { rob := conn.rob.unpublish
               frame := some { keys := keys, write := write, published := false }
               writes := conn.writes.filter (fun other => !write.toList.contains other) }
    | _ => none
  | .retire count =>
    if count ≤ (conn.rob.dispatch - conn.rob.flush).toNat then
      some { conn with rob := conn.rob.drain count }
    else none
  | .probe hash => some { conn with rob := (conn.rob.readLocalWriteConflicts hash).2 }

def Pending (conn : Connection) (write : Write) : Prop :=
  write ∈ conn.writes ∧ conn.rob.idActive write.id = true
    ∨ ∃ frame, conn.frame = some frame ∧ frame.published = false ∧ frame.write = some write

end Connection

end Thredis.Net
