import Thredis.Lib.Runs

/-! Deferred reclamation for local reads. A reader publishes the epoch it has seen where it holds
no pointer; an owner stamps what it has unlinked with the epoch it advances past, and frees it once
every active reader has published a later one.
-/

namespace Thredis.Core

open Thredis.Lib List Option Function

/-- The publication word of a thread, split into its parked bit and its tick, an epoch it has read
and not yet published, and the objects and tables it points to.
-/
structure Participant (ο : Type) where
  parked : Bool := false
  tick : Nat := 0
  sampled : Option Nat := none
  held : List ο := []

def uint64Max : Nat := 2 ^ 64 - 1

/-- `kReadLocalParkedBit`: a tick with this bit aborts. -/
def parkedBit : Nat := 2 ^ 63

def batchCapacity : Nat := 256

/-- A drain between two loads of publications; `next` is none before the hint has been tried. -/
structure GraceScan where
  oldest : Nat
  floor : Nat := uint64Max
  next : Option Nat := none

/-- `ReadLocalDeferredQueue`: the ring as its sealed batches and unsealed tail, and the resize
records, oldest first.
-/
structure RetireQueue (ο : Type) where
  batches : List (Nat × List ο) := []
  unsealed : List ο := []
  resizes : List (Nat × ο) := []
  graceHint : Nat := 2 ^ 32 - 1
  scan : Option GraceScan := none

/-- The epoch does not wrap: it grows by one with each stamp, and the first thread to publish one
with `parkedBit` aborts.
-/
structure Reclaimer (ο : Type) where
  epoch : Nat
  linked : ο → Bool
  participants : Nat → Participant ο
  queues : Nat → RetireQueue ο
  reclaimed : List ο

inductive GraceEvent (ο : Type) where
  | sample (thread : Nat)
  | publish (thread : Nat)
  | park (thread : Nat)
  | resume (thread : Nat)
  | refresh (thread : Nat)
  | take (thread : Nat) (object : ο)
  | endRotation (thread : Nat)
  | unlink (object : ο)
  | defer (owner : Nat) (object : ο)
  | deferResize (owner : Nat) (table : ο)
  | drainReady (owner : Nat)
  | load (owner : Nat)

section Queue

variable {ο : Type}

variable (queue : RetireQueue ο)

/-- One batch for the unsealed tail; a full batch table folds it into the newest batch. -/
def RetireQueue.seal (stamp : Nat) : RetireQueue ο :=
  { queue with
    unsealed := []
    batches :=
      match queue.batches.getLast? with
      | some newest =>
        if queue.batches.length = batchCapacity then
          queue.batches.dropLast ++ [(stamp, newest.2 ++ queue.unsealed)]
        else queue.batches ++ [(stamp, queue.unsealed)]
      | none => [(stamp, queue.unsealed)] }

def headStamp {β : Type} (entries : List (Nat × β)) : Nat :=
  entries.head?.elim uint64Max (·.1)

def RetireQueue.oldest : Nat :=
  min (headStamp queue.batches) (headStamp queue.resizes)

/-- What a drain with this floor hands to the reclaimer. -/
def RetireQueue.released (floor : Nat) : List ο :=
  (queue.batches.takeWhile (·.1 < floor)).flatMap (·.2)
    ++ (queue.resizes.takeWhile (·.1 < floor)).map (·.2)

def RetireQueue.drainBelow (floor : Nat) : RetireQueue ο :=
  { queue with
    batches := queue.batches.dropWhile (·.1 < floor)
    resizes := queue.resizes.dropWhile (·.1 < floor)
    scan := none }

variable (participant : Participant ο)

def Participant.blocks (stamp : Nat) : Bool :=
  !participant.parked && participant.tick ≤ stamp

def Participant.lower (floor : Nat) : Nat :=
  if participant.parked then floor else min floor participant.tick

open Participant

theorem Participant.lower_le (floor : Nat)
    : participant.lower floor ≤ floor := by
  rw [lower]
  split
  · exact le_rfl
  · exact Nat.min_le_left _ _

/-- The loop of `read_local_grace_floor` over the participants from `index` on. -/
def graceScan (participants : Nat → Participant ο) (stamp : Nat) : Nat → Nat → Nat → Nat
  | 0, _, floor => floor
  | left + 1, index, floor =>
    if (participants index).blocks stamp then (participants index).tick
    else graceScan participants stamp left (index + 1) ((participants index).lower floor)

def readLocalGraceFloor (threads : Nat) (participants : Nat → Participant ο) (stamp hint : Nat)
    : Nat :=
  if hint < threads ∧ (participants hint).blocks stamp then (participants hint).tick
  else graceScan participants stamp threads 0 uint64Max

def participantFloor (participants : Nat → Participant ο) : Nat → Nat → Nat → Nat
  | 0, _, floor => floor
  | left + 1, index, floor =>
    participantFloor participants left (index + 1) ((participants index).lower floor)

variable {participants : Nat → Participant ο} {stamp : Nat}

theorem participantFloor_le (left index floor : Nat)
    : participantFloor participants left index floor ≤ floor := by
  induction left generalizing index floor with
  | zero => exact le_rfl
  | succ left ih => exact (ih _ _).trans (lower_le _ _)

variable {participant : Participant ο}

theorem Participant.tick_le_of_blocks (blocked : participant.blocks stamp)
    : participant.tick ≤ stamp := by
  simpa using (Bool.and_eq_true_iff.mp blocked).2

theorem Participant.lower_le_of_blocks (blocked : participant.blocks stamp) (floor : Nat)
    : participant.lower floor ≤ stamp := by
  have active : participant.parked = false := by
    simpa using (Bool.and_eq_true_iff.mp blocked).1
  rw [lower, active]
  exact (Nat.min_le_right _ _).trans (tick_le_of_blocks blocked)

/-- A blocking participant keeps the minimum down. -/
theorem participantFloor_blocked {left index floor hint : Nat} (after : index ≤ hint)
    (inside : hint < index + left) (blocked : (participants hint).blocks stamp)
    : participantFloor participants left index floor ≤ stamp := by
  induction left generalizing index floor with
  | zero => omega
  | succ left ih =>
    rw [participantFloor]
    rcases Nat.eq_or_lt_of_le after with rfl | later
    · exact (participantFloor_le _ _ _).trans (lower_le_of_blocks blocked floor)
    · exact ih later (by omega)

/-- The floors are equal, or neither releases the stamp. -/
def SameFloor (stamp left right : Nat) : Prop := left = right ∨ left ≤ stamp ∧ right ≤ stamp

theorem graceScan_exact (left index floor : Nat)
    : SameFloor stamp (graceScan participants stamp left index floor)
        (participantFloor participants left index floor) := by
  induction left generalizing index floor with
  | zero => exact .inl rfl
  | succ left ih =>
    rw [graceScan]
    split
    · rename_i blocked
      exact .inr ⟨tick_le_of_blocks blocked,
        participantFloor_blocked le_rfl (by omega) blocked⟩
    · exact ih _ _

/-- The early exits answer only where the minimum would release nothing either. -/
theorem readLocalGraceFloor_exact (threads stamp hint : Nat) (participants : Nat → Participant ο)
    : SameFloor stamp (readLocalGraceFloor threads participants stamp hint)
        (participantFloor participants threads 0 uint64Max) := by
  rw [readLocalGraceFloor]
  split
  · rename_i blocked
    exact .inr ⟨tick_le_of_blocks blocked.2,
      participantFloor_blocked (Nat.zero_le _) (by omega) blocked.2⟩
  · exact graceScan_exact _ _ _

/-- Below the oldest stamp a drain leaves everything in its queue. -/
theorem RetireQueue.keeps_of_le_oldest {queue : RetireQueue ο} {floor : Nat}
    (low : floor ≤ queue.oldest)
    : queue.released floor = [] ∧ queue.drainBelow floor = { queue with scan := none } := by
  have stops {β : Type} {entries : List (Nat × β)} (low : floor ≤ headStamp entries)
      : entries.takeWhile (·.1 < floor) = [] ∧ entries.dropWhile (·.1 < floor) = entries := by
    cases entries with
    | nil => exact ⟨rfl, rfl⟩
    | cons entry rest =>
      have low : floor ≤ entry.1 := low
      simp [not_lt.mpr low]
  rw [RetireQueue.oldest] at low
  have low : floor ≤ headStamp queue.batches ∧ floor ≤ headStamp queue.resizes := by omega
  obtain ⟨noBatch, batches⟩ := stops low.1
  obtain ⟨noResize, resizes⟩ := stops low.2
  rw [RetireQueue.released, RetireQueue.drainBelow, noBatch, noResize, batches, resizes]
  exact ⟨rfl, rfl⟩

/-- Where no participant moves during the loads, the hinted floor decides as the minimum over all
participants does.
-/
theorem RetireQueue.drains_readLocalGraceFloor (queue : RetireQueue ο) (threads hint : Nat)
    (participants : Nat → Participant ο)
    : queue.released (readLocalGraceFloor threads participants queue.oldest hint)
        = queue.released (participantFloor participants threads 0 uint64Max)
      ∧ queue.drainBelow (readLocalGraceFloor threads participants queue.oldest hint)
        = queue.drainBelow (participantFloor participants threads 0 uint64Max) := by
  rcases readLocalGraceFloor_exact threads queue.oldest hint participants
    with same | ⟨hinted, full⟩
  · rw [same]
    exact ⟨rfl, rfl⟩
  · obtain ⟨released, kept⟩ := keeps_of_le_oldest hinted
    obtain ⟨releasedFull, keptFull⟩ := keeps_of_le_oldest full
    exact ⟨released.trans releasedFull.symm, kept.trans keptFull.symm⟩

end Queue

namespace Reclaimer

variable {ο : Type}

def init (linked : ο → Bool) : Reclaimer ο where
  epoch := 1
  linked
  participants _ := {}
  queues _ := {}
  reclaimed := []

variable (state : Reclaimer ο)

def setThread (thread : Nat) (participant : Participant ο) : Reclaimer ο :=
  { state with participants := Function.update state.participants thread participant }

variable (owner : Nat)

def setQueue (queue : RetireQueue ο) : Reclaimer ο :=
  { state with queues := Function.update state.queues owner queue }

def setScan (scan : GraceScan) : Reclaimer ο :=
  state.setQueue owner { state.queues owner with scan := some scan }

@[simp] theorem setScan_scan (scan : GraceScan)
    : ((state.setScan owner scan).queues owner).scan = some scan := by
  simp [setScan, setQueue]

@[simp] theorem setScan_released (floor : Nat) (scan : GraceScan)
    : ((state.setScan owner scan).queues owner).released floor
      = (state.queues owner).released floor := by
  simp only [setScan, setQueue, update_self]
  rfl

/-- Publishes the sampled epoch, with the parked bit the caller gives it. A thread does so only
while it holds no pointer: at a rotation boundary, or before an owner mutation.
-/
def publishTick (thread : Nat) (parked : Bool → Bool)
    : Option (Reclaimer ο) :=
  let own := state.participants thread
  own.sampled.bind fun tick =>
    if own.held = [] ∧ tick < parkedBit then
      some (state.setThread thread { parked := parked own.parked, tick })
    else
      none

def sealPending : Reclaimer ο :=
  let queue := state.queues owner
  if queue.unsealed = [] then state
  else { state.setQueue owner (queue.seal state.epoch) with epoch := state.epoch + 1 }

def finish (floor : Nat) : Reclaimer ο :=
  let queue := state.queues owner
  { state.setQueue owner (queue.drainBelow floor) with
    reclaimed := state.reclaimed ++ queue.released floor }

def load (threads : Nat) (state : Reclaimer ο) (owner : Nat) (scan : GraceScan) : Reclaimer ο :=
  let queue := state.queues owner
  match scan.next with
  | none =>
    let participant := state.participants queue.graceHint
    if queue.graceHint < threads ∧ participant.blocks scan.oldest then
      state.finish owner participant.tick
    else
      state.setScan owner { scan with next := some 0 }
  | some index =>
    let participant := state.participants index
    if threads ≤ index then state.finish owner scan.floor
    else if participant.blocks scan.oldest then
      (state.setQueue owner { queue with graceHint := index }).finish owner participant.tick
    else
      state.setScan owner
        { scan with floor := participant.lower scan.floor, next := some (index + 1) }

/-- The steps of `threads` threads with retire rings of `capacity` entries. A full ring refuses
`defer` until `force_oldest_grace` has sealed it, refreshed the owner's tick and drained.
-/
def step [DecidableEq ο] (threads capacity : Nat) (state : Reclaimer ο)
    : GraceEvent ο → Option (Reclaimer ο)
  | .sample thread =>
    let own := state.participants thread
    if thread < threads then
      some (state.setThread thread { own with sampled := some state.epoch })
    else none
  | .publish thread => state.publishTick thread fun _ => false
  | .park thread => state.publishTick thread fun _ => true
  | .refresh thread => state.publishTick thread id
  | .resume thread =>
    let own := state.participants thread
    if own.parked then some (state.setThread thread { own with parked := false }) else none
  | .take thread object =>
    let own := state.participants thread
    if thread < threads ∧ own.parked = false ∧ state.linked object then
      some (state.setThread thread { own with held := object :: own.held })
    else none
  | .endRotation thread =>
    some (state.setThread thread { state.participants thread with held := [] })
  | .unlink object => some { state with linked := Function.update state.linked object false }
  | .defer owner object =>
    let queue := state.queues owner
    if queue.scan.isNone ∧ state.linked object = false
        ∧ (queue.batches.flatMap (·.2) ++ queue.unsealed).length < capacity then
      some (state.setQueue owner { queue with unsealed := queue.unsealed ++ [object] })
    else none
  | .deferResize owner table =>
    let queue := state.queues owner
    if queue.scan.isNone ∧ state.linked table = false then
      some { state.setQueue owner { queue with
          resizes := queue.resizes ++ [(state.epoch, table)] } with epoch := state.epoch + 1 }
    else none
  | .drainReady owner =>
    if (state.queues owner).scan.isNone then
      let sealed := state.sealPending owner
      some (sealed.setScan owner { oldest := (sealed.queues owner).oldest })
    else none
  | .load owner => (state.queues owner).scan.map (state.load threads owner)

variable {threads capacity : Nat} {state next : Reclaimer ο}

def Stamped (queue : RetireQueue ο) (stamp : Nat) (object : ο) : Prop :=
  (∃ objects, (stamp, objects) ∈ queue.batches ∧ object ∈ objects)
    ∨ (stamp, object) ∈ queue.resizes

/-- Nobody can take the object any more, and who holds it has not passed the stamp. -/
def Waits (state : Reclaimer ο) (stamp : Nat) (object : ο) : Prop :=
  stamp < state.epoch ∧ state.linked object = false
    ∧ ∀ thread, object ∈ (state.participants thread).held
      → (state.participants thread).tick ≤ stamp

/-- The participants a scan has passed hold nothing it would release. -/
def Scanned (state : Reclaimer ο) (queue : RetireQueue ο) (scan : GraceScan) : Prop :=
  scan.oldest = queue.oldest ∧ ∀ index ∈ scan.next, ∀ stamp object, Stamped queue stamp object
    → stamp < scan.floor → ∀ thread < index, object ∉ (state.participants thread).held

def Free (state : Reclaimer ο) (object : ο) : Prop :=
  state.linked object = false ∧ ∀ thread, object ∉ (state.participants thread).held

structure Graced (threads : Nat) (state : Reclaimer ο) : Prop where
  ticks : ∀ thread, (state.participants thread).tick ≤ state.epoch
    ∧ ∀ tick ∈ (state.participants thread).sampled, tick ≤ state.epoch
  quiet : ∀ thread, (state.participants thread).parked → (state.participants thread).held = []
  few : ∀ thread, threads ≤ thread → (state.participants thread).held = []
  tail : ∀ owner, ∀ object ∈ (state.queues owner).unsealed, state.linked object = false
  stamped : ∀ owner stamp object, Stamped (state.queues owner) stamp object
    → state.Waits stamp object
  scanned : ∀ owner, ∀ scan ∈ (state.queues owner).scan, state.Scanned (state.queues owner) scan
  freed : ∀ object ∈ state.reclaimed, state.Free object

theorem init_graced (linked : ο → Bool) : (init linked).Graced threads := by
  constructor <;> simp [init, Stamped]

/-- A thread may change in any way that gives it pointers to linked objects only. -/
theorem Graced.setThread (graced : state.Graced threads) {thread : Nat}
    (ticks : participant.tick ≤ state.epoch ∧ ∀ tick ∈ participant.sampled, tick ≤ state.epoch)
    (quiet : participant.parked → participant.held = [])
    (few : threads ≤ thread → participant.held = [])
    (held : ∀ object ∈ participant.held, state.linked object
      ∨ object ∈ (state.participants thread).held
        ∧ participant.tick = (state.participants thread).tick)
    : (state.setThread thread participant).Graced threads := by
  have before {other : Nat} {object : ο} (gone : state.linked object = false)
      (holds : object ∈ ((state.setThread thread participant).participants other).held)
      : object ∈ (state.participants other).held
        ∧ ((state.setThread thread participant).participants other).tick
          = (state.participants other).tick := by
    by_cases same : other = thread
    · subst same
      simp only [Reclaimer.setThread, update_self] at holds ⊢
      exact (held object holds).resolve_left (by simp [gone])
    · simpa [Reclaimer.setThread, same] using holds
  refine ⟨(forall_update_iff state.participants fun _ own => own.tick ≤ state.epoch
      ∧ ∀ tick ∈ own.sampled, tick ≤ state.epoch).mpr ⟨ticks, fun other _ => graced.ticks other⟩,
    (forall_update_iff state.participants fun _ own => own.parked → own.held = []).mpr
      ⟨quiet, fun other _ => graced.quiet other⟩,
    (forall_update_iff state.participants fun other own => threads ≤ other
      → own.held = []).mpr ⟨few, fun other _ => graced.few other⟩, graced.tail,
    fun owner stamp object waits => ?_, fun owner scan running => ?_, fun object freed => ?_⟩
  · obtain ⟨sealed, gone, behind⟩ := graced.stamped owner stamp object waits
    refine ⟨sealed, gone, fun other holds => ?_⟩
    obtain ⟨held, tick⟩ := before gone holds
    exact tick ▸ behind other held
  · obtain ⟨oldest, passed⟩ := graced.scanned owner scan running
    refine ⟨oldest, fun index reached stamp object waits below other visited holds => ?_⟩
    exact passed index reached stamp object waits below other visited
      (before (graced.stamped owner stamp object waits).2.1 holds).1
  · obtain ⟨gone, unheld⟩ := graced.freed object freed
    exact ⟨gone, fun other holds => unheld other (before gone holds).1⟩

variable {owner stamp floor : Nat} {queue : RetireQueue ο}

/-- A queue may change where all that waits in it is unlinked and unseen by later ticks. -/
theorem Graced.setQueue (graced : state.Graced threads) {epoch : Nat}
    {reclaimed : List ο} (later : state.epoch ≤ epoch)
    (tail : ∀ object ∈ queue.unsealed, state.linked object = false)
    (stamped : ∀ stamp object, Stamped queue stamp object → { state with epoch }.Waits stamp object)
    (scanned : ∀ scan ∈ queue.scan, state.Scanned queue scan)
    (freed : ∀ object ∈ reclaimed, state.Free object)
    : ({ state.setQueue owner queue with epoch, reclaimed } : Reclaimer ο).Graced threads := by
  refine ⟨fun thread => ?_, graced.quiet, graced.few,
    (forall_update_iff state.queues fun _ own => ∀ object ∈ own.unsealed,
      state.linked object = false).mpr ⟨tail, fun other _ => graced.tail other⟩,
    (forall_update_iff state.queues fun _ own => ∀ stamp object, Stamped own stamp object
      → Waits { state with epoch } stamp object).mpr
      ⟨stamped, fun other _ stamp object waits => ?_⟩,
    (forall_update_iff state.queues fun _ own => ∀ scan ∈ own.scan,
      state.Scanned own scan).mpr ⟨scanned, fun other _ => graced.scanned other⟩, freed⟩
  · obtain ⟨tick, sampled⟩ := graced.ticks thread
    exact ⟨tick.trans later, fun read inside => (sampled read inside).trans later⟩
  · obtain ⟨sealed, rest⟩ := graced.stamped other stamp object waits
    exact ⟨sealed.trans_le later, rest⟩

theorem Graced.publishTick (graced : state.Graced threads) {thread : Nat} {parked : Bool → Bool}
    (published : state.publishTick thread parked = some next)
    : next.Graced threads := by
  obtain ⟨tick, sampled, published⟩ := bind_eq_some_iff.mp published
  obtain ⟨_, rfl⟩ := guard_taken published
  exact graced.setThread ⟨(graced.ticks thread).2 tick sampled, by simp⟩ (fun _ => rfl)
    (fun _ => rfl) (by simp)

theorem Graced.unlink [DecidableEq ο] (graced : state.Graced threads) (object : ο)
    : ({ state with linked := update state.linked object false } : Reclaimer ο).Graced
        threads := by
  have still {other : ο} (gone : state.linked other = false)
      : update state.linked object false other = false := by
    by_cases same : other = object
    · simp [same]
    · simpa [same] using gone
  refine ⟨graced.ticks, graced.quiet, graced.few, fun owner other member => ?_,
    fun owner stamp other waits => ?_, graced.scanned, fun other freed => ?_⟩
  · exact still (graced.tail owner other member)
  · obtain ⟨sealed, gone, behind⟩ := graced.stamped owner stamp other waits
    exact ⟨sealed, still gone, behind⟩
  · exact ⟨still (graced.freed other freed).1, (graced.freed other freed).2⟩

variable {object : ο}

theorem Waits.later {epoch : Nat} (waits : state.Waits stamp object) (later : state.epoch ≤ epoch)
    : { state with epoch }.Waits stamp object :=
  ⟨waits.1.trans_le later, waits.2⟩

/-- An unlinked object may be stamped with the epoch: nobody has published a later one. -/
theorem Graced.stamp_epoch (graced : state.Graced threads) (gone : state.linked object = false)
    : { state with epoch := state.epoch + 1 }.Waits state.epoch object :=
  ⟨Nat.lt_succ_self _, gone, fun thread _ => (graced.ticks thread).1⟩

theorem stamped_seal {sealed : Nat} (waits : Stamped (queue.seal stamp) sealed object)
    : Stamped queue sealed object ∨ sealed = stamp
      ∧ (object ∈ queue.unsealed ∨ ∃ older, Stamped queue older object) := by
  rcases waits with ⟨objects, member, inside⟩ | resize
  · rw [RetireQueue.seal] at member
    split at member
    · rename_i newest last
      have old := mem_of_getLast? last
      split at member
      · rcases mem_append.mp member with before | new
        · exact .inl (.inl ⟨objects, dropLast_subset _ before, inside⟩)
        · obtain ⟨rfl, rfl⟩ := Prod.mk.inj (mem_singleton.mp new)
          rcases mem_append.mp inside with merged | fresh
          · exact .inr ⟨rfl, .inr ⟨newest.1, .inl ⟨newest.2, old, merged⟩⟩⟩
          · exact .inr ⟨rfl, .inl fresh⟩
      · rcases mem_append.mp member with before | new
        · exact .inl (.inl ⟨objects, before, inside⟩)
        · obtain ⟨rfl, rfl⟩ := Prod.mk.inj (mem_singleton.mp new)
          exact .inr ⟨rfl, .inl inside⟩
    · obtain ⟨rfl, rfl⟩ := Prod.mk.inj (mem_singleton.mp member)
      exact .inr ⟨rfl, .inl inside⟩
  · exact .inl (.inr resize)

theorem Graced.sealPending (graced : state.Graced threads) (idle : (state.queues owner).scan = none)
    : (state.sealPending owner).Graced threads := by
  rw [Reclaimer.sealPending]
  split
  · exact graced
  · refine graced.setQueue (Nat.le_succ _) (by simp [RetireQueue.seal])
      (fun stamp object waits => ?_) (by simp [RetireQueue.seal, idle]) graced.freed
    rcases stamped_seal waits with old | ⟨rfl, fresh | ⟨older, merged⟩⟩
    · exact (graced.stamped owner stamp object old).later (Nat.le_succ _)
    · exact graced.stamp_epoch (graced.tail owner object fresh)
    · exact graced.stamp_epoch (graced.stamped owner older object merged).2.1

theorem stamped_of_takeWhile (released : object ∈ queue.released floor)
    : ∃ stamp < floor, Stamped queue stamp object := by
  rcases mem_append.mp released with ring | resize
  · obtain ⟨⟨stamp, objects⟩, member, inside⟩ := mem_flatMap.mp ring
    exact ⟨stamp, by simpa using mem_takeWhile_imp member,
      .inl ⟨objects, (takeWhile_sublist _).subset member, inside⟩⟩
  · obtain ⟨⟨stamp, table⟩, member, rfl⟩ := mem_map.mp resize
    exact ⟨stamp, by simpa using mem_takeWhile_imp member,
      .inr ((takeWhile_sublist _).subset member)⟩

/-- A drain may finish with a floor below which nothing it would release is held. -/
theorem Graced.finish (graced : state.Graced threads)
    (unheld : ∀ object ∈ (state.queues owner).released floor, ∀ thread,
      object ∉ (state.participants thread).held)
    : (state.finish owner floor).Graced threads := by
  refine graced.setQueue le_rfl (graced.tail owner) (fun stamp object waits => ?_)
    (by simp [RetireQueue.drainBelow]) fun object freed => ?_
  · rcases waits with ⟨objects, member, inside⟩ | member
    · exact graced.stamped owner stamp object
        (.inl ⟨objects, (dropWhile_sublist _).subset member, inside⟩)
    · exact graced.stamped owner stamp object (.inr ((dropWhile_sublist _).subset member))
  · rcases mem_append.mp freed with before | now
    · exact graced.freed object before
    · obtain ⟨stamp, _, waits⟩ := stamped_of_takeWhile now
      exact ⟨(graced.stamped owner stamp object waits).2.1, unheld object now⟩

/-- One load keeps the promise of the scan: a participant that does not block holds nothing
below the floor.
-/
theorem Graced.load (graced : state.Graced threads) {scan : GraceScan}
    (running : (state.queues owner).scan = some scan)
    : (state.load threads owner scan).Graced threads := by
  obtain ⟨oldest, passed⟩ := graced.scanned owner scan running
  have nothing {floor : Nat} (low : floor ≤ scan.oldest) {object : ο}
      (released : object ∈ (state.queues owner).released floor) : False := by
    rw [(RetireQueue.keeps_of_le_oldest (oldest ▸ low)).1] at released
    cases released
  have onward {floor index : Nat}
      (visited : ∀ stamp object, Stamped (state.queues owner) stamp object → stamp < floor
        → ∀ thread < index, object ∉ (state.participants thread).held)
      : (state.setScan owner ⟨scan.oldest, floor, some index⟩).Graced threads := by
    refine graced.setQueue le_rfl (graced.tail owner) (graced.stamped owner)
      (fun now same => ?_) graced.freed
    cases same
    exact ⟨oldest, fun reached is => by cases is; exact visited⟩
  rw [Reclaimer.load]
  dsimp only
  split
  · split
    · rename_i blocked
      exact graced.finish fun object released =>
        (nothing (Participant.tick_le_of_blocks blocked.2) released).elim
    · exact onward (by simp)
  · rename_i index reached
    split
    · refine graced.finish fun object released thread holds => ?_
      obtain ⟨stamp, below, waits⟩ := stamped_of_takeWhile released
      rcases lt_or_ge thread threads with inside | outside
      · exact passed index reached stamp object waits below thread (by omega) holds
      · simp [graced.few thread outside] at holds
    · split
      · rename_i blocked
        have hinted : (state.setQueue owner { state.queues owner with graceHint := index }).Graced
            threads :=
          graced.setQueue le_rfl (graced.tail owner) (graced.stamped owner)
            (graced.scanned owner) graced.freed
        refine hinted.finish fun object released => ?_
        simp only [Reclaimer.setQueue, update_self] at released
        exact (nothing (Participant.tick_le_of_blocks blocked) released).elim
      · refine onward fun stamp object waits below thread visited holds => ?_
        rcases Nat.lt_succ_iff_lt_or_eq.mp visited with before | rfl
        · exact passed index reached stamp object waits
            (below.trans_le (Participant.lower_le _ _)) thread before holds
        · -- a parked thread holds nothing, and an active one has published past the stamp
          have parked : (state.participants thread).parked = false := by
            rw [← Bool.not_eq_true]
            intro parked
            simp [graced.quiet thread parked] at holds
          have behind := (graced.stamped owner stamp object waits).2.2 thread holds
          rw [Participant.lower, parked] at below
          exact absurd below (by simp; omega)

theorem Graced.step [DecidableEq ο] (graced : state.Graced threads) {event : GraceEvent ο}
    (taken : step threads capacity state event = some next)
    : next.Graced threads := by
  cases event with
  | sample thread =>
    obtain ⟨_, rfl⟩ := guard_taken taken
    exact graced.setThread ⟨(graced.ticks thread).1, by simp⟩ (graced.quiet thread)
      (graced.few thread) fun object holds => .inr ⟨holds, rfl⟩
  | publish thread | park thread | refresh thread =>
    rw [Reclaimer.step] at taken
    exact graced.publishTick taken
  | resume thread =>
    obtain ⟨_, rfl⟩ := guard_taken taken
    exact graced.setThread (graced.ticks thread) (by simp) (graced.few thread)
      fun object holds => .inr ⟨holds, rfl⟩
  | take thread object =>
    obtain ⟨⟨inside, active, linked⟩, rfl⟩ := guard_taken taken
    refine graced.setThread (graced.ticks thread) (by simp [active]) (fun outside => by omega)
      fun other holds => ?_
    rcases mem_cons.mp holds with rfl | before
    · exact .inl linked
    · exact .inr ⟨before, rfl⟩
  | endRotation thread =>
    rw [← some.inj taken]
    exact graced.setThread (graced.ticks thread) (fun _ => rfl) (fun _ => rfl) (by simp)
  | unlink object =>
    rw [← some.inj taken]
    exact graced.unlink object
  | defer owner object =>
    obtain ⟨⟨idle, gone, _⟩, rfl⟩ := guard_taken taken
    refine graced.setQueue le_rfl (fun other member => ?_) (graced.stamped owner)
      (by simp [isNone_iff_eq_none.mp idle]) graced.freed
    rcases mem_append.mp member with before | new
    · exact graced.tail owner other before
    · rwa [mem_singleton.mp new]
  | deferResize owner table =>
    obtain ⟨⟨idle, gone⟩, rfl⟩ := guard_taken taken
    refine graced.setQueue (Nat.le_succ _) (graced.tail owner) (fun stamp object waits => ?_)
      (by simp [isNone_iff_eq_none.mp idle]) graced.freed
    rcases waits with batch | resize
    · exact (graced.stamped owner stamp object (.inl batch)).later (Nat.le_succ _)
    · rcases mem_append.mp resize with before | new
      · exact (graced.stamped owner stamp object (.inr before)).later (Nat.le_succ _)
      · obtain ⟨rfl, rfl⟩ := Prod.mk.inj (mem_singleton.mp new)
        exact graced.stamp_epoch gone
  | drainReady owner =>
    obtain ⟨idle, rfl⟩ := guard_taken taken
    have sealed := graced.sealPending (isNone_iff_eq_none.mp idle)
    refine sealed.setQueue le_rfl (sealed.tail owner) (sealed.stamped owner)
      (fun scan same => ?_) sealed.freed
    cases same
    exact ⟨rfl, by simp⟩
  | load owner =>
    obtain ⟨scan, running, ended⟩ := map_eq_some_iff.mp taken
    rw [← ended]
    exact graced.load running

theorem run_load [DecidableEq ο] {loads : Nat} {scan : GraceScan}
    (running : (state.queues owner).scan = some scan)
    : run (step threads capacity) state (replicate (loads + 1) (.load owner))
      = run (step threads capacity) (state.load threads owner scan)
        (replicate loads (.load owner)) := by
  rw [replicate_succ, run, step, running]
  rfl

/-- What remains of a scan with no other step between its loads. -/
theorem run_graceScan [DecidableEq ο] {index left : Nat}
    (running : (state.queues owner).scan = some ⟨stamp, floor, some index⟩)
    (all : index + left = threads)
    : ∃ loads final, run (step threads capacity) state (replicate loads (.load owner))
        = some final
      ∧ final.reclaimed = state.reclaimed ++ (state.queues owner).released
        (graceScan state.participants stamp left index floor) := by
  induction left generalizing state floor index with
  | zero =>
    refine ⟨1, _, run_load running, ?_⟩
    simp [load, show threads ≤ index by omega, finish, graceScan]
  | succ left ih =>
    have inside : ¬ threads ≤ index := by omega
    rw [graceScan]
    split
    · rename_i blocked
      refine ⟨1, _, run_load running, ?_⟩
      simp [load, inside, blocked, finish, setQueue, RetireQueue.released]
    · rename_i passes
      have loaded : state.load threads owner ⟨stamp, floor, some index⟩ = state.setScan owner
          ⟨stamp, (state.participants index).lower floor, some (index + 1)⟩ := by
        simp [load, inside, passes]
      have left : index + 1 + left = threads := by omega
      obtain ⟨loads, final, ran, released⟩ := ih (setScan_scan state owner _) left
      refine ⟨loads + 1, final, (run_load running).trans (loaded ▸ ran), ?_⟩
      rw [released, setScan_released]
      rfl

/-- A drain with no other step between its loads releases what a scan of all participants would,
whatever slot it has remembered.
-/
theorem run_drainReady [DecidableEq ο] (idle : (state.queues owner).scan = none)
    : ∃ loads final, run (step threads capacity) state
          (.drainReady owner :: replicate loads (.load owner)) = some final
      ∧ final.reclaimed = state.reclaimed ++ ((state.sealPending owner).queues owner).released
        (participantFloor state.participants threads 0 uint64Max) := by
  have participants : (state.sealPending owner).participants = state.participants := by
    rw [sealPending]
    split <;> rfl
  have reclaimed : (state.sealPending owner).reclaimed = state.reclaimed := by
    rw [sealPending]
    split <;> rfl
  have drain (loads : Nat) : run (step threads capacity) state
        (.drainReady owner :: replicate loads (.load owner))
      = run (step threads capacity) ((state.sealPending owner).setScan owner
          { oldest := ((state.sealPending owner).queues owner).oldest })
        (replicate loads (.load owner)) := by
    simp [run, step, idle]
  generalize state.sealPending owner = sealed at *
  rw [← (RetireQueue.drains_readLocalGraceFloor (sealed.queues owner) threads
    (sealed.queues owner).graceHint state.participants).1, readLocalGraceFloor]
  split
  · rename_i blocked
    refine ⟨1, _, (drain 1).trans (run_load (setScan_scan sealed owner _)), ?_⟩
    simp [load, setScan, setQueue, participants, blocked, finish, reclaimed, RetireQueue.released]
  · rename_i passes
    have loaded (scan : GraceScan) (fresh : scan = { oldest := (sealed.queues owner).oldest })
        : (sealed.setScan owner scan).load threads owner scan
          = sealed.setScan owner { scan with next := some 0 } := by
      simp [fresh, load, setScan, setQueue, participants, passes]
    obtain ⟨loads, final, ran, released⟩ :=
      run_graceScan (setScan_scan sealed owner _) (Nat.zero_add threads)
    refine ⟨loads + 1, final,
      (drain _).trans ((run_load (setScan_scan sealed owner _)).trans (loaded _ rfl ▸ ran)), ?_⟩
    rw [released, setScan_released, ← participants, ← reclaimed]
    rfl

/-- Whatever has been reclaimed is out of reach of every thread; every floor decides as a scan of
all participants does; and so does every drain that no other step interrupts. Witness: induction
over the run with `Graced`.
-/
theorem reclaimed_unheld [DecidableEq ο] (threads capacity : Nat) (linked : ο → Bool)
    {events : List (GraceEvent ο)} {final : Reclaimer ο}
    (ran : run (step threads capacity) (init linked) events = some final)
    : (∀ object ∈ final.reclaimed, final.linked object = false
        ∧ ∀ thread, object ∉ (final.participants thread).held)
      ∧ (∀ owner hint, (final.queues owner).released (readLocalGraceFloor threads
            final.participants (final.queues owner).oldest hint)
          = (final.queues owner).released (participantFloor final.participants threads 0 uint64Max))
      ∧ ∀ owner, (final.queues owner).scan = none → ∃ loads after,
          run (step threads capacity) final
            (.drainReady owner :: List.replicate loads (.load owner)) = some after
          ∧ after.reclaimed = final.reclaimed ++ ((final.sealPending owner).queues owner).released
            (participantFloor final.participants threads 0 uint64Max) := by
  have start : (init linked).Graced threads := init_graced linked
  have graced := run_invariant (fun _ _ _ graced => graced.step) start ran
  exact ⟨graced.freed,
    fun owner hint => ((final.queues owner).drains_readLocalGraceFloor threads hint _).1,
    fun owner => run_drainReady⟩

/-- Thread 1 takes object 7 before owner 0 retires it; the first drain waits for thread 1, whose
slot it remembers, and the second frees the object.
-/
def waitForReader : List (GraceEvent Nat) :=
  [.take 1 7, .unlink 7, .defer 0 7, .sample 0, .drainReady 0, .sample 0, .publish 0, .load 0,
    .load 0, .load 0, .endRotation 1, .sample 1, .publish 1, .drainReady 0, .load 0, .load 0,
    .load 0, .load 0]

theorem reclaimed_unheld_waiting
    : ∃ final, run (step 2 4) (init fun _ => true) waitForReader = some final
      ∧ final.reclaimed = [7] ∧ 7 ∉ (final.participants 1).held := by
  have ended : (run (step 2 4) (init fun _ => true) waitForReader).map (·.reclaimed)
      = some [7] := by
    decide +kernel
  obtain ⟨final, ran, freed⟩ := map_eq_some_iff.mp ended
  exact ⟨final, ran, freed, ((reclaimed_unheld 2 4 _ ran).1 7 (by simp [freed])).2 1⟩

end Reclaimer

end Thredis.Core
