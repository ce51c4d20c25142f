import Thredis.Lib.Runs

/-! The pub/sub outboxes of one IO thread. What a pass owes to another thread is gathered in that
thread's outbox; the thread is listed as dirty when its outbox stops being empty, and the flush at
the end of the pass visits the listed outboxes twice, for the deliveries and for the replies.
-/

namespace Thredis.Core

open Thredis.Lib List Option

structure PubSubRef where
  io : Nat
  conn : Nat

structure PubSubBlob where
  channel : List UInt8
  message : List UInt8
  shard : Bool

/-- `PubSubDelivery`: the pattern is empty for an exact subscription. -/
structure PubSubDelivery where
  blob : PubSubBlob
  conn : Nat
  pattern : List UInt8

structure PubSubResult where
  conn : Nat
  op : Nat
  count : Nat

structure PublishRequest where
  originIo : Nat
  conn : Nat
  op : Nat
  blob : PubSubBlob

/-- The subscribers a home has registered by channel, by shard channel and by pattern. -/
structure PubSubIndex where
  channels : List UInt8 → List PubSubRef
  shardChannels : List UInt8 → List PubSubRef
  patterns : List (List UInt8 × PubSubRef)

/-- `PubSubEvent`. The kinds whose handlers queue nothing in an outbox are `quiet`: such a handler
leaves the indexes as given and posts the given events. A notification's chain goes on at its
coordinator.
-/
inductive PubSubEvent where
  | publishRequest (request : PublishRequest)
  | notificationRequest (request : PublishRequest) (coordinator : Nat) (onward : PubSubEvent)
  | deliveryBatch (items : List PubSubDelivery) (replies : List PubSubResult)
  | quiet (index : PubSubIndex) (posts : List (Nat × PubSubEvent))

/-- The thread, `command_glob_match`, and where a connection lives when it is looked up the n-th
time, by its local client or the shared directory.
-/
structure PubSubThread where
  id : Nat
  globMatch : List UInt8 → List UInt8 → Bool
  liveIo : Nat → Nat → Option Nat

/-- The pub/sub state of the thread; `deliveries` and `results` are its outboxes by destination.
`delivered`, `finished` and `posted` are what it has handed to its own clients and to other threads,
`clock` counts lookups. The ghost `crossed` is set when a flush starts that crosses.
-/
structure PubSubHome where
  index : PubSubIndex
  deliveries : Nat → List PubSubDelivery := fun _ => []
  results : Nat → List PubSubResult := fun _ => []
  dirty : List Nat := []
  passPending : Bool := false
  localEvents : List PubSubEvent := []
  delivered : List PubSubDelivery := []
  finished : List PubSubResult := []
  posted : List (Nat × PubSubEvent) := []
  clock : Nat := 0
  crossed : Bool := false

namespace PubSubHome

variable (home : PubSubHome)

def owed (io : Nat) : Bool :=
  !(home.deliveries io).isEmpty || !(home.results io).isEmpty

def outboxFor (io : Nat) : PubSubHome :=
  { home with
    dirty := if home.owed io then home.dirty else home.dirty ++ [io]
    passPending := true }

def queueDelivery (io : Nat) (item : PubSubDelivery) : PubSubHome :=
  { home.outboxFor io with
    deliveries := Function.update home.deliveries io (home.deliveries io ++ [item]) }

def queueResult (io : Nat) (result : PubSubResult) : PubSubHome :=
  { home.outboxFor io with
    results := Function.update home.results io (home.results io ++ [result]) }

variable (thread : PubSubThread) (home : PubSubHome)

def post (target : Nat) (event : PubSubEvent) : PubSubHome :=
  if target = thread.id then
    { home with localEvents := home.localEvents ++ [event], passPending := true }
  else { home with posted := home.posted ++ [(target, event)] }

def deliverItem (item : PubSubDelivery) : PubSubHome :=
  let looked := { home with clock := home.clock + 1 }
  match thread.liveIo home.clock item.conn with
  | none => looked
  | some io =>
    if io = thread.id then { looked with delivered := home.delivered ++ [item] }
    else looked.queueDelivery io item

def deliverBatch (items : List PubSubDelivery) : PubSubHome :=
  items.foldl (deliverItem thread) home

/-- `pubsub_home_publish`; without a receiver the reply counts zero. -/
def homePublish (request : PublishRequest) (replyToPublisher : Bool)
    : PubSubHome :=
  let channel := request.blob.channel
  let exact :=
    if request.blob.shard then home.index.shardChannels channel else home.index.channels channel
  let matched :=
    if request.blob.shard then []
    else home.index.patterns.filter fun entry => thread.globMatch entry.1 channel
  let receivers := exact.map (([], ·)) ++ matched
  let resolved := receivers.foldl
    (fun home entry => home.queueDelivery entry.2.io ⟨request.blob, entry.2.conn, entry.1⟩) home
  if replyToPublisher then
    resolved.queueResult request.originIo ⟨request.conn, request.op, receivers.length⟩
  else resolved

def sweepDeliveries (io : Nat) : PubSubHome :=
  let items := home.deliveries io
  if items.isEmpty then home
  else if io = thread.id then
    let after := home.deliverBatch thread items
    { after with deliveries := Function.update after.deliveries io [] }
  else
    { home with
      deliveries := Function.update home.deliveries io []
      posted := home.posted ++ [(io, .deliveryBatch items [])] }

def sweepResults (io : Nat) : PubSubHome :=
  let replies := home.results io
  let cleared := { home with results := Function.update home.results io [] }
  if replies.isEmpty then home
  else if io = thread.id then { cleared with finished := home.finished ++ replies }
  else { cleared with posted := home.posted ++ [(io, .deliveryBatch [] replies)] }

/-- One of the items, looked up in turn from the given time on, is for a client of thread `io`. -/
def forwards (io : Nat) : Nat → List PubSubDelivery → Bool
  | _, [] => false
  | clock, item :: rest =>
    thread.liveIo clock item.conn == some io || forwards io (clock + 1) rest

/-- A thread listed before this one has replies waiting and is where a delivery of the own outbox
will be forwarded.
-/
def crosses : Bool :=
  (home.dirty.takeWhile (· ≠ thread.id)).any fun io =>
    !(home.results io).isEmpty && forwards thread io home.clock (home.deliveries thread.id)

def flushOutboxes : PubSubHome :=
  home.dirty.foldl (sweepResults thread)
    (home.dirty.foldl (sweepDeliveries thread)
      { home with dirty := [], crossed := home.crossed || home.crosses thread })

def handleEvent : PubSubEvent → PubSubHome
  | .publishRequest request => home.homePublish thread request true
  | .notificationRequest request coordinator onward =>
    ((home.homePublish thread request false).flushOutboxes thread).post thread coordinator onward
  | .deliveryBatch items replies =>
    let after := home.deliverBatch thread items
    { after with finished := after.finished ++ replies }
  | .quiet index posts =>
    posts.foldl (fun home entry => home.post thread entry.1 entry.2) { home with index := index }

/-- `pubsub_drain_events` with the events taken from the inbox; `none` where the given number of
turns does not end it.
-/
def drainEvents : Nat → List PubSubEvent → PubSubHome → Option PubSubHome
  | 0, _, _ => none
  | turns + 1, event :: rest, home => drainEvents turns rest (home.handleEvent thread event)
  | turns + 1, [], home =>
    if home.localEvents.isEmpty then some home
    else drainEvents turns home.localEvents { home with localEvents := [] }

/-- The loop of `pubsub_pass_flush`, by the rounds it has left and what the inbox holds in each. -/
def passRounds (turns : Nat) (inbox : Nat → List PubSubEvent) : Nat → PubSubHome → Option PubSubHome
  | 0, home => some home
  | rounds + 1, home =>
    (if home.localEvents.isEmpty then some home
      else drainEvents thread turns (inbox rounds) home).bind fun drained =>
    if drained.dirty.isEmpty then some drained
    else
      let flushed := drained.flushOutboxes thread
      if flushed.localEvents.isEmpty then some flushed else passRounds turns inbox rounds flushed

def passFlush (turns : Nat) (inbox : Nat → List PubSubEvent) (home : PubSubHome)
    : Option PubSubHome :=
  (passRounds thread turns inbox 8 home).map fun after =>
    { after with passPending := !after.localEvents.isEmpty || !after.dirty.isEmpty }

end PubSubHome

inductive PubSubCall where
  | handle (event : PubSubEvent)
  | post (target : Nat) (event : PubSubEvent)
  | drain (turns : Nat) (inbox : List PubSubEvent)
  | passFlush (turns : Nat) (inbox : Nat → List PubSubEvent)

namespace PubSubHome

def step (thread : PubSubThread) (home : PubSubHome) : PubSubCall → Option PubSubHome
  | .handle event => some (home.handleEvent thread event)
  | .post target event => some (home.post thread target event)
  | .drain turns inbox => drainEvents thread turns inbox home
  | .passFlush turns inbox => passFlush thread turns inbox home

variable {thread : PubSubThread} {home middle after : PubSubHome} {io : Nat} {visited : List Nat}

/-- A thread that something is owed to is listed once, any other is not; one that is set `apart`
is owed something and is not listed.
-/
def Listed (home : PubSubHome) (io : Nat) (apart : Bool) : Prop :=
  (apart → home.owed io) ∧ home.dirty.count io = (home.owed io && !apart).toNat

theorem Listed.mem_iff (held : home.Listed io false) : io ∈ home.dirty ↔ home.owed io := by
  rw [← count_pos_iff, held.2]
  cases home.owed io <;> simp

def Pending (home : PubSubHome) : Prop :=
  home.dirty ≠ [] ∨ home.localEvents ≠ [] → home.passPending = true

/-- What `home` has listed or set apart stays so in `after`, but for the threads visited. -/
structure Keeps (visited : List Nat) (home after : PubSubHome) : Prop where
  listed : ∀ io ∉ visited, ∀ apart, home.Listed io apart → after.Listed io apart
  crossed : after.crossed = home.crossed
  pending : home.Pending → after.Pending

/-- What two calls keep, both keep. -/
theorem Keeps.trans (early : Keeps visited home middle) (late : Keeps visited middle after)
    : Keeps visited home after where
  listed io unvisited apart held :=
    late.listed io unvisited apart (early.listed io unvisited apart held)
  crossed := late.crossed.trans early.crossed
  pending held := late.pending (early.pending held)

/-- Steps that keep the lists keep them together.
Witness: induction over the elements.
-/
theorem Keeps.foldl {α : Type} {step : PubSubHome → α → PubSubHome} {list : List α}
    (each : ∀ x ∈ list, ∀ home, Keeps visited home (step home x)) (home : PubSubHome)
    : Keeps visited home (list.foldl step home) := by
  induction list generalizing home with
  | nil => exact ⟨fun _ _ _ held => held, rfl, id⟩
  | cons x rest ih =>
    exact (each x mem_cons_self home).trans
      (ih (fun y member => each y (mem_cons_of_mem _ member)) (step home x))

/-- Filling an outbox lists its thread where it has to be listed. -/
theorem keeps_filled (io : Nat) (dirty : after.dirty = (home.outboxFor io).dirty)
    (filled : after.owed io) (others : ∀ other ≠ io, after.owed other = home.owed other)
    (crossed : after.crossed = home.crossed) (pending : after.passPending)
    : Keeps visited home after where
  listed other _ apart held := by
    obtain ⟨owed, count⟩ := held
    unfold Listed
    rw [dirty, outboxFor]
    by_cases same : other = io
    · cases before : home.owed other <;> cases apart <;> simp_all
    · rw [others other same]
      refine ⟨owed, ?_⟩
      split <;> simp [count, Ne.symm same]
  crossed
  pending _ _ := pending

theorem keeps_queueDelivery (item : PubSubDelivery)
    : Keeps visited home (home.queueDelivery io item) :=
  keeps_filled io rfl (by simp [owed, queueDelivery])
    (fun other different => by simp [owed, queueDelivery, outboxFor, different]) rfl rfl

theorem keeps_queueResult (result : PubSubResult)
    : Keeps visited home (home.queueResult io result) :=
  keeps_filled io rfl (by simp [owed, queueResult])
    (fun other different => by simp [owed, queueResult, outboxFor, different]) rfl rfl

theorem keeps_post (target : Nat) (event : PubSubEvent)
    : Keeps visited home (home.post thread target event) := by
  unfold post
  split
  · exact ⟨fun _ _ _ held => held, rfl, fun _ _ => rfl⟩
  · exact ⟨fun _ _ _ held => held, rfl, id⟩

variable (items : List PubSubDelivery)

/-- Item by item: it is handed over here, dropped, or queued. -/
theorem keeps_deliverBatch
    : Keeps visited home (home.deliverBatch thread items) := by
  refine Keeps.foldl (fun item _ home => ?_) home
  unfold deliverItem
  split
  · exact ⟨fun _ _ _ held => held, rfl, id⟩
  · split
    · exact ⟨fun _ _ _ held => held, rfl, id⟩
    · exact ⟨(keeps_queueDelivery item).listed, rfl, fun _ _ => rfl⟩

theorem keeps_homePublish (request : PublishRequest) (reply : Bool)
    : Keeps visited home (home.homePublish thread request reply) := by
  cases reply with
  | false => exact Keeps.foldl (fun _ _ _ => keeps_queueDelivery _) home
  | true =>
    exact (Keeps.foldl (fun _ _ _ => keeps_queueDelivery _) home).trans (keeps_queueResult _)

theorem deliverBatch_results (home : PubSubHome)
    : (home.deliverBatch thread items).results = home.results := by
  induction items generalizing home with
  | nil => rfl
  | cons item rest ih =>
    refine (ih _).trans ?_
    unfold deliverItem
    split
    · rfl
    · split <;> rfl

theorem sweepDeliveries_results (home : PubSubHome) (io : Nat)
    : (home.sweepDeliveries thread io).results = home.results := by
  unfold sweepDeliveries
  dsimp only
  split
  · rfl
  · split
    · exact deliverBatch_results _ home
    · rfl

theorem keeps_sweepDeliveries (member : io ∈ visited)
    : Keeps visited home (home.sweepDeliveries thread io) := by
  have cleared (home : PubSubHome) (other : Nat) (unvisited : other ∉ visited) (apart : Bool)
      (held : home.Listed other apart)
      : { home with deliveries := Function.update home.deliveries io [] }.Listed other apart := by
    have different : other ≠ io := fun same => unvisited (same ▸ member)
    simpa [Listed, owed, different] using held
  unfold sweepDeliveries
  dsimp only
  split
  · exact ⟨fun _ _ _ held => held, rfl, id⟩
  · split
    · exact (keeps_deliverBatch _).trans ⟨cleared _, rfl, id⟩
    · exact ⟨cleared home, rfl, id⟩

/-- A thread that is visited while set apart stays apart for its replies only. -/
theorem sweepDeliveries_listed (held : home.Listed io true)
    : (home.sweepDeliveries thread io).Listed io !(home.results io).isEmpty := by
  have cleared {after : PubSubHome} (results : after.results = home.results)
      (held : after.Listed io true)
      : { after with deliveries := Function.update after.deliveries io [] }.Listed io
        !(home.results io).isEmpty := by
    have count : after.dirty.count io = 0 := by simpa using held.2
    simp [Listed, owed, results, count]
  unfold sweepDeliveries
  dsimp only
  split
  · rename_i idle
    have owing := held.1 rfl
    simp only [owed, idle, Bool.not_true, Bool.false_or] at owing
    rwa [owing]
  · split
    · exact cleared (deliverBatch_results _ home)
        ((keeps_deliverBatch _).listed io not_mem_nil true held)
    · exact cleared rfl held

theorem sweptDeliveries_results (list : List Nat) (home : PubSubHome)
    : (list.foldl (sweepDeliveries thread) home).results = home.results := by
  induction list generalizing home with
  | nil => rfl
  | cons io rest ih => exact (ih _).trans (sweepDeliveries_results home io)

variable {list : List Nat}

/-- The first pass leaves a thread it visits apart for its replies only.
Witness: induction over the visits; those of other threads keep what is set apart.
-/
theorem sweptDeliveries_listed (nodup : list.Nodup) (member : io ∈ list)
    (held : home.Listed io true)
    : (list.foldl (sweepDeliveries thread) home).Listed io !(home.results io).isEmpty := by
  induction list generalizing home with
  | nil => cases member
  | cons target rest ih =>
    obtain ⟨fresh, nodup⟩ := nodup_cons.mp nodup
    rcases mem_cons.mp member with rfl | beyond
    · exact (Keeps.foldl (fun _ member _ => keeps_sweepDeliveries member) _).listed io fresh _
        (sweepDeliveries_listed held)
    · have different : io ∉ [target] := fun same => fresh (mem_singleton.mp same ▸ beyond)
      have kept : (home.sweepDeliveries thread target).Listed io true :=
        (keeps_sweepDeliveries (mem_singleton_self _)).listed io different true held
      exact sweepDeliveries_results home target ▸ ih nodup beyond kept

-- What the first pass leaves in the outboxes it visits

theorem deliverBatch_idle_iff (home : PubSubHome) (different : io ≠ thread.id)
    : (home.deliverBatch thread items).deliveries io = []
      ↔ home.deliveries io = [] ∧ forwards thread io home.clock items = false := by
  induction items generalizing home with
  | nil => simp [deliverBatch, forwards]
  | cons item rest ih =>
    change ((deliverItem thread home item).deliverBatch thread rest).deliveries io = [] ↔ _
    have clock : (deliverItem thread home item).clock = home.clock + 1 := by
      unfold deliverItem
      split
      · rfl
      · split <;> rfl
    rw [ih, clock, forwards, Bool.or_eq_false_iff, ← and_assoc]
    refine and_congr_left fun _ => ?_
    unfold deliverItem
    cases live : thread.liveIo home.clock item.conn with
    | none => simp
    | some target =>
      by_cases same : target = io
      · simp [same, different, queueDelivery]
      · by_cases own : target = thread.id
        · simp [own, Ne.symm different]
        · simp [own, same, Ne.symm same, queueDelivery, outboxFor]

/-- The visit of another thread empties its outbox and changes no other and no time. -/
theorem sweepDeliveries_other (different : io ≠ thread.id) (home : PubSubHome)
    : (home.sweepDeliveries thread io).deliveries = Function.update home.deliveries io []
      ∧ (home.sweepDeliveries thread io).clock = home.clock := by
  by_cases idle : home.deliveries io = []
  · rw [sweepDeliveries, if_pos (by simp [idle]), ← idle, Function.update_eq_self]
    exact ⟨rfl, rfl⟩
  · simp [sweepDeliveries, idle, different]

/-- The visit of the own outbox empties it and forwards what has moved. -/
theorem sweepDeliveries_own (home : PubSubHome)
    : (home.sweepDeliveries thread thread.id).deliveries
      = Function.update (home.deliverBatch thread (home.deliveries thread.id)).deliveries
          thread.id [] := by
  by_cases idle : home.deliveries thread.id = []
  · have same : home.deliverBatch thread (home.deliveries thread.id) = home := by rw [idle]; rfl
    rw [sweepDeliveries, if_pos (by simp [idle]), same, ← idle, Function.update_eq_self]
  · simp [sweepDeliveries, idle]

theorem sweptDeliveries_own (own : thread.id ∉ list → home.deliveries thread.id = [])
    : (list.foldl (sweepDeliveries thread) home).deliveries thread.id = [] := by
  induction list generalizing home with
  | nil => exact own not_mem_nil
  | cons target rest ih =>
    refine ih fun outside => ?_
    by_cases here : target = thread.id
    · rw [here, sweepDeliveries_own, Function.update_self]
    · rw [(sweepDeliveries_other here home).1, Function.update_of_ne (Ne.symm here)]
      exact own (by simp [Ne.symm here, outside])

/-- Visits of other outboxes put into an outbox what is forwarded there.
Witness: induction over the visits; behind its own visit the own outbox is empty.
-/
theorem sweptDeliveries_unvisited (different : io ≠ thread.id) (unvisited : io ∉ list)
    (own : thread.id ∉ list → home.deliveries thread.id = [])
    : (list.foldl (sweepDeliveries thread) home).deliveries io = []
      ↔ home.deliveries io = []
        ∧ forwards thread io home.clock (home.deliveries thread.id) = false := by
  induction list generalizing home with
  | nil => simp [own not_mem_nil, forwards]
  | cons target rest ih =>
    rw [mem_cons, not_or] at unvisited
    obtain ⟨apart, unvisited⟩ := unvisited
    by_cases here : target = thread.id
    · have emptied : (home.sweepDeliveries thread target).deliveries thread.id = [] := by
        rw [here, sweepDeliveries_own, Function.update_self]
      rw [foldl_cons, ih unvisited fun _ => emptied, emptied, here, sweepDeliveries_own,
        Function.update_of_ne different, deliverBatch_idle_iff _ _ different]
      simp [forwards]
    · obtain ⟨deliveries, clock⟩ := sweepDeliveries_other here home
      rw [foldl_cons, ih unvisited, deliveries, clock, Function.update_of_ne apart,
        Function.update_of_ne (Ne.symm here)]
      rw [deliveries, Function.update_of_ne (Ne.symm here)]
      exact fun outside => own (by simp [Ne.symm here, outside])

/-- The first pass leaves a delivery in an outbox it visits exactly if the outbox is visited before
the own one, which forwards something there.
Witness: induction over the visits.
-/
theorem sweptDeliveries_idle_iff (nodup : list.Nodup) (member : io ∈ list)
    (different : io ≠ thread.id) (own : thread.id ∉ list → home.deliveries thread.id = [])
    : (list.foldl (sweepDeliveries thread) home).deliveries io = []
      ↔ ¬(io ∈ list.takeWhile (· ≠ thread.id)
        ∧ forwards thread io home.clock (home.deliveries thread.id)) := by
  induction list generalizing home with
  | nil => cases member
  | cons target rest ih =>
    obtain ⟨fresh, nodup⟩ := nodup_cons.mp nodup
    by_cases here : target = thread.id
    · have beyond : io ∈ rest :=
        (mem_cons.mp member).resolve_left fun same => different (same ▸ here)
      have emptied : (home.sweepDeliveries thread target).deliveries thread.id = [] := by
        rw [here, sweepDeliveries_own, Function.update_self]
      rw [foldl_cons, ih nodup beyond fun _ => emptied, emptied]
      simp [here, forwards]
    · obtain ⟨deliveries, clock⟩ := sweepDeliveries_other here home
      have kept : (home.sweepDeliveries thread target).deliveries thread.id
          = home.deliveries thread.id := by
        rw [deliveries, Function.update_of_ne (Ne.symm here)]
      have own (outside : thread.id ∉ rest) : (home.sweepDeliveries thread target).deliveries
          thread.id = [] := kept ▸ own (by simp [Ne.symm here, outside])
      rw [foldl_cons]
      rcases mem_cons.mp member with rfl | beyond
      · rw [sweptDeliveries_unvisited different fresh own, kept, clock, deliveries]
        simp [here]
      · have apart : io ≠ target := fun same => fresh (same ▸ beyond)
        rw [ih nodup beyond own, kept, clock]
        simp [here, apart]

/-- Without a crossing every thread is listed as it should be, those `ahead` of the second pass set
apart while they have replies and no delivery; a crossing has left a thread apart for good.
-/
structure Sound (ahead : List Nat) (home : PubSubHome) : Prop where
  kept : home.crossed = false → ahead.Nodup
    ∧ (∀ io, home.Listed io (decide (io ∈ ahead) && !(home.results io).isEmpty))
    ∧ ∀ io ∈ ahead, home.results io ≠ [] → home.deliveries io = []
  lost : home.crossed = true
    → ∃ io, home.Listed io true ∧ (io ∈ ahead → home.deliveries io ≠ [])
  pending : home.Pending

theorem Sound.keeps (sound : home.Sound []) (keeps : Keeps [] home after) : after.Sound [] where
  kept uncrossed := by
    refine ⟨.nil, fun io => ?_, by simp⟩
    exact keeps.listed io not_mem_nil _ ((sound.kept (keeps.crossed ▸ uncrossed)).2.1 io)
  lost crossed := by
    obtain ⟨io, held, -⟩ := sound.lost (keeps.crossed ▸ crossed)
    exact ⟨io, keeps.listed io not_mem_nil _ held, by simp⟩
  pending := keeps.pending sound.pending

/-- The second pass at a thread: what is left of its outbox is a delivery beside the replies. -/
theorem Sound.sweepResults {rest : List Nat} (sound : home.Sound (io :: rest))
    : (home.sweepResults thread io).Sound rest := by
  have cleared : Sound rest { home with results := Function.update home.results io [] } := by
    refine ⟨fun uncrossed => ?_, fun crossed => ?_, sound.pending⟩
    · obtain ⟨nodup, listed, idle⟩ := sound.kept uncrossed
      refine ⟨nodup.of_cons, fun other => ?_, fun other member waiting => ?_⟩
      · by_cases same : other = io
        · subst same
          have here := listed other
          cases empty : (home.results other).isEmpty <;> simp_all [Listed, owed]
        · simpa [Listed, owed, same] using listed other
      · have same : other ≠ io := fun same => (nodup_cons.mp nodup).1 (same ▸ member)
        exact idle other (mem_cons_of_mem _ member) (by simpa [same] using waiting)
    · obtain ⟨other, held, left⟩ := sound.lost crossed
      refine ⟨other, ?_, fun member => left (mem_cons_of_mem _ member)⟩
      by_cases same : other = io
      · subst same
        have here := left mem_cons_self
        simp_all [Listed, owed]
      · simpa [Listed, owed, same] using held
  by_cases idle : home.results io = []
  · have same : { home with results := Function.update home.results io [] } = home := by
      rw [← idle, Function.update_eq_self]
    rw [PubSubHome.sweepResults, if_pos (by simp [idle])]
    exact same ▸ cleared
  · rw [PubSubHome.sweepResults, if_neg (by simpa using idle)]
    split
    · exact { cleared with }
    · exact { cleared with }

/-- By induction over the threads the second pass visits. -/
theorem Sound.sweptResults (sound : home.Sound list)
    : (list.foldl (PubSubHome.sweepResults thread) home).Sound [] := by
  induction list generalizing home with
  | nil => exact sound
  | cons io rest ih => exact ih sound.sweepResults

section

variable (sound : home.Sound [])

include sound

/-- A flush keeps the lists unless it crosses, and never lists again what it has left out. -/
theorem Sound.flush : (home.flushOutboxes thread).Sound [] := by
  refine Sound.sweptResults ?_
  set start := { home with dirty := [], crossed := home.crossed || home.crosses thread } with starts
  have swept : Keeps home.dirty start (home.dirty.foldl (sweepDeliveries thread) start) :=
    Keeps.foldl (fun _ member _ => keeps_sweepDeliveries member) _
  have visited (uncrossed : home.crossed = false)
      : home.dirty.Nodup ∧ (thread.id ∉ home.dirty → start.deliveries thread.id = [])
        ∧ ∀ io ∈ home.dirty, start.Listed io true := by
    have listed (io : Nat) : home.Listed io false := by
      exact (sound.kept uncrossed).2.1 io
    refine ⟨nodup_iff_count_le_one.mpr fun io => (listed io).2 ▸ Bool.toNat_le _, ?_, ?_⟩
    · intro outside
      have settled := mt (listed thread.id).mem_iff.mpr outside
      simp_all [owed]
    · exact fun io member => ⟨fun _ => (listed io).mem_iff.mp member, by simp [starts]⟩
  refine ⟨fun uncrossed => ?_, fun crossed => ?_, swept.pending ?_⟩
  · rw [swept.crossed, Bool.or_eq_false_iff] at uncrossed
    obtain ⟨nodup, own, apart⟩ := visited uncrossed.1
    rw [sweptDeliveries_results]
    refine ⟨nodup, fun io => ?_, fun io member waiting => ?_⟩
    · by_cases member : io ∈ home.dirty
      · rw [decide_eq_true member]
        exact sweptDeliveries_listed nodup member (apart io member)
      · have listed : home.Listed io false := (sound.kept uncrossed.1).2.1 io
        have settled : home.owed io = false := Bool.eq_false_iff.mpr (mt listed.mem_iff.mpr member)
        rw [decide_eq_false member]
        refine swept.listed io member false ⟨nofun, ?_⟩
        simp_all [owed]
    · by_cases here : io = thread.id
      · exact here ▸ sweptDeliveries_own own
      · refine (sweptDeliveries_idle_iff nodup member here own).mpr ?_
        rintro ⟨before, forwarded⟩
        have quiet := any_eq_false.mp uncrossed.2 io before
        simp_all
  · rw [swept.crossed] at crossed
    cases before : home.crossed with
    | true =>
      obtain ⟨io, ⟨owing, count⟩, -⟩ := sound.lost before
      have absent : io ∉ home.dirty := count_eq_zero.mp (by simpa using count)
      exact ⟨io, swept.listed io absent true ⟨owing, by simp [starts]⟩, fun member =>
        absurd member absent⟩
    | false =>
      obtain ⟨nodup, own, apart⟩ := visited before
      have crosses : home.crosses thread = true := by simpa [starts, before] using crossed
      obtain ⟨io, ahead, forwarded⟩ := any_eq_true.mp crosses
      obtain ⟨waiting, forwarded⟩ := Bool.and_eq_true_iff.mp forwarded
      have member := takeWhile_prefix _ |>.subset ahead
      have here : io ≠ thread.id := by simpa using mem_takeWhile_imp ahead
      refine ⟨io, waiting ▸ sweptDeliveries_listed nodup member (apart io member), fun _ => ?_⟩
      exact mt (sweptDeliveries_idle_iff nodup member here own).mp (not_not.mpr ⟨ahead, forwarded⟩)
  · exact fun waiting => sound.pending (.inr (waiting.resolve_left (· rfl)))

/-- By the kind of the event. -/
theorem Sound.handleEvent (event : PubSubEvent)
    : (home.handleEvent thread event).Sound [] := by
  cases event with
  | publishRequest request => exact sound.keeps (keeps_homePublish request true)
  | notificationRequest request coordinator onward =>
    have published : (home.homePublish thread request false).Sound [] :=
      sound.keeps (keeps_homePublish request false)
    exact published.flush.keeps (keeps_post coordinator onward)
  | deliveryBatch items replies =>
    have batch : Keeps [] home (home.deliverBatch thread items) := keeps_deliverBatch items
    exact sound.keeps { batch with }
  | quiet index posts =>
    have indexed : Keeps [] home { home with index } := ⟨fun _ _ _ held => held, rfl, id⟩
    exact sound.keeps (indexed.trans (Keeps.foldl (fun _ _ _ => keeps_post _ _) _))

/-- By induction over the turns. -/
theorem Sound.drainEvents {turns : Nat} {events : List PubSubEvent}
    (ended : drainEvents thread turns events home = some after) : after.Sound [] := by
  induction turns generalizing events home with
  | zero => cases ended
  | succ turns ih =>
    cases events with
    | cons event rest => exact ih (sound.handleEvent event) ended
    | nil =>
      unfold PubSubHome.drainEvents at ended
      split at ended
      · exact some.inj ended ▸ sound
      · have taken : Sound [] { home with localEvents := [] } :=
          ⟨sound.kept, sound.lost, fun waiting => sound.pending (waiting.imp_right (absurd rfl))⟩
        exact ih taken ended

theorem Sound.passRounds {turns rounds : Nat} {inbox : Nat → List PubSubEvent}
    (ended : passRounds thread turns inbox rounds home = some after) : after.Sound [] := by
  induction rounds generalizing home with
  | zero => exact some.inj ended ▸ sound
  | succ rounds ih =>
    obtain ⟨drained, first, ended⟩ := bind_eq_some_iff.mp ended
    have settled : drained.Sound [] := by
      split at first
      · exact some.inj first ▸ sound
      · exact sound.drainEvents first
    split at ended
    · exact some.inj ended ▸ settled
    · dsimp only at ended
      split at ended
      · exact some.inj ended ▸ settled.flush
      · exact ih settled.flush ended

end

/-- What the calls are to keep: something is owed to a thread exactly when it is listed once, and
the pass is pending while something is owed or the local queue is not empty.
-/
structure Tidy (home : PubSubHome) : Prop where
  listed : ∀ io, home.owed io ↔ home.dirty.count io = 1
  pending : (∃ io, home.owed io) ∨ home.localEvents ≠ [] → home.passPending

/-- Something stays in an outbox that no flush will visit. -/
def Stranded (home : PubSubHome) : Prop :=
  ∃ io, home.owed io ∧ (io ∉ home.dirty ∨ home.passPending = false)

/-- After any calls the outboxes are listed as they should be, and nothing is stranded, exactly if
no flush so far started in a state that crosses.
Witness: every call keeps `Sound`; a thread set apart refutes the lists.
-/
theorem tidy_iff_not_crossed (thread : PubSubThread) (index : PubSubIndex) {calls : List PubSubCall}
    (ran : run (step thread) { index := index } calls = some home)
    : home.Tidy ∧ ¬home.Stranded ↔ home.crossed = false := by
  have start : Sound [] { index := index } :=
    ⟨fun _ => ⟨.nil, fun _ => by simp [Listed, owed], by simp⟩, nofun, by simp [Pending]⟩
  have sound : home.Sound [] := by
    refine run_invariant (fun home call next sound stepped => ?_) start ran
    cases call with
    | handle event => exact some.inj stepped ▸ sound.handleEvent event
    | post target event => exact some.inj stepped ▸ sound.keeps (keeps_post target event)
    | drain turns inbox => exact sound.drainEvents stepped
    | passFlush turns inbox =>
      obtain ⟨after, ended, rfl⟩ := map_eq_some_iff.mp stepped
      have settled := sound.passRounds ended
      exact { settled with pending := fun waiting => by simpa using waiting.symm }
  constructor
  · intro tidy
    by_contra crossed
    obtain ⟨io, ⟨owing, count⟩, -⟩ := sound.lost (Bool.not_eq_false _ ▸ crossed)
    have listed := (tidy.1.listed io).mp (owing rfl)
    simp [count] at listed
  · intro uncrossed
    have listed (io : Nat) : home.Listed io false := by exact (sound.kept uncrossed).2.1 io
    have pending {io : Nat} (owing : home.owed io) : home.passPending :=
      sound.pending (.inl (ne_nil_of_mem ((listed io).mem_iff.mpr owing)))
    refine ⟨⟨fun io => ?_, ?_⟩, ?_⟩
    · rw [(listed io).2]
      cases home.owed io <;> simp
    · rintro (⟨io, owing⟩ | waiting)
      · exact pending owing
      · exact sound.pending (.inr waiting)
    · rintro ⟨io, owing, lost⟩
      simp [pending owing, (listed io).mem_iff.mpr owing] at lost

-- Thread 1 holds a subscription whose client has moved to thread 0, the publisher's own.

def movedThread : PubSubThread where
  id := 1
  globMatch _ _ := false
  liveIo _ _ := some 0

def movedIndex : PubSubIndex where
  channels channel := if channel = [7] then [⟨1, 5⟩] else []
  shardChannels _ := []
  patterns := []

def publishOn (channel : List UInt8) : PubSubCall :=
  .handle (.publishRequest ⟨0, 3, 0, ⟨channel, [], false⟩⟩)

/-- The subscriber's thread is visited first, so the delivery is forwarded before its new thread
is visited.
-/
theorem publish_to_moved_tidy
    : ∃ home, run (step movedThread) { index := movedIndex }
        [publishOn [7], .passFlush 1 fun _ => []] = some home
      ∧ home.Tidy ∧ ¬home.Stranded := by
  have ran : run (step movedThread) { index := movedIndex }
      [publishOn [7], .passFlush 1 fun _ => []] = some _ := rfl
  exact ⟨_, ran, (tidy_iff_not_crossed movedThread movedIndex ran).mpr rfl⟩

/-- A publication nobody hears lists thread 0 for its reply first: the delivery forwarded there
after its visit is in no list, and no pass is pending.
-/
theorem publish_to_moved_stranded
    : ∃ home, run (step movedThread) { index := movedIndex }
        [publishOn [8], publishOn [7], .passFlush 1 fun _ => []] = some home
      ∧ ¬home.Tidy ∧ home.Stranded := by
  refine ⟨_, rfl, fun tidy => ?_, 0, rfl, .inl not_mem_nil⟩
  have listed := (tidy.listed 0).mp rfl
  cases listed

end PubSubHome

end Thredis.Core
