import Thredis.Lib.Runs

/-! Changed ACL permissions and the subscriptions they deny. A change is published and then
broadcast, and a thread that handles the event closes those of its clients whose subscriptions the
change denies. A subscription that is still pending at its homes, and a connection between two
threads, are not looked at.
-/

namespace Thredis.Core
open Thredis.Lib Function List

inductive PubSubKind where
  | channel
  | pattern
  | shard
  deriving DecidableEq

abbrev PubSubItem := PubSubKind × List UInt8

/-- An `AclSelector` on the three commands (`acl_command_allowed`) and on a name, taken literally or
not (`acl_channel_allowed`).
-/
structure AclSelector where
  commands : PubSubKind → Bool
  allChannels : Bool
  channel : List UInt8 → Bool → Bool

/-- `AclPerm`: its own rules and then its selectors. -/
abbrev AclPerm := List AclSelector

def aclChannelAllowedAny (perm : AclPerm) (item : PubSubItem) : Bool :=
  perm.any (fun selector => selector.allChannels || selector.channel item.2 (item.1 == .pattern))

/-- One selector has to allow the command and every name. -/
def aclPubsubChannelEntry (perm : AclPerm) (kind : PubSubKind) (names : List (List UInt8))
    : Bool :=
  perm.any (fun selector => selector.commands kind
    && (selector.allChannels || names.all (selector.channel · (kind == .pattern))))

inductive AclEvent where
  | permissionsChanged (user : Nat) (perm : AclPerm)
  | userDeleted (user : Nat)

/-- Whether `pubsub_handle_acl_event` closes a client of a user with these subscriptions. -/
def AclEvent.violated (user : Nat) (held : List PubSubItem) : AclEvent → Bool
  | .permissionsChanged changed perm =>
    changed == user && held.any (fun item => !aclChannelAllowedAny perm item)
  | .userDeleted deleted => deleted == user

/-- A connection, its subscriptions and the items of a pending one. While it is `moving` no thread
has it among its clients, and `io` is its destination.
-/
structure AclConn (threads : Nat) where
  io : Fin threads
  user : Nat
  held : List PubSubItem := []
  pending : Option (List PubSubItem) := none
  moving : Bool := false
  closing : Bool := false

/-- The users' permissions, the connections, and the events that a thread has yet to handle, those
yet to be posted included.
-/
structure AclServer (ι : Type) (threads : Nat) where
  perms : Nat → AclPerm
  deleted : Nat → Bool := fun _ => false
  conns : ι → AclConn threads
  queue : Fin threads → List AclEvent := fun _ => []

/-- ACL LOAD is a sequence of changed and deleted users; `checked` is `acl_active()` as the thread
reads it.
-/
inductive AclStep (ι : Type) (threads : Nat) where
  | setUser (user : Nat) (perm : AclPerm)
  | delUser (user : Nat)
  | tombstone (user : Nat)
  | subscribe (id : ι) (kind : PubSubKind) (names : List (List UInt8)) (checked : Bool)
  | finish (id : ι)
  | extract (id : ι) (destination : Fin threads)
  | install (id : ι)
  | handle (io : Fin threads)

namespace AclServer

variable {ι : Type} {threads : Nat}

def init (perms : Nat → AclPerm) (io : ι → Fin threads) (user : ι → Nat) : AclServer ι threads :=
  { perms := perms, conns := fun id => { io := io id, user := user id } }

variable (server : AclServer ι threads)

def broadcast (event : AclEvent) : AclServer ι threads :=
  { server with queue := fun io => server.queue io ++ [event] }

def put [DecidableEq ι] (server : AclServer ι threads) (id : ι) (conn : AclConn threads)
    : AclServer ι threads :=
  { server with conns := update server.conns id conn }

def step [DecidableEq ι] (server : AclServer ι threads)
    : AclStep ι threads → Option (AclServer ι threads)
  | .setUser user perm =>
    if server.deleted user then none
    else some ({ server with perms := update server.perms user perm }.broadcast
      (.permissionsChanged user perm))
  | .delUser user =>
    some { server.broadcast (.userDeleted user) with deleted := update server.deleted user true }
  | .tombstone user =>
    if server.deleted user then some { server with perms := update server.perms user [] } else none
  | .subscribe id kind names checked =>
    let conn := server.conns id
    if !conn.closing && !conn.moving && conn.pending.isNone
        && (!checked || aclPubsubChannelEntry (server.perms conn.user) kind names) then
      some (server.put id { conn with pending := some (names.map (kind, ·)) })
    else none
  | .finish id =>
    let conn := server.conns id
    conn.pending.map (fun items =>
      server.put id { conn with held := conn.held ++ items, pending := none })
  | .extract id destination =>
    let conn := server.conns id
    if !conn.closing && !conn.moving && conn.pending.isNone then
      some (server.put id { conn with io := destination, moving := true })
    else none
  | .install id =>
    let conn := server.conns id
    if conn.moving then some (server.put id { conn with moving := false }) else none
  | .handle io =>
    -- `self_->clients()` has no moving connection, and `local` no pending item
    match server.queue io with
    | [] => none
    | event :: rest =>
      some { server with
        queue := update server.queue io rest
        conns := fun id =>
          let conn := server.conns id
          if conn.io == io && !conn.moving && event.violated conn.user conn.held then
            { conn with closing := true }
          else conn }

def permitted (user : Nat) (item : PubSubItem) : Bool :=
  !server.deleted user && aclChannelAllowedAny (server.perms user) item

def Quiet : Prop :=
  (∀ io, server.queue io = [])
  ∧ ∀ id, (server.conns id).pending = none ∧ (server.conns id).moving = false

/-- Each subscription is permitted, or an event that closes the connection is yet to be handled. -/
def Watched (conn : AclConn threads) : Prop :=
  ∀ item ∈ conn.held, server.permitted conn.user item = true
    ∨ ∃ event ∈ server.queue conn.io, event.violated conn.user [item] = true

/-- What the code does not check again: what a subscription adds when it is finished, and what a
connection brings when it is installed, is permitted or still to be closed.
-/
def Rechecked : AclStep ι threads → Prop
  | .finish id => ∀ items, (server.conns id).pending = some items
    → server.Watched { server.conns id with held := items }
  | .install id => server.Watched (server.conns id)
  | _ => True

def Inv : Prop :=
  ∀ id, (server.conns id).closing = false → (server.conns id).moving = false
    → server.Watched (server.conns id)

theorem violated_of_item {event : AclEvent} {user : Nat} {held : List PubSubItem}
    {item : PubSubItem} (member : item ∈ held) (violated : event.violated user [item] = true)
    : event.violated user held = true := by
  cases event with
  | permissionsChanged changed perm =>
    simp only [AclEvent.violated, Bool.and_eq_true, any_cons, any_nil, Bool.or_false]
      at violated ⊢
    exact ⟨violated.1, any_eq_true.mpr ⟨item, member, violated.2⟩⟩
  | userDeleted deleted => exact violated

variable {server next : AclServer ι threads} {conn : AclConn threads} {user : Nat}

section

variable (watched : server.Watched conn)

include watched

/-- A broadcast that changes what one user is permitted closes what it takes away. -/
theorem Watched.broadcast (user : Nat) {changed : AclServer ι threads} {event : AclEvent}
    (queues : changed.queue = (server.broadcast event).queue) (others : ∀ item, conn.user ≠ user
      → changed.permitted conn.user item = server.permitted conn.user item)
    (own : ∀ item, changed.permitted user item = true ∨ event.violated user [item] = true)
    : changed.Watched conn := by
  intro item held
  rw [queues]
  by_cases same : conn.user = user
  · rw [same]
    exact (own item).imp_right fun violated =>
      ⟨event, mem_append_right _ (mem_singleton_self _), violated⟩
  · rw [others item same]
    exact (watched item held).imp_right fun ⟨queued, member, violated⟩ =>
      ⟨queued, mem_append_left _ member, violated⟩

theorem Watched.tombstone (deleted : server.deleted user = true)
    : { server with perms := update server.perms user [] }.Watched conn := by
  intro item held
  refine (watched item held).imp_left fun before => ?_
  have other : conn.user ≠ user := by
    rintro rfl
    simp [permitted, deleted] at before
  simpa [permitted, update_of_ne other] using before

/-- A client that the first event of its thread spares is watched by the others. -/
theorem Watched.handle {event : AclEvent} {rest : List AclEvent}
    (first : server.queue conn.io = event :: rest)
    (spared : event.violated conn.user conn.held ≠ true)
    : { server with queue := update server.queue conn.io rest }.Watched conn := by
  intro item held
  refine (watched item held).imp_right fun ⟨queued, member, violated⟩ => ?_
  rw [first] at member
  rcases mem_cons.mp member with rfl | later
  · exact absurd (violated_of_item held violated) spared
  · exact ⟨queued, by simpa using later, violated⟩

end

variable [DecidableEq ι]

theorem Inv.put (inv : server.Inv) {id : ι}
    (watched : conn.closing = false → conn.moving = false → server.Watched conn)
    : (server.put id conn).Inv := by
  intro other
  have found : (server.put id conn).conns other
      = if other = id then conn else server.conns other := update_apply ..
  rw [found]
  split
  · exact watched
  · exact inv other

theorem Inv.step (inv : server.Inv) {event : AclStep ι threads} (rechecked : server.Rechecked event)
    (stepped : server.step event = some next) : next.Inv := by
  cases event with
  | setUser user perm =>
    obtain ⟨known, rfl⟩ := guard_passed stepped
    intro id opened settled
    refine (inv id opened settled).broadcast user rfl (fun item other => ?_) fun item => ?_
    · simp [permitted, AclServer.broadcast, update_of_ne other]
    · cases allowed : aclChannelAllowedAny perm item with
      | true => exact .inl (by simp [permitted, AclServer.broadcast, known, allowed])
      | false => exact .inr (by simp [AclEvent.violated, allowed])
  | delUser user =>
    cases stepped
    intro id opened settled
    refine (inv id opened settled).broadcast user rfl (fun item other => ?_) fun item => ?_
    · simp [permitted, AclServer.broadcast, update_of_ne other]
    · exact .inr (by simp [AclEvent.violated])
  | tombstone user =>
    obtain ⟨deleted, rfl⟩ := guard_taken stepped
    exact fun id opened settled => (inv id opened settled).tombstone deleted
  | subscribe id kind names checked =>
    obtain ⟨-, rfl⟩ := guard_taken stepped
    exact inv.put (inv id)
  | finish id =>
    obtain ⟨items, pending, rfl⟩ := Option.map_eq_some_iff.mp stepped
    exact inv.put fun opened settled item member => (mem_append.mp member).elim
      (inv id opened settled item) (rechecked items pending item)
  | extract id destination =>
    obtain ⟨-, rfl⟩ := guard_taken stepped
    exact inv.put nofun
  | install id =>
    obtain ⟨-, rfl⟩ := guard_taken stepped
    exact inv.put fun _ _ => rechecked
  | handle io =>
    rw [AclServer.step] at stepped
    split at stepped
    · cases stepped
    · rename_i event rest first
      cases stepped
      intro id
      dsimp only
      split
      · exact nofun
      · rename_i spared
        intro opened settled
        have watched := inv id opened settled
        by_cases here : (server.conns id).io = io
        · subst here
          exact watched.handle first (by simpa [settled] using spared)
        · simpa [Watched, permitted, update_of_ne here] using watched

/-- From connections without subscriptions on, through every run in which each finished subscription
and each installed connection is still permitted what it has or still to be closed: when all has
been handled, no open connection holds a subscription that its user's permissions deny, nor any if
the user was deleted.

Witness: induction over the steps; an event leaves the queue of a thread when it has closed the
clients it is about.
-/
theorem revoked_closed (perms : Nat → AclPerm) (io : ι → Fin threads) (user : ι → Nat)
    {steps : List (AclStep ι threads)} {final : AclServer ι threads}
    (rechecked : EachStep step Rechecked (init perms io user) steps)
    (ran : run step (init perms io user) steps = some final) (quiet : final.Quiet) {id : ι}
    (opened : (final.conns id).closing = false)
    : ∀ item ∈ (final.conns id).held, final.permitted (final.conns id).user item = true := by
  have start : (init perms io user).Inv := fun _ _ _ => nofun
  have inv := run_invariant_of_eachStep (fun _ _ _ inv rechecked stepped =>
    inv.step rechecked stepped) start rechecked ran
  intro item held
  refine (inv id opened (quiet.2 id).2 item held).resolve_right ?_
  rw [quiet.1]
  simp

def channels (all : Bool) : AclPerm := [⟨fun _ => true, all, fun _ _ => false⟩]

/-- Two users with all channels, each with a connection on a thread of its own. -/
def twoUsers : AclServer Bool 2 :=
  init (fun _ => channels true) (fun id => if id then 1 else 0) Bool.toNat

/-- Both users subscribe; the second's connection is on its way to the first's thread when the first
user loses all channels.
-/
def revocation : List (AclStep Bool 2) :=
  [.subscribe false .channel [[120]] true, .finish false, .subscribe true .channel [[120]] true,
    .finish true, .extract true 0, .setUser 0 (channels false), .handle 0, .handle 1,
    .install true]

/-- The first connection is closed; the second stays open and permitted. -/
theorem revoked_closed_first
    : ∃ final, run step twoUsers revocation = some final
      ∧ (final.conns false).closing = true ∧ (final.conns true).closing = false
      ∧ (final.conns true).held = [(.channel, [120])]
      ∧ ∀ item ∈ (final.conns true).held, final.permitted (final.conns true).user item = true := by
  have rechecked : EachStep step Rechecked twoUsers revocation :=
    ⟨trivial, fun _ _ _ _ => .inl rfl, trivial, fun _ _ _ _ => .inl rfl, trivial, trivial, trivial,
      trivial, fun _ _ => .inl rfl, trivial⟩
  refine ⟨_, rfl, rfl, rfl, rfl, revoked_closed _ _ _ rechecked rfl ⟨?_, ?_⟩ rfl⟩
  · exact Fin.forall_fin_two.mpr ⟨rfl, rfl⟩
  · exact Bool.forall_bool.mpr ⟨⟨rfl, rfl⟩, rfl, rfl⟩

/-- The subscription is pending at the other thread when the permissions of its user change, and is
finished when both threads have handled the event.
-/
theorem pending_outlives_revocation
    : ∃ final : AclServer Unit 2, run step (init (fun _ => channels true) (fun _ => 0) fun _ => 0)
        [.subscribe () .channel [[120]] true, .setUser 0 (channels false), .handle 0, .handle 1,
          .finish ()] = some final
      ∧ final.Quiet ∧ (final.conns ()).closing = false
      ∧ ∃ item ∈ (final.conns ()).held, final.permitted (final.conns ()).user item = false :=
  ⟨_, rfl, ⟨fun | 0 => rfl | 1 => rfl, fun _ => ⟨rfl, rfl⟩⟩, rfl, _, .head _, rfl⟩

end AclServer

end Thredis.Core
