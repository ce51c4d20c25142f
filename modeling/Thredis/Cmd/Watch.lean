import Thredis.Lib.Runs

/-! WATCH between the owners. Each owner keeps, for its keys, the watchers and the reservations of
units that have not been decided; a fragment of a unit asks there before it registers a watch,
validates one or writes, and a refusal sends its task to the retry queue.
-/

namespace Thredis.Cmd

inductive Decision where
  | undecided
  | committed
  | aborted
  deriving DecidableEq, Repr

/-- `Shard::WatchEntry`; a negative deadline is none. -/
structure WatchEntry where
  client : Nat
  generation : Nat
  expireAtMs : Int
  deriving DecidableEq, Repr

/-- `Shard::WatchReservation`; the words it points to are those of the unit `token`. -/
structure WatchReservation where
  token : Nat
  mutates : Bool
  blocking : Bool
  deriving DecidableEq, Repr

/-- The watch words of a connection, and the WATCH, EXEC or UNWATCH whose barrier holds its
parser.
-/
structure WatchClient where
  watchGeneration : Nat
  watchDirty : Bool
  barrier : Option Nat
  deriving DecidableEq, Repr

/-- Transactions and their WATCH and UNWATCH units, cross-shard groups, plain commands, and
the scatter commands a transaction lowers, which run inside its tasks. UNWATCH, DISCARD and
close are one kind.
-/
inductive UnitKind where
  | execute
  | watchAdd
  | unwatch
  | group
  | plain
  | lowered
  deriving DecidableEq, Repr

/-- One stage of a command: the owners that join it, the keys it writes, whether every key is
checked before the first is prepared, and the lowered command whose words its records carry.
-/
structure Wave (κ : Type) where
  shards : List Nat
  keys : List κ
  checkedFirst : Bool
  child : Option Nat

structure WatchUnit (κ : Type) where
  kind : UnitKind
  client : Nat
  generation : Nat
  watched : List κ
  writeKeys : List κ
  waves : List (Wave κ)

/-- What the owners change of a unit: the shards past the watch phase and past each wave, and
its words.
-/
structure UnitProgress where
  watchDone : List Nat := []
  done : List (Nat × Nat) := []
  watchFailed : Bool := false
  decision : Decision := .undecided
  deriving DecidableEq, Repr

/-- Ghost of a watch entry: `changers` are the units that had an undecided write of the key when
the entry was made or wrote the key since.
-/
structure Registration (κ : Type) where
  key : κ
  client : Nat
  generation : Nat
  changers : List Nat
  deriving DecidableEq, Repr

/-- The registries of all owners with the units and connections they refer to. A key has one
owner, so the owners' maps are one list each. `writes`, every write with its unit, and
`registered` are ghosts.
-/
structure WatchServer (κ : Type) where
  watchers : List (κ × WatchEntry)
  reservations : List (κ × WatchReservation)
  clients : Nat → WatchClient
  units : List (WatchUnit κ)
  progress : Nat → UnitProgress
  writes : List (κ × Nat)
  registered : List (Registration κ)

/-- What one pass of an owner meets outside the registries: its clock, the deadlines of the
watched keys and whether an allocation for a key succeeds.
-/
structure WatchPass (κ : Type) where
  nowMs : Int
  deadline : κ → Int
  granted : κ → Bool

namespace WatchServer

variable {κ : Type} [DecidableEq κ]

def init : WatchServer κ where
  watchers := []
  reservations := []
  clients _ := { watchGeneration := 0, watchDirty := false, barrier := none }
  units := []
  progress _ := {}
  writes := []
  registered := []

variable (server : WatchServer κ)

def has (decision : Decision) (token : Nat) : Bool :=
  (server.progress token).decision = decision

def advance (token : Nat) (change : UnitProgress → UnitProgress)
    : WatchServer κ :=
  { server with progress := Function.update server.progress token (change (server.progress token)) }

def decideUnit (decision : Decision) (token : Nat) : WatchServer κ :=
  if server.has .undecided token then server.advance token ({ · with decision }) else server

def setClient (client : Nat) (words : WatchClient) : WatchServer κ :=
  { server with clients := Function.update server.clients client words }

def setWatchDirty (client : Nat) : WatchServer κ :=
  server.setClient client { server.clients client with watchDirty := true }

variable (key : κ)

def signal : WatchServer κ :=
  { server with
    clients := fun client =>
      if server.watchers.any fun entry =>
          entry.1 = key && entry.2.client = client
            && entry.2.generation = (server.clients client).watchGeneration then
        { server.clients client with watchDirty := true }
      else
        server.clients client }

def blocked : Bool :=
  server.reservations.any fun entry =>
    entry.1 = key && entry.2.blocking && server.has .undecided entry.2.token

def reserves (token : Nat) : Bool :=
  server.reservations.any fun entry => entry.1 = key && entry.2.token = token

def watchFinalizeReservation : WatchServer κ × Bool :=
  let next := { server with
    reservations := server.reservations.filter fun entry =>
      entry.1 ≠ key || server.has .undecided entry.2.token }
  let dirty := server.reservations.any fun entry =>
    entry.1 = key && entry.2.mutates && server.has .committed entry.2.token
  (if dirty then next.signal key else next, !server.blocked key)

def watchPruneStale : WatchServer κ :=
  { server with
    watchers := server.watchers.filter fun entry =>
      entry.1 ≠ key || entry.2.generation = (server.clients entry.2.client).watchGeneration }

/-- Goes on after a call that found the key ready. -/
def proceed (asked : WatchServer κ × Bool) (act : WatchServer κ → WatchServer κ × Bool)
    : WatchServer κ × Bool :=
  match asked with
  | (next, true) => act next
  | refused => refused

variable (pass : WatchPass κ)

def watchAdd (client generation : Nat) (server : WatchServer κ) (key : κ)
    : WatchServer κ × Bool :=
  proceed (server.watchFinalizeReservation key) fun next =>
    let next := next.watchPruneStale key
    if next.watchers.any fun entry =>
        entry.1 = key && entry.2.client = client && entry.2.generation = generation then
      (next, true)
    else if pass.granted key then
      let entry := { client, generation, expireAtMs := pass.deadline key }
      let changers := (next.writes.filter fun write =>
        write.1 = key && next.has .undecided write.2).map (·.2)
      ({ next with
        watchers := next.watchers ++ [(key, entry)]
        registered := next.registered ++ [{ key, client, generation, changers }] }, true)
    else
      (next, false)

def watchRemove (client generation : Nat) (server : WatchServer κ) (key : κ)
    : WatchServer κ :=
  { server with
    watchers := server.watchers.filter fun entry =>
      ¬ (entry.1 = key ∧ entry.2.client = client ∧ entry.2.generation = generation) }

def markMutates (token : Nat) (mutates : Bool)
    : WatchServer κ :=
  { server with
    reservations := server.reservations.map fun entry =>
      if entry.1 = key ∧ entry.2.token = token then
        (key, { entry.2 with mutates := entry.2.mutates || mutates })
      else
        entry }

def watchAppendReservation (server : WatchServer κ) (key : κ) (reservation : WatchReservation)
    : WatchServer κ :=
  if pass.granted key then
    { server with reservations := server.reservations ++ [(key, reservation)] }
  else
    server.decideUnit .aborted reservation.token

/-- The claims that make an EXEC validating the key give up. -/
def conflicts (token : Nat) (mutates : Bool) : Bool :=
  server.reservations.any fun entry =>
    entry.1 = key && entry.2.token ≠ token && (entry.2.mutates || (entry.2.blocking && mutates))

def elapsed (server : WatchServer κ) (key : κ) (client generation : Nat)
    : Bool :=
  server.watchers.any fun entry =>
    entry.1 = key && entry.2.client = client && entry.2.generation = generation
      && 0 ≤ entry.2.expireAtMs && entry.2.expireAtMs ≤ pass.nowMs

/-- The blocking claim of an EXEC whose client is clean. -/
def claim (token : Nat) (unit : WatchUnit κ) (server : WatchServer κ) (key : κ) : WatchServer κ :=
  let client := server.clients unit.client
  if client.watchGeneration ≠ unit.generation ∨ client.watchDirty then server
  else
    server.watchAppendReservation pass key
      { token, mutates := unit.writeKeys.contains key, blocking := true }

def watchValidateAndReserve (token : Nat) (unit : WatchUnit κ) (server : WatchServer κ) (key : κ)
    : WatchServer κ :=
  let mutates := unit.writeKeys.contains key
  if server.reserves key token then
    server.markMutates key token mutates
  else
    let next := (server.watchFinalizeReservation key).1
    let refused :=
      next.conflicts key token mutates || next.elapsed pass key unit.client unit.generation
    (if refused then next.setWatchDirty unit.client else next).claim pass token unit key

/-- `token` is none for a null pointer. -/
def watchWriteReady (token : Option Nat) (server : WatchServer κ) (key : κ)
    : WatchServer κ × Bool :=
  if token.any (server.reserves key) then (server, true) else server.watchFinalizeReservation key

def watchReserveWrite (token : Nat) (server : WatchServer κ) (key : κ)
    : WatchServer κ :=
  if server.reserves key token then server.markMutates key token true
  else if server.watchers.any (·.1 = key) then
    server.watchAppendReservation pass key { token, mutates := true, blocking := false }
  else server

def watchWriteCommitted : WatchServer κ :=
  (proceed (server.watchFinalizeReservation key) fun next =>
    ((next.watchPruneStale key).signal key, true)).1

/-- Visits keys until one sends the task to the retry queue, and names that key. -/
def visit (act : WatchServer κ → κ → WatchServer κ × Bool)
    : List κ → WatchServer κ → WatchServer κ × Option κ
  | [], server => (server, none)
  | key :: rest, server =>
    match act server key with
    | (next, true) => visit act rest next
    | (next, false) => (next, some key)

section Tasks

variable (shardOf : κ → Nat) (pass : WatchPass κ)

/-- The watch phase of one owner. A validation never waits; a dirty client fails the
transaction.
-/
def executeWatchPhase (token : Nat) (unit : WatchUnit κ) (shard : Nat) (server : WatchServer κ)
    : WatchServer κ × Option κ :=
  let keys := unit.watched.filter (shardOf · = shard)
  match unit.kind with
  | .watchAdd => visit (watchAdd pass unit.client unit.generation) keys server
  | .execute =>
    let next := keys.foldl (watchValidateAndReserve pass token unit) server
    let next :=
      if (next.clients unit.client).watchDirty then
        (next.decideUnit .aborted token).advance token ({ · with watchFailed := true })
      else
        next
    (keys.foldl (watchRemove unit.client unit.generation) next, none)
  | _ =>
    visit (fun server key => proceed (server.watchWriteReady none key) fun next =>
      (next.watchRemove unit.client unit.generation key, true)) keys server

def noteWrite (token : Nat) (server : WatchServer κ) (key : κ) : WatchServer κ :=
  { server with
    writes := server.writes ++ [(key, token)]
    registered := server.registered.map fun watch =>
      if watch.key = key then { watch with changers := watch.changers ++ [token] } else watch }

/-- `prepare_write_key`: the gate, the reservation under `owner`'s words, the install. -/
def prepareWriteKey (token owner : Nat) (server : WatchServer κ) (key : κ)
    : WatchServer κ × Bool :=
  proceed (server.watchWriteReady (some token) key) fun next =>
    ((next.watchReserveWrite pass owner key).noteWrite owner key, true)

/-- One owner's part of a wave. A plain command has no token and reports its writes at once. -/
def executeWave (token : Nat) (unit : WatchUnit κ) (wave : Wave κ) (shard : Nat)
    (server : WatchServer κ) : WatchServer κ × Option κ :=
  let keys := wave.keys.filter (shardOf · = shard)
  if unit.kind = .plain then
    match visit (watchWriteReady none) keys server with
    | (next, none) =>
      (keys.foldl (fun server key => (server.noteWrite token key).watchWriteCommitted key) next,
        none)
    | refused => refused
  else
    match if wave.checkedFirst then visit (watchWriteReady (some token)) keys server
        else (server, none) with
    | (next, none) => visit (prepareWriteKey pass token (wave.child.getD token)) keys next
    | refused => refused

end Tasks

end WatchServer

namespace WatchUnit

variable {κ : Type}

def shards (shardOf : κ → Nat) (unit : WatchUnit κ) : List Nat :=
  unit.waves.flatMap (·.shards) ++ unit.watched.map shardOf

def hasWatchPhase (unit : WatchUnit κ) : Bool :=
  unit.kind = .execute || unit.kind = .watchAdd || unit.kind = .unwatch

def watchPhaseDone (shardOf : κ → Nat) (unit : WatchUnit κ) (progress : UnitProgress) : Bool :=
  !unit.hasWatchPhase || (unit.shards shardOf).all (progress.watchDone.contains ·)

def waveFinished (progress : UnitProgress) (wave : Wave κ × Nat) : Bool :=
  wave.1.shards.all fun shard => progress.done.contains (wave.2, shard)

def nextWave (unit : WatchUnit κ) (progress : UnitProgress) (shard : Nat)
    : Option (Wave κ × Nat) :=
  unit.waves.zipIdx.find? fun wave => wave.1.shards.contains shard && !waveFinished progress wave

def joined (shardOf : κ → Nat) (unit : WatchUnit κ) (progress : UnitProgress) : Bool :=
  unit.watchPhaseDone shardOf progress
    && (progress.watchFailed || unit.waves.zipIdx.all (waveFinished progress))

end WatchUnit

namespace WatchServer

variable {κ : Type} [DecidableEq κ]

def complete (token : Nat) (change : UnitProgress → UnitProgress)
    : WatchServer κ × Option κ → WatchServer κ × Option κ
  | (next, none) => (next.advance token change, none)
  | refused => refused

/-- One attempt at a unit's task on one owner: the watch phase, then wave after wave. A key in
the answer is one whose reservation sent the task back; an owner waiting at a barrier has
nothing to attempt.
-/
def attempt (shardOf : κ → Nat) (pass : WatchPass κ) (server : WatchServer κ) (token shard : Nat)
    : Option (WatchServer κ × Option κ) := do
  let unit ← server.units[token]?
  let progress := server.progress token
  if unit.watchPhaseDone shardOf progress then
    let (wave, index) ← unit.nextWave progress shard
    guard ((index, shard) ∉ progress.done ∧ !progress.watchFailed)
    return complete token
      (fun progress => { progress with done := (index, shard) :: progress.done })
      -- An aborted transaction still joins the barriers of its commands.
      (if progress.decision = .undecided then
        server.executeWave shardOf pass token unit wave shard
      else (server, none))
  else
    guard (shard ∈ unit.shards shardOf ∧ shard ∉ progress.watchDone)
    return complete token
      (fun progress => { progress with watchDone := shard :: progress.watchDone })
      (server.executeWatchPhase shardOf pass token unit shard)

/-- Publishes a unit; a transaction or WATCH arms its connection's barrier. -/
def dispatch (server : WatchServer κ) (unit : WatchUnit κ) : WatchServer κ :=
  let client := server.clients unit.client
  { server with
    units := server.units ++ [{ unit with generation := client.watchGeneration }]
    progress := Function.update server.progress server.units.length {}
    clients :=
      if unit.hasWatchPhase then
        Function.update server.clients unit.client
          { client with barrier := some server.units.length }
      else
        server.clients }

end WatchServer

/-- The steps of connections and owners. `serve` is a change made without asking: a blocking pop
served on the owner, or an eviction.
-/
inductive WatchEvent (κ : Type) where
  | reset (client : Nat)
  | dispatch (unit : WatchUnit κ)
  | task (token shard : Nat) (pass : WatchPass κ)
  | abort (token : Nat)
  | decide (token : Nat)
  | finalize (key : κ)
  | serve (token : Nat) (key : κ)
  | retire (token : Nat)

namespace WatchServer

variable {κ : Type} [DecidableEq κ]

/-- Bumps a connection's generation and clears its dirty word. -/
def resetWatch (server : WatchServer κ) (client : Nat) : WatchServer κ :=
  server.setClient client
    { watchGeneration := (server.clients client).watchGeneration + 1,
      watchDirty := false, barrier := none }

/-- The one decision of a unit, which its lowered commands share. -/
def decideAll (server : WatchServer κ) (token : Nat) (unit : WatchUnit κ) : WatchServer κ :=
  let decision := if server.has .aborted token then .aborted else .committed
  (unit.waves.filterMap (·.child)).foldl (decideUnit · decision) (server.decideUnit decision token)

def step (shardOf : κ → Nat) (server : WatchServer κ)
    : WatchEvent κ → Option (WatchServer κ)
  | .reset client =>
    if (server.clients client).barrier = none then some (server.resetWatch client) else none
  | .dispatch unit =>
    if (unit.hasWatchPhase → (server.clients unit.client).barrier = none)
        ∧ (unit.kind = .lowered → unit.waves.isEmpty)
        ∧ ∀ wave ∈ unit.waves, ∀ child ∈ wave.child,
          server.units[child]?.any (·.kind = .lowered)
          ∧ ∀ older ∈ server.units, ∀ other ∈ older.waves, other.child ≠ some child then
      some (server.dispatch unit)
    else
      none
  | .task token shard pass => (server.attempt shardOf pass token shard).map (·.1)
  | .abort token =>
    if server.units[token]?.any fun unit =>
        unit.kind = .execute || unit.kind = .group || unit.kind = .lowered then
      some (server.decideUnit .aborted token)
    else
      none
  | .decide token =>
    server.units[token]?.bind fun unit =>
      if unit.kind ≠ .lowered ∧ unit.joined shardOf (server.progress token) then
        some (server.decideAll token unit)
      else
        none
  | .finalize key => some (server.watchFinalizeReservation key).1
  | .serve token key =>
    if server.units[token]?.any (·.kind = .plain) then some (server.noteWrite token key)
    else none
  | .retire token =>
    server.units[token]?.bind fun unit =>
      let client := server.clients unit.client
      if client.barrier = some token ∧ ¬ server.has .undecided token
          ∧ unit.joined shardOf (server.progress token) then
        some (if unit.kind = .watchAdd then
          server.setClient unit.client { client with barrier := none }
        else server.resetWatch unit.client)
      else
        none

end WatchServer

end Thredis.Cmd
