import Thredis.Lib.Runs

/-! LMPOP and ZMPOP over keys of several shards. The owners of the keys answer probes, the first key
that a probe did not find missing or empty decides, and its owner pops it in a second hop; the other
connections go on writing between any two of these steps.
-/

namespace Thredis.Cmd

open Thredis.Lib List Option

inductive PopKind where
  | list
  | zset
  | other
  deriving DecidableEq

/-- An element of a list, or a member of a sorted set and the bits of its score. -/
structure PopEntry where
  member : List UInt8
  score : BitVec 64 := 0
  deriving DecidableEq

/-- A value with its entries from the left, or by rank. -/
structure PopValue where
  kind : PopKind
  entries : List PopEntry
  deriving DecidableEq

abbrev PopSpace := List UInt8 → Option PopValue

inductive PopReply where
  | null
  | wrongType
  | popped (key : List UInt8) (entries : List PopEntry)
  deriving DecidableEq

/-- What a pop makes of a key: it passes over an `idle` one, missing or empty. -/
inductive Readiness where
  | idle
  | wrong
  | ready
  deriving DecidableEq

/-- An LMPOP or ZMPOP as parsed; `atomicPop` where atomic mode or a script guard is on. -/
structure PopRequest where
  wanted : PopKind
  keys : List (List UInt8)
  fromEnd : Bool
  count : Nat
  atomicPop : Bool
  positive : 0 < count

namespace PopRequest

variable (request : PopRequest)

def readiness : Option PopValue → Readiness
  | none => .idle
  | some value =>
    if value.kind ≠ request.wanted then .wrong
    else if value.entries.isEmpty then .idle
    else .ready

def pop (space : PopSpace) (key : List UInt8) : PopReply × PopSpace :=
  let entries := ((space key).map PopValue.entries).getD []
  let ordered := if request.fromEnd then entries.reverse else entries
  let rest := ordered.drop request.count
  let left := if request.fromEnd then rest.reverse else rest
  (.popped key (ordered.take request.count),
    Function.update space key (if rest.isEmpty then none else some ⟨request.wanted, left⟩))

def execute (space : PopSpace) : PopReply × PopSpace :=
  match request.keys.find? fun key => request.readiness (space key) ≠ .idle with
  | none => (.null, space)
  | some key =>
    if request.readiness (space key) = .wrong then (.wrongType, space)
    else request.pop space key

end PopRequest

/-- The image a probe leaves. The ghost `stale` says that the key's readiness is not, or no longer,
what the probe found.
-/
structure PopProbe where
  key : List UInt8
  answered : Bool := false
  found : Option PopValue := none
  stale : Bool := false

/-- A command under way or replied to. The ghosts: the keyspaces since its dispatch, the one its
entries were popped from, and whether its reply rests on a stale probe or a missed pop.
-/
structure PopCommand where
  request : PopRequest
  probes : List PopProbe
  popping : Bool := false
  retries : Nat := 0
  reply : Option PopReply := none
  window : List PopSpace
  taken : Option PopSpace := none
  disturbed : Bool := false

def kMaxPopRetries : Nat := 8

namespace PopCommand

def unanswered (request : PopRequest) : List PopProbe := request.keys.map fun key => { key := key }

def dispatch (request : PopRequest) (space : PopSpace) : PopCommand where
  request := request
  probes := unanswered request
  window := [space]

variable (command : PopCommand)

def idle (probe : PopProbe) : Bool :=
  decide (command.request.readiness probe.found = .idle)

def staleSkip : Bool :=
  (command.probes.takeWhile command.idle).any PopProbe.stale

def selected : Option PopProbe :=
  command.probes.find? fun probe => !command.idle probe

def observe (space after : PopSpace) : PopCommand :=
  if command.reply.isSome then command
  else
    { command with
      probes := command.probes.map fun probe => { probe with
        stale := probe.stale || decide (command.request.readiness (space probe.key)
          ≠ command.request.readiness (after probe.key)) }
      window := after :: command.window }

def answer (space : PopSpace) (position : Nat) (key : List UInt8) (found : Option PopValue)
    : PopCommand :=
  let stale := decide (command.request.readiness found ≠ command.request.readiness (space key))
  { command with probes := command.probes.set position ⟨key, true, found, stale⟩ }

def finishPhase1 : PopCommand :=
  match command.selected with
  | none => { command with reply := some .null, disturbed := command.staleSkip }
  | some probe =>
    if command.request.readiness probe.found = .wrong then
      { command with reply := some .wrongType, disturbed := command.staleSkip || probe.stale }
    else { command with popping := true }

/-- The completion of a pop hop that found its key idle: `publish_pop_retry`, or null. -/
def missed : PopCommand :=
  if command.request.atomicPop ∧ command.retries < kMaxPopRetries then
    { command with
      probes := unanswered command.request
      popping := false
      retries := command.retries + 1 }
  else { command with reply := some .null, disturbed := true }

def popHop (space : PopSpace) (key : List UInt8) : PopCommand × PopSpace :=
  let settled := { command with disturbed := command.staleSkip }
  match command.request.readiness (space key) with
  | .idle => (command.missed, space)
  | .wrong => ({ settled with reply := some .wrongType }, space)
  | .ready =>
    let popped := command.request.pop space key
    ({ settled with reply := some popped.1, taken := some space }, popped.2)

end PopCommand

structure PopSystem where
  space : PopSpace
  commands : Nat → Option PopCommand := fun _ => none

/-- `write` is anything another connection does to a key. In atomic mode a probe reads a snapshot:
what it finds is given.
-/
inductive PopEvent where
  | write (key : List UInt8) (value : Option PopValue)
  | dispatch (id : Nat) (request : PopRequest)
  | probe (id position : Nat) (found : Option PopValue)
  | finishPhase1 (id : Nat)
  | pop (id : Nat)

namespace PopSystem

variable (system : PopSystem)

def put (id : Nat) (command : PopCommand) : PopSystem :=
  { system with commands := Function.update system.commands id (some command) }

def move (after : PopSpace) : PopSystem where
  space := after
  commands id := (system.commands id).map fun command => command.observe system.space after

def flying (id : Nat) (popping : Bool) : Option PopCommand :=
  (system.commands id).filter fun command => command.reply.isNone && command.popping == popping

def step : PopEvent → Option PopSystem
  | .write key value => some (system.move (Function.update system.space key value))
  | .dispatch id request =>
    if (system.commands id).isSome then none
    else some (system.put id (.dispatch request system.space))
  | .probe id position found =>
    (system.flying id false).bind fun command =>
      (command.probes[position]?).bind fun probe =>
        if !probe.answered ∧ (command.request.atomicPop ∨ found = system.space probe.key) then
          some (system.put id (command.answer system.space position probe.key found))
        else none
  | .finishPhase1 id =>
    (system.flying id false).bind fun command =>
      if command.probes.all PopProbe.answered then some (system.put id command.finishPhase1)
      else none
  | .pop id =>
    (system.flying id true).bind fun command =>
      command.selected.map fun probe =>
        let popped := command.popHop system.space probe.key
        (system.move popped.2).put id popped.1

end PopSystem

namespace PopCommand

/-- The reply is that of the command executed at one instant since its dispatch, the instant of the
pop if it has entries.
-/
def Linearized (command : PopCommand) : Prop :=
  ∃ space ∈ command.window, command.reply = some (command.request.execute space).1
    ∧ ∀ taken ∈ command.taken, taken = space

variable {command : PopCommand} {space : PopSpace}

/-- While a command is under way, what its probes found is so, unless they are stale. -/
structure Tracks (space : PopSpace) (command : PopCommand) : Prop where
  here : space ∈ command.window
  untaken : command.taken = none
  keys : command.probes.map PopProbe.key = command.request.keys
  agrees : ∀ probe ∈ command.probes, probe.answered → probe.stale = false
    → command.request.readiness probe.found = command.request.readiness (space probe.key)
  answered : command.popping → ∀ probe ∈ command.probes, probe.answered

structure Sound (space : PopSpace) (command : PopCommand) : Prop where
  flying : command.reply = none → command.Tracks space
  settled : command.reply ≠ none → command.disturbed = false → command.Linearized

theorem Tracks.sound (tracks : command.Tracks space) (flying : command.reply = none)
    : command.Sound space :=
  ⟨fun _ => tracks, absurd flying⟩

theorem Linearized.sound (replied : command.reply ≠ none)
    (settled : command.disturbed = false → command.Linearized) : command.Sound space :=
  ⟨fun flying => absurd flying replied, fun _ => settled⟩

/-- A reply stands; a probe whose key changes goes stale. -/
theorem Sound.observe (sound : command.Sound space) (after : PopSpace)
    : (command.observe space after).Sound after := by
  unfold PopCommand.observe
  split
  · rename_i replied
    exact Linearized.sound (isSome_iff_ne_none.mp replied)
      (sound.settled (isSome_iff_ne_none.mp replied))
  · rename_i unreplied
    have flying : command.reply = none := by simpa using unreplied
    have tracks := sound.flying flying
    refine Tracks.sound ⟨mem_cons_self, tracks.untaken, ?_, ?_, ?_⟩ flying
    · rw [List.map_map]
      exact tracks.keys
    · intro probe member answered fresh
      obtain ⟨before, held, rfl⟩ := mem_map.mp member
      simp only [Bool.or_eq_false_iff, decide_eq_false_iff_not, not_not] at fresh
      exact (tracks.agrees before held answered fresh.1).trans fresh.2
    · intro popping probe member
      obtain ⟨before, held, rfl⟩ := mem_map.mp member
      exact tracks.answered popping before held

theorem Tracks.answer (tracks : command.Tracks space) (probing : command.popping = false)
    {position : Nat} {probe : PopProbe} (there : command.probes[position]? = some probe)
    (found : Option PopValue) : (command.answer space position probe.key found).Tracks space := by
  refine ⟨tracks.here, tracks.untaken, ?_, fun other member answered fresh => ?_, ?_⟩
  · obtain ⟨within, same⟩ := List.getElem?_eq_some_iff.mp there
    refine (ext_getElem? fun index => ?_).trans tracks.keys
    simp only [PopCommand.answer, getElem?_map, getElem?_set]
    split
    · rename_i here
      subst here
      simp [within, same]
    · rfl
  · rcases mem_or_eq_of_mem_set member with held | rfl
    · exact tracks.agrees other held answered fresh
    · simpa [PopCommand.answer] using fresh
  · intro popping
    exact absurd popping (by simp [PopCommand.answer, probing])

/-- The first key that is not idle now is the one the probes select, if it is not idle and those
before it are.
Witness: induction over the probes.
-/
theorem find?_map_key {idle : PopProbe → Bool} {now : List UInt8 → Bool} {probes : List PopProbe}
    (passed : ∀ probe ∈ probes.takeWhile idle, now probe.key = false)
    (decides : ∀ probe ∈ probes.find? fun probe => !idle probe, now probe.key)
    : (probes.map PopProbe.key).find? now
      = (probes.find? fun probe => !idle probe).map PopProbe.key := by
  induction probes with
  | nil => rfl
  | cons probe rest ih =>
    cases first : idle probe with
    | true =>
      simp only [takeWhile_cons, first, if_true, forall_mem_cons] at passed
      simp only [find?_cons, first] at decides ⊢
      simp only [map_cons, find?_cons, passed.1]
      exact ih passed.2 decides
    | false =>
      simp only [find?_cons, first] at decides ⊢
      simp [decides probe rfl]

variable (tracks : command.Tracks space)

include tracks

/-- Probes that are not stale select the key that an execution at this instant would. -/
theorem Tracks.find?_keys (answered : ∀ probe ∈ command.probes, probe.answered)
    (passed : command.staleSkip = false)
    (decides : ∀ probe ∈ command.selected, command.request.readiness (space probe.key) ≠ .idle)
    : command.request.keys.find? (fun key => command.request.readiness (space key) ≠ .idle)
      = command.selected.map PopProbe.key := by
  rw [← tracks.keys]
  refine find?_map_key (fun probe member => ?_) (fun probe chosen => ?_)
  · have held := (takeWhile_sublist _).subset member
    have fresh : probe.stale = false := by simpa using any_eq_false.mp passed probe member
    have found : command.request.readiness probe.found = .idle := by
      simpa [idle] using mem_takeWhile_imp member
    simp [← tracks.agrees probe held (answered probe held) fresh, found]
  · simpa using decides probe chosen

/-- The first key that is not idle decides, all before it being so. -/
theorem Tracks.finishPhase1 (flying : command.reply = none)
    (answered : ∀ probe ∈ command.probes, probe.answered)
    : command.finishPhase1.Sound space := by
  unfold PopCommand.finishPhase1
  split
  · rename_i none
    refine Linearized.sound nofun fun fresh => ⟨space, tracks.here, ?_, by simp [tracks.untaken]⟩
    have chosen := tracks.find?_keys answered fresh (by simp [none])
    simp only [PopRequest.execute, chosen, none, map_none]
  · rename_i probe found
    split
    · rename_i wrong
      refine Linearized.sound nofun fun fresh => ⟨space, tracks.here, ?_, by simp [tracks.untaken]⟩
      obtain ⟨passed, fresh⟩ := Bool.or_eq_false_iff.mp fresh
      have held := mem_of_find?_eq_some found
      have now := tracks.agrees probe held (answered probe held) fresh
      rw [wrong] at now
      have chosen := tracks.find?_keys answered passed (by simp [found, ← now])
      simp only [PopRequest.execute, chosen, found, map_some, ← now, if_true]
    · exact Tracks.sound { tracks with answered := fun _ => answered } flying

/-- A pop that finds its key ready takes its entries at this instant. -/
theorem Tracks.popHop (flying : command.reply = none) (popping : command.popping = true)
    {probe : PopProbe} (found : command.selected = some probe)
    : (command.popHop space probe.key).1.Sound (command.popHop space probe.key).2 := by
  have chosen (passed : command.staleSkip = false)
      (busy : command.request.readiness (space probe.key) ≠ .idle) :=
    tracks.find?_keys (tracks.answered popping) passed (by simpa [found] using busy)
  unfold PopCommand.popHop
  split
  · unfold missed
    split
    · refine Tracks.sound ⟨tracks.here, tracks.untaken, ?_, ?_, nofun⟩ flying
      · simp [unanswered, Function.comp_def]
      · intro probe member answered
        obtain ⟨key, -, rfl⟩ := mem_map.mp member
        cases answered
    · exact Linearized.sound nofun nofun
  · rename_i wrong
    refine Linearized.sound nofun fun fresh => ⟨space, tracks.here, ?_, by simp [tracks.untaken]⟩
    simp only [PopRequest.execute, chosen fresh (by simp [wrong]), found, map_some, wrong, if_true]
  · rename_i ready
    refine Linearized.sound nofun fun fresh => ⟨space, tracks.here, ?_, by simp⟩
    simp only [PopRequest.execute, chosen fresh (by simp [ready]), found, map_some, ready,
      reduceCtorEq, if_false]

end PopCommand

namespace PopSystem

variable {system next : PopSystem}

def Sound (system : PopSystem) : Prop :=
  ∀ id command, system.commands id = some command → command.Sound system.space

theorem Sound.put (sound : system.Sound) {id : Nat} {command : PopCommand}
    (fresh : command.Sound system.space) : (system.put id command).Sound := by
  intro other held there
  simp only [PopSystem.put, Function.update_apply] at there
  split at there
  · exact some.inj there ▸ fresh
  · exact sound other held there

theorem Sound.move (sound : system.Sound) (after : PopSpace) : (system.move after).Sound := by
  intro id command there
  obtain ⟨before, held, rfl⟩ := map_eq_some_iff.mp there
  exact (sound id before held).observe after

/-- By the events; a pop moves the keyspace under all commands. -/
theorem Sound.step {event : PopEvent} (sound : system.Sound)
    (stepped : system.step event = some next) : next.Sound := by
  have flying {id : Nat} {popping : Bool} {command : PopCommand}
      (there : system.flying id popping = some command)
      : command.Tracks system.space ∧ command.reply = none ∧ command.popping = popping := by
    obtain ⟨held, phase⟩ := filter_eq_some_iff.mp there
    simp only [Bool.and_eq_true, isNone_iff_eq_none, beq_iff_eq] at phase
    exact ⟨(sound id command held).flying phase.1, phase⟩
  cases event with
  | write key value => exact some.inj stepped ▸ sound.move _
  | dispatch id request =>
    obtain ⟨_, stepped⟩ := ite_none_left_eq_some.mp stepped
    refine some.inj stepped ▸ sound.put (PopCommand.Tracks.sound ?_ rfl)
    refine ⟨mem_cons_self, rfl, ?_, ?_, nofun⟩
    · simp [PopCommand.dispatch, PopCommand.unanswered, Function.comp_def]
    · intro probe member answered
      obtain ⟨key, -, rfl⟩ := mem_map.mp member
      cases answered
  | probe id position found =>
    obtain ⟨command, there, stepped⟩ := bind_eq_some_iff.mp stepped
    obtain ⟨probe, held, stepped⟩ := bind_eq_some_iff.mp stepped
    obtain ⟨tracks, unreplied, probing⟩ := flying there
    split at stepped
    · exact some.inj stepped ▸ sound.put ((tracks.answer probing held found).sound unreplied)
    · cases stepped
  | finishPhase1 id =>
    obtain ⟨command, there, stepped⟩ := bind_eq_some_iff.mp stepped
    obtain ⟨tracks, unreplied, -⟩ := flying there
    split at stepped
    · rename_i answered
      exact some.inj stepped ▸ sound.put (tracks.finishPhase1 unreplied (all_eq_true.mp answered))
    · cases stepped
  | pop id =>
    obtain ⟨command, there, stepped⟩ := bind_eq_some_iff.mp stepped
    obtain ⟨probe, selected, rfl⟩ := map_eq_some_iff.mp stepped
    obtain ⟨tracks, unreplied, popping⟩ := flying there
    exact (sound.move _).put (tracks.popHop unreplied popping selected)

/-- In every interleaving a reply is that of one atomic execution since the dispatch, unless it
rests on a probe whose key's readiness has changed or on a pop that missed for the last time.
Witness: every step keeps `Sound`.
-/
theorem replies_linearized (space : PopSpace) {events : List PopEvent} (id : Nat)
    {command : PopCommand} (ran : run step { space := space } events = some system)
    (there : system.commands id = some command) (replied : command.reply ≠ none)
    (settled : command.disturbed = false) : command.Linearized := by
  have start : Sound { space := space } := fun _ _ there => by cases there
  have sound := run_invariant (fun _ _ _ sound => sound.step) start ran
  exact (sound id command there).settled replied settled

-- Keys [0] and [1] hold one element each; another connection takes the one of [0] after its probe.

def twoLists (key : List UInt8) : Option PopValue :=
  if key = [0] ∨ key = [1] then some ⟨.list, [{ member := key }]⟩ else none

def popTwo (atomicPop : Bool) : PopRequest := ⟨.list, [[0], [1]], false, 1, atomicPop, by decide⟩

def emptiedPop (atomicPop : Bool) : List PopEvent :=
  [.dispatch 0 (popTwo atomicPop), .probe 0 0 (twoLists [0]), .probe 0 1 (twoLists [1]),
    .finishPhase1 0, .write [0] none, .pop 0]

/-- In atomic mode the missed pop is retried, and the second round pops the other key. -/
theorem emptied_pop_retried
    : ∃ system, run step { space := twoLists } (emptiedPop true
        ++ [.probe 0 0 none, .probe 0 1 (twoLists [1]), .finishPhase1 0, .pop 0]) = some system
      ∧ ∃ command, system.commands 0 = some command
      ∧ command.reply = some (.popped [1] [{ member := [1] }]) ∧ command.Linearized := by
  have ran : run step { space := twoLists } (emptiedPop true
      ++ [.probe 0 0 none, .probe 0 1 (twoLists [1]), .finishPhase1 0, .pop 0]) = some _ := rfl
  exact ⟨_, ran, _, rfl, rfl, replies_linearized twoLists 0 ran rfl nofun rfl⟩

/-- In the default mode it is answered null, although key [1] held its element all the time. -/
theorem emptied_pop_null
    : ∃ system, run step { space := twoLists } (emptiedPop false) = some system
      ∧ ∃ command, system.commands 0 = some command ∧ command.reply = some .null
      ∧ ¬command.Linearized := by
  refine ⟨_, rfl, _, rfl, rfl, ?_⟩
  rintro ⟨space, member, same, -⟩
  revert space
  decide

/-- A round of `popTwo` in which the element of [0] is taken before the pop, and put back after. -/
def emptiedRound : List PopEvent :=
  [.probe 0 0 (twoLists [0]), .probe 0 1 (twoLists [1]), .finishPhase1 0, .write [0] none, .pop 0,
    .write [0] (twoLists [0])]

/-- In atomic mode too, when the first round and every retry miss. -/
theorem last_retry_null
    : ∃ system, run step { space := twoLists } (.dispatch 0 (popTwo true)
        :: (replicate (1 + kMaxPopRetries) emptiedRound).flatten) = some system
      ∧ ∃ command, system.commands 0 = some command ∧ command.reply = some .null
      ∧ ¬command.Linearized := by
  refine ⟨_, rfl, _, rfl, rfl, ?_⟩
  rintro ⟨space, member, same, -⟩
  revert space
  decide

end PopSystem

end Thredis.Cmd
