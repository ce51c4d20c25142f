import Thredis.Lib.ListCounts

/-! Linear probing over a power-of-two table with tombstones: the probe walk, the placement
invariant that makes it complete, and what each single-slot update does to both.
-/

namespace Thredis.Lib
open List

universe u v

/-- One slot of an open-addressed table. A `dead` slot is a tombstone: it holds nothing and
does not stop a probe.
-/
inductive Slot (α : Type u) where
  | empty
  | dead
  | live (entry : α)
  deriving DecidableEq, Repr

def Slot.isLive {α : Type u} : Slot α → Bool
  | .live _ => true
  | _ => false

def Slot.isDead {α : Type u} : Slot α → Bool
  | .dead => true
  | _ => false

/-- How a probe walk ends: at an accepted entry, at the first empty slot together with the
first tombstone passed on the way, or with its probes used up.
-/
inductive Probe (α : Type u) where
  | hit (index : Nat) (entry : α)
  | vacant (index : Nat) (tomb : Option Nat)
  | exhausted
  deriving DecidableEq, Repr

def nextSlot (cap index : Nat) : Nat := (index + 1) &&& (cap - 1)

variable {α : Type u} {κ : Type v}

/-- The probe walk from slot `index`, with at most `fuel` probes. -/
def probe (accept : α → Bool) (slots : List (Slot α)) : Nat → Nat → Option Nat → Probe α
  | 0, _, _ => .exhausted
  | fuel + 1, index, tomb =>
    match slots[index]? with
    | some (.live entry) =>
      if accept entry then .hit index entry
      else probe accept slots fuel (nextSlot slots.length index) tomb
    | some .dead => probe accept slots fuel (nextSlot slots.length index) (tomb.or (some index))
    | _ => .vacant index tomb

def PowTwo (cap : Nat) : Prop := ∃ bits, cap = 2 ^ bits

variable {cap start d place index : Nat}

section

variable (pow : PowTwo cap)

include pow

theorem PowTwo.pos : 0 < cap := by
  obtain ⟨bits, rfl⟩ := pow
  exact Nat.two_pow_pos bits

theorem PowTwo.and_mask (n : Nat)
    : n &&& (cap - 1) = n % cap := by
  obtain ⟨bits, rfl⟩ := pow
  exact Nat.and_two_pow_sub_one_eq_mod n bits

theorem PowTwo.double : PowTwo (cap * 2) := by
  obtain ⟨bits, rfl⟩ := pow
  exact ⟨bits + 1, (Nat.pow_succ 2 bits).symm⟩

/-- A power of two above another is at least its double. -/
theorem PowTwo.double_le (bits : Nat) (above : 2 ^ bits < cap)
    : 2 ^ (bits + 1) ≤ cap := by
  obtain ⟨more, rfl⟩ := pow
  exact Nat.pow_le_pow_right (by omega) ((Nat.pow_lt_pow_iff_right (by omega)).mp above)

theorem PowTwo.half (above : 1 < cap)
    : PowTwo (cap / 2) ∧ cap = 2 * (cap / 2) := by
  obtain ⟨bits, rfl⟩ := pow
  cases bits with
  | zero => simp at above
  | succ bits =>
    have half : 2 ^ (bits + 1) / 2 = 2 ^ bits := by omega
    exact ⟨⟨bits, half⟩, by rw [half, Nat.pow_succ, Nat.mul_comm]⟩

/-- Stepping from the slot at distance `d` gives the slot at distance `d + 1`. -/
theorem PowTwo.nextSlot (start d : Nat)
    : nextSlot cap ((start + d) % cap) = (start + (d + 1)) % cap := by
  unfold Lib.nextSlot
  rw [pow.and_mask, Nat.mod_add_mod, Nat.add_assoc]

end

-- The walk over distances from its first slot

def slotAt (slots : List (Slot α)) (start d : Nat) : Option (Slot α) :=
  slots[(start + d) % slots.length]?

/-- The first `d` slots from `start` neither stop a probe nor satisfy it. -/
def Passed (accept : α → Bool) (slots : List (Slot α)) (start d : Nat) : Prop :=
  ∀ e < d, slotAt slots start e ≠ some .empty
    ∧ ∀ entry, slotAt slots start e = some (.live entry) → accept entry = false

/-- Slot `index` can be reached from `start` without crossing an empty slot. -/
def Reach (slots : List (Slot α)) (start index : Nat) : Prop :=
  ∃ d < slots.length, index = (start + d) % slots.length
    ∧ ∀ e < d, slotAt slots start e ≠ some .empty

/-- What the three outcomes of a walk say, for a walk that began `d` slots after `start`. -/
def ProbeSays (accept : α → Bool) (slots : List (Slot α)) (start reach : Nat)
    (tomb : Option Nat) : Probe α → Prop
  | .hit index entry => slots[index]? = some (.live entry) ∧ accept entry = true
  | .vacant index found =>
    slots[index]? = some .empty
    ∧ (∃ d < reach, index = (start + d) % slots.length ∧ Passed accept slots start d)
    ∧ ∀ place, found = some place → tomb = some place
        ∨ slots[place]? = some .dead
          ∧ ∃ d < reach, place = (start + d) % slots.length ∧ Passed accept slots start d
  | .exhausted => Passed accept slots start reach

variable {slots : List (Slot α)}

theorem slotAt_isSome (nonempty : 0 < slots.length) (start d : Nat)
    : ∃ slot, slotAt slots start d = some slot := by
  have bound : (start + d) % slots.length < slots.length := Nat.mod_lt _ nonempty
  exact ⟨slots[(start + d) % slots.length], by simp [slotAt]⟩

variable {accept : α → Bool}

theorem Passed.succ (passed : Passed accept slots start d)
    (full : slotAt slots start d ≠ some .empty)
    (refused : ∀ entry, slotAt slots start d = some (.live entry) → accept entry = false)
    : Passed accept slots start (d + 1) := by
  intro e below
  rcases Nat.lt_succ_iff_lt_or_eq.mp below with earlier | rfl
  · exact passed e earlier
  · exact ⟨full, refused⟩

/-- The walk from distance `d` says what its outcome promises.
Witness: induction over the probes left; each passed slot extends the walked prefix, and
the first tombstone is remembered once.
-/
theorem probe_says (pow : PowTwo slots.length)
    (start fuel d : Nat) (tomb : Option Nat) (passed : Passed accept slots start d)
    : ProbeSays accept slots start (d + fuel) tomb
        (probe accept slots fuel ((start + d) % slots.length) tomb) := by
  induction fuel generalizing d tomb with
  | zero => exact passed
  | succ fuel ih =>
    have onward := pow.nextSlot start d
    have widen : d + 1 + fuel = d + (fuel + 1) := by omega
    obtain ⟨slot, found⟩ := slotAt_isSome pow.pos start d
    have here : slots[(start + d) % slots.length]? = some slot := found
    cases slot with
    | empty =>
      simp only [probe, here]
      exact ⟨here, ⟨d, by omega, rfl, passed⟩, fun _ => .inl⟩
    | dead =>
      have step := ih (d + 1) (tomb.or (some ((start + d) % slots.length)))
        (passed.succ (by simp [found]) (by simp [found]))
      simp only [probe, here, onward]
      rw [widen] at step
      revert step
      cases probe accept slots fuel ((start + (d + 1)) % slots.length)
        (tomb.or (some ((start + d) % slots.length))) with
      | hit | exhausted => exact id
      | vacant index place =>
        refine fun step => ⟨step.1, step.2.1, fun p same => ?_⟩
        rcases step.2.2 p same with remembered | later
        · cases tomb with
          | some old => exact .inl remembered
          | none =>
            cases remembered
            exact .inr ⟨here, d, by omega, rfl, passed⟩
        · exact .inr later
    | live entry =>
      simp only [probe, here, onward]
      cases taken : accept entry with
      | true => exact ⟨here, taken⟩
      | false =>
        have step := ih (d + 1) tomb (passed.succ (by simp [found]) (by simp [found, taken]))
        simpa [widen] using step

variable {entry : α}

/-- A hit names an accepted entry of the table. -/
theorem probe_hit (fuel index : Nat) (tomb : Option Nat)
    (found : probe accept slots fuel index tomb = .hit place entry)
    : slots[place]? = some (.live entry) ∧ accept entry = true := by
  induction fuel generalizing index tomb with
  | zero => cases found
  | succ fuel ih =>
    simp only [probe] at found
    split at found
    · rename_i candidate here
      split at found
      · cases found
        exact ⟨here, by assumption⟩
      · exact ih _ _ found
    · exact ih _ _ found
    · cases found

/-- A complete walk that stopped at an empty slot has seen every entry placed behind its
first slot.
-/
theorem Passed.refuses_reachable (passed : Passed accept slots start d)
    (stopped : slotAt slots start d = some .empty) (reach : Reach slots start index)
    (held : slots[index]? = some (.live entry))
    : accept entry = false := by
  obtain ⟨e, -, rfl, full⟩ := reach
  have there : slotAt slots start e = some (.live entry) := held
  rcases Nat.lt_trichotomy e d with before | rfl | behind
  · exact (passed e before).2 entry there
  · simp [there] at stopped
  · exact absurd stopped (full d behind)

/-- Every slot lies less than one turn after any other. -/
theorem exists_distance (start : Nat) (inside : index < cap)
    : ∃ d < cap, index = (start + d) % cap := by
  have turn := Nat.mod_lt start (Nat.lt_of_le_of_lt (Nat.zero_le index) inside)
  have split := Nat.mod_add_div start cap
  rcases Nat.lt_or_ge index (start % cap) with before | after
  · refine ⟨index + cap - start % cap, by omega, ?_⟩
    have sum : start + (index + cap - start % cap) = index + cap * (start / cap + 1) := by
      rw [Nat.mul_add]; omega
    rw [sum, Nat.add_mul_mod_self_left, Nat.mod_eq_of_lt inside]
  · refine ⟨index - start % cap, by omega, ?_⟩
    have sum : start + (index - start % cap) = index + cap * (start / cap) := by omega
    rw [sum, Nat.add_mul_mod_self_left, Nat.mod_eq_of_lt inside]

/-- A walk over a whole turn leaves no slot out. -/
theorem Passed.all {slot : Slot α} (passed : Passed accept slots start d) (turn : slots.length ≤ d)
    (held : slots[index]? = some slot)
    : slot ≠ .empty ∧ ∀ entry, slot = .live entry → accept entry = false := by
  obtain ⟨e, below, rfl⟩ := exists_distance start (List.getElem?_eq_some_iff.mp held).1
  obtain ⟨full, refused⟩ := passed e (by omega)
  have there : slotAt slots start e = some slot := held
  exact ⟨fun same => full (by rw [there, same]),
    fun entry same => refused entry (by rw [there, same])⟩

open Slot

/-- A complete walk over slots with an empty one does not run out of probes. -/
theorem probe_stops (pow : PowTwo slots.length)
    {first fuel : Nat} (inside : first < slots.length) (turn : slots.length ≤ fuel)
    (free : empty ∈ slots) : probe accept slots fuel first none ≠ .exhausted := by
  intro ended
  have none_passed : Passed accept slots first 0 := fun _ below => absurd below (Nat.not_lt_zero _)
  have said := Lib.probe_says pow first fuel 0 none none_passed
  rw [Nat.add_zero, Nat.mod_eq_of_lt inside, Nat.zero_add, ended] at said
  obtain ⟨index, held⟩ := mem_iff_getElem?.mp free
  exact (Passed.all said turn held).1 rfl

/-- Every entry is reachable from its own first slot, and no two slots hold entries of one
key.
-/
structure Placed (start : α → Nat) (key : α → κ) (slots : List (Slot α)) : Prop where
  reach : ∀ {index : Nat} {entry : α}, slots[index]? = some (.live entry)
    → Reach slots (start entry) index
  unique : ∀ {i j : Nat} {a b : α}, slots[i]? = some (.live a) → slots[j]? = some (.live b)
    → key a = key b → i = j

/-- A slot update that empties nothing keeps every slot reachable. -/
theorem Reach.set (reach : Reach slots start index)
    (place : Nat) {slot : Slot α} (full : slot ≠ .empty)
    : Reach (slots.set place slot) start index := by
  obtain ⟨d, below, same, passed⟩ := reach
  refine ⟨d, by simpa using below, by simpa using same, fun e before => ?_⟩
  have old := passed e before
  simp only [slotAt, length_set, getElem?_set] at old ⊢
  split
  · split
    · simpa using full
    · simp
  · exact old

section Updates

variable {start : α → Nat} {key : α → κ} {slots : List (Slot α)}
variable {place : Nat} {entry : α}

/-- Looking into a single-slot update. -/
theorem getElem?_set_live {index : Nat} {slot : Slot α}
    (held : (slots.set place slot)[index]? = some (.live entry))
    : index = place ∧ slot = .live entry ∨ index ≠ place ∧ slots[index]? = some (.live entry) := by
  rw [getElem?_set] at held
  split at held
  · rename_i same
    split at held
    · exact .inl ⟨same.symm, Option.some.inj held⟩
    · simp at held
  · rename_i other
    exact .inr ⟨fun same => other same.symm, held⟩

section

variable (placed : Placed start key slots)

include placed

/-- Turning a slot into a tombstone keeps the placement. -/
theorem Placed.kill (place : Nat)
    : Placed start key (slots.set place .dead) := by
  refine ⟨fun held => ?_, fun heldA heldB same => ?_⟩
  · obtain ⟨-, absurdity⟩ | ⟨-, old⟩ := getElem?_set_live held
    · cases absurdity
    · exact (placed.reach old).set place (by simp)
  · obtain ⟨-, absurdity⟩ | ⟨-, oldA⟩ := getElem?_set_live heldA
    · cases absurdity
    · obtain ⟨-, absurdity⟩ | ⟨-, oldB⟩ := getElem?_set_live heldB
      · cases absurdity
      · exact placed.unique oldA oldB same

/-- Writing an entry into a reachable slot keeps the placement, when no other slot holds its
key.
-/
theorem Placed.write (reach : Reach slots (start entry) place)
    (alone : ∀ {index : Nat} {other : α}, slots[index]? = some (.live other)
      → key other = key entry → index = place)
    : Placed start key (slots.set place (.live entry)) := by
  refine ⟨fun held => ?_, fun heldA heldB same => ?_⟩
  · obtain ⟨rfl, written⟩ | ⟨-, old⟩ := getElem?_set_live held
    · cases written
      exact reach.set _ (by simp)
    · exact (placed.reach old).set place (by simp)
  · obtain ⟨rfl, writtenA⟩ | ⟨otherA, oldA⟩ := getElem?_set_live heldA
    · obtain ⟨rfl, -⟩ | ⟨otherB, oldB⟩ := getElem?_set_live heldB
      · rfl
      · cases writtenA
        exact absurd (alone oldB same.symm) otherB
    · obtain ⟨rfl, writtenB⟩ | ⟨-, oldB⟩ := getElem?_set_live heldB
      · cases writtenB
        exact absurd (alone oldA same) otherA
      · exact placed.unique oldA oldB same

/-- The entries left after a tombstone. -/
theorem Placed.mem_kill (held : slots[place]? = some (.live entry)) (other : α)
    : live other ∈ slots.set place .dead ↔ live other ∈ slots ∧ key other ≠ key entry := by
  constructor
  · intro member
    obtain ⟨index, found⟩ := mem_iff_getElem?.mp member
    obtain ⟨-, absurdity⟩ | ⟨apart, old⟩ := getElem?_set_live found
    · cases absurdity
    · exact ⟨mem_of_getElem? old, fun same => apart (placed.unique old held same)⟩
  · rintro ⟨member, apart⟩
    obtain ⟨index, found⟩ := mem_iff_getElem?.mp member
    have elsewhere : place ≠ index := by
      rintro rfl
      rw [held] at found
      cases found
      exact apart rfl
    exact mem_of_getElem? (by rw [getElem?_set_ne elsewhere, found])

end

/-- The entries held after a write. -/
theorem mem_write (inside : place < slots.length)
    (alone : ∀ {index : Nat} {other : α}, slots[index]? = some (.live other)
      → key other = key entry → index = place)
    (freed : ∀ {other : α}, slots[place]? = some (.live other) → key other = key entry) (other : α)
    : live other ∈ slots.set place (.live entry)
      ↔ other = entry ∨ live other ∈ slots ∧ key other ≠ key entry := by
  constructor
  · intro member
    obtain ⟨index, found⟩ := mem_iff_getElem?.mp member
    obtain ⟨-, written⟩ | ⟨apart, old⟩ := getElem?_set_live found
    · cases written
      exact .inl rfl
    · exact .inr ⟨mem_of_getElem? old, fun same => apart (alone old same)⟩
  · rintro (rfl | ⟨member, apart⟩)
    · exact mem_of_getElem? (getElem?_set_self inside)
    · obtain ⟨index, found⟩ := mem_iff_getElem?.mp member
      have elsewhere : place ≠ index := by
        rintro rfl
        exact apart (freed found)
      exact mem_of_getElem? (by rw [getElem?_set_ne elsewhere, found])

end Updates

/-- A passed slot is reachable, also after more than one turn. -/
theorem Passed.reach (nonempty : 0 < slots.length) (passed : Passed accept slots start d)
    : Reach slots start ((start + d) % slots.length) :=
  ⟨d % slots.length, Nat.mod_lt d nonempty, by rw [Nat.add_mod_mod],
    fun e below => (passed e (Nat.lt_of_lt_of_le below (Nat.mod_le d _))).1⟩

/-- What a complete walk says about the entry of key `target`. -/
def WalkSays (key : α → κ) (slots : List (Slot α)) (first : Nat) (target : κ)
    : Probe α → Prop
  | .hit index entry => slots[index]? = some (.live entry) ∧ key entry = target
  | .vacant index tomb =>
    slots[index]? = some .empty ∧ Reach slots first index
    ∧ (∀ entry, Slot.live entry ∈ slots → key entry ≠ target)
    ∧ ∀ place, tomb = some place → slots[place]? = some .dead ∧ Reach slots first place
  | .exhausted =>
    (∀ entry, Slot.live entry ∈ slots → key entry ≠ target)
    ∧ ∀ slot ∈ slots, slot ≠ .empty

/-- In a placed table a complete walk from the key's first slot finds the key's entry or
proves it absent, and offers slots a new entry can take.
-/
theorem Placed.probe_says {start : α → Nat} {key : α → κ}
    (placed : Placed start key slots) (pow : PowTwo slots.length)
    {target : κ} {first fuel : Nat} (inside : first < slots.length) (turn : slots.length ≤ fuel)
    (accepts : ∀ entry, live entry ∈ slots → (accept entry = true ↔ key entry = target))
    (homes : ∀ entry, live entry ∈ slots → key entry = target → start entry = first)
    : WalkSays key slots first target (probe accept slots fuel first none) := by
  have none_passed : Passed accept slots first 0 := fun _ below => absurd below (Nat.not_lt_zero _)
  have said := Lib.probe_says pow first fuel 0 none none_passed
  rw [Nat.add_zero, Nat.mod_eq_of_lt inside, Nat.zero_add] at said
  revert said
  cases probe accept slots fuel first none with
  | hit index entry =>
    exact fun said => ⟨said.1, (accepts entry (mem_of_getElem? said.1)).mp said.2⟩
  | exhausted =>
    intro passed
    refine ⟨fun entry member same => ?_, fun slot member => ?_⟩
    · obtain ⟨index, held⟩ := mem_iff_getElem?.mp member
      have refused := (Passed.all passed turn held).2 entry rfl
      rw [(accepts entry member).mpr same] at refused
      cases refused
    · obtain ⟨index, held⟩ := mem_iff_getElem?.mp member
      exact (Passed.all passed turn held).1
  | vacant index tomb =>
    rintro ⟨stopped, ⟨d, -, rfl, passed⟩, tombs⟩
    refine ⟨stopped, passed.reach pow.pos, fun entry member same => ?_, fun place found => ?_⟩
    · obtain ⟨spot, held⟩ := mem_iff_getElem?.mp member
      have reach := placed.reach held
      rw [homes entry member same] at reach
      have refused := passed.refuses_reachable stopped reach held
      rw [(accepts entry member).mpr same] at refused
      cases refused
    · obtain absurdity | ⟨dead, e, -, rfl, before⟩ := tombs place found
      · cases absurdity
      · exact ⟨dead, before.reach pow.pos⟩

def liveCount (slots : List (Slot α)) : Nat := slots.countP Slot.isLive

def deadCount (slots : List (Slot α)) : Nat := slots.countP Slot.isDead

theorem liveCount_set {old : Slot α} (held : slots[place]? = some old) (new : Slot α)
    : liveCount (slots.set place new) + old.isLive.toNat = liveCount slots + new.isLive.toNat :=
  countP_set_add held new isLive

theorem deadCount_set {old : Slot α} (held : slots[place]? = some old) (new : Slot α)
    : deadCount (slots.set place new) + old.isDead.toNat = deadCount slots + new.isDead.toNat :=
  countP_set_add held new isDead

/-- A table has a free slot exactly when live entries and tombstones do not fill it. -/
theorem count_lt_iff_empty_mem (slots : List (Slot α))
    : liveCount slots + deadCount slots < slots.length ↔ empty ∈ slots := by
  have bounds : liveCount slots + deadCount slots ≤ slots.length
      ∧ (liveCount slots + deadCount slots < slots.length ↔ empty ∈ slots) := by
    induction slots with
    | nil => simp [liveCount, deadCount]
    | cons slot rest ih =>
      obtain ⟨bound, free⟩ := ih
      simp only [liveCount, deadCount] at bound free
      cases slot with
      | empty => simp [liveCount, deadCount, isLive, isDead]; omega
      | dead | live entry =>
        simp only [liveCount, deadCount, countP_cons, isLive, isDead,
          length_cons, mem_cons, reduceCtorEq, false_or, ← free, if_true, if_false]
        omega
  exact bounds.2

theorem live_mem_of_liveCount_pos (some : 0 < liveCount slots)
    : ∃ entry, live entry ∈ slots := by
  obtain ⟨slot, member, live⟩ := countP_pos_iff.mp some
  cases slot with
  | live entry => exact ⟨entry, member⟩
  | empty | dead => cases live

theorem liveCount_pos_of_mem (member : live entry ∈ slots)
    : 0 < liveCount slots :=
  countP_pos_iff.mpr ⟨_, member, rfl⟩

theorem live_not_mem_replicate (entry : α)
    : live entry ∉ replicate cap (empty : Slot α) := by
  simp

theorem Placed.fresh (start : α → Nat) (key : α → κ) (cap : Nat)
    : Placed start key (replicate cap (empty : Slot α)) :=
  ⟨fun held => absurd (mem_of_getElem? held) (live_not_mem_replicate _),
    fun held => absurd (mem_of_getElem? held) (live_not_mem_replicate _)⟩

theorem Placed.live_nodup {start : α → Nat} {key : α → κ} (placed : Placed start key slots)
    : (slots.filter isLive).Nodup := by
  rw [List.Nodup, pairwise_filter, pairwise_iff_getElem]
  intro i j inside inside' before live live' same
  cases found : slots[i] with
  | live entry =>
    have there := placed.unique (List.getElem?_eq_some_iff.mpr ⟨inside, found⟩)
      (List.getElem?_eq_some_iff.mpr ⟨inside', same ▸ found⟩) rfl
    omega
  | empty | dead => simp [found, isLive] at live

@[simp] theorem liveCount_replicate (cap : Nat)
    : liveCount (replicate cap (empty : Slot α)) = 0 := by
  simp [liveCount, isLive]

@[simp] theorem deadCount_replicate (cap : Nat)
    : deadCount (replicate cap (empty : Slot α)) = 0 := by
  simp [deadCount, isDead]

end Thredis.Lib
