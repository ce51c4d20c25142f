import Thredis.Store.FlatContent
import Thredis.Store.FlatScan

/-! The visit of one home slot. It only withers tables: it turns expired objects into
tombstones and moves nothing, so an unexpired key is handed out wherever probing put it.
-/

namespace Thredis.Store
open Thredis.Lib

/-- A later state of a table in which some expired objects have become tombstones. -/
structure Table.Withered (now : Int) (before after : Table) : Prop where
  cap : after.cap = before.cap
  slot : ∀ index : Nat, after.slots[index]? = before.slots[index]?
    ∨ after.slots[index]? = some .dead
      ∧ ∃ word, before.slots[index]? = some (.live word) ∧ word.obj.deadlineElapsed now = true

namespace Table

variable {now : Int} {before after : Table}

theorem Withered.refl (table : Table) : Withered now table table := ⟨rfl, fun _ => .inl rfl⟩

theorem Withered.trans {first second third : Table} (front : Withered now first second)
    (back : Withered now second third) : Withered now first third := by
  refine ⟨back.cap.trans front.cap, fun index => ?_⟩
  rcases back.slot index with same | ⟨dead, word, held, elapsed⟩
  · rw [same]
    exact front.slot index
  · rcases front.slot index with same | ⟨gone, -⟩
    · exact .inr ⟨dead, word, by rw [← same, held], elapsed⟩
    · rw [gone] at held
      cases held

/-- An unexpired object stays in its slot. -/
theorem Withered.live (withered : Withered now before after) {index : Nat} {word : Word}
    (held : before.slots[index]? = some (.live word)) (fresh : word.obj.deadlineElapsed now = false)
    : after.slots[index]? = some (.live word) := by
  rcases withered.slot index with same | ⟨-, other, held', elapsed⟩
  · rw [same, held]
  · rw [held] at held'
    cases held'
    rw [fresh] at elapsed
    cases elapsed

/-- No slot becomes empty. -/
theorem Withered.full (withered : Withered now before after) {index : Nat}
    (full : before.slots[index]? ≠ some .empty) : after.slots[index]? ≠ some .empty := by
  rcases withered.slot index with same | ⟨dead, -⟩
  · rw [same]
    exact full
  · rw [dead]
    nofun

theorem WellFormed.withered_kill {hashKey : Slice → BitVec 64} (wf : before.WellFormed hashKey)
    {key : Slice} {object erased : KvObj} (held : object ∈ before.objects)
    (named : object.key = key) (elapsed : object.deadlineElapsed now = true)
    (killed : before.eraseIn (hashKey key) key = some (erased, after))
    : Withered now before after := by
  have said := wf.walk_says key
  rw [eraseIn] at killed
  cases walked : before.walk (hashKey key) (isKey (tagOf (hashKey key)) key) with
  | hit index word =>
    rw [walked] at said killed
    cases killed
    obtain ⟨found, isKey⟩ := said
    have member := mem_objects.mpr ⟨word, List.mem_of_getElem? found, rfl⟩
    obtain rfl := wf.object_unique member held (isKey.trans named.symm)
    refine ⟨List.length_set, fun place => ?_⟩
    by_cases here : index = place
    · subst here
      have inside := (List.getElem?_eq_some_iff.mp found).1
      exact .inr ⟨List.getElem?_set_self inside, word, found, elapsed⟩
    · exact .inl (List.getElem?_set_ne here)
  | vacant index tomb | exhausted => simp [walked] at killed

end Table

namespace FlatStore

variable {env : StoreEnv} {store : FlatStore}

structure Withered (env : StoreEnv) (before after : FlatStore) : Prop where
  sound : after.Sound env
  now : after.cachedNowMs = before.cachedNowMs
  table : ∀ side table, before.tables.table side = some table
    → ∃ later, after.tables.table side = some later
      ∧ Table.Withered before.cachedNowMs table later
  single : before.tables.old = none → after.tables.old = none

theorem Withered.of_same {before after : FlatStore} (sound : before.Sound env)
    (tables : after.tables = before.tables) (now : after.cachedNowMs = before.cachedNowMs)
    : Withered env before after :=
  ⟨by rw [Sound, tables]; exact sound, now,
    fun side table there => ⟨table, by rw [tables]; exact there, .refl table⟩,
    fun none => by rw [tables]; exact none⟩

theorem Withered.trans {first second third : FlatStore} (front : Withered env first second)
    (back : Withered env second third) : Withered env first third := by
  refine ⟨back.sound, back.now.trans front.now, fun side table there => ?_,
    fun none => back.single (front.single none)⟩
  obtain ⟨middle, thereMiddle, withered⟩ := front.table side table there
  obtain ⟨later, thereLater, withered'⟩ := back.table side middle thereMiddle
  rw [front.now] at withered'
  exact ⟨later, thereLater, withered.trans withered'⟩

-- One home slot

variable {expireOnVisit : Bool}
variable {side : Side} {table : Table} {object : KvObj}

section

variable (sound : store.Sound env) (there : store.tables.table side = some table)
  (held : object ∈ table.objects)

include sound there held

theorem Sound.withered_eraseIn {erased : KvObj × FlatStore}
    (elapsed : object.deadlineElapsed store.cachedNowMs = true)
    (done : store.eraseIn side (env.hashKey object.key) object.key = some erased)
    : Withered env store erased.2 := by
  have after := (sound.eraseIn_some done).1
  obtain ⟨⟨gone, tables⟩, removed, rfl⟩ := Option.map_eq_some_iff.mp done
  simp only [Tables.eraseIn, there] at removed
  obtain ⟨⟨gone', later⟩, killed, same⟩ := Option.map_eq_some_iff.mp removed
  cases same
  have withered := (Tables.WellFormed.table sound there).withered_kill held rfl elapsed killed
  refine ⟨after.sound, rfl, fun other table' there' => ?_, fun none => ?_⟩
  · cases side with
    | cur =>
      cases other with
      | cur =>
        cases there.symm.trans there'
        exact ⟨later, rfl, withered⟩
      | old => exact ⟨table', there', .refl table'⟩
    | old =>
      cases other with
      | cur => exact ⟨table', there', .refl table'⟩
      | old =>
        cases there.symm.trans there'
        exact ⟨later, rfl, withered⟩
  · cases side with
    | cur => exact none
    | old => cases there.symm.trans none

theorem Sound.withered_scanVisit
    : Withered env store
        (store.scanVisit expireOnVisit side (env.hashKey object.key) object).2 := by
  rw [scanVisit]
  split
  · exact .of_same sound rfl rfl
  · split
    · rename_i elapsed
      split
      · exact .of_same sound rfl rfl
      · split
        · exact .of_same sound rfl rfl
        · dsimp only
          cases done : (store.recordDelete object.key).eraseIn side (env.hashKey object.key)
              object.key with
          | none => exact .of_same sound rfl rfl
          | some erased =>
            have logged : Withered env store (store.recordDelete object.key) :=
              .of_same sound rfl rfl
            have removed := logged.sound.withered_eraseIn there held elapsed done
            exact (logged.trans removed).trans (.of_same removed.sound rfl rfl)
    · exact .of_same sound rfl rfl

end

/-- Visiting one home only withers, by induction on the probes left. -/
theorem Sound.withered_scanHomeLoop (sound : store.Sound env) (side : Side) (home probes i : Nat)
    : Withered env store (scanHomeLoop env expireOnVisit side home probes i store).store := by
  induction probes generalizing i store with
  | zero => exact .of_same sound rfl rfl
  | succ probes ih =>
    rw [scanHomeLoop]
    split
    · exact .of_same sound rfl rfl
    · rename_i table there
      split
      · rename_i word held
        have member := Table.mem_objects.mpr ⟨word, List.mem_of_getElem? held, rfl⟩
        have visited : Withered env store (if table.slotStart (env.hashKey word.obj.key) = home then
              store.scanVisit expireOnVisit side (env.hashKey word.obj.key) word.obj
            else ([], store)).2 := by
          split
          · exact sound.withered_scanVisit there member
          · exact .of_same sound rfl rfl
        exact visited.trans (ih visited.sound _)
      · exact ih sound _
      · exact .of_same sound rfl rfl

/-- The probe loop hands out an unexpired object of its home that lies `target` slots after it.
Witness: induction over the probes; the slots on the way and the object itself outlast what
each visit withers.
-/
theorem Sound.scanHomeLoop_emits (sound : store.Sound env)
    {home target d probes : Nat} {word : Word} (there : store.tables.table side = some table)
    (path : ∀ e < target, slotAt table.slots home e ≠ some .empty)
    (held : slotAt table.slots home target = some (.live word))
    (fresh : word.obj.deadlineElapsed store.cachedNowMs = false)
    (homed : table.slotStart (env.hashKey word.obj.key) = home)
    (behind : d ≤ target) (enough : target < d + probes)
    : word.obj ∈ (scanHomeLoop env expireOnVisit side home probes ((home + d) % table.cap)
        store).emitted := by
  induction probes generalizing d store table with
  | zero => omega
  | succ probes ih =>
    have pow := (Tables.WellFormed.table sound there).pow
    have onward := pow.nextSlot home d
    -- what is left of the walk after a visit that withered the store
    have later : ∀ next, Withered env store next → d < target
        → word.obj ∈ (scanHomeLoop env expireOnVisit side home probes
            ((home + (d + 1)) % table.cap) next).emitted := by
      intro next withered short
      obtain ⟨table', there', wither⟩ := withered.table side table there
      have width : table'.slots.length = table.slots.length := wither.cap
      have at_eq : ∀ e, slotAt table'.slots home e
          = table'.slots[(home + e) % table.slots.length]? := fun e => by
        rw [slotAt, width]
      rw [← wither.cap]
      refine ih withered.sound there' (fun e before => ?_) ?_ (by rw [withered.now]; exact fresh)
        (by rw [Table.slotStart_congr wither.cap]; exact homed) short (by omega)
      · rw [at_eq]
        exact wither.full (path e before)
      · rw [at_eq]
        exact wither.live held fresh
    rw [scanHomeLoop, there]
    dsimp only
    rcases Nat.lt_or_eq_of_le behind with short | rfl
    · obtain ⟨slot, found⟩ := slotAt_isSome pow.pos home d
      have here : table.slots[(home + d) % table.cap]? = some slot := found
      rw [here, onward]
      cases slot with
      | empty => exact absurd found (path d short)
      | dead => exact later store (.of_same sound rfl rfl) short
      | live other =>
        have member := Table.mem_objects.mpr ⟨other, List.mem_of_getElem? here, rfl⟩
        refine List.mem_append_right _ (later _ ?_ short)
        split
        · exact sound.withered_scanVisit there member
        · exact .of_same sound rfl rfl
    · have here : table.slots[(home + d) % table.cap]? = some (.live word) := held
      rw [here]
      refine List.mem_append_left _ ?_
      rw [if_pos homed]
      simp [scanVisit, fresh]

/-- A key is held, unexpired, in the table of one side. -/
def Showing (store : FlatStore) (side : Side) (key : Slice) : Prop :=
  ∃ (table : Table) (index : Nat) (word : Word), store.tables.table side = some table
    ∧ table.slots[index]? = some (.live word) ∧ word.obj.key = key
    ∧ word.obj.deadlineElapsed store.cachedNowMs = false

/-- What withers keeps showing every key that has not elapsed. -/
theorem Withered.showing {before after : FlatStore} (withered : Withered env before after)
    {key : Slice} (showing : before.Showing side key) : after.Showing side key := by
  obtain ⟨table, index, word, there, held, named, fresh⟩ := showing
  obtain ⟨later, thereLater, wither⟩ := withered.table side table there
  exact ⟨later, index, word, thereLater, wither.live held fresh, named,
    by rw [withered.now]; exact fresh⟩

/-- The visit of a key's home hands the key out. -/
theorem Sound.scanHome_emits (sound : store.Sound env) {key : Slice}
    {home : Nat} (showing : store.Showing side key) (there : store.tables.table side = some table)
    (homed : table.slotStart (env.hashKey key) = home)
    : ∃ object ∈ (store.scanHome env expireOnVisit side home).emitted, object.key = key := by
  obtain ⟨table', index, word, there', held, named, fresh⟩ := showing
  cases there.symm.trans there'
  have wf := Tables.WellFormed.table sound there
  subst named
  obtain ⟨distance, below, rfl, path⟩ := wf.placed.reach held
  rw [homed] at held path
  have bound : home < table.cap := homed ▸ wf.slotStart_lt _
  refine ⟨word.obj, ?_, rfl⟩
  have walked : word.obj ∈ (scanHomeLoop env expireOnVisit side home (table.cap + 1)
      ((home + 0) % table.cap) store).emitted :=
    sound.scanHomeLoop_emits there path held fresh homed (Nat.zero_le distance)
      (by rw [Nat.zero_add]; exact Nat.lt_succ_of_lt below)
  simpa [scanHome, there, Nat.mod_eq_of_lt bound] using walked

end FlatStore

end Thredis.Store
