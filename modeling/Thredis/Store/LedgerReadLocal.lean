import Thredis.Store.ResizeReservation

/-! The ledgers of an armed store: resizes, removals, evictions and lookups change the state
both modes share as the unarmed ones do, although a move charges and refunds its object and
retirements go to the sink.
-/

namespace Thredis.Store
open Thredis.Lib FlatStore

namespace ReadLocalStore

variable {env : StoreEnv} {store : ReadLocalStore}

section

variable (count : Nat) (store : ReadLocalStore)

theorem moveSlots_refused
    : (store.moveSlots env count).1.base.expireRefused = store.base.expireRefused := by
  induction count generalizing store with
  | zero => rfl
  | succ count ih =>
    rw [moveSlots]
    split
    · rfl
    · split
      · split
        · rfl
        · rename_i placed moved
          rw [ih]
          obtain ⟨⟨displaced, tables⟩, -, rfl⟩ := Option.map_eq_some_iff.mp moved
          cases displaced with
          | none | some current => rfl
      · rw [ih]
        rfl

/-- A slot without an object only moves the position, in both models. -/
theorem idleWindow {old : Table} (draining : Tables.Draining env.hashKey store.base.tables old)
    (idle : ∀ word : Word, old.slots[store.base.tables.rehashPos]? ≠ some (.live word))
    (onward : ∀ (next : ReadLocalStore) {rest : Table},
      Tables.Draining env.hashKey next.base.tables rest
      → ∃ tables refused,
          Tables.moveSlots env.hashKey count next.base.tables [] = (tables, [], refused)
          ∧ next.moveSlots env count = (next.withBase { next.base with tables }, refused))
    : ∃ tables refused,
        Tables.moveSlots env.hashKey (count + 1) store.base.tables [] = (tables, [], refused)
        ∧ store.moveSlots env (count + 1)
          = (store.withBase { store.base with tables }, refused) := by
  obtain ⟨tables, refused, done, same⟩ := onward (store.withBase { store.base with
    tables := { store.base.tables with rehashPos := store.base.tables.rehashPos + 1 } })
    (draining.skip idle)
  refine ⟨tables, refused, ?_, ?_⟩
  · rw [Tables.moveSlots_idle count [] draining.found idle]
    exact done
  · rw [moveSlots, draining.found]
    simp only
    exact same

/-- A window of the armed migration leaves the shared state as the unarmed one does.
Witness: no key is in both tables, so a move displaces nothing and its charge is taken back.
-/
theorem moveSlots_base {old : Table} (draining : Tables.Draining env.hashKey store.base.tables old)
    : ∃ tables refused,
        Tables.moveSlots env.hashKey count store.base.tables [] = (tables, [], refused)
        ∧ store.moveSlots env count
          = (store.withBase { store.base with tables }, refused) := by
  induction count generalizing store old with
  | zero => exact ⟨store.base.tables, false, rfl, rfl⟩
  | succ count ih =>
    cases slot : old.slots[store.base.tables.rehashPos]? with
    | some held =>
      cases held with
      | live word =>
        cases placed : store.base.tables.cur.insertInto (env.hashKey word.obj.key)
            word.obj with
        | none =>
          refine ⟨store.base.tables, true, ?_, ?_⟩
          · simp [Tables.moveSlots, draining.found, slot, placed]
          · simp [moveSlots, draining.found, slot, insertInto, Tables.insertCur, placed, withBase]
        | some result =>
          obtain ⟨current, cur⟩ := result
          obtain ⟨rfl, next, -⟩ := draining.moved slot placed
          obtain ⟨tables, refused, done, same⟩ := ih (store.withBase { store.base with
            tables := { cur, old := some (old.kill store.base.tables.rehashPos)
                        rehashPos := store.base.tables.rehashPos + 1 } }) next
          refine ⟨tables, refused, ?_, ?_⟩
          · simpa [Tables.moveSlots, draining.found, slot, placed, withBase] using done
          · simpa [moveSlots, draining.found, slot, insertInto, Tables.insertCur, placed,
              countExpired, withBase, Tables.put, Ledger.charge] using same
      | empty | dead => exact idleWindow count store draining (by simp [slot]) ih
    | none => exact idleWindow count store draining (by simp [slot]) ih

end

/-- The end of a migration changes the tables of the shared state, and nothing else of it. -/
theorem finishRehash_base (store : ReadLocalStore)
    : store.finishRehash.base = { store.base with tables := store.base.tables.finishRehash } := by
  rw [finishRehash, Tables.finishRehash]
  split
  · rfl
  · rfl

/-- `rehash_step_read_local` changes the shared state as `rehash_step` does. -/
theorem rehashStep_base (sound : store.base.Sound env)
    : (store.rehashStep env).base = store.base.rehashStep env := by
  cases found : store.base.tables.old with
  | none =>
    simp [rehashStep, Tables.oldCap, found, moveSlots, finishRehash, withBase,
      FlatStore.rehashStep, Tables.rehashStep, Tables.moveSlots, Tables.finishRehash]
  | some old =>
    obtain ⟨tables, refused, done, same⟩ := moveSlots_base
      (min (store.base.tables.rehashPos + kRehashSlotsPerOp) store.base.tables.oldCap
        - store.base.tables.rehashPos) store (Tables.WellFormed.draining sound found)
    cases refused with
    | true => simp [rehashStep, same, FlatStore.rehashStep, Tables.rehashStep, done, withBase]
    | false =>
      simp only [rehashStep, same, FlatStore.rehashStep, Tables.rehashStep, done, finishRehash_base]
      rfl

theorem rehashStep_refused (store : ReadLocalStore)
    : (store.rehashStep env).base.expireRefused = store.base.expireRefused := by
  rw [rehashStep]
  generalize min (store.base.tables.rehashPos + kRehashSlotsPerOp) store.base.tables.oldCap
    - store.base.tables.rehashPos = count
  have moved : (store.moveSlots env count).1.base.expireRefused = store.base.expireRefused :=
    moveSlots_refused count store
  split
  · rename_i next stuck
    rw [stuck] at moved
    exact moved
  · rename_i next done
    rw [done] at moved
    rw [finishRehash_base]
    exact moved

open FlatStore (Trimmed Accounted)

/-- The charge of each moved object is taken back, so a window leaves the account as it was. -/
theorem trimmed_rehashStep (store : ReadLocalStore)
    : Trimmed env store.base (store.rehashStep env).base := by
  refine ⟨fun exact => ?_, rehashStep_refused store⟩
  rw [rehashStep_base exact.sound]
  exact (Trimmed.rehashStep store.base).exact exact

/-- Of the shared state a reservation takes at most an answer of the allocator. -/
theorem prepareResizeRetirement_base (store : ReadLocalStore)
    : ∃ rest, store.prepareResizeRetirement.2.base = { store.base with allocations := rest } := by
  rw [prepareResizeRetirement]
  split
  · exact ⟨store.base.allocations, rfl⟩
  · exact ⟨_, rfl⟩

/-- A resize that starts demotes the current table whole. -/
theorem trimmed_startRehash (still : store.base.tables.old = none) {newcap : Nat}
    (fits : store.base.Sound env → PowTwo newcap ∧ kMinCap ≤ newcap ∧ newcap ≤ 2 ^ 31)
    : Trimmed env store.base (store.startRehash newcap).2.base := by
  rw [startRehash]
  split
  · exact .refl _
  · split
    · exact .of_same rfl rfl rfl rfl
    · rename_i rest granted
      obtain ⟨left, reserved⟩ := prepareResizeRetirement_base
        (store.withBase { store.base with allocations := rest })
      split
      · rename_i next refused
        rw [refused] at reserved
        rw [show next.base = _ from reserved]
        exact .of_same rfl rfl rfl rfl
      · rename_i next reservedNext
        rw [reservedNext] at reserved
        have base : next.base = { store.base with allocations := left } := reserved
        simp only [base]
        refine .of_content rfl (fun sound => ?_) (fun wf => ⟨wf, fun _ => .rfl⟩)
        obtain ⟨pow, least, most⟩ := fits sound
        have largest := Nat.max_eq_left least
        obtain ⟨wellFormed, objects, -⟩ := Tables.WellFormed.demote sound still
          (by rw [largest]; exact pow) (by rw [largest]; exact most)
        refine ⟨wellFormed, fun key => sound.content_congr ?_ (fun held _ => objects held), rfl⟩
        exact wellFormed

/-- What the steps of an armed store that publish nothing keep: exact ledgers, and the reserved
record.
-/
structure Tends (env : StoreEnv) (before after : ReadLocalStore) : Prop where
  trimmed : Trimmed env before.base after.base
  reserved : before.Reserved → after.Reserved

theorem Tends.refl (store : ReadLocalStore) : Tends env store store := ⟨.refl _, id⟩

/-- Steps that tend a store compose. -/
theorem Tends.trans {first second third : ReadLocalStore} (front : Tends env first second)
    (back : Tends env second third) : Tends env first third :=
  ⟨front.trimmed.trans back.trimmed, fun held => back.reserved (front.reserved held)⟩

/-- A step of the shared state that starts and ends no migration needs no record. -/
theorem Tends.withBase {base : FlatStore} (trimmed : Trimmed env store.base base)
    (same : base.rehashing = store.base.rehashing) : Tends env store (store.withBase base) :=
  ⟨trimmed, fun held => held.withBase same⟩

/-- A running migration has its record, so a step never meets it missing. -/
theorem tends_rehashStep (moving : store.base.rehashing = true)
    : Tends env store (store.rehashStep env) :=
  ⟨trimmed_rehashStep store, fun held => held.rehashStep moving⟩

/-- A grow puts its table up behind a record, or not at all. -/
theorem tends_maybeStartGrow (still : store.base.tables.old = none)
    : Tends env store store.maybeStartGrow.2 := by
  simp only [maybeStartGrow]
  split
  · exact .refl _
  · split
    · exact .refl _
    · split
      · exact .refl _
      · rename_i within
        refine ⟨trimmed_startRehash still (fun sound => ?_), fun held => held.startRehash _⟩
        obtain ⟨pow, least, most, -⟩ := growCap_wide sound.cur (not_lt.mp within)
        exact ⟨pow, least, most⟩

/-- The bytes and the deadline leave with the object. -/
theorem tends_eraseIn {side : Side} {key : Slice} {object : KvObj} {after : ReadLocalStore}
    (found : store.eraseIn side (env.hashKey key) key = some (object, after))
    : Tends env store after := by
  refine ⟨?_, fun held => held.eraseIn found⟩
  obtain ⟨⟨removed, tables⟩, located, same⟩ := Option.map_eq_some_iff.mp found
  cases same
  exact .of_erased (fun sound => Tables.WellFormed.eraseIn_some sound located) rfl rfl rfl

/-- Asking the sink only takes its next answer. -/
theorem tends_readRetirementAvailable {answer : Bool} {next : ReadLocalStore}
    (asked : store.readRetirementAvailable = (answer, next)) : Tends env store next := by
  refine ⟨?_, fun held => held.readRetirementAvailable asked⟩
  rw [Prod.mk.injEq] at asked
  rw [← asked.2]
  exact .refl _

section

variable (store)

/-- A shrink too puts its table up behind a record. -/
theorem tends_maybeStartShrink
    : Tends env store store.maybeStartShrink := by
  simp only [maybeStartShrink]
  split
  · exact .refl _
  · rename_i small
    split
    · exact .refl _
    · split
      · exact .refl _
      · simp only [Bool.or_eq_true, decide_eq_true_eq, not_or] at small
        refine ⟨trimmed_startRehash (not_rehashing small.1) (fun sound => ?_),
          fun held => held.startRehash _⟩
        have large := sound.cur.pow.double_le 6 (not_le.mp small.2)
        obtain ⟨pow, double⟩ := sound.cur.pow.half (by omega)
        have fits := sound.cur.fits
        exact ⟨pow, by simp only [kMinCap]; omega, by omega⟩

-- Removals, eviction and lookups

theorem tends_countExpired (expired : Bool)
    : Tends env store (store.withBase (store.base.countExpired expired)) :=
  .withBase (.countExpired _ _) rfl

theorem tends_eraseDone (now : Int) (erased : KvObj × ReadLocalStore)
    : Tends env erased.2 (eraseDone now erased).2 :=
  (tends_maybeStartShrink erased.2).trans (tends_countExpired _ _)

variable (key : Slice)

/-- A migration step, the erase from either table, and the shrink that may follow. -/
theorem tends_erase
    : Tends env store (store.erase env (env.hashKey key) key).2 := by
  have first : Tends env store (if store.base.rehashing && !store.base.snapshot.active
      then store.rehashStep env else store) := by
    split
    · rename_i both
      simp only [Bool.and_eq_true] at both
      exact tends_rehashStep both.1
    · exact .refl _
  simp only [erase]
  split
  · rename_i erased found
    exact first.trans ((tends_eraseIn found).trans (tends_eraseDone _ erased))
  · split
    · rename_i erased found
      exact first.trans ((tends_eraseIn found).trans (tends_eraseDone _ erased))
    · exact first

theorem tends_recordDelete
    : Tends env store (store.withBase (store.base.recordDelete key)) :=
  .withBase (.recordDelete _ key) rfl

/-- The rule of the shared eviction loop, at the steps of an armed store. -/
theorem tends_makeRoomLoop (protectedKey : Slice) (incomingBytes budget : Nat)
    (store : ReadLocalStore)
    : Tends env store (store.makeRoomLoop env protectedKey incomingBytes budget).2 :=
  FlatStore.Evictor.loop_keeps .refl .trans
    (fun store => .withBase (sampling_trimmed.chooseVictimLoop protectedKey _ _ store.base)
      (sampling_rehashing.chooseVictimLoop protectedKey _ _ store.base))
    (fun store next key kept => kept.trans (tends_recordDelete (store.withBase next) key))
    (fun store key => tends_erase store key) (fun _ _ => .withBase (.countEvicted _ _) rfl)
    _ _ store

theorem tends_makeRoomFor (protectedKey : Slice) (incomingBytes : Nat)
    : Tends env store (store.makeRoomFor env protectedKey incomingBytes).2 := by
  rw [makeRoomFor]
  split
  · exact .refl _
  · split
    · exact .refl _
    · split
      · exact .refl _
      · exact tends_makeRoomLoop protectedKey incomingBytes _ store

/-- Admission evicts, then stamps metadata on an object of the same key. -/
theorem tends_admitObject (object : KvObj)
    : Tends env store (store.admitObject env object).2
      ∧ ∀ admitted, (store.admitObject env object).1 = some admitted
        → admitted.key = object.key := by
  have room : Tends env store (store.makeRoomFor env object.key (kvobjSize object)).2 :=
    tends_makeRoomFor store _ _
  rw [admitObject]
  split
  · split
    · rename_i next refused
      rw [refused] at room
      exact ⟨room, nofun⟩
    · rename_i next granted
      rw [granted] at room
      refine ⟨room, fun admitted given => ?_⟩
      cases given
      split
      · exact initializeMeta_key _ object
      · rfl
  · refine ⟨.refl _, fun admitted given => ?_⟩
    cases given
    rfl

/-- A dead object is logged and erased, or stays for want of room in the sink. -/
theorem tends_liveOrExpire (side : Side) (key : Slice) (object : KvObj)
    : Tends env store (store.liveOrExpire side (env.hashKey key) key object).2 := by
  rw [liveOrExpire]
  split
  · exact .refl _
  · split
    · exact .refl _
    · split
      · rename_i next refused
        exact tends_readRetirementAvailable refused
      · rename_i next granted
        have logged : Tends env store (next.withBase (next.base.recordDelete key)) :=
          (tends_readRetirementAvailable granted).trans (tends_recordDelete next key)
        dsimp only
        cases found : (next.withBase (next.base.recordDelete key)).eraseIn side
            (env.hashKey key) key with
        | none => exact logged.trans (tends_countExpired _ _)
        | some erased =>
          exact logged.trans ((tends_eraseIn found).trans (tends_countExpired _ _))

theorem tends_lookupIn (side : Side) (key : Slice)
    : Tends env store (store.lookupIn side (env.hashKey key) key).2 := by
  rw [lookupIn]
  split
  · exact tends_liveOrExpire store side key _
  · exact .refl _

/-- Both tables in turn; at most a dead object is erased. -/
theorem tends_lookup
    : Tends env store (store.lookup (env.hashKey key) key).2 := by
  have first : Tends env store (store.lookupIn .cur (env.hashKey key) key).2 :=
    tends_lookupIn store .cur key
  rw [lookup]
  split
  · rename_i object next found
    rw [found] at first
    exact first
  · rename_i next missed
    rw [missed] at first
    exact first.trans (tends_lookupIn next .old key)

theorem tends_findValue
    : Tends env store (store.findValue env (env.hashKey key) key).2 := by
  rw [findValue]
  split
  · exact tends_lookup store key
  · exact .refl _

theorem tends_find
    : Tends env store (store.find env (env.hashKey key) key).2 := by
  have answered : Tends env store (store.findValue env (env.hashKey key) key).2 :=
    tends_findValue store key
  rw [find]
  split
  · rename_i next missed
    rw [missed] at answered
    exact answered
  · rename_i object next found
    rw [found] at answered
    split
    · exact answered.trans (.withBase (sampling_trimmed.touch next.base key object)
        (sampling_rehashing.touch next.base key object))
    · exact answered

end

end ReadLocalStore

end Thredis.Store
