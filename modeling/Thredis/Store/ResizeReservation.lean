import Thredis.Store.FlatCapture
import Thredis.Store.LedgerInPlace

/-! Whenever an armed store migrates, the record its completion hands over is reserved: every
step keeps that, except the two that put a second table up without asking for a record.
-/

namespace Thredis.Store
open Option Tables

-- Steps that neither start nor end a migration

namespace Tables

variable {tables : Tables} {side : Side}

/-- Exchanging a table that is there starts and ends no migration. -/
theorem put_rehashing {table next : Table} (there : tables.table side = some table)
    : (tables.put side next).rehashing = tables.rehashing := by
  cases side with
  | cur => rfl
  | old =>
    have old : tables.old = some table := there
    simp [put, rehashing, old]

variable {object : KvObj} {h : BitVec 64} {key : Slice}

/-- An erase exchanges the table it finds the key in. -/
theorem eraseIn_rehashing {after : Tables}
    (erased : tables.eraseIn side h key = some (object, after))
    : after.rehashing = tables.rehashing := by
  obtain ⟨table, there, mapped⟩ := bind_eq_some_iff.mp erased
  obtain ⟨result, -, same⟩ := map_eq_some_iff.mp mapped
  cases same
  exact put_rehashing there

/-- An insert exchanges the current table. -/
theorem insertCur_rehashing {after : Tables} {displaced : Option KvObj}
    (inserted : tables.insertCur h object = some (displaced, after))
    : after.rehashing = tables.rehashing := by
  obtain ⟨result, -, same⟩ := map_eq_some_iff.mp inserted
  cases same
  rfl

theorem modify_rehashing (tables : Tables) (h : BitVec 64) (key : Slice) (f : KvObj → KvObj)
    : (tables.modify h key f).rehashing = tables.rehashing := by
  simp only [modify]
  split
  · rfl
  · split
    · rfl
    · rename_i old there
      split
      · have isOld := there
        exact put_rehashing isOld
      · rfl

end Tables

namespace FlatStore

variable {env : StoreEnv}

/-- Sampling changes metadata and cursors, so it starts and ends no migration. -/
theorem sampling_rehashing
    : Sampling env (fun before after => after.rehashing = before.rehashing) where
  refl _ := rfl
  trans front back := back.trans front
  nextRandom _ := rfl
  cursorProbe _ := rfl
  randomHash _ _ _ := rfl
  modifyObject store _ _ _ _ := by
    rw [FlatStore.modifyObject]
    split
    · exact modify_rehashing _ _ _ _
    · rfl

theorem trackExpire_rehashing (store : FlatStore) (h : BitVec 64) (object : KvObj)
    : (store.trackExpire h object).rehashing = store.rehashing := by
  rw [FlatStore.rehashing, trackExpire_tables]
  rfl

/-- Nor do the stream of a capture and its marks. -/
theorem capturing_rehashing
    : Capturing (fun before after => after.rehashing = before.rehashing) where
  refl _ := rfl
  trans front back := back.trans front
  stream _ _ _ := rfl
  rewriteFrozen store slot mark := by
    rw [rewriteFrozen]
    split
    · rfl
    · rename_i old there
      have isOld := there
      exact put_rehashing isOld

variable {store : FlatStore}

/-- A store at rest is still at rest when its capture is prepared. -/
theorem snapshotPrepare_rehashing (still : store.rehashing ≠ true) (epoch : Nat) (cutMs : Int)
    : (store.snapshotPrepare env epoch cutMs).2.rehashing = store.rehashing := by
  simp only [snapshotPrepare]
  split
  · rfl
  · split
    · rfl
    · split
      · rfl
      · split
        · rfl
        · split
          · rfl
          · rfl

variable {h : BitVec 64}

theorem exchangeOut_rehashing {next : FlatStore}
    (taken : store.exchangeOut side h key = some (object, next))
    : next.rehashing = store.rehashing := by
  obtain ⟨⟨removed, tables⟩, located, same⟩ := map_eq_some_iff.mp taken
  cases same
  exact eraseIn_rehashing located

variable {placed : Option KvObj × FlatStore}

theorem exchangeIn_rehashing (exchanged : store.exchangeIn h object = some placed)
    : placed.2.rehashing = store.rehashing := by
  obtain ⟨⟨displaced, tables⟩, inserted, rfl⟩ := map_eq_some_iff.mp exchanged
  exact (trackExpire_rehashing _ _ _).trans (insertCur_rehashing inserted)

/-- An exchange starts and ends no migration, whichever table has the key. -/
theorem atomicExchangePhysical_rehashing {replacement : Option KvObj}
    (exchanged : store.atomicExchangePhysical h key replacement = some placed)
    : placed.2.rehashing = store.rehashing := by
  cases replacement with
  | none =>
    rw [atomicExchangePhysical] at exchanged
    split at exchanged
    · rename_i object next taken
      cases exchanged
      rcases or_eq_some_iff.mp taken with inCur | ⟨-, inOld⟩
      · exact exchangeOut_rehashing inCur
      · exact exchangeOut_rehashing inOld
    · cases exchanged
      rfl
  | some object =>
    simp only [atomicExchangePhysical] at exchanged
    split at exchanged
    · exact exchangeIn_rehashing exchanged
    · split at exchanged
      · rename_i removed next taken
        obtain ⟨last, inserted, rfl⟩ := map_eq_some_iff.mp exchanged
        exact (exchangeIn_rehashing inserted).trans (exchangeOut_rehashing taken)
      · exact exchangeIn_rehashing exchanged

end FlatStore

namespace ReadLocalStore

/-- The sink defers resizes, a running migration has its record, and the missing record of
`rehash_step_read_local` was never met.
-/
structure Reserved (store : ReadLocalStore) : Prop where
  sink : store.deferResize = true
  record : store.base.rehashing = true → store.resizeRetirement = true
  running : store.aborted = false

variable {env : StoreEnv} {store : ReadLocalStore}

/-- A change of the shared state that starts no migration. -/
theorem Reserved.withBase (reserved : store.Reserved) {base : FlatStore}
    (same : base.rehashing = store.base.rehashing) : (store.withBase base).Reserved :=
  { reserved with record := fun moving => reserved.record (same.symm.trans moving) }

/-- An object goes to the sink without a record. -/
theorem Reserved.retireObj (reserved : store.Reserved) (object : KvObj)
    : (store.retireObj object).Reserved :=
  { reserved with }

variable {next : ReadLocalStore}

/-- Asking the sink for room takes no record. -/
theorem Reserved.readRetirementAvailable (reserved : store.Reserved) {answer : Bool}
    (asked : store.readRetirementAvailable = (answer, next))
    : next.Reserved := by
  rw [Prod.mk.injEq] at asked
  rw [← asked.2]
  exact { reserved with }

-- Table operations

section

variable (reserved : store.Reserved)

include reserved

/-- A published object leaves the migration and its record alone. -/
theorem Reserved.insertInto {track : Bool} {after : ReadLocalStore}
    (inserted : store.insertInto h object track = some after) : after.Reserved := by
  obtain ⟨⟨displaced, tables⟩, placed, rfl⟩ := map_eq_some_iff.mp inserted
  have same := insertCur_rehashing placed
  dsimp only
  generalize (track && displaced.any (fun current =>
    current.deadlineElapsed store.base.cachedNowMs)) = expired
  have written : (store.withBase ({ store.base with tables }.countExpired
      expired)).Reserved := reserved.withBase same
  generalize store.withBase ({ store.base with tables }.countExpired expired) = next
    at written
  have tracked : (if track then next.withBase (next.base.trackExpire h object)
      else next).Reserved := by
    split
    · exact written.withBase (FlatStore.trackExpire_rehashing _ _ _)
    · exact written
  cases displaced with
  | none => exact tracked.withBase rfl
  | some current => exact (tracked.retireObj current).withBase rfl

/-- So does an erased one. -/
theorem Reserved.eraseIn {after : ReadLocalStore}
    (erased : store.eraseIn side h key = some (object, after)) : after.Reserved := by
  obtain ⟨⟨removed, tables⟩, located, same⟩ := map_eq_some_iff.mp erased
  cases same
  have kept := eraseIn_rehashing located
  have withdrawn : (store.withBase { store.base.untrackExpire h with
      tables }).Reserved := reserved.withBase kept
  exact withdrawn.retireObj removed

/-- A reservation keeps a record that is there, and granted it has one. -/
theorem Reserved.prepareResizeRetirement
    : store.prepareResizeRetirement.2.Reserved
      ∧ (store.prepareResizeRetirement.1 = true
        → store.prepareResizeRetirement.2.resizeRetirement = true) := by
  rw [ReadLocalStore.prepareResizeRetirement]
  split
  · rename_i held
    exact ⟨reserved, fun _ => held⟩
  · rename_i bare
    have idle : store.base.rehashing = true → False := fun moving => bare (reserved.record moving)
    exact ⟨{ reserved with record := fun moving => absurd moving idle }, id⟩

/-- A second table goes up only behind its record. -/
theorem Reserved.startRehash (newcap : Nat)
    : (store.startRehash newcap).2.Reserved := by
  rw [ReadLocalStore.startRehash]
  split
  · exact reserved
  · split
    · exact reserved.withBase rfl
    · rename_i rest granted
      have drawn : (store.withBase { store.base with allocations := rest }).Reserved :=
        reserved.withBase rfl
      obtain ⟨asked, held⟩ := drawn.prepareResizeRetirement
      split
      · rename_i next refused
        rw [refused] at asked
        exact asked
      · rename_i next given
        rw [given] at asked held
        exact { asked with record := fun _ => held rfl }

end

/-- The migration loop keeps the record and the table it drains. -/
theorem Reserved.moveSlots (count : Nat) (reserved : store.Reserved)
    : (store.moveSlots env count).1.Reserved
      ∧ (store.moveSlots env count).1.base.rehashing = store.base.rehashing := by
  fun_induction ReadLocalStore.moveSlots env count store with
  | case4 count store old there word slot placed stored ih =>
    have moving : store.base.rehashing = true := by
      simp [FlatStore.rehashing, rehashing, there]
    have kept : placed.resizeRetirement = store.resizeRetirement := by
      obtain ⟨⟨displaced, tables⟩, -, rfl⟩ := map_eq_some_iff.mp stored
      cases displaced with
      | none | some current => rfl
    obtain ⟨done, same⟩ := ih { reserved.insertInto stored with
      record := fun _ => kept.trans (reserved.record moving) }
    exact ⟨done, same.trans moving.symm⟩
  | case5 count store old there idle ih => exact ih (reserved.withBase rfl)
  | _ => exact ⟨reserved, rfl⟩

variable (reserved : store.Reserved) (moving : store.base.rehashing = true)

include reserved moving

/-- A migration that ends gives its record away, and it had one. -/
theorem Reserved.finishRehash
    : store.finishRehash.Reserved := by
  have held := reserved.record moving
  rw [ReadLocalStore.finishRehash]
  split
  · refine ⟨reserved.sink, fun still => ?_, ?_⟩
    · cases still
    · simp [reserved.running, held]
  · exact reserved

/-- A window keeps the record; the last one uses it and ends the migration. -/
theorem Reserved.rehashStep
    : (store.rehashStep env).Reserved := by
  rw [ReadLocalStore.rehashStep]
  generalize min (store.base.tables.rehashPos + kRehashSlotsPerOp) store.base.tables.oldCap
    - store.base.tables.rehashPos = count
  obtain ⟨moved, same⟩ := Reserved.moveSlots count reserved
  split
  · rename_i next stuck
    rw [stuck] at moved
    exact moved.withBase rfl
  · rename_i next done
    rw [done] at moved same
    exact moved.finishRehash (same.trans moving)

end ReadLocalStore

end Thredis.Store
