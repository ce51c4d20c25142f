import Thredis.Lib.Runs
import Thredis.Store.FlatExpiry
import Thredis.Store.ScanHomes

/-! Full iterations of the keyspace cursor. A key that shows is handed out when its home comes
up, and the homes passed are an initial segment of the bit-reversed order whatever sizes the
tables had when they were passed.
-/

namespace Thredis.Store
open Thredis.Lib ScanState

/-- The table has `2 ^ k` slots, within the 32 bits of a slot index. -/
structure Table.Bits (table : Table) (k : Nat) : Prop where
  cap : table.cap = 2 ^ k
  fits : k ≤ 31

namespace Table

variable {table : Table} {k : Nat}

theorem WellFormed.bits {hashKey : Slice → BitVec 64} (wf : table.WellFormed hashKey)
    : ∃ k, table.Bits k := by
  obtain ⟨k, cap⟩ := wf.pow
  exact ⟨k, cap, (Nat.pow_le_pow_iff_right (by omega)).mp (cap ▸ wf.fits)⟩

variable (bits : table.Bits k)

include bits

theorem Bits.scanMask : table.scanMask = lowMask 64 k := by
  rw [Table.scanMask, Table.mask, bits.cap, lowMask]

theorem Bits.mod_and_mask (n : Nat)
    : n % 2 ^ 32 &&& table.mask = n % 2 ^ k := by
  rw [Table.mask, bits.cap, Nat.and_two_pow_sub_one_eq_mod]
  exact Nat.mod_mod_of_dvd n (Nat.pow_dvd_pow 2 (Nat.le_succ_of_le bits.fits))

theorem Bits.slotStart (h : BitVec 64)
    : table.slotStart h = (mix64 h).toNat % 2 ^ k :=
  bits.mod_and_mask _

/-- The home slot a masked cursor names. -/
theorem Bits.and_lowMask (cursor : BitVec 64)
    : (cursor &&& lowMask 64 k).toNat % 2 ^ 32 = cursor.toNat % 2 ^ k := by
  have small : 2 ^ k ≤ 2 ^ 31 := Nat.pow_le_pow_right (by omega) bits.fits
  have mask : (lowMask 64 k).toNat = 2 ^ k - 1 := by
    exact Nat.mod_eq_of_lt (by omega)
  rw [BitVec.toNat_and, mask, Nat.and_two_pow_sub_one_eq_mod]
  exact Nat.mod_eq_of_lt ((Nat.mod_lt _ (Nat.two_pow_pos k)).trans (by omega))

theorem Bits.withered {now : Int} {later : Table} (withered : Withered now table later)
    : later.Bits k :=
  ⟨withered.cap.trans bits.cap, bits.fits⟩

end Table

-- One call

namespace ScanState

variable {env : StoreEnv} {expireOnVisit : Bool} {state : ScanState} {key : Slice}

def Emitted (state : ScanState) (key : Slice) : Prop := ∃ object ∈ state.emitted, object.key = key

def Ahead (env : StoreEnv) (state : ScanState) (key : Slice) : Prop :=
  bitOrder state.cursor ≤ bitOrder (mix64 (env.hashKey key))

/-- The homes of the key and of the cursor agree on `k` bits. -/
def Due (env : StoreEnv) (state : ScanState) (key : Slice) (k : Nat) : Prop :=
  AgreeBelow k (mix64 (env.hashKey key)) state.cursor

/-- The key has been handed out, or the cursor is on its way to it. -/
def Covers (env : StoreEnv) (state : ScanState) (key : Slice) : Prop :=
  state.Emitted key ∨ state.cursor ≠ 0#64 ∧ state.Ahead env key

theorem Emitted.visitHome (emitted : state.Emitted key) (side : Side) (home : Nat)
    : (state.visitHome env expireOnVisit side home).Emitted key := by
  obtain ⟨object, member, named⟩ := emitted
  exact ⟨object, List.mem_append_left _ member, named⟩

theorem withered_visitHome (sound : state.store.Sound env) (side : Side) (home : Nat)
    : FlatStore.Withered env state.store (state.visitHome env expireOnVisit side home).store :=
  sound.withered_scanHomeLoop side home _ home

variable {side large : Side} {table : Table} {k : Nat}

/-- The visit of the home the cursor names hands out a key that is due. -/
theorem visitHome_emits (sound : state.store.Sound env)
    {home : Nat} (there : state.store.tables.table side = some table) (bits : table.Bits k)
    (showing : state.store.Showing side key) (due : state.Due env key k)
    (named : home = state.cursor.toNat % 2 ^ k)
    : (state.visitHome env expireOnVisit side home).Emitted key := by
  have homed : table.slotStart (env.hashKey key) = home := by
    rw [bits.slotStart, named]
    exact (agreeBelow_iff_mod _ _).mp due
  obtain ⟨object, member, isKey⟩ := sound.scanHome_emits showing there homed
  exact ⟨object, List.mem_append_right _ member, isKey⟩

/-- Past a key that is not due, the cursor is still on its way to it. -/
theorem Ahead.advance (ahead : state.Ahead env key) (within : k ≤ 31)
    (early : ¬ state.Due env key k) : (state.advance (lowMask 64 k)).Covers env key := by
  have next := reverseNext_le (by omega : k ≤ 64) ahead early
  refine .inr ⟨?_, ?_⟩
  · rw [ScanState.advance, scanCursorNext_lowMask]
    exact next.1
  · rw [Ahead, ScanState.advance, scanCursorNext_lowMask]
    exact next.2

section

variable (sound : state.store.Sound env)

include sound

/-- A visit and the step past it hand out a key that shows where they look. -/
theorem visit_advance_covers {home : Nat} (there : state.store.tables.table side = some table)
    (bits : table.Bits k) (named : home = state.cursor.toNat % 2 ^ k) (pending : state.Emitted key
      ∨ state.Ahead env key ∧ (state.store.Showing side key ∨ ¬ state.Due env key k))
    : ((state.visitHome env expireOnVisit side home).advance (lowMask 64 k)).Covers env key := by
  rcases pending with emitted | ⟨ahead, looks⟩
  · exact .inl (emitted.visitHome side home)
  · by_cases due : state.Due env key k
    · have showing := looks.resolve_right (fun early => early due)
      exact .inl (visitHome_emits sound there bits showing due named)
    · have passed : (state.visitHome env expireOnVisit side home).Ahead env key := ahead
      exact passed.advance bits.fits due

/-- One turn of the inner loop. -/
theorem visitLarge_covers {ks kl : Nat} (nested : ks ≤ kl)
    (there : state.store.tables.table large = some table) (bits : table.Bits kl)
    (pending : state.Emitted key
      ∨ state.Ahead env key ∧ (state.store.Showing large key ∨ ¬ state.Due env key ks))
    : (state.visitLarge env expireOnVisit large (lowMask 64 kl)).Covers env key := by
  refine visit_advance_covers sound there bits (bits.and_lowMask _) (pending.imp_right ?_)
  refine fun ⟨ahead, looks⟩ => ⟨ahead, looks.imp_right (fun early due => early ?_)⟩
  exact fun j below => due j (below.trans_le nested)

theorem withered_sweepLarge (large : Side) (smallMask largeMask : BitVec 64) (turns : Nat)
    : FlatStore.Withered env state.store
        (state.sweepLarge env expireOnVisit large smallMask largeMask turns).store := by
  induction turns generalizing state with
  | zero => exact .of_same sound rfl rfl
  | succ turns ih =>
    have visited : FlatStore.Withered env state.store
        (state.visitLarge env expireOnVisit large largeMask).store :=
      withered_visitHome sound large _
    rw [sweepLarge_turn]
    split
    · exact visited.trans (ih visited.sound)
    · exact visited

/-- The inner loop hands out a key of the larger table, and a key of another home of the
smaller one stays ahead.
Witness: induction over the turns; each turn but the last stays within the smaller table's
home.
-/
theorem sweepLarge_covers {ks kl turns : Nat} (nested : ks ≤ kl)
    (there : state.store.tables.table large = some table) (bits : table.Bits kl)
    (pending : state.Emitted key
      ∨ state.Ahead env key ∧ (state.store.Showing large key ∨ ¬ state.Due env key ks))
    : (state.sweepLarge env expireOnVisit large (lowMask 64 ks) (lowMask 64 kl)
        (turns + 1)).Covers env key := by
  induction turns generalizing state table with
  | zero =>
    rw [sweepLarge_turn]
    have covers : (state.visitLarge env expireOnVisit large (lowMask 64 kl)).Covers env key :=
      visitLarge_covers sound nested there bits pending
    split
    · exact covers
    · exact covers
  | succ turns ih =>
    have covers : (state.visitLarge env expireOnVisit large (lowMask 64 kl)).Covers env key :=
      visitLarge_covers sound nested there bits pending
    have visited : FlatStore.Withered env state.store
        (state.visitLarge env expireOnVisit large (lowMask 64 kl)).store :=
      withered_visitHome sound large _
    have cursor : (state.visitLarge env expireOnVisit large (lowMask 64 kl)).cursor
        = reverseNext kl state.cursor := scanCursorNext_lowMask state.cursor kl
    obtain ⟨later, thereLater, wither⟩ := visited.table large table there
    rw [sweepLarge_turn]
    split
    · rename_i inside
      rw [cursor] at inside
      have within : kl ≤ 64 := bits.fits.trans (by decide)
      have stays := (reverseNext_within nested within inside).1
      refine ih visited.sound thereLater (bits.withered wither) ?_
      rcases covers with emitted | ⟨-, ahead⟩
      · exact .inl emitted
      · rcases pending with emitted | ⟨-, showing | early⟩
        · exact .inl (emitted.visitHome large _)
        · exact .inr ⟨ahead, .inl (visited.showing showing)⟩
        · refine .inr ⟨ahead, .inr (fun due => early (fun j below => ?_))⟩
          rw [due j below, cursor, stays j below]
    · exact covers

theorem withered_sweepBoth (small large : Side) (smallTable largeTable : Table)
    : FlatStore.Withered env state.store
        (state.sweepBoth env expireOnVisit small large smallTable largeTable).store := by
  have first : FlatStore.Withered env state.store (state.visitHome env expireOnVisit small
      ((state.cursor &&& smallTable.scanMask).toNat % 2 ^ 32)).store :=
    withered_visitHome sound small _
  exact first.trans (withered_sweepLarge first.sound large _ _ _)

/-- A turn over two tables hands out a key of either that is due, and passes no other. -/
theorem sweepBoth_covers {small : Side} {smallTable largeTable : Table}
    (thereSmall : state.store.tables.table small = some smallTable)
    (thereLarge : state.store.tables.table large = some largeTable)
    (smaller : smallTable.cap < largeTable.cap) (ahead : state.Ahead env key)
    (showing : state.store.Showing small key ∨ state.store.Showing large key)
    : (state.sweepBoth env expireOnVisit small large smallTable largeTable).Covers env key := by
  obtain ⟨ks, bitsSmall⟩ := (Tables.WellFormed.table sound thereSmall).bits
  obtain ⟨kl, bitsLarge⟩ := (Tables.WellFormed.table sound thereLarge).bits
  have nested : ks ≤ kl := by
    rw [bitsSmall.cap, bitsLarge.cap] at smaller
    exact Nat.le_of_lt ((Nat.pow_lt_pow_iff_right (by omega)).mp smaller)
  have turns : largeTable.cap = (2 ^ kl - 1) + 1 := by
    rw [bitsLarge.cap, Nat.sub_add_cancel (Nat.two_pow_pos kl)]
  rw [sweepBoth, turns, bitsSmall.scanMask, bitsLarge.scanMask]
  have first : FlatStore.Withered env state.store (state.visitHome env expireOnVisit small
      ((state.cursor &&& lowMask 64 ks).toNat % 2 ^ 32)).store :=
    withered_visitHome sound small _
  obtain ⟨later, thereLater, wither⟩ := first.table large largeTable thereLarge
  refine sweepLarge_covers first.sound nested thereLater (bitsLarge.withered wither) ?_
  rcases showing with inSmall | inLarge
  · by_cases due : state.Due env key ks
    · exact .inl (visitHome_emits sound thereSmall bitsSmall inSmall due (bitsSmall.and_lowMask _))
    · exact .inr ⟨ahead, .inr due⟩
  · exact .inr ⟨ahead, .inl (first.showing inLarge)⟩

theorem withered_turn
    : FlatStore.Withered env state.store (state.turn env expireOnVisit).store := by
  rw [turn]
  split
  · exact withered_visitHome sound .cur _
  · split
    · have first : FlatStore.Withered env state.store (state.visitHome env expireOnVisit .cur
          (state.cursor.toNat % 2 ^ 32 &&& state.store.tables.cur.mask)).store :=
        withered_visitHome sound .cur _
      exact first.trans (withered_visitHome first.sound .old _)
    · split
      · exact withered_sweepBoth sound ..
      · exact withered_sweepBoth sound ..

/-- Every turn hands out a shown key that is due, and passes no other.
Witness: the three shapes of a turn, by the tables there are.
-/
theorem turn_covers (ahead : state.Ahead env key) (showing : state.store.Showing side key)
    : (state.turn env expireOnVisit).Covers env key := by
  obtain ⟨k, bits⟩ := sound.cur.bits
  rw [turn, bits.scanMask]
  split
  · rename_i none
    cases side with
    | cur =>
      exact visit_advance_covers sound rfl bits (bits.mod_and_mask _) (.inr ⟨ahead, .inl showing⟩)
    | old =>
      obtain ⟨table, -, -, there, -⟩ := showing
      cases there.symm.trans none
  · rename_i old there
    split
    · rename_i sameMask
      have first : FlatStore.Withered env state.store (state.visitHome env expireOnVisit .cur
          (state.cursor.toNat % 2 ^ 32 &&& state.store.tables.cur.mask)).store :=
        withered_visitHome sound .cur _
      obtain ⟨later, thereLater, wither⟩ := first.table .old old there
      have bitsOld : old.Bits k := by
        have minCur := sound.cur.minimum
        have minOld := (sound.old old there).minimum
        simp only [Table.mask] at sameMask
        simp only [kMinCap] at minCur minOld
        exact ⟨by rw [← bits.cap]; omega, bits.fits⟩
      refine visit_advance_covers first.sound thereLater (bitsOld.withered wither)
        (bits.mod_and_mask _) ?_
      cases side with
      | cur =>
        by_cases due : state.Due env key k
        · exact .inl (visitHome_emits sound rfl bits showing due (bits.mod_and_mask _))
        · exact .inr ⟨ahead, .inr due⟩
      | old => exact .inr ⟨ahead, .inl (first.showing showing)⟩
    · rename_i masks
      split
      · rename_i smaller
        refine sweepBoth_covers sound rfl there smaller ahead ?_
        cases side with
        | cur => exact .inl showing
        | old => exact .inr showing
      · have smaller : old.cap < state.store.tables.cur.cap := by
          simp only [Table.mask] at masks
          omega
        refine sweepBoth_covers sound there rfl smaller ahead ?_
        cases side with
        | cur => exact .inr showing
        | old => exact .inl showing

end

theorem Emitted.sweepLarge (emitted : state.Emitted key) (large : Side)
    (smallMask largeMask : BitVec 64) (turns : Nat)
    : (state.sweepLarge env expireOnVisit large smallMask largeMask turns).Emitted key := by
  induction turns generalizing state with
  | zero => exact emitted
  | succ turns ih =>
    have visited : (state.visitLarge env expireOnVisit large largeMask).Emitted key :=
      emitted.visitHome large _
    rw [sweepLarge_turn]
    split
    · exact ih visited
    · exact visited

theorem Emitted.turn (emitted : state.Emitted key)
    : (state.turn env expireOnVisit).Emitted key := by
  rw [ScanState.turn]
  split
  · exact emitted.visitHome .cur _
  · split
    · exact (emitted.visitHome .cur _).visitHome .old _
    · split
      · exact (emitted.visitHome .cur _).sweepLarge ..
      · exact (emitted.visitHome .old _).sweepLarge ..

theorem withered_loop (sound : state.store.Sound env) (count turns : Nat)
    : FlatStore.Withered env state.store (state.loop env expireOnVisit count turns).store := by
  induction turns generalizing state with
  | zero => exact .of_same sound rfl rfl
  | succ turns ih =>
    have first : FlatStore.Withered env state.store (state.turn env expireOnVisit).store :=
      withered_turn sound
    rw [loop_turn]
    split
    · exact first.trans (ih first.sound)
    · exact first

/-- The loop hands a shown key out or ends on its way to it.
Witness: induction over the turns; the key keeps showing.
-/
theorem loop_covers (sound : state.store.Sound env)
    (pending : state.Emitted key ∨ state.Ahead env key)
    (showing : state.store.Showing side key) (count turns : Nat)
    : (state.loop env expireOnVisit count (turns + 1)).Covers env key := by
  induction turns generalizing state with
  | zero =>
    have covers : (state.turn env expireOnVisit).Covers env key :=
      pending.elim (fun emitted => .inl emitted.turn) (fun ahead => turn_covers sound ahead showing)
    rw [loop_turn]
    split
    · exact covers
    · exact covers
  | succ turns ih =>
    have covers : (state.turn env expireOnVisit).Covers env key :=
      pending.elim (fun emitted => .inl emitted.turn) (fun ahead => turn_covers sound ahead showing)
    have first : FlatStore.Withered env state.store (state.turn env expireOnVisit).store :=
      withered_turn sound
    rw [loop_turn]
    split
    · exact ih first.sound (covers.imp_right (fun onWay => onWay.2)) (first.showing showing)
    · exact covers

end ScanState

namespace FlatStore

variable {env : StoreEnv} {store : FlatStore} {key : Slice}

variable (sound : store.Sound env)

include sound

/-- A key that reads as present shows in one of the tables. -/
theorem Sound.showing_of_live (shown : store.live env key ≠ none)
    : ∃ side, store.Showing side key := by
  obtain ⟨object, found⟩ := Option.ne_none_iff_exists'.mp shown
  obtain ⟨present, fresh⟩ := Option.filter_eq_some_iff.mp found
  obtain ⟨held, member, named, rfl⟩ := (sound.content_iff key object).mp present
  have unexpired : held.deadlineElapsed store.cachedNowMs = false := by simpa using fresh
  rcases Tables.mem_objects.mp member with inCur | ⟨table, there, inOld⟩
  · obtain ⟨word, placed, rfl⟩ := Table.mem_objects.mp inCur
    obtain ⟨index, slot⟩ := List.mem_iff_getElem?.mp placed
    exact ⟨.cur, _, index, word, rfl, slot, named, unexpired⟩
  · obtain ⟨word, placed, rfl⟩ := Table.mem_objects.mp inOld
    obtain ⟨index, slot⟩ := List.mem_iff_getElem?.mp placed
    exact ⟨.old, table, index, word, there, slot, named, unexpired⟩

/-- Starting a grow keeps the tables well-formed; during a migration it does nothing. -/
theorem Sound.startGrow
    : store.maybeStartGrow.2.Sound env := by
  by_cases still : store.tables.old = none
  · exact (sound.maybeStartGrow still).1.sound
  · have moving : store.rehashing = true := Option.isSome_iff_ne_none.mpr still
    simp only [FlatStore.maybeStartGrow, FlatStore.startRehash]
    split
    · exact sound
    · split
      · exact sound
      · split
        · exact sound
        · exact sound

/-- One call hands a shown key out, or returns a cursor on its way to it. -/
theorem Sound.scan_covers {cursor : BitVec 64}
    (ahead : bitOrder cursor ≤ bitOrder (mix64 (env.hashKey key)))
    (shown : store.live env key ≠ none) (count : Nat) (expireOnVisit : Bool)
    : (store.scan env cursor count expireOnVisit).Covers env key := by
  obtain ⟨side, showing⟩ := sound.showing_of_live shown
  have soundStart : (start store cursor).store.Sound env := sound
  exact loop_covers soundStart (.inr ahead) showing count count

theorem Sound.withered_scan (cursor : BitVec 64) (count : Nat) (expireOnVisit : Bool)
    : Withered env store (store.scan env cursor count expireOnVisit).store :=
  have soundStart : (start store cursor).store.Sound env := sound
  withered_loop soundStart count (count + 1)

end FlatStore

-- Iterations

/-- What happens during an iteration: calls with the cursor of the last one, and what the
owner does to the tables in between. A migration completes with its last step.
-/
inductive ScanEvent where
  | scan (count : Nat) (expireOnVisit : Bool)
  | insert (object : KvObj)
  | erase (key : Slice)
  | rehashStep
  | startGrow
  | startShrink
  | tick (ms : Nat)
  deriving DecidableEq, Repr

/-- The store, the cursor the last call returned, and everything handed out so far. -/
structure Iteration where
  store : FlatStore
  cursor : BitVec 64
  emitted : List KvObj
  deriving DecidableEq

def Iteration.begin (store : FlatStore) : Iteration :=
  { store := store, cursor := 0#64, emitted := [] }

def Iteration.resume (iteration : Iteration) (call : ScanState) : Iteration :=
  { store := call.store, cursor := call.cursor, emitted := iteration.emitted ++ call.emitted }

def iterationStep (env : StoreEnv) (iteration : Iteration) : ScanEvent → Option Iteration
  | .scan count expireOnVisit =>
    some (iteration.resume (iteration.store.scan env iteration.cursor count expireOnVisit))
  | .insert object =>
    some { iteration with store := (iteration.store.insert env (env.hashKey object.key) object).2 }
  | .erase key =>
    some { iteration with store := (iteration.store.erase env (env.hashKey key) key).2 }
  | .rehashStep => some { iteration with store := iteration.store.rehashStep env }
  | .startGrow => some { iteration with store := iteration.store.maybeStartGrow.2 }
  | .startShrink => some { iteration with store := iteration.store.maybeStartShrink }
  | .tick ms =>
    some { iteration with
           store := iteration.store.setCachedNowMs (iteration.store.cachedNowMs + ms) }

def Stays (env : StoreEnv) (key : Slice) (iteration : Iteration) : ScanEvent → Prop
  | .scan _ _ => iteration.store.live env key ≠ none
  | _ => True

instance Stays.decidable (env : StoreEnv) (key : Slice) (iteration : Iteration)
    (event : ScanEvent) : Decidable (Stays env key iteration event) :=
  match event with
  | .scan _ _ => inferInstanceAs (Decidable (_ ≠ none))
  | .insert _ | .erase _ | .rehashStep | .startGrow | .startShrink | .tick _ => .isTrue trivial

namespace Iteration

variable {env : StoreEnv} {key : Slice}

/-- The key has been handed out, or the cursor has neither passed it nor come back to zero. -/
structure Covers (env : StoreEnv) (key : Slice) (iteration : Iteration) : Prop where
  sound : iteration.store.Sound env
  pending : (∃ object ∈ iteration.emitted, object.key = key)
    ∨ iteration.cursor ≠ 0#64
      ∧ bitOrder iteration.cursor ≤ bitOrder (mix64 (env.hashKey key))

/-- A call that sees the key hands it out, or returns a cursor on its way to it. -/
theorem covers_scan {iteration : Iteration} (sound : iteration.store.Sound env)
    (pending : (∃ object ∈ iteration.emitted, object.key = key)
      ∨ bitOrder iteration.cursor ≤ bitOrder (mix64 (env.hashKey key)))
    (shown : iteration.store.live env key ≠ none) (count : Nat) (expireOnVisit : Bool)
    : (iteration.resume
        (iteration.store.scan env iteration.cursor count expireOnVisit)).Covers env key := by
  refine ⟨(sound.withered_scan iteration.cursor count expireOnVisit).sound, ?_⟩
  rcases pending with ⟨object, member, named⟩ | ahead
  · exact .inl ⟨object, List.mem_append_left _ member, named⟩
  · rcases sound.scan_covers ahead shown count expireOnVisit with ⟨object, member, named⟩ | onWay
    · exact .inl ⟨object, List.mem_append_right _ member, named⟩
    · exact .inr onWay

theorem Covers.step {iteration next : Iteration} {event : ScanEvent}
    (covers : iteration.Covers env key) (stays : Stays env key iteration event)
    (stepped : iterationStep env iteration event = some next) : next.Covers env key := by
  have sound := covers.sound
  cases event with
  | scan count expireOnVisit =>
    cases stepped
    exact covers_scan sound (covers.pending.imp_right (fun onWay => onWay.2)) stays count
      expireOnVisit
  | insert object =>
    cases stepped
    obtain ⟨gone, effect⟩ := sound.insert object
    exact ⟨effect.sound, covers.pending⟩
  | erase target =>
    cases stepped
    exact ⟨(sound.erase target).1.sound, covers.pending⟩
  | rehashStep =>
    cases stepped
    exact ⟨sound.rehashStep.sound, covers.pending⟩
  | startGrow =>
    cases stepped
    exact ⟨sound.startGrow, covers.pending⟩
  | startShrink =>
    cases stepped
    exact ⟨sound.maybeStartShrink.1.sound, covers.pending⟩
  | tick ms =>
    cases stepped
    exact ⟨sound, covers.pending⟩

/-- A full iteration, from cursor zero until zero is returned, hands out every key that is
there, unexpired, at each of its calls, whatever the counts and whatever is inserted, erased,
migrated, grown or shrunk in between.
-/
theorem full_scan_emits (env : StoreEnv) {store : FlatStore} (sound : store.Sound env)
    (key : Slice) (count : Nat) (expireOnVisit : Bool) (events : List ScanEvent)
    {final : Iteration} (stays : EachStep (iterationStep env) (Stays env key) (.begin store)
      (.scan count expireOnVisit :: events))
    (ran : run (iterationStep env) (.begin store) (.scan count expireOnVisit :: events)
      = some final)
    (complete : final.cursor = 0#64)
    : ∃ object ∈ final.emitted, object.key = key := by
  obtain ⟨next, stepped, rest⟩ := run_cons ran
  obtain ⟨shown, staysRest⟩ := stays
  cases stepped
  have first : Covers env key (resume (.begin store) (store.scan env 0#64 count expireOnVisit)) :=
    covers_scan sound (.inr (by rw [Iteration.begin, bitOrder_zero]; exact Nat.zero_le _)) shown
      count expireOnVisit
  have covers : final.Covers env key :=
    run_invariant_of_eachStep (fun _ _ _ covers => covers.step)
      first staysRest rest
  exact covers.pending.resolve_right (fun onWay => onWay.1 complete)

def oneKeyStore : FlatStore :=
  ((FlatStore.init 128 .off 1#64).insert (.boot 0#64) (hashKeyMix 0#64 [7])
    (stringObject 1 [7] [])).2

/-- Behind the first homes the table shrinks; an insert and a step move part of it. -/
def shortIteration : List ScanEvent :=
  [.startShrink, .insert (stringObject 2 [9] []), .rehashStep, .scan 200 true]

theorem full_scan_emits_one_key
    : oneKeyStore.Sound (.boot 0#64)
      ∧ ∃ final, run (iterationStep (.boot 0#64)) (.begin oneKeyStore)
          (.scan 8 true :: shortIteration) = some final
        ∧ final.store.rehashing = true ∧ final.cursor = 0#64
        ∧ ∃ object ∈ final.emitted, object.key = [7] := by
  have sound : oneKeyStore.Sound (.boot 0#64) := by
    have empty : (FlatStore.init 128 .off 1#64).Sound (.boot 0#64) :=
      .empty ⟨7, by decide⟩ (by decide) (by decide)
    obtain ⟨gone, effect⟩ := empty.insert (stringObject 1 [7] [])
    exact effect.sound
  have zero : ((run (iterationStep (.boot 0#64)) (.begin oneKeyStore)
      (.scan 8 true :: shortIteration)).map fun final => (final.store.rehashing, final.cursor))
        = some (true, 0#64) := by decide +kernel
  obtain ⟨final, ran, ends⟩ := Option.map_eq_some_iff.mp zero
  obtain ⟨moving, complete⟩ := Prod.mk.inj ends
  exact ⟨sound, final, ran, moving, complete,
    full_scan_emits (.boot 0#64) sound [7] 8 true shortIteration (by decide +kernel) ran complete⟩

end Iteration

end Thredis.Store
