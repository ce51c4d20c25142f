import Thredis.Store.LedgerWrites

/-! Changes of a resident object in place, changes of its deadline, the flush and the
exchange of a pending record: each brings both ledgers along.
-/

namespace Thredis.Store
open Option Tables.WellFormed KvObj

namespace FlatStore

variable {env : StoreEnv} {store before after : FlatStore}
variable {key : Slice} {object : KvObj}

section

variable (exact : store.Exact env) (held : store.content env key = some object.bare)

include exact held

/-- The index holds the hash of a resident key exactly when its object carries a deadline. -/
theorem Exact.holds_iff
    : store.expires.Holds (env.hashKey key) ↔ 0 ≤ object.deadline := by
  obtain ⟨resident, member, rfl, same⟩ := (exact.sound.content_iff key object.bare).mp held
  have dated : resident.deadline = object.deadline := by
    rw [← bare_deadline, same, bare_deadline]
  rw [exact.tracked, ← dated]
  constructor
  · rintro ⟨other, was, hashes, dated⟩
    have named := exact.distinct other was resident member hashes
    rwa [object_unique exact.sound was member named] at dated
  · exact fun dated => ⟨resident, member, rfl, dated⟩

/-- A change through a pointer to the object of a key, with both ledgers brought along. -/
theorem Exact.modified {f : KvObj → KvObj} (named : ∀ held, (f held).key = held.key)
    (bare : ∀ held, (f held).bare = f held.bare)
    (tables : after.tables = (store.modifyObject (env.hashKey key) key object f).tables)
    (bytes : after.ledger.objBytes + kvobjSize object
      = store.ledger.objBytes + kvobjSize (f object)) (wf : after.expires.WellFormed)
    (index : ∀ h, after.expires.Holds h
      ↔ if h = env.hashKey key then 0 ≤ (f object).deadline else store.expires.Holds h)
    : after.Exact env := by
  obtain ⟨resident, found, same⟩ := map_eq_some_iff.mp held
  obtain ⟨member, isKey⟩ := (resident_iff exact.sound key resident).mp found
  have addr : resident.bare.addr = object.bare.addr := by rw [same]
  have facts := modify_some exact.sound found f (named resident)
  have changed : (f resident).bare = (f object).bare := by rw [bare, bare, same]
  have size : kvobjSize resident = kvobjSize object := by
    rw [← bare_size, same, bare_size]
  have size' : kvobjSize (f resident) = kvobjSize (f object) := by
    rw [← bare_size, changed, bare_size]
  have dated : (f resident).deadline = (f object).deadline := by
    rw [← bare_deadline, changed, bare_deadline]
  have shape : after.tables = store.tables.modify (env.hashKey key) key f := by
    rw [tables, FlatStore.modifyObject, if_pos (by simpa [found] using addr)]
  rw [← shape] at facts
  have sum := facts.residentBytes exact.sound member (named resident)
  have account := exact.bytes
  refine exact.replaced facts.wellFormed (by rw [named]; exact facts.holds) (by omega) ?_ wf ?_
  · refine exact.distinct.mono (fun other after => ?_)
    rcases (facts.holds other).mp after with rfl | ⟨was, -⟩
    · exact ⟨resident, member, (named resident).symm⟩
    · exact ⟨other, was, rfl⟩
  · rw [named, isKey, dated]
    exact index

end

theorem kvobjSize_setExpireAtMs (object : KvObj) (at_ms : Int)
    : kvobjSize (object.setExpireAtMs at_ms) = kvobjSize object := by
  simp [kvobjSize, kvobjCapacity, kvobjExternalBytes, hasTtlSlot, setExpireAtMs]

theorem undated_persisted (object : KvObj)
    : (object.setExpireAtMs kNoTtlDeadline).deadline < 0 := by
  obtain ⟨addr, key, type, enc, value, backing, slot, bits⟩ := object
  cases slot with
  | none | some at_ms => exact (by decide : kNoTtlDeadline < 0)

theorem Exact.size_le (exact : store.Exact env) (held : store.content env key = some object.bare)
    : kvobjSize object ≤ store.ledger.objBytes := by
  obtain ⟨resident, member, -, same⟩ := (exact.sound.content_iff key object.bare).mp held
  rw [exact.bytes, ← bare_size, ← same, bare_size]
  exact Tables.kvobjSize_le_residentBytes member

theorem Exact.overwriteValue (exact : store.Exact env)
    (value : Slice) (held : store.content env key = some object.bare)
    : (store.overwriteValue (env.hashKey key) key object value).Exact env := by
  have untouched : (store.overwriteValue (env.hashKey key) key object value).expires
      = store.expires := (modifyObject_ledgers _ _ _ _ _).1
  refine exact.modified (f := fun held => { held with value }) held (fun _ => rfl)
    (fun _ => rfl) rfl ?_ (by rw [untouched]; exact exact.index) (fun h => ?_)
  · have covered := exact.size_le held
    show (if value.length = object.value.length then store.ledger else _ : Ledger).objBytes
      + kvobjSize object = _
    split
    · rename_i length
      simp [kvobjSize, kvobjCapacity, kvobjExternalBytes, hasTtlSlot, length]
    · show store.ledger.objBytes - kvobjSize object + _ + _ = _
      omega
  · rw [untouched]
    split
    · rename_i same
      have dated := exact.holds_iff held
      rw [same]
      exact dated
    · exact .rfl

theorem Accounted.tryOverwrite (store : FlatStore) (key value : Slice)
    : Accounted env store (store.tryOverwrite env (env.hashKey key) key value).2 := by
  intro exact _ _
  have looked := exact.sound.findWithoutTouch key
  have trimmed : Trimmed env store (store.findWithoutTouch (env.hashKey key) key).2 :=
    .findWithoutTouch store key
  rw [FlatStore.tryOverwrite]
  split
  · rename_i next missed
    rw [missed] at trimmed
    exact trimmed.exact exact
  · rename_i object next hit
    rw [hit] at looked
    obtain ⟨rfl, -, held⟩ := looked.live
    split
    · exact exact
    · split
      · dsimp only
        generalize bytes : goodSize (kvobjAllocSize object.key.length value.length false .raw) = n
        obtain ⟨gone, evicted⟩ := exact.sound.makeRoomFor key n
        have room : Trimmed env next (next.makeRoomFor env key n).2 := .makeRoomFor next key n
        split
        · rename_i after refused
          rw [refused] at room
          exact room.exact exact
        · rename_i ready granted
          rw [granted] at evicted room
          have spared : key ∉ gone := fun member => (evicted.evictable key member).1 rfl
          obtain ⟨sampled, bare⟩ := evicted.tended.sound.touch key object
          have tended := evicted.tended.trans sampled.tended
          have touched := room.trans (sampling_trimmed.touch ready key object)
          refine (touched.exact exact).overwriteValue value ?_
          rw [tended.content, List.append_nil, if_neg spared, bare, held]
      · exact exact.overwriteValue value held

/-- `find` resolves a key to its resident object or to nothing. Without pending records it
always does; a plain write of a recorded key first makes its own version resident.
-/
def ResolvesResident (env : StoreEnv) (store : FlatStore) (key : Slice) : Prop :=
  store.atomics.entries = []
  ∨ store.atomicResolve env (env.hashKey key) key store.atomics.readEpoch = none
  ∨ store.atomicResolve env (env.hashKey key) key store.atomics.readEpoch
    = store.tables.resident (env.hashKey key) key

instance (env : StoreEnv) (store : FlatStore) (key : Slice)
    : Decidable (store.ResolvesResident env key) :=
  inferInstanceAs (Decidable (_ ∨ _ ∨ _))

/-- What `find` hands out is the object of its key, up to the metadata of the access. -/
theorem Sound.find_held (sound : store.Sound env)
    (settled : store.ResolvesResident env key) {next : FlatStore}
    (hit : store.find env (env.hashKey key) key = (some object, next))
    : next.content env key = some object.bare := by
  have found := sound.find key
  rw [hit] at found
  obtain ⟨tended, -⟩ := found.kept
  rw [tended.content]
  simp only [List.not_mem_nil, if_false]
  rcases settled with none | resolved
  · exact live_content (found.answer none).symm
  · -- with records the value is the resolver's, and the access only touches it
    by_cases none : store.atomics.entries = []
    · exact live_content (found.answer none).symm
    have pending : store.atomics.entries.isEmpty = false := by simpa using none
    rw [FlatStore.find, FlatStore.findValue, pending] at hit
    simp only [Bool.false_eq_true, if_false] at hit
    cases value : store.atomicResolve env (env.hashKey key) key store.atomics.readEpoch with
    | none => simp [value] at hit
    | some version =>
      rw [value] at hit resolved
      have resident : store.tables.resident (env.hashKey key) key = some version := by
        exact (resolved.resolve_left (by simp)).symm
      rw [FlatStore.content, resident, map_some]
      dsimp only at hit
      split at hit
      · obtain ⟨-, bare⟩ := sound.touch key version
        cases hit
        rw [bare]
      · cases hit
        rfl

theorem Accounted.rewriteExpire (store : FlatStore) (old : KvObj) (addr : Nat) (expireAtMs : Int)
    : Accounted env store
        (store.rewriteExpire env (env.hashKey old.key) old addr expireAtMs).2 := by
  rw [FlatStore.rewriteExpire]
  split
  · exact Trimmed.accounted (.of_same rfl rfl rfl rfl)
  · rename_i rest granted
    have drawn : Trimmed env store { store with allocations := rest } := .of_same rfl rfl rfl rfl
    dsimp only
    generalize shape : (if store.maxmemory.enabled
      then (kvobjReheader old addr expireAtMs).setEvictionMeta old.evictionMeta
      else kvobjReheader old addr expireAtMs) = replacement
    have named : replacement.key = old.key := by
      rw [← shape]
      split
      · rfl
      · rfl
    rw [← named]
    exact drawn.before_accounted (.insert _ replacement)

/-- A deadline set in place, and tracked. -/
theorem Accounted.redate (at_ms : Int)
    (held : store.Exact env → store.content env key = some object.bare)
    : Accounted env store ((store.modifyObject (env.hashKey key) key object
          (fun held => held.setExpireAtMs at_ms)).trackExpire (env.hashKey key)
            (object.setExpireAtMs at_ms)) := by
  intro exact distinct took
  obtain ⟨index, refused, ledger⟩ := modifyObject_ledgers store (env.hashKey key) key object
    (fun held => held.setExpireAtMs at_ms)
  obtain ⟨wf, holds⟩ := trackExpire_index (by rw [index]; exact exact.index) (env.hashKey key)
    (object.setExpireAtMs at_ms) (took.trans refused.symm)
  refine exact.modified (f := fun held => held.setExpireAtMs at_ms) (held exact) (fun _ => rfl)
    (fun _ => rfl) (trackExpire_tables _ _ _) ?_ wf (by rw [← index]; exact holds)
  rw [trackExpire_ledger, ledger, kvobjSize_setExpireAtMs]

/-- Dating a key keeps the ledgers, by what the lookup leaves. -/
theorem Accounted.setExpire (settled : store.ResolvesResident env key) (addr : Nat)
    (expireAtMs : Int)
    : Accounted env store (store.setExpire env (env.hashKey key) key addr expireAtMs).2 := by
  have trimmed : Trimmed env store (store.find env (env.hashKey key) key).2 := .find store key
  intro exact
  rw [FlatStore.setExpire]
  split
  · rename_i next missed
    rw [missed] at trimmed
    exact trimmed.accounted exact
  · rename_i old next hit
    have held := exact.sound.find_held settled hit
    rw [hit] at trimmed
    split
    · exact trimmed.before_accounted (.redate expireAtMs (fun _ => held)) exact
    · obtain ⟨resident, -, named, same⟩ :=
        ((trimmed.exact exact).sound.content_iff key old.bare).mp held
      have isKey : old.key = key := by
        rw [← bare_key, ← same, bare_key, named]
      rw [← isKey]
      exact trimmed.before_accounted (.rewriteExpire next old addr expireAtMs) exact

theorem Accounted.persist (settled : store.ResolvesResident env key)
    : Accounted env store (store.persist env (env.hashKey key) key).2 := by
  have trimmed : Trimmed env store (store.find env (env.hashKey key) key).2 := .find store key
  intro exact distinct took
  rw [FlatStore.persist] at distinct took ⊢
  split
  · rename_i next missed
    rw [missed] at trimmed
    exact trimmed.exact exact
  · rename_i old next hit
    have held := exact.sound.find_held settled hit
    rw [hit] at trimmed
    split
    · exact trimmed.exact exact
    · have ready := trimmed.exact exact
      obtain ⟨index, -, ledger⟩ := modifyObject_ledgers next (env.hashKey key) key old
        (fun held => held.setExpireAtMs kNoTtlDeadline)
      obtain ⟨wf, holds⟩ := ready.index.erase (env.hashKey key)
      refine ready.modified (f := fun held => held.setExpireAtMs kNoTtlDeadline) held
        (fun _ => rfl) (fun _ => rfl) rfl ?_ ?_ (fun h => ?_)
      · show (next.modifyObject _ _ _ _).ledger.objBytes + _ = _
        rw [ledger, kvobjSize_setExpireAtMs]
      · show ((next.modifyObject _ _ _ _).expires.erase _).2.WellFormed
        rw [index]
        exact wf
      · show ((next.modifyObject _ _ _ _).expires.erase _).2.Holds h ↔ _
        rw [index, holds]
        split
        · rename_i same
          simp [same, undated_persisted]
        · rename_i apart
          simp [apart]

theorem foldl_retire_objBytes (objects : List KvObj) (ledger : Ledger)
    : (objects.foldl Ledger.retire ledger).objBytes
      = ledger.objBytes - (objects.map kvobjSize).sum := by
  induction objects generalizing ledger with
  | nil => rfl
  | cons object rest ih =>
    rw [List.foldl_cons, ih, Ledger.retire_objBytes, List.map_cons, List.sum_cons]
    omega

/-- An empty store with empty ledgers. -/
theorem Exact.empty (sound : store.Sound env) (none : store.tables.objects = [])
    (bytes : store.ledger.objBytes = 0) (index : store.expires = .init) : store.Exact env := by
  refine ⟨sound, by rw [bytes, Tables.residentBytes, none]; rfl, by rw [index]; exact .init,
    fun h => ?_, ?_⟩
  · rw [index, Volatile, none]
    exact iff_of_false (ExpireIndex.not_holds_init h) (by simp)
  · rw [DistinctHashes, none]
    simp

/-- The tables a flush leaves, under either answer of the allocator. -/
theorem Sound.flushed (sound : store.Sound env) (granted : Bool)
    : Tables.WellFormed env.hashKey
        { cur := if granted then Table.fresh 1024 else Table.fresh store.tables.cur.cap
          old := none, rehashPos := 0 } := by
  cases granted with
  | true => exact .empty ⟨10, rfl⟩ (by decide) (by decide)
  | false => exact .empty sound.cur.pow sound.cur.minimum sound.cur.fits

theorem objects_flushed (granted : Bool) (cap : Nat)
    : Tables.objects { cur := if granted then Table.fresh 1024 else Table.fresh cap
                       old := none, rehashPos := 0 } = [] := by
  cases granted with
  | true | false => simp [Tables.objects]

/-- A flush retires every object, so the byte ledger returns to zero. -/
theorem Trimmed.clear (store : FlatStore) : Trimmed env store store.clear := by
  refine ⟨fun exact => .empty (exact.sound.flushed _) (objects_flushed _ _) ?_ rfl, rfl⟩
  show (store.tables.objects.foldl Ledger.retire store.ledger).objBytes = 0
  rw [foldl_retire_objBytes, exact.bytes]
  exact Nat.sub_self _

theorem Trimmed.exchangeOut {side : Side}
    (found : store.exchangeOut side (env.hashKey key) key = some (object, after))
    : Trimmed env store after := by
  obtain ⟨⟨removed, tables⟩, located, same⟩ := map_eq_some_iff.mp found
  cases same
  exact .of_erased (fun sound => eraseIn_some sound located) rfl rfl rfl

variable {placed : Option KvObj × FlatStore}

theorem Accounted.exchangeIn (cleared : store.Sound env → ∀ old, store.tables.old = some old
      → ∀ b ∈ old.objects, b.key ≠ object.key)
    (exchanged : store.exchangeIn (env.hashKey object.key) object = some placed)
    : Accounted env store placed.2 := by
  obtain ⟨⟨displaced, tables⟩, inserted, rfl⟩ := map_eq_some_iff.mp exchanged
  exact .published (fun sound =>
    insertCur_some sound (cleared sound) inserted) rfl rfl rfl

/-- A key the exchange took out of the old table, or did not find there, is not there. -/
theorem Sound.exchangeOut_cleared (sound : store.Sound env)
    (found : store.exchangeOut .old (env.hashKey key) key = some (object, after))
    : ∀ old, after.tables.old = some old → ∀ b ∈ old.objects, b.key ≠ key := by
  obtain ⟨⟨removed, tables⟩, located, same⟩ := map_eq_some_iff.mp found
  cases same
  intro old there b held
  have facts := Tables.WellFormed.eraseIn_some sound located
  have member := Tables.mem_objects.mpr (.inr ⟨old, there, held⟩)
  exact ((facts.left b).mp member).2

theorem Accounted.exchangePhysical_none
    (exchanged : store.atomicExchangePhysical (env.hashKey key) key none = some placed)
    : Accounted env store placed.2 := by
  rw [atomicExchangePhysical] at exchanged
  split at exchanged
  · rename_i object next removed
    cases exchanged
    rcases or_eq_some_iff.mp removed with inCur | ⟨-, inOld⟩
    · exact (Trimmed.exchangeOut inCur).accounted
    · exact (Trimmed.exchangeOut inOld).accounted
  · cases exchanged
    exact (Trimmed.refl store).accounted

theorem Accounted.exchangePhysical_some
    (exchanged : store.atomicExchangePhysical (env.hashKey object.key) object.key (some object)
      = some placed)
    : Accounted env store placed.2 := by
  intro exact
  simp only [atomicExchangePhysical] at exchanged
  split at exchanged
  · rename_i inCur
    refine Accounted.exchangeIn (fun sound old there b held named => ?_) exchanged exact
    obtain ⟨current, found⟩ := isSome_iff_exists.mp inCur
    obtain ⟨⟨table, isCur, member⟩, named'⟩ := (findIn_iff sound .cur object.key current).mp found
    cases isCur
    exact sound.apart old there current member b held (named'.trans named.symm)
  · split at exchanged
    · rename_i removed next found
      obtain ⟨last, inserted, rfl⟩ := map_eq_some_iff.mp exchanged
      have cleared := exact.sound.exchangeOut_cleared found
      have last_in : Accounted env next last.2 := .exchangeIn (fun _ => cleared) inserted
      exact (Trimmed.exchangeOut found).before_accounted last_in exact
    · rename_i absent
      refine Accounted.exchangeIn (fun sound => ?_) exchanged exact
      exact (eraseIn_none sound).mp (map_eq_none_iff.mp absent)

end FlatStore

end Thredis.Store
