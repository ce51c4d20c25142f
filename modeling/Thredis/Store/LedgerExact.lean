import Thredis.Store.AtomicExchange
import Thredis.Store.ExpireMembership
import Thredis.Store.FlatExpiry
import Thredis.Store.ResidentBytes

/-! The two ledgers of the store, `obj_bytes_` and the expire index, against the objects in
its tables: what every step that publishes nothing keeps, and what a publication adds.
-/

namespace Thredis.Store

@[simp] theorem KvObj.bare_size (object : KvObj) : kvobjSize object.bare = kvobjSize object := rfl

namespace FlatStore

variable {env : StoreEnv} {store before after : FlatStore}

/-- No two resident keys share their 64-bit hash. -/
def DistinctHashes (env : StoreEnv) (store : FlatStore) : Prop :=
  ∀ a ∈ store.tables.objects, ∀ b ∈ store.tables.objects,
    env.hashKey a.key = env.hashKey b.key → a.key = b.key

instance (env : StoreEnv) (store : FlatStore) : Decidable (store.DistinctHashes env) :=
  inferInstanceAs (Decidable (∀ a ∈ store.tables.objects, ∀ b ∈ store.tables.objects,
    env.hashKey a.key = env.hashKey b.key → a.key = b.key))

def Volatile (env : StoreEnv) (store : FlatStore) (h : BitVec 64) : Prop :=
  ∃ object ∈ store.tables.objects, env.hashKey object.key = h ∧ 0 ≤ object.deadline

/-- The bytes are those of the resident objects, and the expire index holds the hashes of the
resident keys with a deadline, no more and no fewer.
-/
structure Exact (env : StoreEnv) (store : FlatStore) : Prop where
  sound : store.Sound env
  bytes : store.ledger.objBytes = store.tables.residentBytes
  index : store.expires.WellFormed
  tracked : ∀ h, store.expires.Holds h ↔ store.Volatile env h
  distinct : store.DistinctHashes env

section

variable (first : before.Sound env) (second : after.Sound env)
  (same : ∀ key, after.content env key = before.content env key)

include first second same

/-- Tables with the same contents take the same bytes, whatever their eviction metadata. -/
theorem Sound.residentBytes_content
    : after.tables.residentBytes = before.tables.residentBytes := by
  have bared : ∀ {store : FlatStore}, store.Sound env
      → (store.tables.objects.map KvObj.bare).Nodup := by
    intro store sound
    refine List.Nodup.map_on (fun a inA b inB alike => ?_) (Tables.WellFormed.objects_nodup sound)
    have named : a.bare.key = b.bare.key := by rw [alike]
    exact Tables.WellFormed.object_unique sound inA inB named
  have members : ∀ {store : FlatStore}, store.Sound env → ∀ object,
      object ∈ store.tables.objects.map KvObj.bare
        ↔ store.content env object.key = some object := by
    intro store sound object
    rw [sound.content_iff, List.mem_map]
    constructor
    · rintro ⟨held, member, rfl⟩
      exact ⟨held, member, rfl, rfl⟩
    · rintro ⟨held, member, -, alike⟩
      exact ⟨held, member, alike⟩
  have perm : (after.tables.objects.map KvObj.bare).Perm
      (before.tables.objects.map KvObj.bare) := by
    refine (List.perm_ext_iff_of_nodup (bared second) (bared first)).mpr (fun object => ?_)
    rw [members second, members first, same]
  have sums := (perm.map kvobjSize).sum_eq
  simpa [Tables.residentBytes, Function.comp_def] using sums

/-- Which hashes are volatile depends on the content alone. -/
theorem Sound.volatile_content (h : BitVec 64)
    : after.Volatile env h ↔ before.Volatile env h := by
  have shown : ∀ {store : FlatStore}, store.Sound env → (store.Volatile env h
      ↔ ∃ key object, store.content env key = some object ∧ env.hashKey key = h
        ∧ 0 ≤ object.deadline) := by
    intro store sound
    constructor
    · rintro ⟨held, member, hashes, dated⟩
      exact ⟨held.key, held.bare, (sound.content_iff _ _).mpr ⟨held, member, rfl, rfl⟩, hashes,
        dated⟩
    · rintro ⟨key, object, found, hashes, dated⟩
      obtain ⟨held, member, named, rfl⟩ := (sound.content_iff _ _).mp found
      exact ⟨held, member, by rw [named]; exact hashes, dated⟩
  simp [shown first, shown second, same]

end

/-- Keys that come from another store's keys are as distinct as those. -/
theorem DistinctHashes.mono (distinct : before.DistinctHashes env)
    (from_before : ∀ object ∈ after.tables.objects,
      ∃ other ∈ before.tables.objects, other.key = object.key)
    : after.DistinctHashes env := by
  intro a inA b inB alike
  obtain ⟨a', heldA, namedA⟩ := from_before a inA
  obtain ⟨b', heldB, namedB⟩ := from_before b inB
  rw [← namedA, ← namedB] at alike ⊢
  exact distinct a' heldA b' heldB alike

/-- A step that keeps exact ledgers exact by itself, and refuses no deadline. -/
structure Trimmed (env : StoreEnv) (before after : FlatStore) : Prop where
  exact : before.Exact env → after.Exact env
  refused : after.expireRefused = before.expireRefused

theorem Trimmed.refl (store : FlatStore) : Trimmed env store store := ⟨id, rfl⟩

theorem Trimmed.trans {first second third : FlatStore} (front : Trimmed env first second)
    (back : Trimmed env second third) : Trimmed env first third :=
  ⟨fun exact => back.exact (front.exact exact), back.refused.trans front.refused⟩

section

variable (refused : after.expireRefused = before.expireRefused)

include refused

/-- A step that leaves every key its content and every hash its place in the index. -/
theorem Trimmed.of_content (kept : before.Sound env → after.Sound env
      ∧ (∀ key, after.content env key = before.content env key)
      ∧ after.ledger.objBytes = before.ledger.objBytes)
    (index : before.expires.WellFormed → after.expires.WellFormed
      ∧ ∀ h, after.expires.Holds h ↔ before.expires.Holds h)
    : Trimmed env before after := by
  refine ⟨fun exact => ?_, refused⟩
  obtain ⟨sound, content, bytes⟩ := kept exact.sound
  obtain ⟨wf, holds⟩ := index exact.index
  refine ⟨sound, ?_, wf, fun h => ?_, exact.distinct.mono (fun object held => ?_)⟩
  · rw [bytes, exact.bytes, exact.sound.residentBytes_content sound content]
  · rw [holds, exact.tracked, exact.sound.volatile_content sound content]
  · have found := (sound.content_iff object.key object.bare).mpr ⟨object, held, rfl, rfl⟩
    rw [content, exact.sound.content_iff] at found
    obtain ⟨other, member, named, -⟩ := found
    exact ⟨other, member, named⟩

/-- A step that drops no key and does not touch the index. -/
theorem Trimmed.of_tended {logged : List Slice}
    (tended : before.Sound env → Tended env before after [] logged)
    (index : after.expires = before.expires) : Trimmed env before after := by
  refine .of_content refused (fun sound => ?_) (fun wf => ?_)
  · have step := tended sound
    exact ⟨step.sound, fun key => by exact step.content key,
      by rw [(step.quiet rfl).2]⟩
  · rw [index]
    exact ⟨wf, fun _ => .rfl⟩

/-- A step outside the tables and the two ledgers. -/
theorem Trimmed.of_same (tables : after.tables = before.tables)
    (bytes : after.ledger.objBytes = before.ledger.objBytes)
    (index : after.expires = before.expires) : Trimmed env before after := by
  refine .of_content refused
    (fun sound => ⟨by rw [Sound, tables]; exact sound, fun key => ?_, bytes⟩)
    (fun wf => by rw [index]; exact ⟨wf, fun _ => .rfl⟩)
  rw [content, content, tables]

end

/-- A migration window moves objects and frees none. -/
theorem Trimmed.rehashStep (store : FlatStore) : Trimmed env store (store.rehashStep env) :=
  .of_tended rfl Sound.rehashStep rfl

theorem startRehash_ledgers (store : FlatStore) (newcap : Nat)
    : (store.startRehash newcap).2.expires = store.expires
      ∧ (store.startRehash newcap).2.expireRefused = store.expireRefused := by
  fun_cases store.startRehash newcap <;> exact ⟨rfl, rfl⟩

theorem Trimmed.maybeStartGrow (still : store.tables.old = none)
    : Trimmed env store store.maybeStartGrow.2 := by
  have untouched : store.maybeStartGrow.2.expires = store.expires
      ∧ store.maybeStartGrow.2.expireRefused = store.expireRefused := by
    fun_cases FlatStore.maybeStartGrow store with
    | case4 => exact startRehash_ledgers store _
    | _ => exact ⟨rfl, rfl⟩
  exact .of_tended untouched.2 (fun sound => (sound.maybeStartGrow still).1) untouched.1

theorem Trimmed.maybeStartShrink (store : FlatStore)
    : Trimmed env store store.maybeStartShrink := by
  have untouched : store.maybeStartShrink.expires = store.expires
      ∧ store.maybeStartShrink.expireRefused = store.expireRefused := by
    fun_cases FlatStore.maybeStartShrink store with
    | case4 => exact startRehash_ledgers store _
    | _ => exact ⟨rfl, rfl⟩
  exact .of_tended untouched.2 (fun sound => sound.maybeStartShrink.1) untouched.1

theorem Trimmed.countExpired (store : FlatStore) (expired : Bool)
    : Trimmed env store (store.countExpired expired) := .of_same rfl rfl rfl rfl

theorem Trimmed.recordDelete (store : FlatStore) (key : Slice)
    : Trimmed env store (store.recordDelete key) := .of_same rfl rfl rfl rfl

/-- A mutation through a pointer leaves both ledgers to its caller. -/
theorem modifyObject_ledgers (store : FlatStore) (h : BitVec 64) (key : Slice) (object : KvObj)
    (f : KvObj → KvObj)
    : (store.modifyObject h key object f).expires = store.expires
      ∧ (store.modifyObject h key object f).expireRefused = store.expireRefused
      ∧ (store.modifyObject h key object f).ledger = store.ledger := by
  rw [FlatStore.modifyObject]
  split
  · exact ⟨rfl, rfl, rfl⟩
  · exact ⟨rfl, rfl, rfl⟩

/-- Taking the object of a key out, its bytes off the account and its hash off the index. -/
theorem Trimmed.of_erased {key : Slice} {object : KvObj}
    (erased : before.Sound env → Tables.Erased env.hashKey before.tables key object after.tables)
    (bytes : after.ledger.objBytes = before.ledger.objBytes - kvobjSize object)
    (index : after.expires = (before.expires.erase (env.hashKey key)).2)
    (refused : after.expireRefused = before.expireRefused)
    : Trimmed env before after := by
  refine ⟨fun exact => ?_, refused⟩
  have facts := erased exact.sound
  have sum := facts.residentBytes exact.sound
  obtain ⟨wf, holds⟩ := exact.index.erase (env.hashKey key)
  rw [← index] at wf holds
  refine ⟨facts.wellFormed, ?_, wf, fun h => ?_, exact.distinct.mono (fun other held =>
    ⟨other, ((facts.left other).mp held).1, rfl⟩)⟩
  · rw [bytes, exact.bytes]
    omega
  · rw [holds, exact.tracked]
    constructor
    · rintro ⟨⟨other, held, hashes, dated⟩, apart⟩
      refine ⟨other, (facts.left other).mpr ⟨held, ?_⟩, hashes, dated⟩
      rintro rfl
      exact apart hashes.symm
    · rintro ⟨other, held, hashes, dated⟩
      obtain ⟨was, apart⟩ := (facts.left other).mp held
      refine ⟨⟨other, was, hashes, dated⟩, ?_⟩
      rintro rfl
      refine apart (exact.distinct other was object facts.held ?_ |>.trans facts.named)
      rw [facts.named]
      exact hashes

theorem Ledger.retire_objBytes (ledger : Ledger) (object : KvObj)
    : (ledger.retire object).objBytes = ledger.objBytes - kvobjSize object := by
  rw [Ledger.retire]
  split
  · rfl
  · rfl

/-- The bytes and the deadline leave with the object. -/
theorem Trimmed.eraseIn {side : Side} {key : Slice} {object : KvObj}
    (found : store.eraseIn side (env.hashKey key) key = some (object, after))
    : Trimmed env store after := by
  obtain ⟨⟨removed, tables⟩, located, same⟩ := Option.map_eq_some_iff.mp found
  cases same
  exact .of_erased (fun sound => Tables.WellFormed.eraseIn_some sound located)
    (Ledger.retire_objBytes _ _) rfl rfl

theorem Trimmed.eraseDone (now : Int) (erased : KvObj × FlatStore)
    : Trimmed env erased.2 (FlatStore.eraseDone now erased).2 :=
  (Trimmed.maybeStartShrink erased.2).trans (.countExpired _ _)

/-- The migration step, the erase and the shrink, each by itself. -/
theorem Trimmed.erase (store : FlatStore) (key : Slice)
    : Trimmed env store (store.erase env (env.hashKey key) key).2 := by
  have first : Trimmed env store (if store.rehashing && !store.snapshot.active
      then store.rehashStep env else store) := by
    split
    · exact .rehashStep store
    · exact .refl store
  fun_cases store.erase env (env.hashKey key) key with
  | case1 _ erased found | case2 _ _ erased found =>
    exact first.trans ((Trimmed.eraseIn found).trans (.eraseDone _ erased))
  | case3 => exact first

-- Sampling and eviction

/-- A sample moves the cursors of the index and nothing else. -/
theorem Trimmed.sampled {index : ExpireIndex} (tab0 : index.tab0 = store.expires.tab0)
    (tab1 : index.tab1 = store.expires.tab1) (pos : index.migratePos = store.expires.migratePos)
    : Trimmed env store { store with expires := index } :=
  .of_content rfl (fun sound => ⟨sound, fun _ => rfl, rfl⟩)
    (fun wf => ⟨wf.of_tables tab0 tab1 pos, fun _ => ExpireIndex.holds_of_tables tab0 tab1⟩)

/-- Eviction metadata are in no ledger. -/
theorem sampling_trimmed : Sampling env (Trimmed env) where
  refl := .refl
  trans := .trans
  nextRandom _ := .of_same rfl rfl rfl rfl
  cursorProbe _ := .of_same rfl rfl rfl rfl
  randomHash store random attempts := by
    obtain ⟨tab0, tab1, pos⟩ := ExpireIndex.randomHash_tables store.expires random attempts
    exact .sampled tab0 tab1 pos
  modifyObject store key object f bare := by
    obtain ⟨index, refused, -⟩ := modifyObject_ledgers store (env.hashKey key) key object f
    exact .of_tended refused (fun sound => sound.modifyObject_bare key object bare) index

theorem Trimmed.countEvicted (store : FlatStore) (live : Bool)
    : Trimmed env store (store.countEvicted live) := .of_same rfl rfl rfl rfl

/-- The store an answered call hands on. -/
theorem Trimmed.answered {α : Type} {call answer : α × FlatStore} (kept : Trimmed env store call.2)
    (same : call = answer) : Trimmed env store answer.2 := same ▸ kept

/-- What choosing, logging, erasing and counting a victim keep, the eviction loop keeps.
Witness: induction over the budget.
-/
theorem Evictor.loop_keeps {σ : Type} {evictor : Evictor σ} {Kept : σ → σ → Prop}
    {protectedKey : Slice} (refl : ∀ state, Kept state state)
    (trans : ∀ {first second third}, Kept first second → Kept second third → Kept first third)
    (chosen : ∀ state, Kept state
      (evictor.withBase state ((evictor.base state).chooseVictim env protectedKey).2))
    (logged : ∀ state store key, Kept state (evictor.withBase state store)
      → Kept state (evictor.withBase state (store.recordDelete key)))
    (erased : ∀ state key, Kept state (evictor.erase state key).2)
    (counted : ∀ state live, Kept state
      (evictor.withBase state ((evictor.base state).countEvicted live)))
    (bytes : FlatStore → Nat) (budget : Nat) (state : σ)
    : Kept state (evictor.loop env protectedKey bytes budget state).2 := by
  induction budget generalizing state with
  | zero => exact refl state
  | succ budget ih =>
    have choice := chosen state
    rw [Evictor.loop]
    split
    · exact refl state
    · split
      · rename_i next missed
        rwa [missed] at choice
      · rename_i victim next found
        rw [found] at choice
        have gone := trans (logged state next victim.key choice) (erased _ victim.key)
        dsimp only
        split
        · exact gone
        · exact trans gone (trans (counted _ _) (ih _))

section

variable (store)

theorem Trimmed.makeRoomFor (protectedKey : Slice) (incomingBytes : Nat)
    : Trimmed env store (store.makeRoomFor env protectedKey incomingBytes).2 := by
  fun_cases store.makeRoomFor env protectedKey incomingBytes with
  | case1 => exact .refl store
  | case2 =>
    rw [reclaim]
    split
    · exact .refl store
    · split
      · exact .refl store
      · exact Evictor.loop_keeps .refl .trans
          (fun store => sampling_trimmed.chooseVictimLoop protectedKey _ _ store)
          (fun _ store key kept => kept.trans (.recordDelete store key)) .erase .countEvicted
          _ _ store

theorem Trimmed.admitObject (object : KvObj)
    : Trimmed env store (store.admitObject env object).2 := by
  have room : Trimmed env store (store.makeRoomFor env object.key (kvobjSize object)).2 :=
    .makeRoomFor store _ _
  fun_cases store.admitObject env object with
  | case1 _ next refused => exact room.answered refused
  | case2 _ next granted => exact room.answered granted
  | case3 => exact .refl store

/-- A dead object is erased with its bytes and its deadline. -/
theorem Trimmed.liveOrExpire (side : Side) (key : Slice) (object : KvObj)
    : Trimmed env store (store.liveOrExpire side (env.hashKey key) key object).2 := by
  have logged : Trimmed env store (store.recordDelete key) := .recordDelete store key
  fun_cases store.liveOrExpire side (env.hashKey key) key object with
  | case1 | case2 => exact .refl store
  | case3 _ _ gone left =>
    subst gone left
    cases found : (store.recordDelete key).eraseIn side (env.hashKey key) key with
    | none => exact logged.trans (.countExpired _ _)
    | some erased => exact logged.trans ((Trimmed.eraseIn found).trans (.countExpired _ _))

theorem Trimmed.lookupIn (side : Side) (key : Slice)
    : Trimmed env store (store.lookupIn side (env.hashKey key) key).2 := by
  rw [FlatStore.lookupIn]
  split
  · exact .liveOrExpire store side key _
  · exact .refl store

theorem Trimmed.lookup (key : Slice)
    : Trimmed env store (store.lookup (env.hashKey key) key).2 := by
  have first : Trimmed env store (store.lookupIn .cur (env.hashKey key) key).2 :=
    .lookupIn store .cur key
  fun_cases store.lookup (env.hashKey key) key with
  | case1 object next found => exact first.answered found
  | case2 next missed => exact (first.answered missed).trans (.lookupIn next .old key)

theorem Trimmed.findWithoutTouch (key : Slice)
    : Trimmed env store (store.findWithoutTouch (env.hashKey key) key).2 := by
  rw [FlatStore.findWithoutTouch]
  split
  · exact .liveOrExpire store .cur key _
  · exact .lookupIn store .old key

theorem Trimmed.findValue (key : Slice)
    : Trimmed env store (store.findValue env (env.hashKey key) key).2 := by
  rw [FlatStore.findValue]
  split
  · exact .lookup store key
  · exact .refl store

theorem Trimmed.find (key : Slice)
    : Trimmed env store (store.find env (env.hashKey key) key).2 := by
  have kept : Trimmed env store (store.findValue env (env.hashKey key) key).2 :=
    .findValue store key
  fun_cases store.find env (env.hashKey key) key with
  | case1 next missed => exact kept.answered missed
  | case2 object next found =>
    exact (kept.answered found).trans (sampling_trimmed.touch next key object)
  | case3 object next found => exact kept.answered found

end

end FlatStore

end Thredis.Store
