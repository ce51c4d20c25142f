import Thredis.Lib.Runs
import Thredis.Store.LedgerReadLocalWrites

/-! Whole runs of an owner over the calls that publish, replace, expire or remove objects,
unarmed and armed: both ledgers describe the resident objects after every call.
-/

namespace Thredis.Store
open Thredis.Lib

/-- A call of the owner. `outside` stands for everything that happens between two calls away
from the tables and the ledgers: the clock, the limits, the records and captures, the borrow
registry, and the coming answers of the allocator and of the retire sink.
-/
inductive LedgerCall where
  | insert (object : KvObj)
  | tryOverwrite (key value : Slice)
  | erase (key : Slice)
  | find (key : Slice)
  | setExpire (key : Slice) (addr : Nat) (expireAtMs : Int)
  | persist (key : Slice) (addr : Nat)
  | activeExpire (budget : Nat)
  | rehashStep
  | clear
  | exchangeIn (object : KvObj)
  | exchangeOut (key : Slice)
  | outside (settings : FlatStore) (available : Allocations)

/-- The key whose deadline a call may change. -/
def LedgerCall.dates : LedgerCall → Option Slice
  | .setExpire key _ _ => some key
  | .persist key _ => some key
  | _ => none

namespace FlatStore

/-- The tables and the ledgers of this store, everything else from `settings`. -/
def resettle (store settings : FlatStore) : FlatStore :=
  { settings with
    tables := store.tables
    ledger := { settings.ledger with objBytes := store.ledger.objBytes }
    expires := store.expires
    expireRefused := store.expireRefused }

def account (env : StoreEnv) (store : FlatStore) : LedgerCall → Option FlatStore
  | .insert object => some (store.insert env (env.hashKey object.key) object).2
  | .tryOverwrite key value => some (store.tryOverwrite env (env.hashKey key) key value).2
  | .erase key => some (store.erase env (env.hashKey key) key).2
  | .find key => some (store.find env (env.hashKey key) key).2
  | .setExpire key addr expireAtMs =>
    some (store.setExpire env (env.hashKey key) key addr expireAtMs).2
  | .persist key _ => some (store.persist env (env.hashKey key) key).2
  | .activeExpire budget => some (store.activeExpire env budget).2
  | .rehashStep => some (store.rehashStep env)
  | .clear => some store.clear
  | .exchangeIn object =>
    (store.atomicExchangePhysical (env.hashKey object.key) object.key (some object)).map
      (fun exchanged => exchanged.2)
  | .exchangeOut key =>
    (store.atomicExchangePhysical (env.hashKey key) key none).map (fun exchanged => exchanged.2)
  | .outside settings _ => some (store.resettle settings)

/-- The assumptions on a step: a changed deadline is that of the resident object, resident
hashes stay distinct, and the expire index takes every deadline it is given.
-/
def StepAssumed (env : StoreEnv) (store : FlatStore) (call : LedgerCall)
    (after : Option FlatStore) : Prop :=
  (∀ key, call.dates = some key → store.ResolvesResident env key)
  ∧ ∀ next, after = some next
    → next.DistinctHashes env ∧ next.expireRefused = store.expireRefused

instance (env : StoreEnv) (store : FlatStore) (call : LedgerCall) (after : Option FlatStore)
    : Decidable (store.StepAssumed env call after) :=
  decidable_of_iff (call.dates.all (fun key => decide (store.ResolvesResident env key)) = true
      ∧ after.all (fun next => decide (next.DistinctHashes env
          ∧ next.expireRefused = store.expireRefused)) = true)
    (by simp only [Option.all_eq_true, decide_eq_true_eq, StepAssumed])

/-- `obj_bytes_` is the size of all resident objects, and the expire index holds exactly the
hashes of the resident keys with a deadline.
-/
def LedgersExact (env : StoreEnv) (store : FlatStore) : Prop :=
  store.ledger.objBytes = (store.tables.objects.map kvobjSize).sum
  ∧ ∀ h, store.expires.Holds h
      ↔ ∃ object ∈ store.tables.objects, env.hashKey object.key = h ∧ 0 ≤ object.deadline

variable {env : StoreEnv} {store next : FlatStore}

theorem Exact.ledgersExact (exact : store.Exact env) : store.LedgersExact env :=
  ⟨exact.bytes, exact.tracked⟩

/-- A new store has exact ledgers: it holds nothing. -/
theorem Exact.init (env : StoreEnv) {initialCap : Nat} (constructed : roundPow2 initialCap ≠ 0)
    (maxmemory : Maxmemory) (seed : BitVec 64)
    : (FlatStore.init initialCap maxmemory seed).Exact env := by
  obtain ⟨pow, least, most, -⟩ := roundPow2_fits constructed
  exact .empty (.empty pow least most) (by simp [FlatStore.init, Tables.objects]) rfl rfl

/-- What happens outside the tables and ledgers moves neither. -/
theorem Trimmed.resettle (store settings : FlatStore)
    : Trimmed env store (store.resettle settings) := .of_same rfl rfl rfl rfl

theorem Accounted.account {call : LedgerCall}
    (settled : ∀ key, call.dates = some key → store.ResolvesResident env key)
    (called : store.account env call = some next) : Accounted env store next := by
  cases call with
  | insert object =>
    cases called
    exact .insert store object
  | tryOverwrite key value =>
    cases called
    exact .tryOverwrite store key value
  | erase key =>
    cases called
    exact (Trimmed.erase store key).accounted
  | find key =>
    cases called
    exact (Trimmed.find store key).accounted
  | setExpire key addr expireAtMs =>
    cases called
    exact .setExpire (settled key rfl) addr expireAtMs
  | persist key addr =>
    cases called
    exact .persist (settled key rfl)
  | activeExpire budget =>
    cases called
    exact (Trimmed.activeExpire store budget).accounted
  | rehashStep =>
    cases called
    exact (Trimmed.rehashStep store).accounted
  | clear =>
    cases called
    exact (Trimmed.clear store).accounted
  | exchangeIn object =>
    obtain ⟨exchanged, placed, rfl⟩ := Option.map_eq_some_iff.mp called
    exact .exchangePhysical_some placed
  | exchangeOut key =>
    obtain ⟨exchanged, placed, rfl⟩ := Option.map_eq_some_iff.mp called
    exact .exchangePhysical_none placed
  | outside settings available =>
    cases called
    exact (Trimmed.resettle store settings).accounted

end FlatStore

namespace ReadLocalStore

/-- One call on an armed store: published objects are immutable, so `try_overwrite` declines
and every change of a deadline publishes a fresh header.
-/
def account (env : StoreEnv) (store : ReadLocalStore) : LedgerCall → Option ReadLocalStore
  | .insert object => some (store.insert env (env.hashKey object.key) object).2
  | .tryOverwrite _ _ => some store
  | .erase key => some (store.erase env (env.hashKey key) key).2
  | .find key => some (store.find env (env.hashKey key) key).2
  | .setExpire key addr expireAtMs =>
    some (store.setExpire env (env.hashKey key) key addr expireAtMs).2
  | .persist key addr => some (store.persist env (env.hashKey key) key addr).2
  | .activeExpire budget => some (store.activeExpire env budget).2
  | .rehashStep => some (store.rehashStep env)
  | .clear => some store.clear
  | .exchangeIn object =>
    (store.atomicExchangePhysical (env.hashKey object.key) object.key (some object)).map
      (fun exchanged => exchanged.2)
  | .exchangeOut key =>
    (store.atomicExchangePhysical (env.hashKey key) key none).map (fun exchanged => exchanged.2)
  | .outside settings available =>
    some { store.withBase (store.base.resettle settings) with available := available }

variable {env : StoreEnv} {store next : ReadLocalStore}

/-- Every read-local call accounts, by cases on the call. -/
theorem accounted_account {call : LedgerCall}
    (settled : ∀ key, call.dates = some key → store.base.ResolvesResident env key)
    (called : store.account env call = some next)
    : FlatStore.Accounted env store.base next.base := by
  cases call with
  | insert object =>
    cases called
    exact accounted_insert store object
  | tryOverwrite key value =>
    cases called
    exact (FlatStore.Trimmed.refl _).accounted
  | erase key =>
    cases called
    exact (tends_erase store key).trimmed.accounted
  | find key =>
    cases called
    exact (tends_find store key).trimmed.accounted
  | setExpire key addr expireAtMs =>
    cases called
    exact accounted_setExpire (settled key rfl) addr expireAtMs
  | persist key addr =>
    cases called
    exact accounted_persist (settled key rfl) addr
  | activeExpire budget =>
    cases called
    exact (tends_activeExpire store budget).trimmed.accounted
  | rehashStep =>
    cases called
    exact (trimmed_rehashStep store).accounted
  | clear =>
    cases called
    exact (trimmed_clear store).accounted
  | exchangeIn object =>
    obtain ⟨exchanged, placed, rfl⟩ := Option.map_eq_some_iff.mp called
    obtain ⟨result, swapped, rfl⟩ := Option.map_eq_some_iff.mp placed
    exact .exchangePhysical_some swapped
  | exchangeOut key =>
    obtain ⟨exchanged, placed, rfl⟩ := Option.map_eq_some_iff.mp called
    obtain ⟨result, swapped, rfl⟩ := Option.map_eq_some_iff.mp placed
    exact .exchangePhysical_none swapped
  | outside settings available =>
    cases called
    exact (FlatStore.Trimmed.resettle store.base settings).accounted

end ReadLocalStore

def UnarmedAssumed (env : StoreEnv) (store : FlatStore) (call : LedgerCall) : Prop :=
  store.StepAssumed env call (store.account env call)

def ArmedAssumed (env : StoreEnv) (store : ReadLocalStore) (call : LedgerCall) : Prop :=
  store.base.StepAssumed env call ((store.account env call).map ReadLocalStore.base)

instance (env : StoreEnv) (store : FlatStore) (call : LedgerCall)
    : Decidable (UnarmedAssumed env store call) :=
  inferInstanceAs (Decidable (store.StepAssumed env call (store.account env call)))

instance (env : StoreEnv) (store : ReadLocalStore) (call : LedgerCall)
    : Decidable (ArmedAssumed env store call) :=
  inferInstanceAs (Decidable (store.base.StepAssumed env call
    ((store.account env call).map ReadLocalStore.base)))

/-- In either mode, from construction on and through any calls whose resident hashes stay
distinct and whose deadlines the expire index takes, both ledgers are exact after every call.
-/
theorem ledgers_exact_in_every_run (env : StoreEnv) {initialCap : Nat}
    (constructed : roundPow2 initialCap ≠ 0) (maxmemory : Maxmemory) (seed : BitVec 64)
    (deferResize : Bool) (calls : List LedgerCall)
    : (∀ store, EachStep (FlatStore.account env) (UnarmedAssumed env)
          (FlatStore.init initialCap maxmemory seed) calls
        → run (FlatStore.account env) (FlatStore.init initialCap maxmemory seed) calls = some store
        → store.LedgersExact env)
      ∧ ∀ store, EachStep (ReadLocalStore.account env) (ArmedAssumed env)
          (ReadLocalStore.init initialCap maxmemory seed deferResize) calls
        → run (ReadLocalStore.account env)
            (ReadLocalStore.init initialCap maxmemory seed deferResize) calls = some store
        → store.base.LedgersExact env := by
  have start := FlatStore.Exact.init env constructed maxmemory seed
  constructor
  · intro store assumed ran
    refine (run_invariant_of_eachStep ?_ start assumed ran).ledgersExact
    intro state call next exact allowed called
    obtain ⟨distinct, refused⟩ := allowed.2 next called
    exact FlatStore.Accounted.account allowed.1 called exact distinct refused
  · intro store assumed ran
    have kept : ∀ (state : ReadLocalStore) (call : LedgerCall) (next : ReadLocalStore),
        state.base.Exact env → ArmedAssumed env state call
        → state.account env call = some next → next.base.Exact env := by
      intro state call next exact allowed called
      obtain ⟨distinct, refused⟩ := allowed.2 next.base (by rw [called]; rfl)
      exact ReadLocalStore.accounted_account allowed.1 called exact distinct refused
    exact (run_invariant_of_eachStep kept start assumed ran).ledgersExact

def datedCalls : List LedgerCall :=
  [.insert { stringObject 1 [107] [118] with ttlSlot := some 5 }, .setExpire [107] 2 9]

theorem ledgers_exact_in_dated_run
    : roundPow2 64 ≠ 0
      ∧ (∃ store, run (FlatStore.account (.boot 0#64)) (FlatStore.init 64 .off 1#64) datedCalls
            = some store ∧ store.LedgersExact (.boot 0#64))
      ∧ ∃ store, run (ReadLocalStore.account (.boot 0#64))
            (ReadLocalStore.init 64 .off 1#64 true) datedCalls
            = some store ∧ store.base.LedgersExact (.boot 0#64) := by
  have constructed : roundPow2 64 ≠ 0 := by decide
  have both := ledgers_exact_in_every_run (.boot 0#64) constructed .off 1#64 true datedCalls
  refine ⟨constructed, ?_, ?_⟩
  · exact ⟨_, rfl, both.1 _ (by decide +kernel) rfl⟩
  · exact ⟨_, rfl, both.2 _ (by decide +kernel) rfl⟩

end Thredis.Store
