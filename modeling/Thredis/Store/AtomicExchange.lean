import Thredis.Store.ReadLocalStore

/-! The exchange under which a pending record installs its candidate or takes it back: the
displaced object is handed to the record instead of being retired.
-/

namespace Thredis.Store

namespace FlatStore

/-- The exchange in a table that only loses its object: `replacement` is null, or the table
is the old one.
-/
def exchangeOut (store : FlatStore) (side : Side) (h : BitVec 64) (key : Slice)
    : Option (KvObj × FlatStore) :=
  (store.tables.eraseIn side h key).map (fun erased =>
    (erased.1, { store.untrackExpire h with
                 tables := erased.2
                 ledger := { store.ledger with
                   objBytes := store.ledger.objBytes - kvobjSize erased.1 } }))

/-- The replacement in the current table: in the slot of its predecessor, or in the slot the
first probe retained (`insert_replacement`). Without a free slot the source aborts.
-/
def exchangeIn (store : FlatStore) (h : BitVec 64) (replacement : KvObj)
    : Option (Option KvObj × FlatStore) :=
  (store.tables.insertCur h replacement).map (fun placed =>
    (placed.1, { store with
        tables := placed.2
        ledger := { store.ledger with
          objBytes := store.ledger.objBytes - (placed.1.map kvobjSize).getD 0
            + kvobjSize replacement } }.trackExpire h replacement))

/-- `atomic_exchange_physical`: the displaced object and the store; `none` where the source
aborts.
-/
def atomicExchangePhysical (store : FlatStore) (h : BitVec 64) (key : Slice)
    (replacement : Option KvObj) : Option (Option KvObj × FlatStore) :=
  match replacement with
  | none =>
    match (store.exchangeOut .cur h key).or (store.exchangeOut .old h key) with
    | some (object, store) => some (some object, store)
    | none => some (none, store)
  | some object =>
    if (store.tables.findIn .cur h key).isSome then store.exchangeIn h object
    else
      match store.exchangeOut .old h key with
      | some (old, store) => (store.exchangeIn h object).map (fun placed => (some old, placed.2))
      | none => store.exchangeIn h object

end FlatStore

/-- `atomic_exchange_physical_read_local`: the same exchange inside a table bracket. -/
def ReadLocalStore.atomicExchangePhysical (store : ReadLocalStore) (h : BitVec 64) (key : Slice)
    (replacement : Option KvObj) : Option (Option KvObj × ReadLocalStore) :=
  (store.base.atomicExchangePhysical h key replacement).map (fun exchanged =>
    (exchanged.1, store.withBase exchanged.2))

end Thredis.Store
