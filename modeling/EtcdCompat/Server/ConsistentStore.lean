import EtcdCompat.Storage.Store

/-!
# The store of a server

`consistentWatchableStore` over `watchableStore` over `store`. The consistent one writes the index
of the executing entry to the meta bucket, and skips the operations of a transaction whose entry is
not above that index.
-/

namespace EtcdCompat

inductive WatchEvent where
  | put (kv : KeyValue)
  | delete (kv : KeyValue)
deriving DecidableEq, Repr

namespace Store

/-- `store.deleteRange` with the number of keys it returns. -/
def deleteRangeCount (s : Store) (key : Bytes) (stop : Option Bytes) :
    Except Fatal (Store × ℤ) := do
  let rrev := if s.currentRev.sub > 0 then s.currentRev.main + 1 else s.currentRev.main
  let keys ← s.kvindex.range key stop rrev
  let s ← keys.foldlM (fun s item => s.delete item.1 item.2) s
  .ok (s, keys.length)

def getChanges (s : Store) : List KeyValue × Store := (s.changes, { s with changes := [] })

def rev (s : Store) : ℤ := s.currentRev.main

def firstRev (s : Store) : ℤ := s.compactMainRev

end Store

structure ConsistentStore where
  store : Store := {}
  /-- The index in the meta bucket, 0 when there is none. -/
  consistentIndex : ℕ := 0
  skip : Bool := false
  /-- What was handed to the watchers, with its revision. -/
  notified : List (ℤ × List WatchEvent) := []
deriving DecidableEq

namespace ConsistentStore

def notify (s : ConsistentStore) (rev : ℤ) (evs : List WatchEvent) : ConsistentStore :=
  { s with notified := s.notified ++ [(rev, evs)] }

/-- The event `watchableStore.TxnEnd` makes of a change. -/
def changeEvent (rev : ℤ) (change : KeyValue) : WatchEvent :=
  if change.createRevision = 0 then .delete { change with modRevision := rev } else .put change

section Watchable

def watchableDeleteRange (s : ConsistentStore) (key : Bytes) (stop : Option Bytes) :
    Except Fatal (ConsistentStore × ℤ × ℤ) := do
  let (store, n) ← s.store.txnBegin.deleteRangeCount key stop
  let store := store.txnEnd
  let rev := store.rev
  let (changes, store) := store.getChanges
  let s := { s with store }
  if changes.length ≠ n then .error .unexpectedChanges
  else match changes.getLast? with
    | none => .ok (s, n, rev)
    -- every event points at the variable of the loop, so at the last change
    | some change =>
      .ok (s.notify rev (changes.map fun _ => .delete { change with modRevision := rev }), n, rev)

def watchableTxnEnd (s : ConsistentStore) : ConsistentStore :=
  let store := s.store.txnEnd
  let (changes, store) := store.getChanges
  let s := { s with store }
  if changes = [] then s
  else s.notify store.rev (changes.map (changeEvent store.rev))

end Watchable

/-- `TxnBegin`, given the index of the executing entry. -/
def txnBegin (s : ConsistentStore) (index : ℕ) : ConsistentStore :=
  let s := { s with store := s.store.txnBegin }
  if index ≤ s.consistentIndex then { s with skip := true }
  else { s with skip := false, consistentIndex := index }

def txnRange (s : ConsistentStore) (key : Bytes) (stop : Option Bytes) (limit rangeRev : ℤ) :
    Except Fatal Store.RangeResult :=
  if s.skip then .ok ⟨[], 0, none⟩ else s.store.rangeKeys key stop limit rangeRev

def txnPut (s : ConsistentStore) (key value : Bytes) (lease : ℤ) :
    Except Fatal (ConsistentStore × ℤ) :=
  if s.skip then .ok (s, 0)
  else do
    let store ← s.store.put key value lease
    .ok ({ s with store }, store.currentRev.main + 1)

def txnDeleteRange (s : ConsistentStore) (key : Bytes) (stop : Option Bytes) :
    Except Fatal (ConsistentStore × ℤ × ℤ) :=
  if s.skip then .ok (s, 0, 0)
  else do
    let (store, n) ← s.store.deleteRangeCount key stop
    .ok ({ s with store }, n,
      if n ≠ 0 ∨ store.currentRev.sub ≠ 0 then store.currentRev.main + 1 else store.currentRev.main)

def txnEnd (s : ConsistentStore) : ConsistentStore := { s with skip := false }.watchableTxnEnd

def put (s : ConsistentStore) (index : ℕ) (key value : Bytes) (lease : ℤ) :
    Except Fatal (ConsistentStore × ℤ) := do
  let (s, rev) ← (s.txnBegin index).txnPut key value lease
  .ok (s.txnEnd, rev)

def deleteRange (s : ConsistentStore) (index : ℕ) (key : Bytes) (stop : Option Bytes) :
    Except Fatal (ConsistentStore × ℤ × ℤ) := do
  let (s, n, rev) ← (s.txnBegin index).txnDeleteRange key stop
  .ok (s.txnEnd, n, rev)

end ConsistentStore

end EtcdCompat
