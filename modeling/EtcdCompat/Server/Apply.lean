import EtcdCompat.Lease.Lessor
import EtcdCompat.Lib.Sort
import EtcdCompat.Server.ConsistentStore
import EtcdCompat.Server.Request

/-!
# Applying key-value requests

The `apply…` functions of the server for the key-value requests, alone and within a transaction.
`Runtime` holds what the source leaves to Go: the order of a map, how `sort.Sort` arranges elements
that compare as equal, and the clock.
-/

namespace EtcdCompat

structure Runtime where
  order : ℕ → List Bytes → List Bytes
  order_perm : ∀ index keys, (order index keys).Perm keys
  sort : (KeyValue → KeyValue → Bool) → List KeyValue → List KeyValue
  sort_perm : ∀ less kvs, (sort less kvs).Perm kvs
  sort_sorted : ∀ (less : KeyValue → KeyValue → Bool) (kvs : List KeyValue),
    (∀ a ∈ kvs, ∀ b ∈ kvs, ∀ c ∈ kvs, less b a = false → less c b = false → less c a = false) →
    (∀ a ∈ kvs, ∀ b ∈ kvs, less b a = false ∨ less a b = false) →
    (sort less kvs).Pairwise fun a b => less b a = false
  clock : ℕ → ℤ

/-- Maps in the order they are listed, a stable sort and a clock that stands. -/
def Runtime.stable : Runtime where
  order _ keys := keys
  order_perm _ keys := .refl keys
  sort less kvs := kvs.insertionSort fun a b => less b a = false
  sort_perm _ kvs := List.perm_insertionSort _ kvs
  sort_sorted _ _ htrans htotal := List.pairwise_insertionSort_of_mem htrans htotal
  clock _ := 0

structure RangeResponse where
  revision : ℤ
  kvs : List KeyValue
  more : Bool
deriving DecidableEq, Repr

structure DeleteRangeResponse where
  revision : ℤ
  deleted : ℤ
deriving DecidableEq, Repr

inductive ResponseUnion where
  | responseRange (r : RangeResponse)
  | responsePut (revision : ℤ)
  | responseDeleteRange (r : DeleteRangeResponse)
deriving DecidableEq, Repr

structure TxnResponse where
  revision : ℤ
  succeeded : Bool
  responses : List (Option ResponseUnion)
deriving DecidableEq, Repr

inductive ApplyError where
  | store (e : StoreError)
  | lease (e : LeaseError)
deriving DecidableEq, Repr

/-- `isGteRange` and the change of the range end both `applyRange` and `applyDeleteRange` make. -/
def gteRange (rangeEnd : Option Bytes) : Option Bytes :=
  if rangeEnd = some [0] then some [] else rangeEnd

section Range

/-- The `Less` of the sorter for a target, `none` where no sorter is made. -/
def sorter (target : ℤ) : Option (KeyValue → KeyValue → Bool) :=
  if target = sortByKey then some fun a b => a.key < b.key
  else if target = sortByVersion then some fun a b => wrapInt64 (a.version - b.version) < 0
  else if target = sortByCreate then
    some fun a b => wrapInt64 (a.createRevision - b.createRevision) < 0
  else if target = sortByMod then some fun a b => wrapInt64 (a.modRevision - b.modRevision) < 0
  else if target = sortByValue then some fun a b => a.value < b.value
  else none

/-- The sorting of `applyRange`, where a sorter that was not made is a nil pointer. -/
def sortKVs (rt : Runtime) (r : RangeRequest) (kvs : List KeyValue) :
    Except Fatal (List KeyValue) :=
  if r.sortOrder = sortAscend then match sorter r.sortTarget with
    | none => .error .nilSorter
    | some less => .ok (rt.sort less kvs)
  else if r.sortOrder = sortDescend then match sorter r.sortTarget with
    | none => .error .nilSorter
    | some less => .ok (rt.sort (fun a b => less b a) kvs)
  else .ok kvs

/-- The limit a range is fetched with: none with an order, else one more for the flag. -/
def fetchLimit (r : RangeRequest) : ℤ :=
  let limit := if r.sortOrder ≠ sortNone then 0 else r.limit
  if limit > 0 then wrapInt64 (limit + 1) else limit

/-- `TxnRange` within a transaction, `Range` without one. -/
def kvRange (inTxn : Bool) (kv : ConsistentStore) (key : Bytes) (stop : Option Bytes)
    (limit rangeRev : ℤ) : Except Fatal Store.RangeResult :=
  if inTxn then kv.txnRange key stop limit rangeRev else kv.store.range key stop limit rangeRev

def applyRange (rt : Runtime) (inTxn : Bool) (kv : ConsistentStore) (r : RangeRequest) :
    Except Fatal (Except StoreError RangeResponse) := do
  let res ← kvRange inTxn kv r.key (gteRange r.rangeEnd) (fetchLimit r) r.revision
  match res.err with
  | some e => .ok (.error e)
  | none => do
    let kvs ← sortKVs rt r res.kvs
    if r.limit > 0 ∧ kvs.length > r.limit then
      .ok (.ok ⟨res.rev, kvs.take r.limit.toNat, true⟩)
    else .ok (.ok ⟨res.rev, kvs, false⟩)

end Range

def applyPut (kv : ConsistentStore) (le : Lease.Lessor) (index : ℕ) (p : PutRequest) :
    Except Fatal (ConsistentStore × Except ApplyError ℤ) :=
  if p.lease ≠ NoLease ∧ le.lookup p.lease = none then .ok (kv, .error (.lease .errLeaseNotFound))
  else do
    let (kv, rev) ← kv.put index p.key p.value p.lease
    .ok (kv, .ok rev)

def applyDeleteRange (kv : ConsistentStore) (index : ℕ) (dr : DeleteRangeRequest) :
    Except Fatal (ConsistentStore × DeleteRangeResponse) := do
  let (kv, n, rev) ← kv.deleteRange index dr.key (gteRange dr.rangeEnd)
  .ok (kv, ⟨rev, n⟩)

section Txn

def checkRequestLeases (le : Lease.Lessor) : List RequestUnion → Except LeaseError Unit
  | [] => .ok ()
  | .requestPut (some preq) :: reqs =>
    if preq.lease ≠ NoLease ∧ le.lookup preq.lease = none then .error .errLeaseNotFound
    else checkRequestLeases le reqs
  | _ :: reqs => checkRequestLeases le reqs

def checkRequestRange (kv : ConsistentStore) : List RequestUnion → Except StoreError Unit
  | [] => .ok ()
  | .requestRange (some greq) :: reqs =>
    if greq.revision = 0 then checkRequestRange kv reqs
    else if greq.revision > kv.store.rev then .error .errFutureRev
    else if greq.revision < kv.store.firstRev then .error .errCompacted
    else checkRequestRange kv reqs
  | _ :: reqs => checkRequestRange kv reqs

/-- `applyUnion`, which panics on any error. -/
def applyUnion (rt : Runtime) (kv : ConsistentStore) :
    RequestUnion → Except Fatal (ConsistentStore × Option ResponseUnion)
  | .requestRange (some r) => do
    match ← applyRange rt true kv r with
    | .error _ => .error .unexpectedTxnError
    | .ok resp => .ok (kv, some (.responseRange resp))
  | .requestPut (some p) => do
    let (kv, rev) ← kv.txnPut p.key p.value p.lease
    .ok (kv, some (.responsePut rev))
  | .requestDeleteRange (some dr) => do
    let (kv, n, rev) ← kv.txnDeleteRange dr.key (gteRange dr.rangeEnd)
    .ok (kv, some (.responseDeleteRange ⟨rev, n⟩))
  | _ => .ok (kv, none)

/-- The loop of `applyTxn` over the requests. -/
def applyUnions (rt : Runtime) (kv : ConsistentStore) :
    List RequestUnion → Except Fatal (ConsistentStore × List (Option ResponseUnion))
  | [] => .ok (kv, [])
  | req :: reqs => do
    let (kv, resp) ← applyUnion rt kv req
    let (kv, resps) ← applyUnions rt kv reqs
    .ok (kv, resp :: resps)

/-- `compareInt64` and `bytes.Compare`. -/
def compareTo {α : Type} [LinearOrder α] (a b : α) : ℤ :=
  if a < b then -1 else if a > b then 1 else 0

/-- The `result` of `applyCompare`: 0 also where the union does not fit the target. -/
def compareResult (c : Compare) (ckv : KeyValue) : ℤ :=
  if c.target = compareValue then match c.targetUnion with
    | some (.value value) => compareTo ckv.value value
    | _ => 0
  else if c.target = compareCreate then match c.targetUnion with
    | some (.createRevision rev) => compareTo ckv.createRevision rev
    | _ => 0
  else if c.target = compareMod then match c.targetUnion with
    | some (.modRevision rev) => compareTo ckv.modRevision rev
    | _ => 0
  else if c.target = compareVersion then match c.targetUnion with
    | some (.version version) => compareTo ckv.version version
    | _ => 0
  else 0

def compareHolds (c : Compare) (result : ℤ) : Bool :=
  if c.result = compareEqual then result = 0
  else if c.result = compareGreater then result = 1
  else if c.result = compareLess then result = -1
  else true

/-- A comparison with the pair of its key, if any: a value is never that of a missing key. -/
def compareKV (c : Compare) (ckv : Option KeyValue) : Bool :=
  match ckv with
  | some ckv => compareHolds c (compareResult c ckv)
  | none => if c.target = compareValue then false else compareHolds c (compareResult c {})

def applyCompare (kv : ConsistentStore) (c : Compare) : Except Fatal (ℤ × Bool) := do
  let res ← kv.store.range c.key none 1 0
  .ok (res.rev, res.err.isNone && compareKV c res.kvs.head?)

/-- The comparisons of `applyTxn` up to the first that fails. -/
def applyCompares (kv : ConsistentStore) : ℤ → List Compare → Except Fatal (ℤ × Bool)
  | revision, [] => .ok (revision, true)
  | _, c :: cs => do
    let (revision, ok) ← applyCompare kv c
    if ok then applyCompares kv revision cs else .ok (revision, false)

def applyTxn (rt : Runtime) (kv : ConsistentStore) (le : Lease.Lessor) (index : ℕ)
    (txn : TxnRequest) : Except Fatal (ConsistentStore × Except ApplyError TxnResponse) := do
  let (revision, ok) ← applyCompares kv 0 txn.compare
  let reqs := if ok then txn.success else txn.failure
  match checkRequestLeases le reqs with
  | .error e => .ok (kv, .error (.lease e))
  | .ok _ => match checkRequestRange kv reqs with
    | .error e => .ok (kv, .error (.store e))
    | .ok _ => do
      let (kv, resps) ← applyUnions rt (kv.txnBegin index) reqs
      .ok (kv.txnEnd, .ok ⟨if resps.length ≠ 0 then revision + 1 else revision, ok, resps⟩)

end Txn

/-- The bytes of `compaction`, the key read for the current revision. -/
def compactionKey : Bytes := [99, 111, 109, 112, 97, 99, 116, 105, 111, 110]

def applyCompaction (kv : ConsistentStore) (revision : ℤ) :
    Except Fatal (ConsistentStore × Except ApplyError ℤ) := do
  let (store, err) ← kv.store.compact revision
  let kv := { kv with store }
  match err with
  | some e => .ok (kv, .error (.store e))
  | none => do
    let res ← kv.store.range compactionKey none 1 0
    .ok (kv, .ok res.rev)

end EtcdCompat
