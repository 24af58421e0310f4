import EtcdCompat.Storage.Store

/-!
# v3 requests

The requests of the v3 key-value and lease services as `etcdserverpb` has them, the fields that the
apply path reads, and the checks `v3rpc` makes before a request is proposed. Enumerations of the
wire format are open: any integer may stand in such a field.
-/

namespace EtcdCompat

structure RangeRequest where
  key : Bytes
  rangeEnd : Option Bytes := none
  limit : ℤ := 0
  revision : ℤ := 0
  sortOrder : ℤ := 0
  sortTarget : ℤ := 0
deriving DecidableEq, Repr

structure PutRequest where
  key : Bytes
  value : Bytes := []
  lease : ℤ := 0
deriving DecidableEq, Repr

structure DeleteRangeRequest where
  key : Bytes
  rangeEnd : Option Bytes := none
deriving DecidableEq, Repr

/-- `RequestUnion`: the request of a set field may be nil, and no field may be set. -/
inductive RequestUnion where
  | requestRange (r : Option RangeRequest)
  | requestPut (p : Option PutRequest)
  | requestDeleteRange (dr : Option DeleteRangeRequest)
  | unset
deriving DecidableEq, Repr

inductive TargetUnion where
  | version (version : ℤ)
  | createRevision (createRevision : ℤ)
  | modRevision (modRevision : ℤ)
  | value (value : Bytes)
deriving DecidableEq, Repr

structure Compare where
  result : ℤ := 0
  target : ℤ := 0
  key : Bytes
  targetUnion : Option TargetUnion := none
deriving DecidableEq, Repr

structure TxnRequest where
  compare : List Compare := []
  success : List RequestUnion := []
  failure : List RequestUnion := []
deriving DecidableEq, Repr

/-- `InternalRaftRequest`, one of its v3 requests set. -/
inductive Request where
  | range (r : RangeRequest)
  | put (p : PutRequest)
  | deleteRange (dr : DeleteRangeRequest)
  | txn (rt : TxnRequest)
  | compaction (revision : ℤ)
  | leaseCreate (id ttl : ℤ)
  | leaseRevoke (id : ℤ)
deriving DecidableEq, Repr

/-- `RangeRequest_SortOrder` and `RangeRequest_SortTarget`. -/
def sortNone : ℤ := 0
def sortAscend : ℤ := 1
def sortDescend : ℤ := 2
def sortByKey : ℤ := 0
def sortByVersion : ℤ := 1
def sortByCreate : ℤ := 2
def sortByMod : ℤ := 3
def sortByValue : ℤ := 4

/-- `Compare_CompareResult` and `Compare_CompareTarget`. -/
def compareEqual : ℤ := 0
def compareGreater : ℤ := 1
def compareLess : ℤ := 2
def compareVersion : ℤ := 0
def compareCreate : ℤ := 1
def compareMod : ℤ := 2
def compareValue : ℤ := 3

namespace V3rpc

inductive RpcError where
  | errEmptyKey
  | errTooManyOps
  | errDuplicateKey
deriving DecidableEq, Repr

def maxOpsPerTxn : ℕ := 128

def checkKey (key : Bytes) : Except RpcError Unit :=
  if key.length = 0 then .error .errEmptyKey else .ok ()

def checkRangeRequest (r : RangeRequest) : Except RpcError Unit := checkKey r.key

def checkPutRequest (r : PutRequest) : Except RpcError Unit := checkKey r.key

def checkDeleteRequest (r : DeleteRangeRequest) : Except RpcError Unit := checkKey r.key

def checkRequestUnion : RequestUnion → Except RpcError Unit
  | .requestRange (some r) => checkRangeRequest r
  | .requestPut (some p) => checkPutRequest p
  | .requestDeleteRange (some dr) => checkDeleteRequest dr
  | _ => .ok ()

/-- `sort.SearchStrings`: the least position of a key not below `x`, in ascending keys. -/
def searchStrings (a : List Bytes) (x : Bytes) : ℕ := a.findIdx fun key => x ≤ key

/-- The keys of the puts so far, with the next request. -/
def putKey (keys : OrdMap Bytes Unit) : RequestUnion → Except RpcError (OrdMap Bytes Unit)
  | .requestPut (some preq) =>
    if (keys.find preq.key).isSome then .error .errDuplicateKey
    else .ok (keys.insert preq.key ())
  | _ => .ok keys

def deleteOverlaps (keys : OrdMap Bytes Unit) (requ : RequestUnion) : Except RpcError Unit :=
  let sortedKeys := keys.entries.map (·.1)
  match requ with
  | .requestDeleteRange (some dreq) => match dreq.rangeEnd with
    | none => if (keys.find dreq.key).isSome then .error .errDuplicateKey else .ok ()
    | some stop =>
      if searchStrings sortedKeys dreq.key ≠ searchStrings sortedKeys stop
      then .error .errDuplicateKey else .ok ()
  | _ => .ok ()

def checkRequestDupKeys (reqs : List RequestUnion) : Except RpcError Unit := do
  let keys ← reqs.foldlM putKey .empty
  -- without puts the deletes may overlap
  if keys.entries.length = 0 then .ok ()
  else reqs.forM (deleteOverlaps keys)

def checkTxnRequest (r : TxnRequest) : Except RpcError Unit :=
  if r.compare.length > maxOpsPerTxn ∨ r.success.length > maxOpsPerTxn
    ∨ r.failure.length > maxOpsPerTxn then .error .errTooManyOps
  else do
    r.compare.forM fun c => checkKey c.key
    r.success.forM checkRequestUnion
    checkRequestDupKeys r.success
    r.failure.forM checkRequestUnion
    checkRequestDupKeys r.failure

/-- The check made of a request before it is proposed. Those of the other services make none. -/
def check : Request → Except RpcError Unit
  | .range r => checkRangeRequest r
  | .put p => checkPutRequest p
  | .deleteRange dr => checkDeleteRequest dr
  | .txn rt => checkTxnRequest rt
  | _ => .ok ()

end V3rpc

end EtcdCompat
