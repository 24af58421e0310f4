import EtcdCompat.Server.Apply
import EtcdCompat.Storage.History

/-!
# The key-value service as its clients see it

A revision, the contents at every revision so far, and requests carried out one at a time on them. A
transaction reads its own writes and takes the next revision when it has written. Nothing is
compacted, and every lease a put names is there.
-/

namespace EtcdCompat

/-- The revision of the service and the contents at every revision up to it. -/
structure Kv where
  rev : ℤ := 1
  past : ℤ → Contents := fun _ => .empty

namespace Kv

def contents (kv : Kv) : Contents := kv.past kv.rev

section Serve

variable (rt : Runtime) (kv : Kv)

/-- The revision a transaction shows, given whether it has written. -/
def shownRev (written : Bool) : ℤ := if written then kv.rev + 1 else kv.rev

/-- What a range reads: the draft of the transaction, or the contents of a past revision. -/
def readAt (st : Contents × Bool) (rev : ℤ) : Contents :=
  if rev ≤ 0 ∨ kv.rev < rev then st.1 else kv.past rev

/-- The answer to a range, cut to its limit. -/
def answer (revision limit : ℤ) (kvs : List KeyValue) : RangeResponse :=
  if limit > 0 ∧ kvs.length > limit then ⟨revision, kvs.take limit.toNat, true⟩
  else ⟨revision, kvs, false⟩

def range (st : Contents × Bool) (r : RangeRequest) :
    Except Fatal (Except StoreError RangeResponse) :=
  if r.revision > kv.shownRev st.2 then .ok (.error .errFutureRev)
  else do
    let found := (kv.readAt st r.revision).within r.key (gteRange r.rangeEnd)
    let kvs ← sortKVs rt r (Contents.cut (fetchLimit r) (found.map (·.2)))
    .ok (.ok (answer (kv.shownRev st.2) r.limit kvs))

/-- One request of a transaction, on what the transaction has come to. -/
def union (st : Contents × Bool) :
    RequestUnion → Except Fatal ((Contents × Bool) × Option ResponseUnion)
  | .requestRange (some r) => do
    match ← kv.range rt st r with
    | .error _ => .error .unexpectedTxnError
    | .ok resp => .ok (st, some (.responseRange resp))
  | .requestPut (some p) =>
    .ok ((st.1.put (kv.rev + 1) p.key p.value p.lease, true), some (.responsePut (kv.rev + 1)))
  | .requestDeleteRange (some dr) =>
    let found := st.1.within dr.key (gteRange dr.rangeEnd)
    let st' := (st.1.deleteRange dr.key (gteRange dr.rangeEnd), st.2 || !found.isEmpty)
    .ok (st', some (.responseDeleteRange ⟨kv.shownRev st'.2, found.length⟩))
  | _ => .ok (st, none)

def unions (st : Contents × Bool) :
    List RequestUnion → Except Fatal ((Contents × Bool) × List (Option ResponseUnion))
  | [] => .ok (st, [])
  | req :: reqs => do
    let (st, resp) ← kv.union rt st req
    let (st, resps) ← unions st reqs
    .ok (st, resp :: resps)

def commit (st : Contents × Bool) : Kv :=
  if st.2 then ⟨kv.rev + 1, fun r => if r = kv.rev + 1 then st.1 else kv.past r⟩ else kv

def compare (c : Compare) : Bool := compareKV c (kv.contents.find c.key)

/-- A range with a revision a transaction cannot be asked for. -/
def checkRanges : List RequestUnion → Except StoreError Unit
  | [] => .ok ()
  | .requestRange (some greq) :: reqs =>
    if greq.revision > kv.rev then .error .errFutureRev
    else checkRanges reqs
  | _ :: reqs => checkRanges reqs

/-- A transaction. The revision of the answer is that of the last comparison made, 0 without one,
and one more where there are responses. -/
def txn (t : TxnRequest) : Except Fatal (Kv × Except StoreError TxnResponse) :=
  let ok := t.compare.all kv.compare
  let reqs := if ok then t.success else t.failure
  let revision := if t.compare = [] then 0 else kv.rev
  match kv.checkRanges reqs with
  | .error e => .ok (kv, .error e)
  | .ok _ => do
    let (st, resps) ← kv.unions rt (kv.contents, false) reqs
    .ok (kv.commit st, .ok ⟨if resps.length ≠ 0 then revision + 1 else revision, ok, resps⟩)

end Serve

def put (kv : Kv) (p : PutRequest) : Kv :=
  kv.commit (kv.contents.put (kv.rev + 1) p.key p.value p.lease, true)

def deleteRange (kv : Kv) (dr : DeleteRangeRequest) : Kv :=
  kv.commit (kv.contents.deleteRange dr.key (gteRange dr.rangeEnd),
    !(kv.contents.within dr.key (gteRange dr.rangeEnd)).isEmpty)

/-- Whether the key was deleted at a revision. -/
def deletedAt (kv : Kv) (key : Bytes) (rev : ℤ) : Bool :=
  ((kv.past (rev - 1)).find key).isSome && ((kv.past rev).find key).isNone

/-- Whether a watch of the key from a revision has a DELETE to show. -/
def deletedSince (kv : Kv) (key : Bytes) (rev : ℤ) : Bool :=
  (List.range (kv.rev - rev + 1).toNat).any fun i => kv.deletedAt key (rev + i)

end Kv

namespace Clientv3

/-- `OpOption`, for the requests `Get` makes. -/
abbrev OpOption := RangeRequest → RangeRequest

def withLimit (n : ℤ) : OpOption := fun op => { op with limit := n }

def withRev (rev : ℤ) : OpOption := fun op => { op with revision := rev }

def withSort (target order : ℤ) : OpOption :=
  fun op => { op with sortOrder := order, sortTarget := target }

def noPrefixEnd : Bytes := [0]

/-- `getPrefix`, the bytes from the last one on: the last that can be is raised and ends it. -/
def raised : Bytes → Option Bytes
  | [] => none
  | b :: bs => match raised bs with
    | some bs => some (b :: bs)
    | none => if b < 255 then some [b + 1] else none

def getPrefix (key : Bytes) : Bytes := (raised key).getD noPrefixEnd

def withPrefix : OpOption := fun op => { op with rangeEnd := some (getPrefix op.key) }

def opGet (key : Bytes) (opts : List OpOption) : RangeRequest :=
  opts.foldl (fun op opt => opt op) { key }

/-- `Compare` of `ModifiedRevision` and `CreatedRevision`. -/
def compareModified (key : Bytes) (result rev : ℤ) : Compare :=
  ⟨result, compareMod, key, some (.modRevision rev)⟩

def compareCreated (key : Bytes) (result rev : ℤ) : Compare :=
  ⟨result, compareCreate, key, some (.createRevision rev)⟩

end Clientv3

end EtcdCompat
