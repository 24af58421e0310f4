import EtcdCompat.Client.Recipes

/-!
# Software transactional memory

`stm.go` of `clientv3/concurrency`. An apply function is a program over the calls of its STM, which
commits what was put if what was read is current. The serializable STM reads at the revision of its
first get, and takes what a failed commit has read over to the next attempt.
-/

namespace EtcdCompat.Concurrency

open Clientv3

section Apply

/-- The calls an apply function makes. -/
inductive StmOp where
  | get (key : Bytes)
  | put (key val : Bytes) (lease : ℤ)
  | rev (key : Bytes)
  | del (key : Bytes)
deriving DecidableEq, Repr

inductive StmVal where
  | str (s : Bytes)
  | int (n : ℤ)
  | unit
deriving DecidableEq, Repr

/-- An apply function, with whether it returns nil. -/
abbrev Apply := Program StmOp StmVal Bool

structure StmPut where
  val : Bytes
  op : RequestUnion
deriving DecidableEq, Repr

def stmPut (key val : Bytes) (lease : ℤ) : StmPut := ⟨val, .requestPut (some ⟨key, val, lease⟩)⟩

def stmDel (key : Bytes) : StmPut := ⟨[], .requestDeleteRange (some { key })⟩

end Apply

section Stm

/-- `stm`, and `stmSerializable` with its `prefetch`. `getRev` is the revision in `getOpts`. -/
structure Stm where
  serializable : Bool
  rset : OrdMap Bytes RangeResponse := .empty
  wset : OrdMap Bytes StmPut := .empty
  getRev : Option ℤ := none
  prefetch : OrdMap Bytes RangeResponse := .empty

def respToValue (resp : RangeResponse) : Bytes := (resp.kvs.head?.map (·.value)).getD []

def respToRev (resp : RangeResponse) : ℤ := (resp.kvs.head?.map (·.modRevision)).getD 0

def isKeyCurrent (k : Bytes) (r : RangeResponse) : Compare :=
  compareModified k compareLess ((r.kvs.head?.map (·.modRevision)).getD r.revision + 1)

namespace Stm

def cmps (s : Stm) : List Compare := s.rset.entries.map fun e => isKeyCurrent e.1 e.2

def puts (s : Stm) : List RequestUnion := s.wset.entries.map (·.2.op)

def gets (s : Stm) : List RequestUnion :=
  s.rset.entries.map fun e => .requestRange (some { key := e.1 })

def commitTxn (s : Stm) : TxnRequest := ⟨s.cmps, s.puts, if s.serializable then s.gets else []⟩

def reset (s : Stm) : Stm := { s with rset := .empty, wset := .empty }

/-- A response prefetched for the key goes to the read set. -/
def load (s : Stm) (key : Bytes) : Stm :=
  match s.prefetch.find key with
  | some resp => { s with prefetch := s.prefetch.erase key, rset := s.rset.insert key resp }
  | none => s

/-- A key of the read set with the response of its get. -/
def prefetchOne (m : OrdMap Bytes RangeResponse)
    (x : (Bytes × RangeResponse) × Option ResponseUnion) : OrdMap Bytes RangeResponse :=
  match x.2 with
  | some (.responseRange r) => m.insert x.1.1 r
  | _ => m

/-- The read set with the responses of the gets of a commit that failed. -/
def prefetched (s : Stm) (responses : List (Option ResponseUnion)) : OrdMap Bytes RangeResponse :=
  (s.rset.entries.zip responses).foldl prefetchOne s.rset

/-- The STM after a commit that failed. -/
def conflicted (s : Stm) (responses : List (Option ResponseUnion)) : Stm :=
  if s.serializable then
    { s with rset := s.prefetched responses, prefetch := s.prefetched responses, getRev := none }
  else s

end Stm

end Stm

section Service

/-- A commit: the apply function and the STM it ran on, with the contents and the revision before
and the contents after. -/
structure Committed where
  apply : Apply
  stm : Stm
  revision : ℤ
  before : Contents
  after : Contents

structure StmWorld where
  kv : Kv
  commits : List Committed

inductive StmRequest where
  | get (r : RangeRequest)
  | commit (s : Stm) (apply : Apply)
  | put (p : PutRequest)
  | delete (dr : DeleteRangeRequest)
  | hang

inductive StmResponse where
  | ok
  | range (r : RangeResponse)
  | txn (r : TxnResponse)
  | err (e : Err)

namespace StmWorld

/-- A call that is answered with `answer` and leaves the world as `w'`. -/
def call (w : StmWorld) (fate : Fate) (w' : StmWorld) (answer : StmResponse) :
    StmWorld × StmResponse :=
  match fate with
  | .answered => (w', answer)
  | .unanswered => (w', .err .failed)
  | .unsent => (w, .err .failed)

def get (rt : Runtime) (w : StmWorld) (fate : Fate) (r : RangeRequest) :
    Option (StmWorld × StmResponse) :=
  match V3rpc.checkRangeRequest r with
  | .error e => some (w.call fate w (.err (.rpc e)))
  | .ok _ => match w.kv.range rt (w.kv.contents, false) r with
    | .error _ => none
    | .ok (.error e) => some (w.call fate w (.err (.store e)))
    | .ok (.ok resp) => some (w.call fate w (.range resp))

def committed (w : StmWorld) (s : Stm) (apply : Apply) (kv : Kv) (succeeded : Bool) : StmWorld :=
  if succeeded then
    ⟨kv, w.commits ++ [⟨apply, s, w.kv.rev, w.kv.contents, kv.contents⟩]⟩
  else ⟨kv, w.commits⟩

def commit (rt : Runtime) (w : StmWorld) (fate : Fate) (s : Stm) (apply : Apply) :
    Option (StmWorld × StmResponse) :=
  match V3rpc.checkTxnRequest s.commitTxn with
  | .error e => some (w.call fate w (.err (.rpc e)))
  | .ok _ => match w.kv.txn rt s.commitTxn with
    | .error _ => none
    | .ok (_, .error e) => some (w.call fate w (.err (.store e)))
    | .ok (kv, .ok resp) =>
      some (w.call fate (w.committed s apply kv resp.succeeded) (.txn resp))

def put (w : StmWorld) (fate : Fate) (p : PutRequest) : StmWorld × StmResponse :=
  match V3rpc.checkPutRequest p with
  | .error e => w.call fate w (.err (.rpc e))
  | .ok _ => w.call fate { w with kv := w.kv.put p } .ok

def delete (w : StmWorld) (fate : Fate) (dr : DeleteRangeRequest) : StmWorld × StmResponse :=
  match V3rpc.checkDeleteRequest dr with
  | .error e => w.call fate w (.err (.rpc e))
  | .ok _ => w.call fate { w with kv := w.kv.deleteRange dr } .ok

end StmWorld

def stmExec (rt : Runtime) (fate : Fate) (w : StmWorld) :
    StmRequest → Option (StmWorld × StmResponse)
  | .get r => w.get rt fate r
  | .commit s apply => w.commit rt fate s apply
  | .put p => some (w.put fate p)
  | .delete dr => some (w.delete fate dr)
  | .hang => none

end Service

abbrev StmClient := Program StmRequest StmResponse

section Run

namespace Stm

def fetch (s : Stm) (key : Bytes) : StmClient (Except Err (Stm × RangeResponse)) :=
  match s.rset.find key with
  | some resp => return .ok (s, resp)
  | none => do
    match ← Program.ask (.get { key, revision := s.getRev.getD 0 }) with
    | .range resp => return .ok ({ s with rset := s.rset.insert key resp }, resp)
    | .err e => return .error e
    | _ => return .error .unexpected

/-- The transaction's base revision is defined by the first read. -/
def setBase (firstRead : Bool) (resp : RangeResponse) (s : Stm) : Stm :=
  if firstRead then { s with getRev := some resp.revision } else s

/-- What `Get` does for a key that was not put. -/
def read (s : Stm) (key : Bytes) : StmClient (Except Err (Stm × RangeResponse)) :=
  if s.serializable then do
    match ← (s.load key).fetch key with
    | .error e => return .error e
    | .ok (s', resp) => return .ok (s'.setBase s.rset.entries.isEmpty resp, resp)
  else s.fetch key

def get (s : Stm) (key : Bytes) : StmClient (Except Err (Stm × Bytes)) :=
  match s.wset.find key with
  | some wv => return .ok (s, wv.val)
  | none => do
    match ← s.read key with
    | .error e => return .error e
    | .ok (s, resp) => return .ok (s, respToValue resp)

/-- `stm.Rev`. -/
def fetchRev (s : Stm) (key : Bytes) : StmClient (Except Err (Stm × ℤ)) := do
  match ← s.fetch key with
  | .error e => return .error e
  | .ok (s, resp) => return .ok (s, respToRev resp)

def rev (s : Stm) (key : Bytes) : StmClient (Except Err (Stm × ℤ)) :=
  if s.serializable then do
    match ← s.get key with
    | .error e => return .error e
    | .ok (s, _) => s.fetchRev key
  else s.fetchRev key

def put (s : Stm) (key val : Bytes) (lease : ℤ) : Stm :=
  { s with wset := s.wset.insert key (stmPut key val lease) }

def del (s : Stm) (key : Bytes) : Stm := { s with wset := s.wset.insert key (stmDel key) }

/-- An apply function on the STM, up to the first error of the service. -/
def interpret : Stm → Apply → StmClient (Except Err (Stm × Bool))
  | s, .done ok => return .ok (s, ok)
  | s, .request (.get key) k => do
    match ← s.get key with
    | .error e => return .error e
    | .ok (s, v) => interpret s (k (.str v))
  | s, .request (.rev key) k => do
    match ← s.rev key with
    | .error e => return .error e
    | .ok (s, n) => interpret s (k (.int n))
  | s, .request (.put key val lease) k => interpret (s.put key val lease) (k .unit)
  | s, .request (.del key) k => interpret (s.del key) (k .unit)

end Stm

/-- `runSTM`, from an attempt on: what it returns for an apply function that returned an error is
`none`. -/
def runSTM (apply : ℕ → Apply) : ℕ → ℕ → Stm → StmClient (Except Err (Option TxnResponse))
  | 0, _, _ => do
    let _ ← Program.ask .hang
    return .error .unexpected
  | fuel + 1, n, s => do
    match ← s.reset.interpret (apply n) with
    | .error e => return .error e
    | .ok (_, false) => return .ok none
    | .ok (s, true) => match ← Program.ask (.commit s (apply n)) with
      | .txn resp =>
        if resp.succeeded then return .ok (some resp)
        else runSTM apply fuel (n + 1) (s.conflicted resp.responses)
      | .err e => return .error e
      | _ => return .error .unexpected

def newSTMRepeatable (apply : ℕ → Apply) (fuel : ℕ) :
    StmClient (Except Err (Option TxnResponse)) :=
  runSTM apply fuel 0 { serializable := false }

def newSTMSerializable (apply : ℕ → Apply) (fuel : ℕ) :
    StmClient (Except Err (Option TxnResponse)) :=
  runSTM apply fuel 0 { serializable := true }

/-- What a client of the service does: one of the two STMs with an apply function, or puts and
deletes. -/
inductive StmJob where
  | stm (serializable : Bool) (apply : ℕ → Apply)
  | put (p : PutRequest) (next : StmJob)
  | delete (dr : DeleteRangeRequest) (next : StmJob)
  | stop

def StmJob.program (fuel : ℕ) : StmJob → StmClient (Except Err (Option TxnResponse))
  | .stm false apply => newSTMRepeatable apply fuel
  | .stm true apply => newSTMSerializable apply fuel
  | .put p next => do
    let _ ← Program.ask (.put p)
    next.program fuel
  | .delete dr next => do
    let _ ← Program.ask (.delete dr)
    next.program fuel
  | .stop => return .ok none

end Run

end EtcdCompat.Concurrency
