import Mathlib.Data.List.DropRight
import EtcdCompat.Client.Kv
import EtcdCompat.Lib.RelyGuarantee

/-!
# Mutexes and elections

`key.go`, `mutex.go` and `election.go` of `clientv3/concurrency`, as programs that make requests of
the key-value service, the clock and their contexts. A call of the service that fails may have been
carried out. A loop hangs when its fuel is used up. The world records who holds what.
-/

namespace EtcdCompat.Concurrency

open Clientv3

section World

/-- How a call of the service ends: answered, or with an error after or without its effect. -/
inductive Fate where
  | answered
  | unanswered
  | unsent
deriving DecidableEq, Repr

/-- The errors the clients return. -/
inductive Err where
  | rpc (e : V3rpc.RpcError)
  | store (e : StoreError)
  | failed
  | errElectionNotLeader
  | unexpected
deriving DecidableEq, Repr

inductive Request where
  | newSession
  | unixNano
  | get (r : RangeRequest)
  | txn (t : TxnRequest)
  /-- The delete of a key, by the client with the lease. -/
  | delete (lease : ℤ) (key : Bytes)
  | waitDelete (key : Bytes) (rev : ℤ)
  /-- Whether the context is done, asked with the error so far. -/
  | ctxDone (err : Option Err)
  | hang
  /-- The call of the client with the lease has returned: it holds with the key. -/
  | hold (lease : ℤ) (key : Bytes)
  | release (lease : ℤ)
  /-- The delete of `Resign`, by which the client has resigned. -/
  | resign (lease : ℤ) (key : Bytes)
deriving DecidableEq

inductive Response where
  | ok
  | nano (t : ℤ)
  | range (r : RangeResponse)
  | txn (r : TxnResponse)
  | ctxDone (b : Bool)
  | err (e : Err)
deriving DecidableEq

structure World where
  kv : Kv
  /-- The key each client holds with, by its lease. -/
  holding : ℤ → Option Bytes

/-- What is not up to the clients: how a call ends, the clock, and when a context is done. -/
structure Choice where
  fate : Fate := .answered
  nano : ℤ := 0
  cancelled : Bool := false
deriving DecidableEq, Repr

namespace World

/-- A call that is answered with `answer` and leaves the service as `kv`. -/
def call (w : World) (fate : Fate) (kv : Kv) (answer : Response) : World × Response :=
  match fate with
  | .answered => ({ w with kv }, answer)
  | .unanswered => ({ w with kv }, .err .failed)
  | .unsent => (w, .err .failed)

def get (rt : Runtime) (w : World) (fate : Fate) (r : RangeRequest) : Option (World × Response) :=
  match V3rpc.checkRangeRequest r with
  | .error e => some (w.call fate w.kv (.err (.rpc e)))
  | .ok _ => match w.kv.range rt (w.kv.contents, false) r with
    | .error _ => none
    | .ok (.error e) => some (w.call fate w.kv (.err (.store e)))
    | .ok (.ok resp) => some (w.call fate w.kv (.range resp))

def txn (rt : Runtime) (w : World) (fate : Fate) (t : TxnRequest) : Option (World × Response) :=
  match V3rpc.checkTxnRequest t with
  | .error e => some (w.call fate w.kv (.err (.rpc e)))
  | .ok _ => match w.kv.txn rt t with
    | .error _ => none
    | .ok (_, .error e) => some (w.call fate w.kv (.err (.store e)))
    | .ok (kv, .ok resp) => if kv.rev ≤ maxInt64 then some (w.call fate kv (.txn resp)) else none

def delete (w : World) (fate : Fate) (key : Bytes) : Option (World × Response) :=
  match V3rpc.checkDeleteRequest { key } with
  | .error e => some (w.call fate w.kv (.err (.rpc e)))
  | .ok _ =>
    let kv := w.kv.deleteRange { key }
    if kv.rev ≤ maxInt64 then some (w.call fate kv .ok) else none

def setHolding (w : World) (lease : ℤ) (key : Option Bytes) : World :=
  { w with holding := Function.update w.holding lease key }

end World

def exec (rt : Runtime) (ch : Choice) (w : World) : Request → Option (World × Response)
  | .newSession => some (w.call ch.fate w.kv .ok)
  | .unixNano => some (w, .nano ch.nano)
  | .get r => w.get rt ch.fate r
  | .txn t => w.txn rt ch.fate t
  | .delete _ key => w.delete ch.fate key
  | .waitDelete key rev =>
    -- a watch that fails may do so at any time
    if ch.fate ≠ .answered then some (w, .err .failed)
    else if w.kv.deletedSince key rev then some (w, .ok)
    else none
  | .ctxDone _ => some (w, .ctxDone ch.cancelled)
  | .hang => none
  | .hold lease key => some (w.setHolding lease (some key), .ok)
  | .release lease => some (w.setHolding lease none, .ok)
  | .resign lease key => (w.delete ch.fate key).map fun x => (x.1.setHolding lease none, x.2)

end World

abbrev Client := Program Request Response

section Key

/-- `fmt.Sprintf("%v", n)`. -/
def decimal (n : ℤ) : Bytes :=
  let digits := (Nat.toDigits 10 n.natAbs).map fun c => Fin.ofNat 256 c.toNat
  if n < 0 then 45 :: digits else digits

def slash : Fin 256 := 47

/-- The transaction of `NewUniqueKV`: the put, if the key is not there. -/
def createTxn (newKey val : Bytes) (lease : ℤ) : TxnRequest :=
  ⟨[compareModified newKey compareEqual 0], [.requestPut (some ⟨newKey, val, lease⟩)], []⟩

def newUniqueKV (pfx val : Bytes) (lease : ℤ) : ℕ → Client (Bytes × ℤ × Option Err)
  | 0 => do
    let _ ← Program.ask .hang
    return ([], 0, some .unexpected)
  | fuel + 1 => do
    match ← Program.ask .unixNano with
    | .nano t =>
      let newKey := pfx ++ slash :: decimal t
      match ← Program.ask (.txn (createTxn newKey val lease)) with
      | .txn resp =>
        if resp.succeeded then return (newKey, resp.revision, none)
        else newUniqueKV pfx val lease fuel
      | .err e => return ([], 0, some e)
      | _ => return ([], 0, some .unexpected)
    | _ => return ([], 0, some .unexpected)

def newUniqueKey (pfx : Bytes) (lease : ℤ) (fuel : ℕ) : Client (Bytes × ℤ × Option Err) :=
  newUniqueKV pfx [] lease fuel

/-- What `waitDelete` returns. -/
def waitDelete (key : Bytes) (rev : ℤ) : Client (Option Err) := do
  match ← Program.ask (.waitDelete key rev) with
  | .ok => return none
  | .err e => return some e
  | _ => return some .unexpected

/-- The pairs without those at the end that were created after `maxRev`. -/
def trimmed (maxRev : ℤ) (kvs : List KeyValue) : List KeyValue :=
  kvs.rdropWhile fun kv => !decide (kv.createRevision ≤ maxRev)

/-- The loop of `waitDeletes`, with the pairs of the last answer. -/
def waitLoop (key : Bytes) : ℕ → List OpOption → ℤ → List KeyValue → Client (Option Err)
  | 0, _, _, _ => do
    let _ ← Program.ask .hang
    return some .unexpected
  | fuel + 1, getOpts, maxRev, kvs =>
    match (trimmed maxRev kvs).getLast? with
    | none => return none
    | some lastKV => do
      match ← waitDelete lastKV.key lastKV.createRevision with
      | some e => return some e
      | none =>
        if (trimmed maxRev kvs).length = 1 then return none
        else
          let getOpts := getOpts ++ [withLimit ((trimmed maxRev kvs).length - 1)]
          match ← Program.ask (.get (opGet key getOpts)) with
          | .range resp => waitLoop key fuel getOpts lastKV.createRevision resp.kvs
          | .err e => return some e
          | _ => return some .unexpected

def waitDeletes (key : Bytes) (opts : List OpOption) (fuel : ℕ) : Client (Option Err) := do
  let getOpts := withSort sortByCreate sortAscend :: opts
  match ← Program.ask (.get (opGet key getOpts)) with
  | .range resp => waitLoop key fuel (getOpts ++ [withRev 0]) maxInt64 resp.kvs
  | .err e => return some e
  | _ => return some .unexpected

end Key

section Mutex

structure Mutex where
  pfx : Bytes
  myKey : Bytes := []
  myRev : ℤ := -1
deriving DecidableEq, Repr

variable (lease : ℤ) (fuel : ℕ)

def Mutex.unlock (m : Mutex) : Client (Mutex × Option Err) := do
  match ← Program.ask (.delete lease m.myKey) with
  | .err e => return (m, some e)
  | _ => return ({ m with myKey := [0], myRev := -1 }, none)

/-- The end of `Lock`: the key is given up if the context is done. -/
def Mutex.settle (m : Mutex) (err : Option Err) : Client (Mutex × Option Err) := do
  match ← Program.ask (.ctxDone err) with
  | .ctxDone true => do
    let (m, _) ← m.unlock lease
    return (m, err)
  | _ => return (m, err)

/-- `Lock` with a session. -/
def Mutex.stand (m : Mutex) : Client (Mutex × Option Err) := do
  -- the error of `NewUniqueKey` is overwritten
  let (myKey, myRev, _) ← newUniqueKey m.pfx lease fuel
  let m := { m with myKey, myRev }
  let err ← waitDeletes m.pfx [withPrefix, withRev (m.myRev - 1)] fuel
  m.settle lease err

def Mutex.lock (m : Mutex) : Client (Mutex × Option Err) := do
  match ← Program.ask .newSession with
  | .err e => return (m, some e)
  | _ => m.stand lease fuel

inductive MutexCall where
  | lock
  | unlock
deriving DecidableEq, Repr

def Mutex.calls (m : Mutex) : List MutexCall → Client Unit
  | [] => return ()
  | .lock :: cs => do
    let (m, err) ← m.lock lease fuel
    if err = none then
      let _ ← Program.ask (.hold lease m.myKey)
      m.calls cs
    else m.calls cs
  | .unlock :: cs => do
    let _ ← Program.ask (.release lease)
    let (m, _) ← m.unlock lease
    m.calls cs

end Mutex

section Election

structure Election where
  keyPrefix : Bytes
  leaderKey : Bytes := []
  leaderRev : ℤ := 0
  /-- Whether there is a `leaderSession`. -/
  leaderSession : Bool := false
deriving DecidableEq, Repr

variable (lease : ℤ) (fuel : ℕ)

/-- The end of a `Campaign` with an error: the key is given up if the context is done. -/
def Election.cleanUp (e : Election) (k : Bytes) (err : Err) : Client (Election × Option Err) := do
  match ← Program.ask (.ctxDone (some err)) with
  | .ctxDone true => do
    let _ ← Program.ask (.delete lease k)
    return (e, some err)
  | _ => return (e, some err)

/-- `Campaign` with the key it has put. -/
def Election.await (e : Election) (k : Bytes) (rev : ℤ) : Client (Election × Option Err) := do
  match ← waitDeletes e.keyPrefix [withPrefix, withRev (rev - 1)] fuel with
  | some err => e.cleanUp lease k err
  | none => return ({ e with leaderKey := k, leaderRev := rev, leaderSession := true }, none)

/-- `Campaign` with a session. -/
def Election.stand (e : Election) (val : Bytes) : Client (Election × Option Err) := do
  let (k, rev, err) ← newUniqueKV e.keyPrefix val lease fuel
  match err with
  | some err => e.cleanUp lease k err
  | none => e.await lease fuel k rev

def Election.campaign (e : Election) (val : Bytes) : Client (Election × Option Err) := do
  match ← Program.ask .newSession with
  | .err err => return (e, some err)
  | _ => e.stand lease fuel val

/-- The transaction of `Proclaim`. -/
def proclaimTxn (leaderKey val : Bytes) (leaderRev lease : ℤ) : TxnRequest :=
  ⟨[compareCreated leaderKey compareEqual leaderRev],
    [.requestPut (some ⟨leaderKey, val, lease⟩)], []⟩

def Election.proclaim (e : Election) (val : Bytes) : Client (Election × Option Err) :=
  if e.leaderSession then do
    match ← Program.ask (.txn (proclaimTxn e.leaderKey val e.leaderRev lease)) with
    | .txn tresp =>
      if tresp.succeeded then return (e, none)
      else return ({ e with leaderKey := [] }, some .errElectionNotLeader)
    | .err err => return (e, some err)
    | _ => return (e, some .unexpected)
  else return (e, some .errElectionNotLeader)

def Election.resign (e : Election) : Client (Election × Option Err) :=
  if e.leaderSession then do
    match ← Program.ask (.resign lease e.leaderKey) with
    | .err err => return ({ e with leaderKey := [], leaderSession := false }, some err)
    | _ => return ({ e with leaderKey := [], leaderSession := false }, none)
  else return (e, none)

inductive ElectionCall where
  | campaign (val : Bytes)
  | proclaim (val : Bytes)
  | resign
deriving DecidableEq, Repr

def Election.calls (e : Election) : List ElectionCall → Client Unit
  | [] => return ()
  | .campaign val :: cs => do
    let (e, err) ← e.campaign lease fuel val
    if err = none then
      let _ ← Program.ask (.hold lease e.leaderKey)
      e.calls cs
    else e.calls cs
  | .proclaim val :: cs => do
    let (e, _) ← e.proclaim lease val
    e.calls cs
  | .resign :: cs => do
    let (e, _) ← e.resign lease
    e.calls cs

end Election

end EtcdCompat.Concurrency
