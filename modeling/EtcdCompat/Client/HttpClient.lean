import EtcdCompat.V2.Store

/-!
# The v2 client over several endpoints

`httpClusterClient.Do` sends a request to one endpoint after the other, from the pinned one on,
until one brings back something other than a server's failure. Whether the cluster executes a
request and what the client hears of it is given from outside.
-/

namespace EtcdCompat.HttpClient

open GoPath

/-- The errors of a request that the client tells apart. -/
inductive RequestError where
  | canceled
  | deadlineExceeded
  -- the header timeout among them
  | other (text : Bytes)
deriving DecidableEq, Repr

/-- What `hc.Do` brings back: the error, or the status code of the response. -/
abbrev Reply := Except RequestError ℕ

/-- What becomes of one request. -/
inductive Outcome where
  -- executed, and the answer arrives
  | answered
  -- executed, and the client hears something else of it
  | lost (reply : Reply)
  | notExecuted (reply : Reply)

def Outcome.executed : Outcome → Bool
  | .answered | .lost _ => true
  | .notExecuted _ => false

/-- One round of the loop: the outcome of its request, `ctx.Err()` when the client looks at it, the
clock and map order of an execution, and what the cluster does for others before. -/
structure Round where
  outcome : Outcome
  ctxErr : Option RequestError := none
  env : V2.Env
  others : List (V2.Env × V2.Op) := []

/-- `createInOrderAction`; the time to live is in nanoseconds. -/
structure CreateInOrderAction where
  dir : Bytes
  value : Bytes
  ttl : ℤ := 0

def storeKeysPrefix : Bytes := ascii "/1"

namespace CreateInOrderAction

def nodePath (act : CreateInOrderAction) : Bytes := join storeKeysPrefix act.dir

/-- The form has whole seconds, and only those of a positive time. -/
def expireOpts (act : CreateInOrderAction) (now : V2.Time) : V2.TTLOptionSet :=
  if 0 < act.ttl then { expireTime := now + act.ttl / V2.second * V2.second } else {}

end CreateInOrderAction

/-- `errorStatus`, with its default. -/
def statusCode : V2.ErrorCode → ℕ
  | .keyNotFound => 404
  | .notFile | .dirNotEmpty => 403
  | .testFailed | .nodeExist => 412
  | .notDir | .rootROnly | .eventIndexCleared => 400

/-- The cluster, and the events of the nodes it has created for the call. -/
structure Cluster where
  store : V2.Store
  created : List V2.Event := []

namespace Cluster

def post (w : Cluster) (env : V2.Env) (act : CreateInOrderAction) :
    Except V2.Panic (Cluster × ℕ) := do
  match ← w.store.create env act.nodePath false act.value true (act.expireOpts env.now) with
  | (store, .ok e) => .ok (⟨store, w.created ++ [e]⟩, 201)
  | (store, .error err) => .ok (⟨store, w.created⟩, statusCode err.errorCode)

def request (w : Cluster) (act : CreateInOrderAction) (round : Round) :
    Except V2.Panic (Cluster × Reply) := do
  let store ← w.store.run round.others
  let w := { w with store }
  match round.outcome with
  | .notExecuted reply => .ok (w, reply)
  | .lost reply => do
    let (w, _) ← w.post round.env act
    .ok (w, reply)
  | .answered => do
    let (w, status) ← w.post round.env act
    .ok (w, .ok status)

end Cluster

inductive AttemptError where
  | request (err : RequestError)
  | noLeader (endpoint : Bytes)
  | serverError (endpoint : Bytes) (status : ℕ)
deriving DecidableEq, Repr

inductive DoError where
  | noEndpoints
  | context (err : RequestError)
  | cluster (errors : List AttemptError)
deriving DecidableEq, Repr

/-- What the loop does with a reply: it returns, or it goes on with one more error. -/
def step (endpoint : Bytes) (ctxErr : Option RequestError) :
    Reply → Except AttemptError (Except DoError ℕ)
  | .error err =>
    if ctxErr = some err then .ok (.error (.context err))
    else if err = .canceled ∨ err = .deadlineExceeded then .ok (.error (.context err))
    else .error (.request err)
  | .ok status =>
    if status / 100 = 5 then
      if status = 500 ∨ status = 503 then .error (.noLeader endpoint)
      else .error (.serverError endpoint status)
    else .ok (.ok status)

structure HttpClusterClient where
  endpoints : List Bytes
  pinned : ℕ

namespace HttpClusterClient

/-- The loop of `Do`, with `n` rounds to go. -/
def doFrom (c : HttpClusterClient) (act : CreateInOrderAction) (rounds : ℕ → Round) :
    ℕ → ℕ → List AttemptError → Cluster →
      Except V2.Panic (HttpClusterClient × Cluster × Except DoError ℕ)
  | 0, _, errors, w => .ok (c, w, .error (.cluster errors))
  | n + 1, i, errors, w => do
    let k := (c.pinned + i) % c.endpoints.length
    let (w, reply) ← w.request act (rounds i)
    match step (c.endpoints.getD k []) (rounds i).ctxErr reply with
    | .error err => doFrom c act rounds n (i + 1) (errors ++ [err]) w
    | .ok (.error err) => .ok (c, w, .error err)
    | .ok (.ok status) => .ok ({ c with pinned := k }, w, .ok status)

/-- `CreateInOrder` up to the decoding of the body: `Do` with its action. -/
def createInOrder (c : HttpClusterClient) (act : CreateInOrderAction) (rounds : ℕ → Round)
    (w : Cluster) : Except V2.Panic (HttpClusterClient × Cluster × Except DoError ℕ) :=
  if c.endpoints.length = 0 then .ok (c, w, .error .noEndpoints)
  else c.doFrom act rounds c.endpoints.length 0 [] w

end HttpClusterClient

end EtcdCompat.HttpClient
