import Mathlib.Data.List.Sort
import EtcdCompat.Lib.RelyGuarantee
import EtcdCompat.V2.Path

/-!
# Discovery

Members find each other by keys under one token of a discovery service (`discovery.go`), which
carries the requests of the members' programs out one at a time. `path.Base` of a key is the key
here: all keys are those of the token's directory.
-/

namespace EtcdCompat.Discovery

open GoPath (ascii)

structure Node where
  key : Bytes
  value : Bytes
  createdIndex : ℕ
  modifiedIndex : ℕ
deriving DecidableEq, Repr

section Service

/-- The errors of the client. `etcd` is an error of the service, with its code and whether it comes
by a pointer. -/
inductive ClientError where
  | etcd (code : ℕ) (pointer : Bool)
  | invalidJSON
  | cluster
  | other
deriving DecidableEq, Repr

def errorCodeKeyNotFound : ℕ := 100

def errorCodeNodeExist : ℕ := 105

inductive Request where
  | getSize
  | list
  | create (key value : Bytes)
  /-- The next event of a key, and of the whole directory, after an index. -/
  | watchKey (key : Bytes) (afterIndex : ℕ)
  | watch (afterIndex : ℕ)
deriving DecidableEq

inductive Response where
  | value (v : Bytes)
  | listing (nodes : List Node) (index : ℕ)
  | node (n : Node)
  | failed (e : ClientError)
deriving DecidableEq

/-- The size key, the registrations in the order they were made, and the index of the service. -/
structure Service where
  size : Option Bytes
  nodes : List Node
  index : ℕ
deriving DecidableEq

/-- What is up to the service at a request: how far writes elsewhere have moved its index, and the
order of a listing. -/
structure Choice where
  elsewhere : ℕ
  listing : List Node

namespace Service

/-- The first event with a property after an index. Without an index the watch is for what comes
after it is made, and here it waits. -/
def event (s : Service) (afterIndex : ℕ) (p : Node → Bool) : Option (Service × Response) :=
  if afterIndex = 0 then none
  else (s.nodes.find? fun n => afterIndex < n.modifiedIndex && p n).map fun n => (s, .node n)

def carryOut (s : Service) (listing : List Node) : Request → Option (Service × Response)
  | .getSize => some (s, match s.size with
    | none => .failed (.etcd errorCodeKeyNotFound false)
    | some v => .value v)
  | .list => if listing.isPerm s.nodes then some (s, .listing listing s.index) else none
  | .create key value =>
    if s.nodes.any (·.key = key) then some (s, .failed (.etcd errorCodeNodeExist false))
    else
      let n := ⟨key, value, s.index + 1, s.index + 1⟩
      some ({ s with nodes := s.nodes ++ [n], index := s.index + 1 }, .node n)
  | .watchKey key afterIndex => s.event afterIndex (·.key = key)
  | .watch afterIndex => s.event afterIndex fun _ => true

end Service

def exec (ch : Choice) (s : Service) (r : Request) : Option (Service × Response) :=
  { s with index := s.index + ch.elsewhere }.carryOut ch.listing r

end Service

section Cluster

inductive DiscoveryError where
  | invalidURL
  | badSizeKey
  | sizeNotFound
  | duplicateID
  | duplicateName
  | fullCluster
  | tooManyRetries
  | badDiscoveryEndpoint
  | client (e : ClientError)
  /-- A slice out of bounds, or an answer of another kind. -/
  | panic
deriving DecidableEq, Repr

abbrev Api (α : Type) := ExceptT DiscoveryError (Program Request Response) α

def send (r : Request) : Api Response := ExceptT.lift (Program.ask r)

section Size

def digit (b : Fin 256) : Option ℕ := if 48 ≤ b.val ∧ b.val ≤ 57 then some (b.val - 48) else none

def decimalValue (ds : Bytes) : Option ℕ :=
  if ds = [] then none
  else ds.foldlM (fun n b => (digit b).map (10 * n + ·)) 0

/-- `strconv.Atoi`. -/
def atoi (s : Bytes) : Option ℤ := do
  let v ← match s with
    | [] => none
    | b :: ds =>
      if b = 43 then (decimalValue ds).map Int.ofNat
      else if b = 45 then (decimalValue ds).map fun n => -(n : ℤ)
      else (decimalValue s).map Int.ofNat
  if -2 ^ 63 ≤ v ∧ v < 2 ^ 63 then some v else none

end Size

section URLs

variable (validURL : Bytes → Bool)

def comma : Fin 256 := 44

def equals : Fin 256 := 61

/-- `m[key] = append(m[key], value)`. -/
def appendValue (m : List (Bytes × List Bytes)) (key value : Bytes) : List (Bytes × List Bytes) :=
  if m.any (·.1 = key) then m.map fun e => if e.1 = key then (e.1, e.2 ++ [value]) else e
  else m ++ [(key, [value])]

/-- `parse` of the names and their URLs. -/
def parse (s : Bytes) : List (Bytes × List Bytes) :=
  (segments comma s).foldl (fun m piece =>
    if piece = [] then m
    else
      let key := piece.takeWhile (· ≠ equals)
      appendValue m key (piece.drop (key.length + 1))) []

/-- `NewURLs`, with the checks of a single URL. -/
def newURLs (strs : List Bytes) : Bool := strs ≠ [] && strs.all validURL

def newURLsMap (s : Bytes) : Option (List (Bytes × List Bytes)) :=
  if (parse s).all fun e => newURLs validURL e.2 then some (parse s) else none

/-- `strings.Join` of the values. -/
def joined : List Node → Bytes
  | [] => []
  | [n] => n.value
  | n :: ns => n.value ++ comma :: joined ns

def nodesToCluster (ns : List Node) (size : ℤ) : Except DiscoveryError Bytes :=
  match newURLsMap validURL (joined ns) with
  | none => .error .invalidURL
  | some m => if (m.length : ℤ) ≠ size then .error .duplicateName else .ok (joined ns)

end URLs

section Check

def config : Bytes := ascii "_config"

/-- `ID.String`. -/
def idString (id : ℕ) : Bytes := (Nat.toDigits 16 id).map fun c => Fin.ofNat 256 c.toNat

/-- What `checkCluster` returns: the nodes, the size and the index, whether the cluster is full, and
the retries that are left. -/
structure Checked where
  nodes : List Node
  size : ℤ
  index : ℕ
  full : Bool
  retries : ℕ

/-- The loop for the own position: whether it comes to the end of the cluster first. -/
def comesFull (self : Bytes) (size : ℤ) : ℕ → List Node → Bool
  | _, [] => false
  | i, n :: ns =>
    if n.key = self then false else if size - 1 ≤ i then true else comesFull self size (i + 1) ns

def sortedNodes (nodes : List Node) : List Node :=
  (nodes.filter (·.key ≠ config)).insertionSort fun a b => a.createdIndex ≤ b.createdIndex

variable (self : Bytes)

/-- The nodes listed, of a cluster of the size. -/
def positioned (size : ℤ) (nodes : List Node) (index retries : ℕ) :
    Except DiscoveryError Checked :=
  let nodes := sortedNodes nodes
  if comesFull self size 0 nodes then
    if size < 0 then .error .panic
    else .ok ⟨nodes.take size.toNat, size, index, true, retries⟩
  else .ok ⟨nodes, size, index, false, retries⟩

/-- The list of the cluster, whose size is known. -/
def listCluster (size : ℤ) (retries : ℕ) (retry : Api Checked) : Api Checked := do
  match ← send .list with
  | .listing nodes index => positioned self size nodes index retries
  | .failed .cluster => retry
  | .failed e => throw (.client e)
  | _ => throw .panic

/-- The check once the size key is read. -/
def listSized (retries : ℕ) (retry : Api Checked) : Option ℤ → Api Checked
  | none => throw .badSizeKey
  | some size => listCluster self size retries retry

/-- One round of `checkCluster`, with what follows when the service is out of reach. -/
def checkOnce (retries : ℕ) (retry : Api Checked) : Api Checked := do
  match ← send .getSize with
  | .value v => listSized self retries retry (atoi v)
  | .failed (.etcd code pointer) =>
    if pointer ∧ code = errorCodeKeyNotFound then throw .sizeNotFound
    else throw (.client (.etcd code pointer))
  | .failed .invalidJSON => throw .badDiscoveryEndpoint
  | .failed .cluster => retry
  | .failed e => throw (.client e)
  | _ => throw .panic

/-- `checkCluster`, with the retries that are left. -/
def checkCluster : ℕ → Api Checked
  | 0 => checkOnce self 0 (throw .tooManyRetries)
  | retries + 1 => checkOnce self (retries + 1) (checkCluster retries)

end Check

section Join

variable (validURL : Bytes → Bool) (self : Bytes)

def createSelf (contents : Bytes) : Api Unit := do
  match ← send (.create self contents) with
  | .node n => match ← send (.watchKey self (n.createdIndex - 1)) with
    | .failed e => throw (.client e)
    | _ => pure ()
  | .failed (.etcd code pointer) =>
    if !pointer ∧ code = errorCodeNodeExist then throw .duplicateID
    else throw (.client (.etcd code pointer))
  | .failed e => throw (.client e)
  | _ => throw .panic

/-- The loop of `waitNodes`, for the nodes still missing. -/
def waitMore (retry : Api (List Node)) : ℕ → List Node → ℕ → Api (List Node)
  | 0, all, _ => pure all
  | missing + 1, all, afterIndex => do
    match ← send (.watch afterIndex) with
    | .node n => waitMore retry missing (all ++ [n]) n.modifiedIndex
    | .failed .cluster => retry
    | .failed e => throw (.client e)
    | _ => throw .panic

/-- `waitNodes` of nodes that were checked, with `waitNodesRetry` for as often as retries are left
(`bound` is as large). -/
def waitNodes : ℕ → Checked → Api (List Node)
  | bound, checked =>
    let retry : Api (List Node) := match bound with
      | 0 => throw .tooManyRetries
      | bound + 1 =>
        if checked.retries = 0 then throw .tooManyRetries
        else do
          let again ← checkCluster self (checked.retries - 1)
          if again.full then throw .fullCluster else waitNodes bound again
    if checked.size < 0 then throw .panic
    else
      let all := checked.nodes.take checked.size.toNat
      waitMore retry (checked.size.toNat - all.length) all checked.index

def nRetries : ℕ := 2 ^ 32 - 1

def joinCluster (contents : Bytes) : Api Bytes := do
  let first ← checkCluster self nRetries
  if first.full then throw .fullCluster
  else
    createSelf self contents
    let checked ← checkCluster self first.retries
    if checked.full then throw .fullCluster
    else
      let all ← waitNodes self checked.retries checked
      nodesToCluster validURL all checked.size

def getCluster : Api Bytes := do
  let checked ← checkCluster self nRetries
  if checked.full then nodesToCluster validURL checked.nodes checked.size
  else
    let all ← waitNodes self checked.retries checked
    nodesToCluster validURL all checked.size

end Join

end Cluster

end EtcdCompat.Discovery
