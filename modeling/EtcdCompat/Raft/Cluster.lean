import EtcdCompat.Raft.Node
import Mathlib.Logic.Function.Basic

/-!
# A cluster of fixed membership

The nodes of `peers` run side by side; `net` holds every message ever sent, which may be delivered
never, late, often and in any order. The driver of a node takes a `Ready`, stores it, sends its
messages and answers with `Advance`; with `early` a leader's messages go first. A node that panics
or crashes goes down.
-/

namespace EtcdCompat

structure Options where
  electionTick : ℕ := 10
  heartbeatTick : ℕ := 1
  maxSizePerMsg : ℕ := noLimit
  maxInflightMsgs : ℕ := 256
  checkQuorum : Bool := false
deriving DecidableEq, Repr

structure Setup where
  peers : List ℕ
  nodup : peers.Nodup
  nonzero : none_ ∉ peers
  opts : ℕ → Options := fun _ => {}
  /-- The marshalled `ConfChange` of a peer, for a cluster started by `StartNode`; `none` if the
  peers are given to `newRaft`. -/
  confChange : Option (ℕ → Bytes) := none
  early : Bool := false

namespace Setup

variable (σ : Setup)

def config (v : ℕ) (storage : MemoryStorage) (applied : ℕ) : Config :=
  { id := v
    peers := if storage.snapshot.metadata.confState.nodes = [] then σ.peers else []
    electionTick := (σ.opts v).electionTick
    heartbeatTick := (σ.opts v).heartbeatTick
    storage := storage
    applied := applied
    maxSizePerMsg := (σ.opts v).maxSizePerMsg
    maxInflightMsgs := (σ.opts v).maxInflightMsgs
    checkQuorum := (σ.opts v).checkQuorum }

/-- A node with nothing stored is started, any other restarted. -/
def start (v : ℕ) (storage : MemoryStorage) (applied : ℕ) : Except Panic Node :=
  if storage = {} then
    match σ.confChange with
    | none => restartNode (σ.config v {} 0)
    | some d => startNode { σ.config v {} 0 with peers := [] } (σ.peers.map fun p => (p, d p))
  else restartNode (σ.config v storage applied)

end Setup

/-- A `Ready` the driver is working on. -/
structure Flight where
  rd : Ready
  saved : Bool := false
deriving DecidableEq, Repr

inductive Member where
  | down (storage : MemoryStorage) (why : Option Panic)
  | up (n : Node) (flight : Option Flight) (islead : Bool)
deriving DecidableEq, Repr

namespace Member

def storage : Member → MemoryStorage
  | .down storage _ => storage
  | .up n _ _ => n.raft.raftLog.storage

def raft? : Member → Option Raft
  | .down _ _ => none
  | .up n _ _ => some n.raft

end Member

/-- Whether the node leads after the `Ready`, which has a soft state when that changes. -/
def Ready.leads (rd : Ready) (islead : Bool) : Bool :=
  match rd.softState with
  | some s => s.raftState == .leader
  | none => islead

/-- Store the snapshot, the hard state and the entries of a `Ready`. -/
def MemoryStorage.persist (ms : MemoryStorage) (rd : Ready) : Except Panic MemoryStorage :=
  let ms := if isEmptySnap rd.snapshot then ms else ms.applySnapshot rd.snapshot
  let ms := if isEmptyHardState rd.hardState then ms else ms.setHardState rd.hardState
  ms.append rd.entries

def Node.withStorage (n : Node) (ms : MemoryStorage) : Node :=
  { n with raft := { n.raft with raftLog := { n.raft.raftLog with storage := ms } } }

structure Cluster where
  member : ℕ → Member := fun _ => .down {} none
  net : List Message := []
  /-- The entries a node has ever given to its storage. -/
  wal : ℕ → List Entry := fun _ => []

namespace Cluster

inductive Event where
  | start (v applied : ℕ)
  | recv (v : ℕ) (m : Message)
  | input (v : ℕ) (m : Message)
  | tick (v rand : ℕ)
  | ready (v : ℕ)
  | save (v : ℕ)
  | send (v : ℕ)
  | advance (v : ℕ)
  | createSnapshot (v i : ℕ) (data : Option Bytes)
  | compact (v i : ℕ)
  | resetPendingConf (v : ℕ)
  | shuffle (v : ℕ) (ids : List ℕ)
  | crash (v : ℕ)
deriving DecidableEq, Repr

def setMember (c : Cluster) (v : ℕ) (m : Member) : Cluster :=
  { c with member := Function.update c.member v m }

/-- Run the node `v`, if it is up; a panic takes it down. -/
def onNode (c : Cluster) (v : ℕ) (f : Node → Option Flight → Bool → Except Panic Member) :
    Cluster :=
  match c.member v with
  | .down _ _ => c
  | .up n fl islead =>
    match f n fl islead with
    | .ok m => c.setMember v m
    | .error p => c.setMember v (.down n.raft.raftLog.storage (some p))

/-- A local message of a node's own goroutines, or a proposal of a client. -/
def isInput (m : Message) : Bool := decide (m.term = 0) && (isLocalMsg m || m.type == .prop)

def readyMember (n : Node) (fl : Option Flight) (islead : Bool) : Except Panic Member := do
  match fl with
  | some _ => return .up n fl islead
  | none =>
    match ← n.ready with
    | none => return .up n fl islead
    | some (rd, n) =>
      return .up n (some { rd := rd }) (rd.leads islead)

def saveMember (n : Node) (fl : Option Flight) (islead : Bool) : Except Panic Member := do
  match fl with
  | some { rd, saved := false } =>
    let ms ← n.raft.raftLog.storage.persist rd
    return .up (n.withStorage ms) (some { rd := rd, saved := true }) islead
  | _ => return .up n fl islead

def saveEntries : Member → List Entry
  | .up _ (some { rd, saved := false }) _ => rd.entries
  | _ => []

def sendable (early : Bool) : Member → List Message
  | .up _ (some { rd, saved }) islead => if saved || (early && islead) then rd.messages else []
  | _ => []

def advanceMember (n : Node) (fl : Option Flight) (islead : Bool) : Except Panic Member := do
  match fl with
  | some { saved := true, .. } =>
    let n ← n.advance
    return .up n none islead
  | _ => return .up n fl islead

/-- The application makes snapshots of what has been committed. -/
def createSnapshotMember (peers : List ℕ) (i : ℕ) (data : Option Bytes) (n : Node)
    (fl : Option Flight) (islead : Bool) : Except Panic Member :=
  let ms := n.raft.raftLog.storage
  if i > ms.hardState.commit then .ok (.up n fl islead)
  else do
    match ← ms.createSnapshot i (some { nodes := peers }) data with
    | .ok ms => return .up (n.withStorage ms) fl islead
    | .error _ => return .up n fl islead

/-- The application compacts what has been applied. -/
def compactMember (i : ℕ) (n : Node) (fl : Option Flight) (islead : Bool) :
    Except Panic Member :=
  if i > n.raft.raftLog.applied then .ok (.up n fl islead)
  else do
    match ← n.raft.raftLog.storage.compact i with
    | .ok ms => return .up (n.withStorage ms) fl islead
    | .error _ => return .up n fl islead

/-- The order in which a map is ranged over is not fixed. -/
def shuffleMember (ids : List ℕ) (n : Node) (fl : Option Flight) (islead : Bool) : Member :=
  if ids.Perm (n.raft.prs.map (·.1)) then
    .up { n with raft := { n.raft with
      prs := ids.filterMap fun i => (n.raft.pr i).map fun pr => (i, pr) } } fl islead
  else .up n fl islead

def startMember (σ : Setup) (v applied : ℕ) : Member → Member
  | .up n fl islead => .up n fl islead
  | .down storage why =>
    if v ∉ σ.peers then .down storage why
    else match σ.start v storage applied with
      | .ok n => .up n none false
      | .error p => .down storage (some p)

def step (σ : Setup) (c : Cluster) : Event → Cluster
  | .start v applied => c.setMember v (startMember σ v applied (c.member v))
  | .recv v m =>
    if m ∈ c.net ∧ m.to_ = v then
      c.onNode v fun n fl islead => do return .up (← n.recv m) fl islead
    else c
  | .input v m =>
    if isInput m then c.onNode v fun n fl islead => do return .up (← n.recv m) fl islead else c
  | .tick v rand => c.onNode v fun n fl islead => do return .up (← n.tick rand) fl islead
  | .ready v => c.onNode v readyMember
  | .save v =>
    { c.onNode v saveMember with
      wal := Function.update c.wal v (c.wal v ++ saveEntries (c.member v)) }
  | .send v => { c with net := c.net ++ sendable σ.early (c.member v) }
  | .advance v => c.onNode v advanceMember
  | .createSnapshot v i data => c.onNode v (createSnapshotMember σ.peers i data)
  | .compact v i => c.onNode v (compactMember i)
  | .resetPendingConf v => c.onNode v fun n fl islead =>
      return .up { n with raft := n.raft.resetPendingConf } fl islead
  | .shuffle v ids => c.onNode v fun n fl islead => return shuffleMember ids n fl islead
  | .crash v => c.onNode v fun n _ _ => return .down n.raft.raftLog.storage none

def run (σ : Setup) (evs : List Event) : Cluster := evs.foldl (step σ) {}

end Cluster

end EtcdCompat
