import EtcdCompat.Raft.Cluster
import EtcdCompat.Raft.RawNode

/-!
# A node and its user

A `Handle` is a node run by its loop or, as a `RawNode`, by calls. The loop hands out no `Ready`
before the last one is answered; a `RawNode` does, and the `Advance` then answers the latest.
`delivered` holds every `Ready` that was answered.
-/

namespace EtcdCompat

inductive Handle where
  | node (n : Node)
  | raw (rn : RawNode)
deriving DecidableEq, Repr

inductive NodeCall where
  | campaign
  | propose (data : Bytes)
  | proposeConfChange (data : Bytes)
  | reportUnreachable (id : ℕ)
  | reportSnapshot (id : ℕ) (failure : Bool)
  | applyConfChange (cc : ConfChange)
deriving DecidableEq, Repr

namespace Handle

def raft : Handle → Raft
  | .node n => n.raft
  | .raw rn => rn.raft

def withStorage (ms : MemoryStorage) : Handle → Handle
  | .node n => .node (n.withStorage ms)
  | .raw rn => .raw { rn with raft := { rn.raft with raftLog := { rn.raft.raftLog with storage :=
      ms } } }

def step (m : Message) : Handle → Except Panic Handle
  | .node n => return .node (← n.step m)
  | .raw rn => return .raw (← rn.step m)

def call : NodeCall → Handle → Except Panic Handle
  | .campaign, .node n => return .node (← n.campaign)
  | .campaign, .raw rn => return .raw (← rn.campaign)
  | .propose data, .node n => return .node (← n.propose data)
  | .propose data, .raw rn => return .raw (← rn.propose data)
  | .proposeConfChange data, .node n => return .node (← n.proposeConfChange data)
  | .proposeConfChange data, .raw rn => return .raw (← rn.proposeConfChange data)
  | .reportUnreachable id, .node n => return .node (← n.reportUnreachable id)
  | .reportUnreachable id, .raw rn => return .raw (← rn.reportUnreachable id)
  | .reportSnapshot id failure, .node n => return .node (← n.reportSnapshot id failure)
  | .reportSnapshot id failure, .raw rn => return .raw (← rn.reportSnapshot id failure)
  | .applyConfChange cc, .node n => return .node (← n.applyConfChange cc)
  | .applyConfChange cc, .raw rn => return .raw (← rn.applyConfChange cc)

def tick (rand : ℕ) : Handle → Except Panic Handle
  | .node n => return .node (← n.tick rand)
  | .raw rn => return .raw (← rn.tick rand)

def ready : Handle → Except Panic (Option (Ready × Handle))
  | .node n => return (← n.ready).map fun p => (p.1, .node p.2)
  | .raw rn => do
    let (rd, rn) ← rn.ready
    return some (rd, .raw rn)

def advance (rd : Ready) : Handle → Except Panic Handle
  | .node n => return .node (← n.advance)
  | .raw rn => return .raw (← rn.advance rd)

end Handle

inductive Launch where
  | startNode (c : Config) (peers : List (ℕ × Bytes))
  | restartNode (c : Config)
  | newRawNode (c : Config) (peers : List (ℕ × Bytes))
deriving DecidableEq, Repr

namespace Launch

def config : Launch → Config
  | .startNode c _ => c
  | .restartNode c => c
  | .newRawNode c _ => c

def handle : Launch → Except Panic Handle
  | .startNode c peers => return .node (← EtcdCompat.startNode c peers)
  | .restartNode c => return .node (← EtcdCompat.restartNode c)
  | .newRawNode c peers => return .raw (← RawNode.newRawNode c peers)

/-- The applied index given at the start, that of the storage if there is none. -/
def applied (la : Launch) : ℕ :=
  if la.config.applied = 0 then la.config.storage.firstIndex - 1 else la.config.applied

end Launch

structure Driver where
  handle : Handle
  flight : Option Flight := none
  delivered : List Ready := []
deriving DecidableEq, Repr

namespace Driver

inductive Event where
  | step (m : Message)
  | call (c : NodeCall)
  | tick (rand : ℕ)
  | ready
  | save
  | advance
deriving DecidableEq, Repr

def ready (d : Driver) : Except Panic Driver := do
  match ← d.handle.ready with
  | none => return d
  | some (rd, h) => return { d with handle := h, flight := some { rd } }

def save (d : Driver) : Except Panic Driver :=
  match d.flight with
  | some { rd, saved := false } => do
    let ms ← d.handle.raft.raftLog.storage.persist rd
    return { d with handle := d.handle.withStorage ms, flight := some { rd, saved := true } }
  | _ => .ok d

def advance (d : Driver) : Except Panic Driver :=
  match d.flight with
  | some { rd, saved := true } => do
    let h ← d.handle.advance rd
    return { handle := h, flight := none, delivered := d.delivered ++ [rd] }
  | _ => .ok d

def act (d : Driver) : Event → Except Panic Driver
  | .step m => return { d with handle := ← d.handle.step m }
  | .call c => return { d with handle := ← d.handle.call c }
  | .tick rand => return { d with handle := ← d.handle.tick rand }
  | .ready => d.ready
  | .save => d.save
  | .advance => d.advance

def run (la : Launch) (evs : List Event) : Except Panic Driver := do
  let h ← la.handle
  evs.foldlM act { handle := h }

end Driver

end EtcdCompat
