import EtcdCompat.Raft.Node

/-!
# A node without its loop

`RawNode` leaves the loop to its user. What a `Ready` was is kept by the user, who hands it back to
`Advance`.
-/

namespace EtcdCompat

structure RawNode where
  raft : Raft
  prevSoftSt : SoftState
  prevHardSt : HardState
deriving DecidableEq, Repr

namespace RawNode

def newReady (rn : RawNode) : Except Panic Ready :=
  EtcdCompat.newReady rn.raft rn.prevSoftSt rn.prevHardSt

/-- The log once what the hard state says is committed is applied. -/
def commitApplied (rn : RawNode) (hs : HardState) : Except Panic RaftLog :=
  if hs.commit ≠ 0 then rn.raft.raftLog.appliedTo hs.commit else .ok rn.raft.raftLog

/-- The log once the entries of the `Ready` are stable. -/
def commitStable (l : RaftLog) (rd : Ready) : Except Panic RaftLog :=
  match rd.entries.getLast? with
  | some e => l.stableTo e.index e.term
  | none => .ok l

def commitReady (rn : RawNode) (rd : Ready) : Except Panic RawNode := do
  let prevHardSt := if isEmptyHardState rd.hardState then rn.prevHardSt else rd.hardState
  let l ← rn.commitApplied prevHardSt
  let l ← commitStable l rd
  let l := if isEmptySnap rd.snapshot then l else l.stableSnapTo rd.snapshot.metadata.index
  return {
    raft := { rn.raft with raftLog := l }
    prevSoftSt := rd.softState.getD rn.prevSoftSt
    prevHardSt := prevHardSt }

/-- The entries of the peers of a new node, each with its marshalled `ConfChange`. -/
def bootEntries (peers : List (ℕ × Bytes)) : List Entry :=
  peers.zipIdx.map fun p =>
    { type := .confChange, term := 1, index := p.2 + 1, data := some p.1.2 }

/-- The first entries of a node with an empty log. -/
def bootstrap (r : Raft) (peers : List (ℕ × Bytes)) : Except Panic Raft := do
  let r := r.becomeFollower 1 none_
  let l ← r.raftLog.append (bootEntries peers)
  let r := { r with raftLog := { l with committed := peers.length } }
  return (peers.map (·.1)).foldl Raft.addNode r

def newRawNode (c : Config) (peers : List (ℕ × Bytes)) : Except Panic RawNode := do
  let r ← newRaft c
  let r ← if c.storage.lastIndex = 0 then bootstrap r peers else .ok r
  return { raft := r, prevSoftSt := r.softState, prevHardSt := r.hardState }

def tick (rn : RawNode) (rand : ℕ) : Except Panic RawNode := do
  let r ← rn.raft.tick rand
  return { rn with raft := r }

/-- A message of the node's own user. -/
def stepLocal (rn : RawNode) (m : Message) : Except Panic RawNode := do
  let r ← rn.raft.step m
  return { rn with raft := r }

def campaign (rn : RawNode) : Except Panic RawNode := rn.stepLocal { type := .hup }

def propose (rn : RawNode) (data : Bytes) : Except Panic RawNode :=
  rn.stepLocal { type := .prop, from_ := rn.raft.id, entries := [{ data := some data }] }

/-- `ProposeConfChange`, of the marshalled change. -/
def proposeConfChange (rn : RawNode) (data : Bytes) : Except Panic RawNode :=
  rn.stepLocal { type := .prop, entries := [{ type := .confChange, data := some data }] }

def reportUnreachable (rn : RawNode) (id : ℕ) : Except Panic RawNode :=
  rn.stepLocal { type := .unreachable, from_ := id }

def reportSnapshot (rn : RawNode) (id : ℕ) (failure : Bool) : Except Panic RawNode :=
  rn.stepLocal { type := .snapStatus, from_ := id, reject := failure }

def applyConfChange (rn : RawNode) (cc : ConfChange) : Except Panic RawNode := do
  let r ← rn.raft.applyConfChange cc
  return { rn with raft := r }

/-- A local message, or an answer from an unknown node, is refused. -/
def step (rn : RawNode) (m : Message) : Except Panic RawNode :=
  if isLocalMsg m then .ok rn
  else if (rn.raft.pr m.from_).isSome || !isResponseMsg m then rn.stepLocal m
  else .ok rn

def ready (rn : RawNode) : Except Panic (Ready × RawNode) := do
  let rd ← rn.newReady
  return (rd, { rn with raft := { rn.raft with msgs := [] } })

def advance (rn : RawNode) (rd : Ready) : Except Panic RawNode := rn.commitReady rd

end RawNode

end EtcdCompat
