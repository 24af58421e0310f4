import EtcdCompat.Raft.Raft

/-!
# The loop of a node

`Node` is the state of `node.run`: the raft state machine, and what the last `Ready` held. Between
the `Ready` a node hands out and the `Advance` that answers it, no other `Ready` is handed out.
-/

namespace EtcdCompat

structure Ready where
  softState : Option SoftState := none
  hardState : HardState := {}
  entries : List Entry := []
  snapshot : Snapshot := {}
  committedEntries : List Entry := []
  messages : List Message := []
deriving DecidableEq, Repr

namespace Ready

def containsUpdates (rd : Ready) : Bool :=
  rd.softState.isSome || !isEmptyHardState rd.hardState || !isEmptySnap rd.snapshot ||
    decide (rd.entries.length > 0) || decide (rd.committedEntries.length > 0) ||
    decide (rd.messages.length > 0)

end Ready

def newReady (r : Raft) (prevSoftSt : SoftState) (prevHardSt : HardState) : Except Panic Ready := do
  let committedEntries ← r.raftLog.nextEnts
  return {
    entries := r.raftLog.unstableEntries
    committedEntries := committedEntries
    messages := r.msgs
    softState := if r.softState ≠ prevSoftSt then some r.softState else none
    hardState := if r.hardState ≠ prevHardSt then r.hardState else {}
    snapshot := r.raftLog.unstable.snapshot.getD {} }

structure Node where
  raft : Raft
  prevSoftSt : SoftState
  prevHardSt : HardState := {}
  /-- Index and term of the last entry handed out, until the `Advance`. -/
  prevLastUnstable : Option (ℕ × ℕ) := none
  prevSnapi : ℕ := 0
  /-- Whether an `Advance` is awaited. -/
  advancec : Bool := false
deriving DecidableEq, Repr

namespace Node

def start (r : Raft) : Node := { raft := r, prevSoftSt := r.softState }

/-- A message from `propc` or `recvc`. -/
def recv (n : Node) (m : Message) : Except Panic Node := do
  if m.type = .prop then
    let r ← n.raft.step { m with from_ := n.raft.id }
    return { n with raft := r }
  else if (n.raft.pr m.from_).isSome || !isResponseMsg m then
    let r ← n.raft.step m
    return { n with raft := r }
  else return n

/-- `Step`: a local message over the network is ignored. -/
def step (n : Node) (m : Message) : Except Panic Node := if isLocalMsg m then .ok n else n.recv m

def campaign (n : Node) : Except Panic Node := n.recv { type := .hup }

def propose (n : Node) (data : Bytes) : Except Panic Node :=
  n.recv { type := .prop, entries := [{ data := some data }] }

/-- `ProposeConfChange`, of the marshalled change. -/
def proposeConfChange (n : Node) (data : Bytes) : Except Panic Node :=
  n.step { type := .prop, entries := [{ type := .confChange, data := some data }] }

def reportUnreachable (n : Node) (id : ℕ) : Except Panic Node :=
  n.recv { type := .unreachable, from_ := id }

def reportSnapshot (n : Node) (id : ℕ) (failure : Bool) : Except Panic Node :=
  n.recv { type := .snapStatus, from_ := id, reject := failure }

def tick (n : Node) (rand : ℕ) : Except Panic Node := do
  let r ← n.raft.tick rand
  return { n with raft := r }

/-- A configuration change from `confc`. -/
def applyConfChange (n : Node) (cc : ConfChange) : Except Panic Node := do
  let r ← n.raft.applyConfChange cc
  return { n with raft := r }

/-- `rd` was taken from `readyc`. -/
def accept (n : Node) (rd : Ready) : Node :=
  { n with
    raft := { n.raft with msgs := [] }
    prevSoftSt := rd.softState.getD n.prevSoftSt
    prevLastUnstable := match rd.entries.getLast? with
      | some e => some (e.index, e.term)
      | none => n.prevLastUnstable
    prevHardSt := if isEmptyHardState rd.hardState then n.prevHardSt else rd.hardState
    prevSnapi := if isEmptySnap rd.snapshot then n.prevSnapi else rd.snapshot.metadata.index
    advancec := true }

/-- The next `Ready`, if one is due and has something in it. -/
def ready (n : Node) : Except Panic (Option (Ready × Node)) := do
  if n.advancec then return none
  let rd ← newReady n.raft n.prevSoftSt n.prevHardSt
  if rd.containsUpdates then return some (rd, n.accept rd) else return none

/-- The log once what the last `Ready` committed is applied. -/
def advanceApplied (n : Node) : Except Panic RaftLog :=
  if n.prevHardSt.commit ≠ 0 then n.raft.raftLog.appliedTo n.prevHardSt.commit
  else .ok n.raft.raftLog

/-- The log once the entries of the last `Ready` are stable. -/
def advanceStable (n : Node) (l : RaftLog) : Except Panic RaftLog :=
  match n.prevLastUnstable with
  | some (i, t) => l.stableTo i t
  | none => .ok l

def advance (n : Node) : Except Panic Node :=
  if !n.advancec then .ok n
  else do
    let l ← n.advanceApplied
    let l ← n.advanceStable l
    return { n with
      raft := { n.raft with raftLog := l.stableSnapTo n.prevSnapi }
      prevLastUnstable := none
      advancec := false }

end Node

/-- The entry that adds a peer: its `ConfChange`, marshalled, at the end of the log. -/
def addPeer (r : Raft) (d : Bytes) : Except Panic Raft := do
  let l ← r.raftLog.append
    [{ type := .confChange, term := 1, index := r.raftLog.lastIndex + 1, data := some d }]
  return { r with raftLog := l }

/-- `StartNode`, with each peer's marshalled `ConfChange`. -/
def startNode (c : Config) (peers : List (ℕ × Bytes)) : Except Panic Node := do
  let r ← newRaft c
  let r := r.becomeFollower 1 none_
  let r ← (peers.map (·.2)).foldlM addPeer r
  let r := { r with raftLog := { r.raftLog with committed := r.raftLog.lastIndex } }
  return .start ((peers.map (·.1)).foldl Raft.addNode r)

def restartNode (c : Config) : Except Panic Node := do
  let r ← newRaft c
  return .start r

end EtcdCompat
