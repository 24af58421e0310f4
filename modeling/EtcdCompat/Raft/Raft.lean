import EtcdCompat.Raft.Log
import EtcdCompat.Raft.Progress
import Mathlib.Data.List.Sort

/-!
# A raft node

The state machine of one node: `step` takes a message, `tick` the clock. The maps of the code are
association lists; where it ranges over a map, the model takes the list's order. A message is sent
by adding it to `msgs`.
-/

namespace EtcdCompat

/-- `None`, the id of no node. -/
def none_ : ℕ := 0

inductive StateType where
  | follower
  | candidate
  | leader
deriving DecidableEq, Repr

structure Config where
  id : ℕ
  peers : List ℕ := []
  electionTick : ℕ
  heartbeatTick : ℕ
  storage : MemoryStorage
  applied : ℕ := 0
  maxSizePerMsg : ℕ
  maxInflightMsgs : ℕ
  checkQuorum : Bool := false
deriving DecidableEq, Repr

def Config.validate (c : Config) : Bool :=
  c.id ≠ none_ && decide (0 < c.heartbeatTick) && decide (c.heartbeatTick < c.electionTick) &&
    decide (0 < c.maxInflightMsgs)

structure SoftState where
  lead : ℕ
  raftState : StateType
deriving DecidableEq, Repr

structure Raft where
  id : ℕ
  term : ℕ := 0
  vote : ℕ := 0
  raftLog : RaftLog
  maxInflight : ℕ
  maxMsgSize : ℕ
  prs : List (ℕ × Progress) := []
  state : StateType := .follower
  votes : List (ℕ × Bool) := []
  msgs : List Message := []
  lead : ℕ := none_
  pendingConf : Bool := false
  electionElapsed : ℕ := 0
  heartbeatElapsed : ℕ := 0
  checkQuorum : Bool
  heartbeatTimeout : ℕ
  electionTimeout : ℕ
deriving DecidableEq, Repr

namespace Raft

variable (r : Raft)

def softState : SoftState := { lead := r.lead, raftState := r.state }

def hardState : HardState := { term := r.term, vote := r.vote, commit := r.raftLog.committed }

def quorum : ℕ := r.prs.length / 2 + 1

def pr (id : ℕ) : Option Progress := r.prs.lookup id

/-- Change the progress of `id`, which is a pointer in the map. -/
def updatePr (id : ℕ) (f : Progress → Progress) : Raft :=
  { r with prs := r.prs.map fun q => if q.1 = id then (q.1, f q.2) else q }

def send (m : Message) : Raft :=
  let m := { m with from_ := r.id }
  let m := if m.type = .prop then m else { m with term := r.term }
  { r with msgs := r.msgs ++ [m] }

/-- The snapshot branch of `sendAppend`. -/
def sendSnapshot (to_ : ℕ) (pr : Progress) : Except Panic Raft :=
  if !pr.recentActive then .ok r
  else
    let snapshot := r.raftLog.snapshot
    if isEmptySnap snapshot then .error .needNonEmptySnapshot
    else .ok ((r.updatePr to_ (·.becomeSnapshot snapshot.metadata.index)).send
      { type := .snap, to_ := to_, snapshot := snapshot })

/-- The progress after entries up to `last` have been sent. -/
def sentEntries (pr : Progress) (last : ℕ) : Except Panic Progress :=
  match pr.state with
  | .replicate => do
    let ins ← pr.ins.add last
    return { pr.optimisticUpdate last with ins := ins }
  | .probe => return pr.pause
  | .snapshot => throw .unhandledState

/-- The append branch of `sendAppend`. -/
def sendEntries (to_ : ℕ) (pr : Progress) (term : ℕ) (ents : List Entry) : Except Panic Raft := do
  let m : Message :=
    { type := .app
      to_ := to_
      index := pr.next - 1
      logTerm := term
      entries := ents
      commit := r.raftLog.committed }
  match ents.getLast? with
  | none => return r.send m
  | some e =>
    let pr ← sentEntries pr e.index
    return (r.updatePr to_ fun _ => pr).send m

def sendAppend (to_ : ℕ) : Except Panic Raft :=
  match r.pr to_ with
  | none => .error .nilDereference
  | some pr =>
    if pr.isPaused then .ok r
    else do
      match ← r.raftLog.term (pr.next - 1), ← r.raftLog.entries pr.next r.maxMsgSize with
      | .ok term, .ok ents => r.sendEntries to_ pr term ents
      | _, _ => r.sendSnapshot to_ pr

def sendHeartbeat (to_ : ℕ) : Except Panic Raft :=
  match r.pr to_ with
  | none => .error .nilDereference
  | some pr =>
    .ok (r.send { type := .heartbeat, to_ := to_, commit := min pr.match_ r.raftLog.committed })

def others : List ℕ := (r.prs.map (·.1)).filter (· ≠ r.id)

def bcastAppend : Except Panic Raft := r.others.foldlM sendAppend r

def bcastHeartbeat : Except Panic Raft :=
  r.others.foldlM (fun r id => do
    let r ← r.sendHeartbeat id
    return r.updatePr id Progress.resume) r

/-- The match indices, greatest first. -/
def sortedMatches : List ℕ := (r.prs.map (·.2.match_)).insertionSort (· ≥ ·)

def maybeCommit : Except Panic (Bool × Raft) :=
  match r.sortedMatches[r.quorum - 1]? with
  | none => .error .indexOutOfRange
  | some mci => do
    let (ok, l) ← r.raftLog.maybeCommit mci r.term
    return (ok, { r with raftLog := l })

/-- The progress `reset` gives the node `id`. -/
def resetProgress (id : ℕ) : Progress :=
  { next := r.raftLog.lastIndex + 1
    match_ := if id = r.id then r.raftLog.lastIndex else 0
    ins := { size := r.maxInflight } }

def reset (term : ℕ) : Raft :=
  { r with
    term := term
    vote := if r.term ≠ term then none_ else r.vote
    lead := none_
    electionElapsed := 0
    heartbeatElapsed := 0
    votes := []
    prs := r.prs.map fun q => (q.1, r.resetProgress q.1)
    pendingConf := false }

/-- The entries with the term and the indices they get at the end of the log. -/
def stamp (term : ℕ) : ℕ → List Entry → List Entry
  | _, [] => []
  | i, e :: es => { e with term := term, index := i } :: stamp term (i + 1) es

def appendEntry (es : List Entry) : Except Panic Raft := do
  let l ← r.raftLog.append (stamp r.term (r.raftLog.lastIndex + 1) es)
  let r := { r with raftLog := l }
  match r.pr r.id with
  | none => throw .nilDereference
  | some _ =>
    let r := r.updatePr r.id fun pr => (pr.maybeUpdate l.lastIndex).2
    let (_, r) ← r.maybeCommit
    return r

def becomeFollower (term lead : ℕ) : Raft :=
  { r.reset term with lead := lead, state := .follower }

def becomeCandidate : Except Panic Raft :=
  if r.state = .leader then .error .leaderToCandidate
  else .ok { r.reset (r.term + 1) with vote := r.id, state := .candidate }

/-- Whether an uncommitted entry changes the configuration; two of them stop the node. -/
def pendingConfOf : Bool → List Entry → Except Panic Bool
  | b, [] => .ok b
  | b, e :: ents =>
    if e.type ≠ .confChange then pendingConfOf b ents
    else if b then .error .doubleConfEntry
    else pendingConfOf true ents

def becomeLeader : Except Panic Raft :=
  if r.state = .follower then .error .followerToLeader
  else do
    let r := { r.reset r.term with lead := r.id, state := .leader }
    match ← r.raftLog.entries (r.raftLog.committed + 1) noLimit with
    | .error _ => throw .uncommittedEntries
    | .ok ents =>
      let pendingConf ← pendingConfOf r.pendingConf ents
      Raft.appendEntry { r with pendingConf := pendingConf } [{ data := none }]

/-- The number of votes granted, and the node with the vote of `id` recorded. -/
def poll (id : ℕ) (v : Bool) : ℕ × Raft :=
  let votes := if (r.votes.lookup id).isSome then r.votes else r.votes ++ [(id, v)]
  ((votes.filter (·.2)).length, { r with votes := votes })

def sendVote (to_ : ℕ) : Except Panic Raft := do
  let logTerm ← r.raftLog.lastTerm
  return r.send { type := .vote, to_ := to_, index := r.raftLog.lastIndex, logTerm := logTerm }

def campaign : Except Panic Raft := do
  let r ← r.becomeCandidate
  let (granted, r) := r.poll r.id true
  if r.quorum = granted then r.becomeLeader
  else r.others.foldlM sendVote r

def checkQuorumActive : Bool × Raft :=
  let act := (r.prs.filter fun q => q.1 = r.id || q.2.recentActive).length
  (decide (act ≥ r.quorum),
    { r with
      prs := r.prs.map fun q =>
        if q.1 = r.id then q else (q.1, { q.2 with recentActive := false }) })

/-- A second configuration change becomes an empty entry while one is pending. -/
def filterConf : Bool → List Entry → Bool × List Entry
  | b, [] => (b, [])
  | b, e :: es =>
    if e.type = .confChange then
      let (b', es') := filterConf true es
      (b', (if b then {} else e) :: es')
    else
      let (b', es') := filterConf b es
      (b', e :: es')

def handleProp (m : Message) : Except Panic Raft :=
  if m.entries = [] then .error .emptyProp
  else if (r.pr r.id).isNone then .ok r
  else do
    let (pendingConf, es) := filterConf r.pendingConf m.entries
    let r ← Raft.appendEntry { r with pendingConf := pendingConf } es
    r.bcastAppend

/-- The state a progress moves to after an update of its match index. -/
def progressUpdated (pr : Progress) (index : ℕ) : Progress :=
  match pr.state with
  | .probe => pr.becomeReplicate
  | .snapshot => if pr.maybeSnapshotAbort then pr.becomeProbe else pr
  | .replicate => { pr with ins := pr.ins.freeTo index }

def handleAppResp (pr : Progress) (m : Message) : Except Panic Raft :=
  let pr := { pr with recentActive := true }
  if m.reject then
    let (decr, pr) := pr.maybeDecrTo m.index m.rejectHint
    if decr then
      let pr := if pr.state = .replicate then pr.becomeProbe else pr
      (r.updatePr m.from_ fun _ => pr).sendAppend m.from_
    else .ok (r.updatePr m.from_ fun _ => pr)
  else
    let oldPaused := pr.isPaused
    let (updated, pr) := pr.maybeUpdate m.index
    if updated then do
      let r := r.updatePr m.from_ fun _ => progressUpdated pr m.index
      let (committed, r) ← r.maybeCommit
      if committed then r.bcastAppend
      else if oldPaused then r.sendAppend m.from_
      else return r
    else .ok (r.updatePr m.from_ fun _ => pr)

def handleHeartbeatResp (pr : Progress) (m : Message) : Except Panic Raft :=
  let pr := { pr with recentActive := true }
  let pr := if pr.state = .replicate ∧ pr.ins.full then { pr with ins := pr.ins.freeFirstOne }
    else pr
  let r := r.updatePr m.from_ fun _ => pr
  if pr.match_ < r.raftLog.lastIndex then r.sendAppend m.from_ else .ok r

def handleSnapStatus (pr : Progress) (m : Message) : Raft :=
  if pr.state ≠ .snapshot then r
  else if !m.reject then r.updatePr m.from_ fun _ => pr.becomeProbe.pause
  else r.updatePr m.from_ fun _ => pr.snapshotFailure.becomeProbe.pause

def handleUnreachable (pr : Progress) (m : Message) : Raft :=
  if pr.state = .replicate then r.updatePr m.from_ fun _ => pr.becomeProbe else r

def stepLeader (m : Message) : Except Panic Raft :=
  match m.type with
  | .beat => r.bcastHeartbeat
  | .checkQuorum =>
    let (active, r) := r.checkQuorumActive
    .ok (if active then r else r.becomeFollower r.term none_)
  | .prop => r.handleProp m
  | .vote => .ok (r.send { type := .voteResp, to_ := m.from_, reject := true })
  | .appResp | .heartbeatResp | .snapStatus | .unreachable =>
    match r.pr m.from_ with
    | none => .ok r
    | some pr =>
      match m.type with
      | .appResp => r.handleAppResp pr m
      | .heartbeatResp => r.handleHeartbeatResp pr m
      | .snapStatus => .ok (r.handleSnapStatus pr m)
      | _ => .ok (r.handleUnreachable pr m)
  | _ => .ok r

def handleAppendEntries (m : Message) : Except Panic Raft :=
  if m.index < r.raftLog.committed then
    .ok (r.send { type := .appResp, to_ := m.from_, index := r.raftLog.committed })
  else do
    match ← r.raftLog.maybeAppend m.index m.logTerm m.commit m.entries with
    | some (mlastIndex, l) =>
      return Raft.send { r with raftLog := l }
        { type := .appResp, to_ := m.from_, index := mlastIndex }
    | none =>
      return r.send
        { type := .appResp
          to_ := m.from_
          index := m.index
          reject := true
          rejectHint := r.raftLog.lastIndex }

def handleHeartbeat (m : Message) : Except Panic Raft := do
  let l ← r.raftLog.commitTo m.commit
  return Raft.send { r with raftLog := l } { type := .heartbeatResp, to_ := m.from_ }

/-- The progress of the nodes of a snapshot's configuration. -/
def restoreProgress (lastIndex : ℕ) (nodes : List ℕ) : List (ℕ × Progress) :=
  nodes.dedup.map fun n =>
    (n, { match_ := if n = r.id then lastIndex else 0
          next := lastIndex + 1
          ins := { size := r.maxInflight } })

def restore (s : Snapshot) : Except Panic (Bool × Raft) := do
  if s.metadata.index ≤ r.raftLog.committed then return (false, r)
  if ← r.raftLog.matchTerm s.metadata.index s.metadata.term then
    let l ← r.raftLog.commitTo s.metadata.index
    return (false, { r with raftLog := l })
  let l := r.raftLog.restore s
  return (true,
    { r with
      raftLog := l
      prs := r.restoreProgress l.lastIndex s.metadata.confState.nodes })

def handleSnapshot (m : Message) : Except Panic Raft := do
  let (restored, r) ← r.restore m.snapshot
  if restored then
    return r.send { type := .appResp, to_ := m.from_, index := r.raftLog.lastIndex }
  else return r.send { type := .appResp, to_ := m.from_, index := r.raftLog.committed }

def handleVoteResp (m : Message) : Except Panic Raft := do
  let (gr, r) := r.poll m.from_ (!m.reject)
  if r.quorum = gr then
    let r ← r.becomeLeader
    r.bcastAppend
  else if r.quorum = r.votes.length - gr then return r.becomeFollower r.term none_
  else return r

def stepCandidate (m : Message) : Except Panic Raft :=
  match m.type with
  | .app => (r.becomeFollower r.term m.from_).handleAppendEntries m
  | .heartbeat => (r.becomeFollower r.term m.from_).handleHeartbeat m
  | .snap => (r.becomeFollower m.term m.from_).handleSnapshot m
  | .vote => .ok (r.send { type := .voteResp, to_ := m.from_, reject := true })
  | .voteResp => r.handleVoteResp m
  | _ => .ok r

def handleVote (m : Message) : Except Panic Raft := do
  if (r.vote = none_ ∨ r.vote = m.from_) ∧ (← r.raftLog.isUpToDate m.index m.logTerm) then
    return Raft.send { r with electionElapsed := 0, vote := m.from_ }
      { type := .voteResp, to_ := m.from_ }
  else return r.send { type := .voteResp, to_ := m.from_, reject := true }

def stepFollower (m : Message) : Except Panic Raft :=
  match m.type with
  | .prop => .ok (if r.lead = none_ then r else r.send { m with to_ := r.lead })
  | .app => Raft.handleAppendEntries { r with electionElapsed := 0, lead := m.from_ } m
  | .heartbeat => Raft.handleHeartbeat { r with electionElapsed := 0, lead := m.from_ } m
  | .snap => Raft.handleSnapshot { r with electionElapsed := 0 } m
  | .vote => r.handleVote m
  | _ => .ok r

/-- `r.step`, set together with the state. -/
def stepFunc (m : Message) : Except Panic Raft :=
  match r.state with
  | .follower => r.stepFollower m
  | .candidate => r.stepCandidate m
  | .leader => r.stepLeader m

def step (m : Message) : Except Panic Raft :=
  if m.type = .hup then
    if r.state ≠ .leader then r.campaign else .ok r
  else if m.term = 0 then r.stepFunc m
  else if m.term > r.term then
    (r.becomeFollower m.term (if m.type = .vote then none_ else m.from_)).stepFunc m
  else if m.term < r.term then .ok r
  else r.stepFunc m

/-- `promotable`: the node is one of the cluster. -/
def promotable : Bool := (r.pr r.id).isSome

/-- `isElectionTimeout`, with the random number drawn. -/
def isElectionTimeout (rand : ℕ) : Bool :=
  if r.electionElapsed < r.electionTimeout then false
  else decide (r.electionElapsed - r.electionTimeout > rand % r.electionTimeout)

def tickElection (rand : ℕ) : Except Panic Raft :=
  if !r.promotable then .ok { r with electionElapsed := 0 }
  else
    let r := { r with electionElapsed := r.electionElapsed + 1 }
    if r.isElectionTimeout rand then
      Raft.step { r with electionElapsed := 0 } { type := .hup, from_ := r.id }
    else .ok r

/-- The quorum check of `tickHeartbeat`. -/
def tickQuorum : Except Panic Raft :=
  if r.electionElapsed ≥ r.electionTimeout then
    let r := { r with electionElapsed := 0 }
    if r.checkQuorum then r.step { type := .checkQuorum, from_ := r.id } else .ok r
  else .ok r

def tickHeartbeat : Except Panic Raft := do
  let r ← Raft.tickQuorum { r with
    heartbeatElapsed := r.heartbeatElapsed + 1
    electionElapsed := r.electionElapsed + 1 }
  if r.state ≠ .leader then return r
  else if r.heartbeatElapsed ≥ r.heartbeatTimeout then
    Raft.step { r with heartbeatElapsed := 0 } { type := .beat, from_ := r.id }
  else return r

/-- `r.tick`, set together with the state. -/
def tick (rand : ℕ) : Except Panic Raft :=
  match r.state with
  | .leader => r.tickHeartbeat
  | _ => r.tickElection rand

def addNode (id : ℕ) : Raft :=
  if (r.pr id).isSome then r
  else
    { r with
      prs := r.prs ++ [(id, { next := r.raftLog.lastIndex + 1, ins := { size := r.maxInflight } })]
      pendingConf := false }

def delProgress (id : ℕ) : Raft := { r with prs := r.prs.filter (·.1 ≠ id) }

/-- With one node less more entries may be committed. -/
def removeNode (id : ℕ) : Except Panic Raft :=
  let r := { r.delProgress id with pendingConf := false }
  if r.prs = [] then .ok r
  else do
    let (committed, r) ← r.maybeCommit
    if committed then r.bcastAppend else return r

def resetPendingConf : Raft := { r with pendingConf := false }

/-- What `ApplyConfChange` does; a change of no node is a cancelled one. -/
def applyConfChange (cc : ConfChange) : Except Panic Raft :=
  if cc.nodeID = none_ then .ok r.resetPendingConf
  else match cc.type with
    | .addNode => .ok (r.addNode cc.nodeID)
    | .removeNode => r.removeNode cc.nodeID
    | .updateNode => .ok r.resetPendingConf

def nodes : List ℕ := (r.prs.map (·.1)).insertionSort (· ≤ ·)

def loadState (state : HardState) : Except Panic Raft :=
  if state.commit < r.raftLog.committed ∨ state.commit > r.raftLog.lastIndex then
    .error (.stateOutOfRange state.commit r.raftLog.committed r.raftLog.lastIndex)
  else .ok
    { r with
      raftLog := { r.raftLog with committed := state.commit }
      term := state.term
      vote := state.vote }

end Raft

/-- The peers of `newRaft`: those of the stored configuration, if there is one. -/
def Config.nodes (c : Config) : Except Panic (List ℕ) :=
  let cs := c.storage.snapshot.metadata.confState
  if cs.nodes = [] then .ok c.peers
  else if c.peers ≠ [] then .error .peersAndConfState
  else .ok cs.nodes

/-- The node before its stored state is loaded. -/
def Config.blank (c : Config) (peers : List ℕ) : Raft :=
  { id := c.id
    raftLog := newLog c.storage
    maxMsgSize := c.maxSizePerMsg
    maxInflight := c.maxInflightMsgs
    prs := peers.dedup.map fun p => (p, { next := 1, ins := { size := c.maxInflightMsgs } })
    electionTimeout := c.electionTick
    heartbeatTimeout := c.heartbeatTick
    checkQuorum := c.checkQuorum }

/-- The hard state is loaded unless it is empty. -/
def Raft.loadHardState (r : Raft) (hs : HardState) : Except Panic Raft :=
  if isEmptyHardState hs then .ok r else r.loadState hs

def newRaft (c : Config) : Except Panic Raft :=
  if !c.validate then .error .invalidConfig
  else do
    let peers ← c.nodes
    let r ← (c.blank peers).loadHardState c.storage.hardState
    -- `appliedTo` does nothing for the index zero
    let l ← r.raftLog.appliedTo c.applied
    return Raft.becomeFollower { r with raftLog := l } r.term none_

end EtcdCompat
