import EtcdCompat.Lib.Consensus.Run
import EtcdCompat.Lib.Outcome
import EtcdCompat.Proofs.LogFlight
import Mathlib.Data.Finset.Card

/-!
# How a cluster runs the protocol

A cluster of at least two nodes is an instance of the elected-leader protocol. The relation between
the two has a part for each message (`MsgOK`), one for the node (`NodeOK`), one for its driver
(`DriverOK`), and one for what is stored (`Kept`).
-/

namespace EtcdCompat

open Consensus

namespace Raft

variable {es : List Entry} {e : Entry}

theorem length_stamp (t : ℕ) : ∀ (i : ℕ) (es : List Entry), (stamp t i es).length = es.length
  | _, [] => rfl
  | i, _ :: es => congrArg Nat.succ (length_stamp t (i + 1) es)

theorem getElem?_stamp (t : ℕ) : ∀ (i : ℕ) (es : List Entry) (j : ℕ),
    (stamp t i es)[j]? = es[j]?.map fun e => { e with term := t, index := i + j }
  | _, [], _ => rfl
  | _, _ :: _, 0 => rfl
  | i, _ :: es, j + 1 => by
    rw [stamp, List.getElem?_cons_succ, List.getElem?_cons_succ, getElem?_stamp t (i + 1) es j,
      Nat.add_right_comm, Nat.add_assoc]

theorem of_getElem?_stamp {t i j : ℕ} (h : (stamp t i es)[j]? = some e) :
    e.term = t ∧ e.index = i + j := by
  rw [getElem?_stamp, Option.map_eq_some_iff] at h
  obtain ⟨_, _, rfl⟩ := h
  exact ⟨rfl, rfl⟩

theorem term_of_mem_stamp {t i : ℕ} (h : e ∈ stamp t i es) : e.term = t := by
  obtain ⟨j, hj⟩ := List.getElem?_of_mem h
  exact (of_getElem?_stamp hj).1

end Raft

/-- The entries all nodes of a cluster started by `StartNode` begin with. -/
def Setup.boot (σ : Setup) : List Entry :=
  match σ.confChange with
  | none => []
  | some d => Raft.stamp 1 1 (σ.peers.map fun p => { type := .confChange, data := some (d p) })

def Setup.startTerm (σ : Setup) : ℕ := if σ.confChange.isSome then 1 else 0

/-- A cluster in which no node is a quorum by itself. -/
structure Replicated extends Setup where
  two : 2 ≤ peers.length

namespace Replicated

variable (σ : Replicated)

theorem card_peers : σ.peers.toFinset.card = σ.peers.length :=
  List.toFinset_card_of_nodup σ.nodup

def protocol : Protocol ℕ Entry where
  Quorum A := A ⊆ σ.peers.toFinset ∧ σ.peers.length / 2 + 1 ≤ A.card
  termOf := Entry.term
  Placed j e := e.index = j + 1
  start := σ.startTerm
  boot := σ.boot
  early := σ.early
  inter := by
    intro A B hA hB
    have hcard : σ.peers.toFinset.card < A.card + B.card := by
      have := σ.card_peers
      omega
    obtain ⟨u, hu⟩ := Finset.inter_nonempty_of_card_lt_card_add_card hA.1 hB.1 hcard
    exact ⟨u, (Finset.mem_inter.1 hu).1, (Finset.mem_inter.1 hu).2⟩
  other := by
    intro A v hA
    refine Finset.exists_mem_ne ?_ v
    have := σ.two
    omega
  boot_term := by
    intro e he
    rw [Setup.boot] at he
    rw [Setup.startTerm]
    cases hd : σ.confChange with
    | none =>
      rw [hd] at he
      cases he
    | some d =>
      rw [hd] at he
      exact Raft.term_of_mem_stamp he
  boot_placed := by
    intro j e he
    rw [Setup.boot] at he
    cases hd : σ.confChange with
    | none =>
      rw [hd] at he
      cases he
    | some d =>
      rw [hd] at he
      rw [(Raft.of_getElem?_stamp he).2, Nat.add_comm]

end Replicated

def StateType.role : StateType → Role
  | .follower => .follower
  | .candidate => .candidate
  | .leader => .leader

/-- The panics of a corrupted log. -/
def Panic.Corrupt : Panic → Prop
  | .conflictWithCommitted _ _ => True
  | .afterOutOfRange _ _ => True
  | .tocommitOutOfRange _ _ => True
  | _ => False

def Benign (e : Panic) : Prop := ¬ e.Corrupt

section Messages

variable (σ : Replicated) (a : State ℕ Entry)

/-- The first `c` entries of the log of term `T` are committed. -/
def Settled (w : Option ℕ) (T c : ℕ) : Prop :=
  c ≤ σ.boot.length ∨ ∃ T₀ i, T₀ ≤ T ∧ Comm σ.protocol a w T₀ i ∧ c ≤ i

structure AppOK (q : ℕ → ℕ) (w : Option ℕ) (m : Message) : Prop where
  leader : a.leader m.term = some m.from_
  reach : m.index + m.entries.length ≤ q m.term
  length : m.index + m.entries.length ≤ (a.ll m.term).length
  entries : m.entries = ((a.ll m.term).take (m.index + m.entries.length)).drop m.index
  logTerm : m.logTerm = termAt Entry.term (a.ll m.term) m.index
  commit : Settled σ a w m.term m.commit

structure SnapOK (q : ℕ → ℕ) (w : Option ℕ) (m : Message) : Prop where
  leader : a.leader m.term = some m.from_
  pos : 0 < m.snapshot.metadata.index
  reach : m.snapshot.metadata.index ≤ q m.term
  length : m.snapshot.metadata.index ≤ (a.ll m.term).length
  term : m.snapshot.metadata.term = termAt Entry.term (a.ll m.term) m.snapshot.metadata.index
  commit : Settled σ a w m.term m.snapshot.metadata.index
  nodes : m.snapshot.metadata.confState.nodes = σ.peers
  active : m.term ≤ (a.dur m.to_).term

structure HeartbeatOK (w : Option ℕ) (m : Message) : Prop where
  leader : a.leader m.term = some m.from_
  acked : m.commit ≤ (a.dur m.to_).acked m.term
  commit : Settled σ a w m.term m.commit

/-- What a message says, by its type. The sender's view `x` holds what it promises, its log has
been published up to `q`, and `w` is the party whose unsaved acknowledgements count. -/
def Says (x : View ℕ Entry) (q : ℕ → ℕ) (w : Option ℕ) (m : Message) : Prop :=
  match m.type with
  | .vote => ∃ L, x.cand m.term = some L ∧ m.index = L.length ∧
      m.logTerm = termAt Entry.term L L.length
  | .voteResp => m.reject = false → x.votes m.term = some m.to_
  | .app => AppOK σ a q w m
  | .appResp => m.term ≤ x.term ∧ (m.reject = false → m.index ≤ x.acked m.term)
  | .heartbeat => HeartbeatOK σ a w m
  | .heartbeatResp => m.term ≤ x.term
  | .snap => SnapOK σ a q w m
  | _ => False

/-- A message between two nodes of the cluster, or a proposal passed on. -/
def MsgOK (x : View ℕ Entry) (q : ℕ → ℕ) (w : Option ℕ) (m : Message) : Prop :=
  m.type = .prop ∧ m.term = 0 ∨
    m.from_ ∈ σ.peers ∧ m.to_ ≠ m.from_ ∧ 0 < m.term ∧ Says σ a x q w m

/-- How much of its logs a leader with the view `x` may publish. -/
def bound (x : View ℕ Entry) (T : ℕ) : ℕ := max (a.base T).length (x.acked T)

/-- The node `v` has the message in its queue. -/
def Queued (v : ℕ) (m : Message) : Prop :=
  m.from_ = v ∧ MsgOK σ a (a.mem v) (bound a (a.mem v)) (σ.protocol.counts v) m

/-- The driver of the node `v` has the message. -/
def Taken (v : ℕ) (m : Message) : Prop :=
  m.from_ = v ∧ MsgOK σ a (a.rd v) (bound a (a.rd v)) none m

/-- The message is in the network. -/
def Sent (m : Message) : Prop := MsgOK σ a (a.dur m.from_) a.pub none m

/-- The node `v` takes up the message: its own, a proposal, or one from another node at the term
they share. -/
def Heard (v : ℕ) (m : Message) : Prop :=
  isLocalMsg m = true ∨ m.type = .prop ∧ m.term = 0 ∨
    m.from_ ∈ σ.peers ∧ m.from_ ≠ v ∧ m.to_ = v ∧ m.term = (a.mem v).term ∧ 0 < m.term ∧
      Says σ a (a.dur m.from_) a.pub none m

/-- A message that promises nothing for its sender. -/
def Plain (m : Message) : Prop :=
  match m.type with
  | .app | .snap | .heartbeat | .prop => True
  | .voteResp => m.reject = true
  | _ => False

end Messages

section Nodes

variable (σ : Replicated) (a : State ℕ Entry) (v : ℕ)

def hsOf (x : View ℕ Entry) : HardState :=
  { term := x.term, vote := (x.votes x.term).getD none_, commit := x.commit }

/-- What the driver of a node holds: the storage and the log in it, how much has been applied, and
the unstable part handed out and not yet stored. -/
structure Held where
  ms : MemoryStorage
  stored : List Entry
  applied : ℕ
  out : Option Unstable

/-- The storage holds the stored view, or nothing yet. -/
structure Kept (ms : MemoryStorage) (stored : List Entry) : Prop where
  view : stored = (a.dur v).log ∧ ms.hardState = hsOf (a.dur v) ∨
    ms = {} ∧ stored = [] ∧ a.dur v = σ.protocol.initView
  store : Stores ms stored
  dummy : ms.ents0.index ≤ ms.hardState.commit
  snap : ms.snapshot.metadata.index = 0 ∧ ms.snapshot.metadata.confState.nodes = [] ∨
    0 < ms.snapshot.metadata.index ∧ ms.snapshot.metadata.index ≤ ms.hardState.commit ∧
      ms.snapshot.metadata.term = termAt Entry.term stored ms.snapshot.metadata.index ∧
      ms.snapshot.metadata.confState.nodes = σ.peers

/-- The log since the unstable part `u₀` was handed out. -/
structure Out (l : RaftLog) (u₀ : Unstable) : Prop where
  flying : Flying l.unstable (a.mem v).log u₀ (a.rd v).log (a.rd v).commit
  snap : ∀ s, l.unstable.snapshot = some s →
    u₀.snapshot = some s ∨ (a.rd v).commit < s.metadata.index
  old : ∀ s, u₀.snapshot = some s → s.metadata.index ≤ (a.rd v).commit

structure LogFits (d : Held) (l : RaftLog) : Prop where
  storage : l.storage = d.ms
  applied : l.applied = d.applied
  shows : Shows l (a.mem v).log d.stored
  committed : l.committed = (a.mem v).commit
  whole : (a.mem v).log.length ≤ d.ms.hardState.commit → d.stored = (a.mem v).log
  snap : ∀ s, l.unstable.snapshot = some s → 0 < s.metadata.index ∧
    s.metadata.index ≤ (a.mem v).commit ∧ d.applied ≤ s.metadata.index ∧
    s.metadata.confState.nodes = σ.peers
  out : ∀ u₀, d.out = some u₀ → Out a v l u₀

/-- What the leader `v` knows of `u` is within its own log and the stored view of `u`. -/
structure PrOK (u : ℕ) (pr : Progress) : Prop where
  next_pos : 1 ≤ pr.next
  next_le : pr.next ≤ (a.mem v).log.length + 1
  match_le : pr.match_ ≤ (a.mem v).log.length
  pending_le : pr.pendingSnapshot ≤ (a.mem v).log.length
  acked : u ≠ v → pr.match_ ≤ (a.dur u).acked (a.mem v).term
  active : u ≠ v → pr.recentActive = true → (a.mem v).term ≤ (a.dur u).term

structure PollOK (votes : List (ℕ × Bool)) : Prop where
  nodup : (votes.map Prod.fst).Nodup
  granted : ∀ q ∈ votes, q.2 = true → q.1 ∈ σ.peers ∧
    (q.1 ≠ v → (a.dur q.1).votes (a.mem v).term = some v)

structure NodeOK (d : Held) (r : Raft) : Prop where
  id : r.id = v
  peer : v ∈ σ.peers
  term : r.term = (a.mem v).term
  vote : r.vote = ((a.mem v).votes (a.mem v).term).getD none_
  voter : ∀ T c, (a.mem v).votes T = some c → c ∈ σ.peers
  role : a.role v = r.state.role
  kept : Kept σ a v d.ms d.stored
  applied : d.applied ≤ d.ms.hardState.commit
  log : LogFits σ a v d r.raftLog
  prs : (r.prs.map Prod.fst).Perm σ.peers
  leads : r.state = .leader → ∀ q ∈ r.prs, PrOK a v q.1 q.2
  polls : r.state = .candidate → PollOK σ a v r.votes
  msgs : ∀ m ∈ r.msgs, Queued σ a v m
  plain : r.state = .leader ∨ r.state = .candidate ∧ (a.rd v).cand (a.mem v).term ≠ none →
    ∀ m ∈ r.msgs, Plain m

/-- The `Ready` the driver works on, of the unstable part `u₀`. -/
structure FlightOK (n : Node) (f : Flight) (islead : Bool) (d : Held) (u₀ : Unstable) : Prop where
  entries : f.rd.entries = u₀.entries
  snapshot : f.rd.snapshot = u₀.snapshot.getD {}
  snap : ∀ s, u₀.snapshot = some s → 0 < s.metadata.index ∧ d.applied ≤ s.metadata.index ∧
    s.metadata.confState.nodes = σ.peers ∧ n.prevSnapi = s.metadata.index
  last : n.prevLastUnstable = if u₀.entries = [] then none else
    some ((a.rd v).log.length, termAt Entry.term (a.rd v).log (a.rd v).log.length)
  messages : ∀ m ∈ f.rd.messages, Taken σ a v m
  plain : islead = true → ∀ m ∈ f.rd.messages, Plain m
  commits : ∀ e ∈ f.rd.committedEntries, ∃ j, j < (a.rd v).commit ∧ (a.rd v).log[j]? = some e
  shows : f.saved = false → Shows { storage := d.ms, unstable := u₀ } (a.rd v).log d.stored
  whole : f.saved = false → (a.rd v).log.length ≤ d.ms.hardState.commit →
    d.stored = (a.rd v).log
  hard : f.saved = false →
    (if isEmptyHardState f.rd.hardState then d.ms.hardState else f.rd.hardState) = hsOf (a.rd v)
  saved : f.saved = true → a.dur v = a.rd v ∧ d.stored = (a.rd v).log ∧
    d.ms.hardState = hsOf (a.rd v) ∧
    ∀ s, u₀.snapshot = some s → d.ms.ents0.index = s.metadata.index

structure DriverOK (n : Node) (fl : Option Flight) (islead : Bool) (d : Held) : Prop where
  advancec : n.advancec = fl.isSome
  soft : islead = (n.prevSoftSt.raftState == .leader)
  hard : n.prevHardSt = {} ∨ n.prevHardSt = hsOf (a.rd v)
  snapi : n.prevSnapi ≤ (a.rd v).commit
  idle : fl = none → a.dur v = a.rd v ∧ n.prevLastUnstable = none ∧ d.out = none ∧
    (n.prevHardSt = {} ∨ n.prevHardSt = d.ms.hardState)
  flight : ∀ f, fl = some f → ∃ u₀, d.out = some u₀ ∧ FlightOK σ a v n f islead d u₀

/-- A node that is down is back at its stored view. -/
structure DownOK (ms : MemoryStorage) (why : Option Panic) : Prop where
  mem : a.mem v = a.dur v
  rd : a.rd v = a.dur v
  role : a.role v = .follower
  voter : ∀ T c, (a.mem v).votes T = some c → c ∈ σ.peers
  kept : ∃ stored, Kept σ a v ms stored
  why : ∀ e, why = some e → Benign e

def MemberOK : Member → Prop
  | .down ms why => DownOK σ a v ms why
  | .up n fl islead => ∃ d, NodeOK σ a v d n.raft ∧ DriverOK σ a v n fl islead d

end Nodes

end EtcdCompat
