import EtcdCompat.Proofs.ClusterSim
import EtcdCompat.Proofs.Solo

/-!
# Safety of a cluster of fixed membership

Election safety, log matching and the absence of corruption panics hold for clusters of any size.
What two nodes have committed agrees, now and later, unless the node is alone: a single node commits
before it stores.
-/

namespace EtcdCompat

open Consensus

/-- The node has the entry `e` at the index `i` of its log, which it has not compacted. -/
def RaftLog.Holds (l : RaftLog) (i : ℕ) (e : Entry) : Prop :=
  l.slice i (i + 1) noLimit = .ok (.ok [e])

theorem Shows.holds_iff {l : RaftLog} {log stored : List Entry} (h : Shows l log stored) {i : ℕ}
    {e : Entry} : l.Holds i e ↔ l.dummy < i ∧ log[i - 1]? = some e := by
  have hfirst := firstIndex_eq l
  have hlast := h.lastIndex_eq
  have hd := h.dummy_le_length
  have hin : l.dummy < i → i ≤ log.length → (l.Holds i e ↔ log[i - 1]? = some e) := by
    intro hlo hhi
    obtain ⟨es, h1, h2, h3⟩ := h.slice_eq noLimit hlo (Nat.lt_succ_self i) (by omega)
    have hget : log[i - 1]? = some (log.get ⟨i - 1, by omega⟩) := List.getElem?_eq_getElem _
    have htake : (log.drop (i - 1)).take (i + 1 - i) = [log.get ⟨i - 1, by omega⟩] := by
      rw [Nat.add_sub_cancel_left, List.drop_eq_getElem_cons (by omega : i - 1 < log.length)]
      rfl
    rw [htake] at h2
    have hes : es = [log.get ⟨i - 1, by omega⟩] := by
      refine h2.eq_of_length_le ?_
      exact List.length_pos_iff.2 h3
    rw [RaftLog.Holds, h1, hes, hget]
    simp
  constructor
  · intro hh
    rcases le_or_gt i l.dummy with hlo | hlo
    · rw [RaftLog.Holds, slice_compacted hlo (Nat.le_succ i)] at hh
      cases hh
    · rcases le_or_gt i log.length with hhi | hhi
      · exact ⟨hlo, (hin hlo hhi).1 hh⟩
      · rw [RaftLog.Holds, RaftLog.slice, RaftLog.mustCheckOutOfBounds, if_neg (by omega),
          if_neg (by omega), if_pos (by omega)] at hh
        cases hh
  · rintro ⟨hlo, he⟩
    have hlt := (List.getElem?_eq_some_iff.1 he).1
    exact (hin hlo (by omega)).2 he

namespace Cluster

variable {σ : Setup} {v : ℕ}

def Up (c : Cluster) (v : ℕ) (r : Raft) : Prop := (c.member v).raft? = some r

theorem step_of_not_mem {c : Cluster} (hv : v ∉ σ.peers) (hc : c.member v = .down {} none)
    (ev : Event) : (step σ c ev).member v = .down {} none := by
  have hnode : ∀ u f, (c.onNode u f).member v = .down {} none := by
    intro u f
    rcases eq_or_ne v u with rfl | hne
    · rw [onNode, hc]
      exact hc
    · rw [onNode]
      split
      · exact hc
      · split
        · rw [setMember_of_ne hne]
          exact hc
        · rw [setMember_of_ne hne]
          exact hc
  cases ev with
  | start u applied =>
    rcases eq_or_ne v u with rfl | hne
    · rw [step, setMember_self, hc, startMember, if_pos hv]
    · rw [step, setMember_of_ne hne]
      exact hc
  | recv u m =>
    rw [step]
    split_ifs
    · exact hnode _ _
    · exact hc
  | input u m =>
    rw [step]
    split_ifs
    · exact hnode _ _
    · exact hc
  | send u => exact hc
  | _ => exact hnode _ _

theorem member_of_not_mem (hv : v ∉ σ.peers) (evs : List Event) :
    (run σ evs).member v = .down {} none := by
  have hfold : ∀ (evs : List Event) (c : Cluster), c.member v = .down {} none →
      (evs.foldl (step σ) c).member v = .down {} none := by
    intro evs
    induction evs with
    | nil => exact fun c h => h
    | cons ev evs ih => exact fun c h => ih _ (step_of_not_mem hv h ev)
  exact hfold evs {} rfl

theorem Up.mem_peers {r : Raft} {evs : List Event} (h : (run σ evs).Up v r) : v ∈ σ.peers := by
  by_contra hv
  rw [Up, member_of_not_mem hv] at h
  cases h

end Cluster

section Sample

open Cluster (Event)

/-- The driver of `v` handles one `Ready`. -/
def drive (v : ℕ) : List Event := [.ready v, .save v, .send v, .advance v]

def trio : Setup := { peers := [1, 2, 3], nodup := by decide, nonzero := by decide }

/-- The node 2 votes for the node 1, which then leads. -/
def elected : List Event :=
  [.start 1 0, .start 2 0, .input 1 { type := .hup }] ++ drive 1 ++
  [.recv 2 { type := .vote, to_ := 2, from_ := 1, term := 1 }] ++ drive 2 ++
  [.recv 1 { type := .voteResp, to_ := 1, from_ := 2, term := 1 }] ++ drive 1

def noop : Entry := { term := 1, index := 1 }

/-- The node 2 takes it over, and the leader commits it. -/
def acked : List Event :=
  [.recv 2 { type := .app, to_ := 2, from_ := 1, term := 1, entries := [noop] }] ++ drive 2 ++
  [.recv 1 { type := .appResp, to_ := 1, from_ := 2, term := 1, index := 1 }]

/-- The node 2 learns that it is committed. -/
def learned : List Event :=
  drive 1 ++
  [.recv 2 { type := .app, to_ := 2, from_ := 1, term := 1, index := 1, logTerm := 1, commit := 1 }]

def alone : Setup := { peers := [1], nodup := by decide, nonzero := by decide }

def propose (data : Bytes) : Message := { type := .prop, entries := [{ data := some data }] }

end Sample

section Any

variable {σ : Setup} {evs : List Cluster.Event} {v w : ℕ} {r r' : Raft}

open Cluster (run)

variable {c : Cluster}

theorem Sim.up {σ : Replicated} {a : State ℕ Entry} (h : Sim σ c a) (hv : c.Up v r) :
    ∃ d, NodeOK σ a v d r := by
  have hmb := h.member v
  rw [Cluster.Up] at hv
  rcases hc : c.member v with _ | ⟨n, fl, islead⟩ <;> rw [hc] at hv hmb
  · cases hv
  · obtain ⟨d, hn, _⟩ := hmb
    cases hv
    exact ⟨d, hn⟩

theorem SoloSim.up (h : SoloSim v c) (hw : c.Up w r) : ∃ log stored, SoloRaft v log stored r := by
  have hmb := h.member w
  rw [Cluster.Up] at hw
  rcases hc : c.member w with _ | ⟨n, fl, islead⟩ <;> rw [hc] at hw hmb
  · cases hw
  · obtain ⟨log, stored, hr, _⟩ := hmb
    cases hw
    exact ⟨log, stored, hr⟩

theorem Setup.size (σ : Setup) : 2 ≤ σ.peers.length ∨ (∃ v, σ.peers = [v]) ∨ σ.peers = [] := by
  rcases h : σ.peers with _ | ⟨v, _ | ⟨w, l⟩⟩
  · exact .inr (.inr rfl)
  · exact .inr (.inl ⟨v, rfl⟩)
  · exact .inl (by simp)

theorem Cluster.Up.eq_of_size (hv : (run σ evs).Up v r) (hw : (run σ evs).Up w r')
    (hσ : ¬ 2 ≤ σ.peers.length) : v = w := by
  have hvm := hv.mem_peers
  have hwm := hw.mem_peers
  rcases σ.size with h | ⟨u, h⟩ | h
  · exact absurd h hσ
  · rw [h, List.mem_singleton] at hvm hwm
    exact hvm.trans hwm.symm
  · rw [h] at hvm
    cases hvm

theorem Shows.hold_same {l l' : RaftLog} {log log' stored stored' : List Entry}
    (h : Shows l log stored) (h' : Shows l' log' stored') {i : ℕ} (hi : i ≤ log.length)
    (htake : log.take i = log'.take i) {j : ℕ} (hj : j ≤ i) (hlo : l.firstIndex ≤ j)
    (hlo' : l'.firstIndex ≤ j) : ∃ f, l.Holds j f ∧ l'.Holds j f := by
  rw [firstIndex_eq] at hlo hlo'
  have hget : log[j - 1]? = some (log.get ⟨j - 1, by omega⟩) := List.getElem?_eq_getElem _
  refine ⟨_, h.holds_iff.2 ⟨hlo, hget⟩, h'.holds_iff.2 ⟨hlo', ?_⟩⟩
  rw [← hget, ← List.getElem?_take_of_lt (show j - 1 < i by omega), ← htake,
    List.getElem?_take_of_lt (by omega)]

theorem Cluster.Up.matching (hv : (run σ evs).Up v r) (hw : (run σ evs).Up w r') :
    ∃ log log' stored stored', Shows r.raftLog log stored ∧ Shows r'.raftLog log' stored' ∧
      (log.Pairwise fun a b => a.term ≤ b.term) ∧
      ∀ (j : ℕ) e e', log[j]? = some e → log'[j]? = some e' → e.term = e'.term →
        log.take (j + 1) = log'.take (j + 1) := by
  by_cases hσ : 2 ≤ σ.peers.length
  · obtain ⟨a, h⟩ := Sim.run ⟨σ, hσ⟩ evs
    obtain ⟨d, hn⟩ := h.up hv
    obtain ⟨d', hn'⟩ := h.up hw
    exact ⟨_, _, _, _, hn.log.shows, hn'.log.shows, (h.inv.mem v).log.sorted,
      fun j e e' he he' ht => (h.inv.mem v).log.take_eq (h.inv.mem w).log he he' ht⟩
  · obtain rfl := hv.eq_of_size hw hσ
    obtain rfl : r = r' := Option.some.inj (hv.symm.trans hw)
    rcases σ.size with h | ⟨u, hu⟩ | hu
    · exact absurd h hσ
    · obtain ⟨log, stored, hr⟩ := (SoloSim.run hu evs).up hv
      exact ⟨log, log, stored, stored, hr.shows, hr.shows, hr.terms.sorted, fun _ _ _ _ _ _ => rfl⟩
    · have hmem := hv.mem_peers
      rw [hu] at hmem
      cases hmem

/-- Two nodes with an entry of one index and one term have the same entries below it, as far as
they are not compacted, and the terms along a log do not decrease. -/
theorem log_matching (hv : (run σ evs).Up v r) (hw : (run σ evs).Up w r') :
    (∀ i e e', r.raftLog.Holds i e → r'.raftLog.Holds i e' → e.term = e'.term → ∀ j ≤ i,
      r.raftLog.firstIndex ≤ j → r'.raftLog.firstIndex ≤ j →
      ∃ f, r.raftLog.Holds j f ∧ r'.raftLog.Holds j f) ∧
    ∀ i j e f, r.raftLog.Holds i e → r.raftLog.Holds j f → j ≤ i → f.term ≤ e.term := by
  obtain ⟨log, log', stored, stored', h, h', hsorted, hmatch⟩ := hv.matching hw
  refine ⟨fun i e e' hi hi' ht j hj hlo hlo' => ?_, fun i j e f hi hj hle => ?_⟩
  · obtain ⟨hpos, he⟩ := h.holds_iff.1 hi
    obtain ⟨_, he'⟩ := h'.holds_iff.1 hi'
    have hlen := (List.getElem?_eq_some_iff.1 he).1
    have htake := hmatch _ e e' he he' ht
    rw [show i - 1 + 1 = i by omega] at htake
    exact h.hold_same h' (by omega) htake hj hlo hlo'
  · obtain ⟨_, he⟩ := h.holds_iff.1 hi
    obtain ⟨_, hf⟩ := h.holds_iff.1 hj
    obtain ⟨hil, rfl⟩ := List.getElem?_eq_some_iff.1 he
    obtain ⟨hjl, rfl⟩ := List.getElem?_eq_some_iff.1 hf
    rcases (show j - 1 ≤ i - 1 by omega).eq_or_lt with heq | hlt
    · simp only [heq, le_refl]
    · exact List.pairwise_iff_getElem.1 hsorted _ _ hjl hil hlt

theorem log_matching_trio : ∃ r r', (run trio (elected ++ acked)).Up 1 r ∧
    (run trio (elected ++ acked)).Up 2 r' ∧ r.raftLog.Holds 1 noop ∧ r'.raftLog.Holds 1 noop ∧
    ∀ j ≤ 1, r.raftLog.firstIndex ≤ j → r'.raftLog.firstIndex ≤ j →
      ∃ f, r.raftLog.Holds j f ∧ r'.raftLog.Holds j f := by
  obtain ⟨r, hr, h⟩ := Option.map_eq_some_iff.1 (show
    ((run trio (elected ++ acked)).member 1).raft?.map (fun r => r.raftLog.slice 1 2 noLimit) =
      some (.ok (.ok [noop])) by decide +kernel)
  obtain ⟨r', hr', h'⟩ := Option.map_eq_some_iff.1 (show
    ((run trio (elected ++ acked)).member 2).raft?.map (fun r => r.raftLog.slice 1 2 noLimit) =
      some (.ok (.ok [noop])) by decide +kernel)
  exact ⟨r, r', hr, hr', h, h', (log_matching hr hr').1 1 noop noop h h' rfl⟩

/-- A node that stops does not stop over its log: what is to be committed is in it, and what is
committed stays. -/
theorem corruption_unreachable {ms : MemoryStorage} {p : Panic}
    (h : (run σ evs).member v = .down ms (some p)) : ¬ p.Corrupt := by
  rcases σ.size with hσ | ⟨u, hσ⟩ | hσ
  · obtain ⟨a, hsim⟩ := Sim.run ⟨σ, hσ⟩ evs
    have hmb := hsim.member v
    rw [h] at hmb
    exact DownOK.why hmb p rfl
  · have hmb := (SoloSim.run hσ evs).member v
    rw [h] at hmb
    exact hmb.2 p rfl
  · rw [Cluster.member_of_not_mem (by rw [hσ]; nofun)] at h
    cases h

theorem corruption_unreachable_emptyProp : ∃ ms,
    (run trio (elected ++ [.input 1 { type := .prop }])).member 1 = .down ms (some .emptyProp) ∧
      ¬ Panic.emptyProp.Corrupt := by
  have h : (run trio (elected ++ [.input 1 { type := .prop }])).member 1 =
      .down ((run trio (elected ++ [.input 1 { type := .prop }])).member 1).storage
        (some .emptyProp) := by decide +kernel
  exact ⟨_, h, corruption_unreachable h⟩

/-- What a node has committed no node, then or later, has committed otherwise, unless the node is
alone. -/
theorem state_machine_safety {evs' : List Cluster.Event} {i : ℕ} {e e' : Entry}
    (hσ : σ.peers.length ≠ 1) (hearly : σ.early = false) (hv : (run σ evs).Up v r)
    (hw : (run σ (evs ++ evs')).Up w r') (hi : i ≤ r.raftLog.committed)
    (hi' : i ≤ r'.raftLog.committed) (he : r.raftLog.Holds i e) (he' : r'.raftLog.Holds i e') :
    e = e' := by
  rcases σ.size with h2 | ⟨u, hu⟩ | hu
  · obtain ⟨a, _, h⟩ := (Sim.init (σ := ⟨σ, h2⟩)).foldl evs
    obtain ⟨a', hrun, h'⟩ := h.foldl evs'
    rw [← List.foldl_append] at h'
    obtain ⟨d, hn⟩ := h.up hv
    obtain ⟨d', hn'⟩ := h'.up hw
    rw [hn.log.committed] at hi
    rw [hn'.log.committed] at hi'
    have hcounts : (Replicated.protocol ⟨σ, h2⟩).counts v = none := by
      rw [Consensus.Protocol.counts]
      refine if_neg ?_
      rw [show (Replicated.protocol ⟨σ, h2⟩).early = σ.early from rfl, hearly]
      exact Bool.false_ne_true
    have hknown := (h.inv.knownMem v).mono h.inv (hrun.ext h.inv) fun u hu => by
      rw [hcounts] at hu
      cases hu
    have htake := hknown.agree h'.inv (h'.inv.knownMem w) (h.inv.mem v).log.boot
      (h'.inv.mem w).log.boot hi hi'
    obtain ⟨hpos, hget⟩ := hn.log.shows.holds_iff.1 he
    obtain ⟨_, hget'⟩ := hn'.log.shows.holds_iff.1 he'
    rw [← List.getElem?_take_of_lt (show i - 1 < i by omega), htake,
      List.getElem?_take_of_lt (by omega), hget'] at hget
    exact (Option.some.inj hget).symm
  · rw [hu] at hσ
    exact absurd rfl hσ
  · have hmem := hv.mem_peers
    rw [hu] at hmem
    cases hmem

theorem state_machine_safety_trio : ∃ r r', (run trio (elected ++ acked)).Up 1 r ∧
    (run trio (elected ++ acked ++ learned)).Up 2 r' ∧ 1 ≤ r.raftLog.committed ∧
    1 ≤ r'.raftLog.committed ∧ r.raftLog.Holds 1 noop ∧ r'.raftLog.Holds 1 noop ∧ noop = noop := by
  obtain ⟨r, hr, h⟩ := Option.map_eq_some_iff.1 (show
    ((run trio (elected ++ acked)).member 1).raft?.map
      (fun r => (r.raftLog.committed, r.raftLog.slice 1 2 noLimit)) =
      some (1, .ok (.ok [noop])) by decide +kernel)
  obtain ⟨r', hr', h'⟩ := Option.map_eq_some_iff.1 (show
    ((run trio (elected ++ acked ++ learned)).member 2).raft?.map
      (fun r => (r.raftLog.committed, r.raftLog.slice 1 2 noLimit)) =
      some (1, .ok (.ok [noop])) by decide +kernel)
  obtain ⟨hc, he⟩ := Prod.mk.inj h
  obtain ⟨hc', he'⟩ := Prod.mk.inj h'
  exact ⟨r, r', hr, hr', hc.ge, hc'.ge, he, he',
    state_machine_safety (by decide) rfl hr hr' hc.ge hc'.ge he he'⟩

/-- A node alone commits an entry, loses it in a crash, and commits another in its place. -/
theorem committed_lost_alone :
    ((run alone [.start 1 0, .input 1 { type := .hup }, .input 1 (propose [1])]).member 1).raft?.map
      (fun r => (r.raftLog.committed, r.raftLog.slice 2 3 noLimit)) =
      some (2, .ok (.ok [{ term := 1, index := 2, data := some [1] }])) ∧
    ((run alone ([.start 1 0, .input 1 { type := .hup }, .input 1 (propose [1])] ++
      [.crash 1, .start 1 0, .input 1 { type := .hup },
        .input 1 (propose [2])])).member 1).raft?.map
      (fun r => (r.raftLog.committed, r.raftLog.slice 2 3 noLimit)) =
      some (2, .ok (.ok [{ term := 1, index := 2, data := some [2] }])) := by
  decide +kernel

end Any

end EtcdCompat
