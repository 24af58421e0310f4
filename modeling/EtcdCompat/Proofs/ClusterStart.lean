import EtcdCompat.Proofs.ClusterDriver

/-!
# Starting a node

A node restarted from its storage is a follower at its stored view. A node that has stored nothing
is started, with the entries that add the peers committed from the beginning.
-/

namespace EtcdCompat

open List

open Consensus

variable {σ : Replicated} {a : State ℕ Entry} {v : ℕ} {ms : MemoryStorage} {stored : List Entry}
  {r : Raft} {why : Option Panic}

namespace DownOK

theorem nodes_eq (hk : Kept σ a v ms stored) (applied : ℕ) :
    (σ.config v ms applied).nodes = .ok σ.peers := by
  have hne : σ.peers ≠ [] := by
    intro h
    have := σ.two
    rw [h] at this
    exact absurd this (by decide)
  rw [Config.nodes, Setup.config]
  rcases hk.snap with ⟨_, h⟩ | ⟨_, _, _, h⟩
  · simp [h]
  · simp [h, hne]

theorem loadHardState_yields (hk : Kept σ a v ms stored)
    (hview : stored = (a.dur v).log ∧ ms.hardState = hsOf (a.dur v)) (c : Config)
    (hc : c.storage = ms) :
    Yields Benign (fun r => r = { c.blank σ.peers with
        raftLog := { newLog ms with committed := (a.dur v).commit }
        term := (a.dur v).term
        vote := ((a.dur v).votes (a.dur v).term).getD none_ })
      ((c.blank σ.peers).loadHardState ms.hardState) := by
  rw [Raft.loadHardState, hview.2]
  split_ifs with hemp
  · obtain ⟨h1, h2, h3⟩ : (a.dur v).term = 0 ∧
        ((a.dur v).votes (a.dur v).term).getD none_ = 0 ∧ (a.dur v).commit = 0 := by
      simpa [isEmptyHardState, hsOf] using hemp
    have hdummy := hk.dummy
    rw [hview.2] at hdummy
    change ms.ents0.index ≤ (a.dur v).commit at hdummy
    have h0 : (newLog ms).committed = 0 := by
      simp only [newLog, MemoryStorage.firstIndex]
      omega
    change _ = _
    rw [h2, h1, h3, Config.blank, hc]
    simp only [← h0]
  · rw [Raft.loadState]
    split_ifs
    · exact not_false
    · rw [Config.blank, hc]
      rfl

theorem newRaft_yields (hs : Inv σ.protocol a) (hv : v ∈ σ.peers) (hd : DownOK σ a v ms why)
    (hk : Kept σ a v ms stored)
    (hview : stored = (a.dur v).log ∧ ms.hardState = hsOf (a.dur v)) (applied : ℕ) :
    Yields Benign (fun r => ∃ i, NodeOK σ a v ⟨ms, stored, i, none⟩ r ∧ r.state = .follower)
      (newRaft (σ.config v ms applied)) := by
  have hcommit : ms.hardState.commit = (a.dur v).commit := by rw [hview.2]; rfl
  rw [newRaft]
  split_ifs
  · exact not_false
  rw [nodes_eq hk applied]
  refine (loadHardState_yields hk hview (σ.config v ms applied) rfl).bind fun r hr => ?_
  subst hr
  refine (appliedTo_yields _ applied).bind fun l hl => ?_
  obtain ⟨i, hi, rfl⟩ : ∃ i, i ≤ ms.hardState.commit ∧
      l = { newLog ms with committed := (a.dur v).commit, applied := i } := by
    rcases hl with rfl | ⟨hle, rfl⟩
    · exact ⟨_, hk.dummy, rfl⟩
    · exact ⟨_, hcommit ▸ hle, rfl⟩
  refine ⟨i, ⟨rfl, hv, ?_, ?_, hd.voter, hd.role, hk, hi, ⟨rfl, rfl, ?_, ?_, fun _ => ?_, nofun,
    nofun⟩,
    ?_, nofun, nofun, nofun, nofun⟩, rfl⟩
  · rw [hd.mem]
    rfl
  · rw [hd.mem]
    simp [Raft.becomeFollower, Raft.reset]
  · rw [hd.mem, ← hview.1]
    exact ((Shows.of_newLog hk.store (hk.indexed hs)).withCommitted (a.dur v).commit).withApplied i
  · rw [hd.mem]
    rfl
  · rw [hd.mem]
    exact hview.1
  · simp [Raft.becomeFollower, Raft.reset, Config.blank, σ.nodup.dedup]
    exact .of_eq (map_id _)

end DownOK

/-- The entry that adds a peer, before it has a place. -/
def confEntry (d : Bytes) : Entry := { type := .confChange, data := some d }

theorem addPeers (ds : List Bytes) : ∀ {r : Raft} {log : List Entry}, Shows r.raftLog log [] →
    r.raftLog.committed = 0 → r.raftLog.dummy = 0 → r.raftLog.unstable.snapshot = none →
    ∃ u, ds.foldlM addPeer r = .ok { r with raftLog := { r.raftLog with unstable := u } } ∧
      u.snapshot = none ∧ Shows { r.raftLog with unstable := u }
        (log ++ Raft.stamp 1 (log.length + 1) (ds.map confEntry)) [] := by
  induction ds with
  | nil =>
    intro r log h _ _ hsn
    refine ⟨r.raftLog.unstable, rfl, hsn, ?_⟩
    rw [List.map_nil, Raft.stamp, List.append_nil]
    exact h
  | cons d ds ih =>
    intro r log h hc hd hsn
    have hlast := h.lastIndex_eq
    set e : Entry := { type := .confChange, term := 1, index := log.length + 1, data := some d }
      with he
    have hidx : Indexed (log ++ [e]) := by
      intro j e' he'
      rcases lt_or_ge j log.length with hj | hj
      · rw [List.getElem?_append_left hj] at he'
        exact h.indexed j e' he'
      · rw [List.getElem?_append_right hj] at he'
        obtain ⟨hj', rfl⟩ := List.getElem?_eq_some_iff.1 he'
        rw [List.length_singleton] at hj'
        simp [he]
        omega
    obtain ⟨u, h1, h2, _, _, h5⟩ := h.append_eq (List.cons_ne_nil e []) le_rfl
      (by rw [hd]; exact Nat.zero_le _) (by rw [hc]; exact Nat.zero_le _)
      (by rw [List.take_length]; exact hidx)
    rw [List.take_length] at h5
    have hstep : addPeer r d = .ok { r with raftLog := { r.raftLog with unstable := u } } := by
      rw [addPeer, hlast, h1]
      rfl
    have hdummy : ({ r.raftLog with unstable := u } : RaftLog).dummy = 0 := by
      simp [RaftLog.dummy, h2, hsn] at hd ⊢
      exact hd
    obtain ⟨u', g1, g2, g3⟩ := ih (r := { r with raftLog := { r.raftLog with unstable := u } })
      h5 hc
      hdummy (h2.trans hsn)
    refine ⟨u', ?_, g2, ?_⟩
    · rw [List.foldlM_cons, hstep]
      exact g1
    · rw [List.append_assoc, List.length_append] at g3
      exact g3

theorem foldl_addNode : ∀ (ids : List ℕ) (r : Raft), (r.prs.map Prod.fst ++ ids).Nodup →
    ∃ prs b, ids.foldl Raft.addNode r = { r with prs := prs, pendingConf := b } ∧
      prs.map Prod.fst = r.prs.map Prod.fst ++ ids
  | [], r, _ => ⟨r.prs, r.pendingConf, rfl, (append_nil _).symm⟩
  | id :: ids, r, h => by
    have hnot : ¬ (r.pr id).isSome := by
      intro hsome
      obtain ⟨q, hq, heq⟩ := lookup_isSome_iff.1 hsome
      refine (nodup_append.1 h).2.2 q.1 (mem_map_of_mem hq) id mem_cons_self ?_
      exact (beq_iff_eq.1 heq).symm
    rw [foldl_cons, Raft.addNode, if_neg hnot]
    obtain ⟨prs, b, h1, h2⟩ := foldl_addNode ids
      { r with
        prs := r.prs ++
          [(id, { next := r.raftLog.lastIndex + 1, ins := { size := r.maxInflight } })]
        pendingConf := false } (by simpa using h)
    refine ⟨prs, b, h1, ?_⟩
    rw [h2, map_append, append_assoc]
    rfl

theorem newRaft_empty {c : Config} (h1 : c.storage = {}) (h2 : c.peers = []) (h3 : c.applied = 0) :
    newRaft c = .error .invalidConfig ∨
      newRaft c = .ok ((c.blank []).becomeFollower 0 none_) := by
  cases c
  subst h1 h2 h3
  rw [newRaft]
  split_ifs
  · exact .inl rfl
  · exact .inr rfl

theorem startNode_cases {c : Config} {peers : List (ℕ × Bytes)} (h1 : c.storage = {})
    (h2 : c.peers = []) (h3 : c.applied = 0) (hpeers : (peers.map (·.1)).Nodup)
    {boot : List Entry} (hboot : boot = Raft.stamp 1 1 ((peers.map (·.2)).map confEntry)) :
    startNode c peers = .error .invalidConfig ∨ ∃ u prs b, startNode c peers = .ok (.start
      { ((c.blank []).becomeFollower 0 none_).becomeFollower 1 none_ with
        raftLog := { newLog {} with unstable := u, committed := boot.length }
        prs := prs
        pendingConf := b }) ∧
      u.snapshot = none ∧ Shows { newLog {} with unstable := u } boot [] ∧
      prs.map Prod.fst = peers.map (·.1) := by
  rw [startNode]
  rcases newRaft_empty h1 h2 h3 with hnew | hnew <;> rw [hnew]
  · exact .inl rfl
  set r₁ := ((c.blank []).becomeFollower 0 none_).becomeFollower 1 none_ with hr₁
  have hlog : r₁.raftLog = newLog {} := by
    rw [← h1]
    rfl
  obtain ⟨u, g1, g2, g3⟩ := addPeers (peers.map (·.2))
    (show Shows r₁.raftLog [] [] by rw [hlog]; exact Shows.of_newLog ⟨le_rfl, rfl, rfl⟩ nofun)
    (by rw [hlog]; rfl) (by rw [hlog]; rfl)
    (by rw [hlog]; rfl)
  rw [nil_append, length_nil, Nat.zero_add, ← hboot, hlog] at g3
  obtain ⟨prs, b, g4, g5⟩ := foldl_addNode (peers.map Prod.fst)
    { r₁ with raftLog := { newLog {} with unstable := u, committed := boot.length } } hpeers
  simp only [bind, Except.bind, ← hr₁, g1, pure, Except.pure, hlog, g3.lastIndex_eq]
  rw [g4]
  exact .inr ⟨u, prs, b, rfl, g2, g3, g5⟩

namespace DownOK

theorem startNode_yields (hv : v ∈ σ.peers) (hd : DownOK σ a v ms why)
    (hinit : a.dur v = σ.protocol.initView) (hk : Kept σ a v {} []) {d : ℕ → Bytes}
    (hconf : σ.confChange = some d) {c : Config} (hid : c.id = v) (h1 : c.storage = {})
    (h2 : c.peers = []) (h3 : c.applied = 0) :
    Yields Benign (fun n => ∃ r, n = .start r ∧ NodeOK σ a v ⟨{}, [], 0, none⟩ r ∧
      r.state = .follower) (startNode c (σ.peers.map fun p => (p, d p))) := by
  have hboot : σ.boot =
      Raft.stamp 1 1 (((σ.peers.map fun p => (p, d p)).map (·.2)).map confEntry) := by
    rw [Setup.boot, hconf, map_map, map_map]
    rfl
  have hstart : σ.startTerm = 1 := by rw [Setup.startTerm, hconf]; rfl
  have hmem := hd.mem.trans hinit
  have hpeers : (σ.peers.map fun p => (p, d p)).map (·.1) = σ.peers := by
    rw [map_map]
    exact map_id _
  rcases startNode_cases h1 h2 h3 (hpeers.symm ▸ σ.nodup) hboot with
    hnode | ⟨u, prs, b, hnode, g2, g3, g5⟩ <;> rw [hnode]
  · exact not_false
  refine ⟨_, rfl, ⟨hid, hv, ?_, ?_, hd.voter, hd.role, hk, le_rfl, ⟨?_, ?_, ?_, ?_, fun hw => ?_,
    ?_,
    nofun⟩, ?_, nofun, nofun, nofun, nofun⟩, rfl⟩
  · rw [hmem]
    exact hstart.symm
  · rw [hmem]
    rfl
  · rfl
  · rfl
  · rw [hmem]
    exact g3.withCommitted σ.boot.length
  · rw [hmem]
    rfl
  · rw [hmem] at hw ⊢
    exact (length_eq_zero_iff.1 (Nat.le_zero.1 hw)).symm
  · intro s hs
    rw [g2] at hs
    cases hs
  · exact .of_eq (g5.trans hpeers)

theorem start_yields (hs : Inv σ.protocol a) (hv : v ∈ σ.peers) (hd : DownOK σ a v ms why)
    (applied : ℕ) :
    Yields Benign (fun n => MemberOK σ a v (.up n none false)) (σ.start v ms applied) := by
  obtain ⟨stored, hk⟩ := hd.kept
  have hdriver : ∀ {r : Raft} {d : Held}, r.state = .follower → d.out = none →
      DriverOK σ a v (.start r) none false d := fun hr hout =>
    ⟨rfl, by rw [Node.start, Raft.softState, hr]; rfl, .inl rfl, Nat.zero_le _,
      fun _ => ⟨hd.rd.symm, rfl, hout, .inl rfl⟩, nofun⟩
  have hrestart : ∀ applied, stored = (a.dur v).log ∧ ms.hardState = hsOf (a.dur v) →
      Yields Benign (fun n => MemberOK σ a v (.up n none false))
        (restartNode (σ.config v ms applied)) := by
    intro applied hview
    refine (hd.newRaft_yields hs hv hk hview applied).bind fun r hr => ?_
    obtain ⟨i, h1, h2⟩ := hr
    exact ⟨_, h1, hdriver h2 rfl⟩
  rw [Setup.start]
  split_ifs with hms
  · subst hms
    cases hconf : σ.confChange with
    | none =>
      refine hrestart 0 (hk.view.elim id fun h => ?_)
      rw [h.2.2, h.2.1]
      refine ⟨?_, ?_⟩
      · change [] = σ.boot
        rw [Setup.boot, hconf]
      · change ({} : HardState) = { term := σ.startTerm, vote := 0, commit := σ.boot.length }
        rw [Setup.boot, Setup.startTerm, hconf]
        rfl
    | some d =>
      obtain ⟨_, rfl, hinit⟩ := hk.view.resolve_left fun h => by
        have hterm : (a.dur v).term = 0 := (congrArg HardState.term h.2).symm
        have hle : σ.startTerm ≤ (a.dur v).term := (hs.dur v).term
        rw [hterm, Setup.startTerm, hconf] at hle
        exact absurd hle (Nat.not_succ_le_zero 0)
      refine (hd.startNode_yields hv hinit hk hconf rfl rfl rfl rfl).mono fun n hn => ?_
      obtain ⟨r, rfl, h1, h2⟩ := hn
      exact ⟨_, h1, hdriver h2 rfl⟩
  · exact hrestart applied (hk.view.resolve_right fun h => hms h.1)

end DownOK

end EtcdCompat
