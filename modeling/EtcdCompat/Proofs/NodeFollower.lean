import EtcdCompat.Proofs.NodeBasic

/-!
# A follower's handlers

A follower adopts what the leader of its term has published and acknowledges it, learns the commit
index, votes. Its log reaches what a message of the leader points to or agrees with the leader's
below its own commit index, so none of the log's checks fails.
-/

namespace EtcdCompat

open List Function

open Consensus

variable {σ : Replicated} {a a' : State ℕ Entry} {v : ℕ} {d : Held} {r : Raft} {m : Message}

theorem Settled.comm (hs : Inv σ.protocol a) {T c : ℕ} (hset : Settled σ a none T c)
    (hl : a.leader T ≠ none) (hb : σ.boot.length < c) :
    ∃ T₀ i, T₀ ≤ T ∧ Comm σ.protocol a none T₀ i ∧ c ≤ i ∧
      (a.ll T₀).take c = (a.ll T).take c := by
  rcases hset with hle | ⟨T₀, i, hT₀, hcomm, hi⟩
  · omega
  · refine ⟨T₀, i, hT₀, hcomm, hi, ?_⟩
    have hlen := length_take_of_le (hs.comm_le_ll hcomm)
    rw [List.take_eq_of_prefix (hs.comm_prefix hcomm hT₀ hl) (by rw [hlen]; exact hi), take_take,
      min_eq_left hi]

namespace NodeOK

variable {log : List Entry} {L : List Entry}

theorem not_promising (hr : r.state = .follower) {P Q : Prop}
    (h : r.state = .leader ∨ r.state = .candidate ∧ P) : Q := by
  rcases h with h | ⟨h, _⟩ <;> rw [hr] at h <;> cases h

variable (h : NodeOK σ a v d r)
include h

theorem sendAck (hr : r.state = .follower) (hpos : 0 < r.term) {u i : ℕ} (hu : u ≠ v)
    (hi : i ≤ (a.mem v).acked (a.mem v).term) :
    NodeOK σ a v d (r.send { type := .appResp, to_ := u, index := i }) :=
  h.send nofun hu hpos ⟨le_rfl, fun _ => hi⟩ (not_promising hr)

section

variable (hs : Inv σ.protocol a) {c : ℕ} {l i : ℕ}
include hs

theorem learn {T i c : ℕ} (hT : T ≤ (a.mem v).term)
    (hc : Comm σ.protocol a (σ.protocol.counts v) T i) (hi : c ≤ i)
    (hp : (a.ll T).take c <+: (a.mem v).log) (hm : (a.mem v).commit ≤ c) :
    Reaches σ v d a { r with raftLog := { r.raftLog with committed := c } } := by
  have hl := (MemStep.learn T i c hT hc hi hp hm).local hs
  have hmem : (a.withMem v { a.mem v with commit := c } (a.role v)).mem v =
    { a.mem v with commit := c } := State.withMem_mem_self ..
  have hfit := h.log
  refine ⟨_, hl, h.withLog hl (by rw [hmem]) (by rw [hmem]) (State.withMem_role_self ..)
    (.inl (by rw [hmem])) ⟨hfit.storage, hfit.applied, ?_, ?_, ?_, ?_, fun u₀ hu => ?_⟩⟩
  · rw [hmem]
    exact hfit.shows.withCommitted c
  · rw [hmem]
  · rw [hmem]
    exact hfit.whole
  · rw [hmem]
    intro s hs
    obtain ⟨h1, h2, h3⟩ := hfit.snap s hs
    exact ⟨h1, h2.trans hm, h3⟩
  · have ho := hfit.out u₀ hu
    exact ⟨by rw [hmem]; exact ho.flying, ho.snap, ho.old⟩

theorem commitTo (hl : a.leader (a.mem v).term ≠ none) (hset : Settled σ a none (a.mem v).term c)
    (hc : c ≤ (a.ll (a.mem v).term).length) (hh : Holds a (a.mem v).term c (a.mem v).log) :
    ∃ rl, r.raftLog.commitTo c = .ok rl ∧ Reaches σ v d a { r with raftLog := rl } := by
  have hlen : c ≤ (a.mem v).log.length := by
    have := hh.length_le
    rwa [length_take_of_le hc] at this
  refine ⟨_, h.log.shows.commitTo_eq hlen, ?_⟩
  rcases le_or_gt c r.raftLog.committed with hle | hgt
  · rw [max_eq_left hle]
    exact .refl hs h
  · rw [max_eq_right hgt.le]
    rw [h.log.committed] at hgt
    obtain ⟨T₀, i, hT₀, hcomm, hi, htake⟩ :=
      hset.comm hs hl ((hs.knownMem v).boot.trans_lt hgt)
    exact h.learn hs hT₀ hcomm.of_none hi (htake ▸ hh) hgt.le

section

variable (hr : r.state = .follower)
include hr

theorem adopt
    (hl : a.leader (a.mem v).term = some l) (hne : l ≠ v) (hi : i ≤ a.pub (a.mem v).term)
    (rl : RaftLog)
    (hlog : log = if (a.ll (a.mem v).term).take i <+: (a.mem v).log then (a.mem v).log
      else (a.ll (a.mem v).term).take i)
    (hfit : ∀ a', (a'.mem v).log = log → (a'.mem v).commit = (a.mem v).commit →
      a'.rd v = a.rd v → LogFits σ a' v d rl) :
    ∃ a', Local σ.protocol v a a' ∧ NodeOK σ a' v d { r with raftLog := rl } ∧
      (a'.mem v).term = (a.mem v).term ∧ (a'.mem v).log = log ∧
      i ≤ (a'.mem v).acked (a.mem v).term := by
  have hrole : a.role v = .follower := by rw [h.role, hr]; rfl
  have hloc := (MemStep.adopt (p := σ.protocol) l i hrole hl hne hi).local hs
  have hlen := length_take_of_le (hi.trans (hs.pub _ l hl).ll)
  have hmem : (a.withMem v ((a.mem v).adopt ((a.ll (a.mem v).term).take i)) .follower).mem v =
    (a.mem v).adopt ((a.ll (a.mem v).term).take i) := State.withMem_mem_self ..
  have hlog' : ((a.mem v).adopt ((a.ll (a.mem v).term).take i)).log = log := by
    rw [hlog, View.adopt]
    split_ifs <;> rfl
  refine ⟨_, hloc, h.withLog hloc ?_ ?_ ?_ (.inr (by rw [hr]; decide)) (hfit _ ?_ ?_ rfl), ?_, ?_,
    ?_⟩
  · rw [hmem]
    rfl
  · rw [hmem]
    rfl
  · rw [hrole]
    exact State.withMem_role_self ..
  · rw [hmem, hlog']
  · rw [hmem]
    rfl
  · rw [hmem]
    rfl
  · rw [hmem, hlog']
  · rw [hmem, View.adopt]
    simp only [update_self, hlen]
    exact le_max_right ..

theorem ack (hl : a.leader (a.mem v).term = some l) (hne : l ≠ v) (hi : i ≤ a.pub (a.mem v).term)
    (hh : Holds a (a.mem v).term i (a.mem v).log) :
    ∃ a', Local σ.protocol v a a' ∧ NodeOK σ a' v d r ∧ (a'.mem v).term = (a.mem v).term ∧
      (a'.mem v).log = (a.mem v).log ∧ i ≤ (a'.mem v).acked (a.mem v).term :=
  h.adopt hs hr hl hne hi r.raftLog (if_pos hh).symm fun _ h1 h2 h3 => h.log.congr h1 h2 h3

theorem ackCommit {l : ℕ} (hl : a.leader (a.mem v).term = some l) (hne : l ≠ v) :
    Reaches σ v d a (r.send { type := .appResp, to_ := l, index := r.raftLog.committed }) := by
  have hled : a.leader (a.mem v).term ≠ none := by simp [hl]
  have hk := hs.knownMem v
  obtain ⟨a', h1, h2, h3, _, h5⟩ := h.ack hs hr hl hne (hk.commit_le_pub hs hl le_rfl)
    (hk.holds hs (hs.mem v).log.boot hled le_rfl)
  refine ⟨a', h1, h2.sendAck hr (h.termPos hs hled) hne ?_⟩
  rw [h3, h.log.committed]
  exact h5

end

theorem hardCommit_le : d.ms.hardState.commit ≤ (a.mem v).commit :=
  h.kept.commit_le.trans (hs.durMem v).commit

theorem logFits_append {u : Unstable} {k : ℕ} (hsnap : u.snapshot = r.raftLog.unstable.snapshot)
    (hne : u.entries ≠ []) (hoff : u.offset ≤ r.raftLog.unstable.offset)
    (hk : log.take k = (a.mem v).log.take k) (hc : (a.mem v).commit ≤ k) (hlen : k < log.length)
    (hshows : Shows { r.raftLog with unstable := u } log d.stored) (a' : State ℕ Entry)
    (hlog : (a'.mem v).log = log) (hcommit : (a'.mem v).commit = (a.mem v).commit)
    (hrd : a'.rd v = a.rd v) : LogFits σ a' v d { r.raftLog with unstable := u } := by
  have hfit := h.log
  have hhard := h.hardCommit_le hs
  refine ⟨hfit.storage, hfit.applied, hlog ▸ hshows, hfit.committed.trans hcommit.symm,
    fun hw => ?_, fun s hs => ?_, fun u₀ hu => ?_⟩
  · rw [hlog] at hw
    omega
  · rw [hcommit]
    exact hfit.snap s (hsnap ▸ hs)
  · have ho := hfit.out u₀ hu
    refine ⟨?_, fun s hs => ?_, by rw [hrd]; exact ho.old⟩
    · rw [hlog, hrd]
      exact ho.flying.append hsnap hne hoff hk ((hs.rdLe v).commit.trans hc) hlen
        fun s hs => (hfit.snap s hs).2.1.trans hc
    · rw [hrd]
      exact ho.snap s (hsnap ▸ hs)

variable (hr : r.state = .follower)
include hr

theorem appendFrom (hm : AppOK σ a a.pub none m) (hT : m.term = (a.mem v).term) (hne : m.from_ ≠ v)
    (hi : (a.mem v).commit ≤ m.index)
    (hprev : (a.mem v).log.take m.index = (a.ll (a.mem v).term).take m.index) :
    ∃ rl, r.raftLog.appendFrom m.index m.entries = .ok rl ∧ ∃ a', Local σ.protocol v a a' ∧
      NodeOK σ a' v d { r with raftLog := rl } ∧ (a'.mem v).term = (a.mem v).term ∧
      Holds a (a.mem v).term (m.index + m.entries.length) (a'.mem v).log ∧
      m.index + m.entries.length ≤ (a'.mem v).acked (a.mem v).term := by
  obtain ⟨hlead, hreach, hlen, hents, _, _⟩ := hm
  rw [hT] at hlead hreach hlen hents
  obtain ⟨n, hn⟩ : ∃ n, n = m.entries.length := ⟨_, rfl⟩
  rw [← hn] at hreach hlen hents ⊢
  have hlog := (hs.mem v).log
  obtain ⟨u, h1, h2, h3, h4, h5, h6⟩ := h.log.shows.appendFrom_eq (hs.led _ _ hlead).llOK.placed
    (matches_ll hs hlog hlead) hlen (Nat.le_add_right ..) (h.dummy_le hs)
    (h.log.committed ▸ hi) hprev
  rw [← hents] at h1
  refine ⟨_, h1, ?_⟩
  obtain ⟨a', g1, g2, g3, g4, g5⟩ := h.adopt hs hr hlead hne hreach
    { r.raftLog with unstable := u } rfl fun a' e1 e2 e3 => by
      rcases h3 with ⟨rfl, hpre⟩ | ⟨hne', hpre⟩
      · rw [if_pos hpre] at e1
        exact h.log.congr e1 e2 e3
      · rw [if_neg hpre] at e1 h5 h6
        refine h.logFits_append hs h2 hne' h4 h6 hi ?_ h5 a' e1 e2 e3
        rw [length_take_of_le hlen]
        by_contra hle
        obtain rfl : n = 0 := by omega
        rw [Nat.add_zero, ← hprev] at hpre
        exact hpre (List.take_prefix ..)
  refine ⟨a', g1, g2, g3, ?_, g5⟩
  rw [Holds, g4]
  split_ifs with hpre
  · exact hpre
  · exact prefix_rfl

theorem handleAppendEntries (hm : AppOK σ a a.pub none m) (hT : m.term = (a.mem v).term)
    (hne : m.from_ ≠ v) : Yields Benign (Reaches σ v d a) (r.handleAppendEntries m) := by
  have hlead := hm.leader
  rw [hT] at hlead
  have hled : a.leader (a.mem v).term ≠ none := by simp [hlead]
  have hpos := h.termPos hs hled
  rw [Raft.handleAppendEntries]
  split_ifs with hi
  · exact h.ackCommit hs hr hlead hne
  · have hd := h.dummy_le hs
    rw [RaftLog.maybeAppend, h.log.shows.matchTerm_eq _ (by omega)]
    by_cases ht : termAt Entry.term (a.mem v).log m.index = m.logTerm
    · have hlen := hm.length
      have hprev := (matches_ll hs (hs.mem v).log hlead).take_eq (i := m.index)
        (by rw [hT] at hlen; omega) (by rw [ht, hm.logTerm, hT])
      rw [h.log.committed] at hi
      obtain ⟨rl, h1, a', h2, h3, h4, h5, h6⟩ :=
        h.appendFrom hs hr hm hT hne (by omega) hprev
      have hc : min m.commit (m.index + m.entries.length) ≤
          (a.ll (a.mem v).term).length := (min_le_right ..).trans (hT ▸ hlen)
      have hset : Settled σ a none (a.mem v).term (min m.commit (m.index + m.entries.length)) :=
        hT ▸ hm.commit.le (min_le_left ..)
      obtain ⟨rl', g1, a'', g2, g3⟩ := h3.commitTo h2.inv
        (c := min m.commit (m.index + m.entries.length)) (by rw [h4]; exact h2.ext.led hled)
        (by rw [h4]; exact hset.mono h2.ext fun u hu => by cases hu)
        (by rw [h4]; exact hc.trans (h2.ext.ll _ (.inl hled)).length_le)
        (by
          rw [h4, h2.ext.holds hled hc]
          exact (take_prefix_take_left (min_le_right ..)).trans h5)
      simp [ht, bind, Except.bind, h1, pure, Except.pure] at g1 ⊢
      rw [g1]
      have hterm : (a''.mem v).term = (a.mem v).term := by
        rw [← g3.term, ← h.term]
      refine ⟨a'', h2.trans g2, g3.sendAck hr hpos hne ?_⟩
      rw [hterm]
      exact h6.trans (g2.le.acked _)
    · have : (termAt Entry.term (a.mem v).log m.index == m.logTerm) = false := by simpa using ht
      simp [this, bind, Except.bind, pure, Except.pure]
      exact .refl hs (h.send nofun hne hpos ⟨le_rfl,
        (fun hrej => by cases hrej)⟩ (not_promising hr))

theorem handleHeartbeat (hm : HeartbeatOK σ a none m) (hT : m.term = (a.mem v).term)
    (hto : m.to_ = v) (hne : m.from_ ≠ v) :
    Yields Benign (Reaches σ v d a) (r.handleHeartbeat m) := by
  have hlead := hm.leader
  rw [hT] at hlead
  have hled : a.leader (a.mem v).term ≠ none := by simp [hlead]
  have hack : m.commit ≤ (a.mem v).acked (a.mem v).term := by
    have := hm.acked
    rw [hto, hT] at this
    exact this.trans ((hs.durMem v).acked _)
  obtain ⟨rl, h1, a', h2, h3⟩ := h.commitTo hs hled (hT ▸ hm.commit)
    (hack.trans ((hs.mem v).ackedLen _))
    ((take_prefix_take_left hack).trans (hs.mem v).current)
  rw [Raft.handleHeartbeat, h1]
  exact ⟨a', h2, h3.send nofun hne (h.termPos hs hled) le_rfl (not_promising hr)⟩

/-- A snapshot the node does not hold replaces its log. -/
theorem restored (hm : SnapOK σ a a.pub none m) (hT : m.term = (a.mem v).term) (hto : m.to_ = v)
    (hne : m.from_ ≠ v) (hgt : (a.mem v).commit < m.snapshot.metadata.index)
    (hnot : ¬ Holds a (a.mem v).term m.snapshot.metadata.index (a.mem v).log) :
    ∃ a', Local σ.protocol v a a' ∧
      NodeOK σ a' v d { r with raftLog := r.raftLog.restore m.snapshot } ∧
      (a'.mem v).term = (a.mem v).term ∧
      m.snapshot.metadata.index ≤ (a'.mem v).acked (a.mem v).term := by
  obtain ⟨hlead, hpos, hreach, hlen, hterm, hset, hnodes, hactive⟩ := hm
  rw [hT] at hlead hreach hlen hterm hset
  rw [hT, hto] at hactive
  generalize hi : m.snapshot.metadata.index = i at *
  have hled : a.leader (a.mem v).term ≠ none := by simp [hlead]
  have hrole : a.role v = .follower := by rw [h.role, hr]; rfl
  set x := (a.mem v).adopt ((a.ll (a.mem v).term).take i) with hx
  have hl₁ := (MemStep.adopt (p := σ.protocol) m.from_ i hrole hlead hne hreach).local hs
  have hmem₁ : (a.withMem v x .follower).mem v = x := State.withMem_mem_self ..
  have hlog : x.log = (a.ll (a.mem v).term).take i := if_neg hnot
  have hfull := length_take_of_le hlen
  obtain ⟨T₀, k, hT₀, hcomm, hk, htake⟩ := hset.comm hs hled ((hs.knownMem v).boot.trans_lt hgt)
  have hl₂ := (MemStep.learn (p := σ.protocol) (v := v) T₀ k i (by rw [hmem₁]; exact hT₀)
    (hcomm.mono hl₁.ext (fun u hu => by cases hu)).of_none hk
    (by rw [hmem₁, hlog]; exact htake ▸ prefix_rfl)
    (by rw [hmem₁]; exact hgt.le)).local hl₁.inv
  have hmem := State.withMem_mem_self (a.withMem v x .follower) v
    { (a.withMem v x .follower).mem v with commit := i } ((a.withMem v x .follower).role v)
  rw [hmem₁] at hmem hl₂
  have hl := hl₁.trans hl₂
  refine ⟨_, hl, h.withLog hl ?_ ?_ ?_ (.inr (by rw [hr]; nofun)) ⟨h.log.storage, h.log.applied,
    ?_, ?_, ?_, ?_, fun u₀ hu => ⟨?_, ?_, (h.log.out u₀ hu).old⟩⟩, ?_, ?_⟩
  · rw [hmem]
    rfl
  · rw [hmem]
    rfl
  · rw [State.withMem_role_self, State.withMem_role_self, hrole]
  · rw [hmem]
    simp only [hlog]
    refine h.log.shows.restore (by rw [hfull, hi]) ?_ ?_
    · exact Indexed.take (hs.led _ _ hlead).llOK.placed i
    · rw [hterm, hi, termAt_take le_rfl]
  · rw [hmem]
    exact hi
  · rw [hmem]
    simp only [hlog, hfull]
    have := h.hardCommit_le hs
    omega
  · rw [hmem]
    intro s hs'
    cases hs'
    have := h.applied.trans (h.hardCommit_le hs)
    exact ⟨hi ▸ hpos, hi.le, by omega, hnodes⟩
  · rw [hmem]
    simp only [hlog]
    refine Flying.restore (u := r.raftLog.unstable) (fun hu₀ => ?_) ?_ ?_
    · have := (h.log.out u₀ hu).old _ hu₀
      have := (hs.rdLe v).commit
      omega
    · rw [hfull]
      exact (hs.rdLe v).commit.trans_lt hgt
    · -- the node was at this term when it last stored its view, and has lost nothing of it since
      have hrdT : (a.rd v).term = (a.mem v).term := by
        have := (hs.durLe v).term
        have := (hs.rdLe v).term
        omega
      rw [hi, take_take, min_self]
      intro hpre
      rcases hs.grows v hrdT with heq | ⟨_, hgrow⟩
      · exact hnot (heq ▸ hpre)
      · exact hnot (hgrow i hpre)
  · intro s hs'
    cases hs'
    exact .inr ((hs.rdLe v).commit.trans_lt (hi.symm ▸ hgt))
  · rw [hmem]
    rfl
  · rw [hmem, hx, View.adopt]
    simp only [update_self, hfull]
    exact le_max_right ..

theorem handleSnapshot (hm : SnapOK σ a a.pub none m) (hT : m.term = (a.mem v).term)
    (hto : m.to_ = v) (hne : m.from_ ≠ v) :
    Yields Benign (Reaches σ v d a) (r.handleSnapshot m) := by
  have hlead := hm.leader
  rw [hT] at hlead
  have hled : a.leader (a.mem v).term ≠ none := by simp [hlead]
  have hlen := hm.length
  rw [hT] at hlen
  rw [Raft.handleSnapshot, Raft.restore]
  by_cases hi : m.snapshot.metadata.index ≤ r.raftLog.committed
  · simp [hi, pure, Except.pure, bind, Except.bind]
    exact h.ackCommit hs hr hlead hne
  · have hd := h.dummy_le hs
    have hmatch := matches_ll hs (hs.mem v).log hlead
    simp only [hi, if_false, h.log.shows.matchTerm_eq m.snapshot.metadata.term
      (show r.raftLog.dummy ≤ m.snapshot.metadata.index by omega), pure, Except.pure, bind,
      Except.bind]
    rw [h.log.committed] at hi
    by_cases ht : termAt Entry.term (a.mem v).log m.snapshot.metadata.index =
        m.snapshot.metadata.term
    · have htake := hmatch.take_eq hlen (by rw [ht, hm.term, hT])
      obtain ⟨rl, h1, a', h2, h3⟩ := h.commitTo hs hled (hT ▸ hm.commit) hlen
        (by rw [Holds, ← htake]; exact take_prefix ..)
      simp [ht, h1]
      have hterm : (a'.mem v).term = (a.mem v).term := by rw [← h3.term, ← h.term]
      exact .trans h2 (h3.ackCommit h2.inv hr (hterm ▸ h2.ext.leader _ _ hlead) hne)
    · have hbeq : (termAt Entry.term (a.mem v).log m.snapshot.metadata.index ==
        m.snapshot.metadata.term) = false := by simpa using ht
      simp [hbeq]
      obtain ⟨a', h1, h2, h3, h4⟩ := h.restored hs hr hm hT hto hne (by omega) fun hh => by
        rcases Matches.termAt_eq hh with heq | hgt
        · exact ht (by rw [heq, hm.term, hT])
        · omega
      have hlast : (r.raftLog.restore m.snapshot).lastIndex = m.snapshot.metadata.index := rfl
      have hkeys : ((r.restoreProgress (r.raftLog.restore m.snapshot).lastIndex
          m.snapshot.metadata.confState.nodes).map Prod.fst).Perm σ.peers := by
        rw [Raft.restoreProgress, map_map, hm.nodes, σ.nodup.dedup]
        exact .of_eq (map_id _)
      refine ⟨a', h1, (h2.withPrs hkeys fun hl => ?_).sendAck hr (h.termPos hs hled) hne ?_⟩
      · rw [hr] at hl
        cases hl
      · rw [h3, hlast]
        exact h4

theorem granted (hc : c ∈ σ.peers) (hne : c ≠ v) (hL : (a.dur c).cand (a.mem v).term = some L)
    (hu : σ.protocol.UpToDate L (a.mem v).log) (hvote : r.vote = none_ ∨ r.vote = c) :
    ∃ a', Local σ.protocol v a a' ∧
      NodeOK σ a' v d { r with electionElapsed := 0, vote := c } ∧
      (a'.mem v).term = (a.mem v).term ∧ (a'.mem v).votes (a.mem v).term = some c := by
  have hzero : ∀ u ∈ σ.peers, u ≠ none_ := fun u hu h0 => σ.nonzero (h0 ▸ hu)
  cases hv : (a.mem v).votes (a.mem v).term with
  | some c' =>
    have hcv : r.vote = c' := by rw [h.vote, hv, Option.getD_some]
    obtain rfl : c' = c := by
      rw [hcv] at hvote
      exact hvote.resolve_left (hzero c' (h.voter _ c' hv))
    have hok := h.timers r.lead 0 r.heartbeatElapsed r.pendingConf
    refine ⟨a, .refl hs, { hok with vote := ?_ }, rfl, hv⟩
    rw [hv, Option.getD_some]
  | none =>
    have hrole : a.role v = .follower := by rw [h.role, hr]; rfl
    have hl := (MemStep.vote c L hrole hne hv hL hu).local hs
    have hmem : (a.withMem v ((a.mem v).vote c) .follower).mem v = (a.mem v).vote c :=
      State.withMem_mem_self ..
    have hvotes : ((a.mem v).vote c).votes (a.mem v).term = some c := update_self ..
    refine ⟨_, hl, ⟨h.id, h.peer, ?_, ?_, ?_, ?_, h.kept.congr rfl, h.applied,
      h.log.congr (by rw [hmem]; rfl) (by rw [hmem]; rfl) rfl, h.prs, ?_, ?_, fun m hm => ?_,
      fun hp => not_promising hr hp⟩, ?_, ?_⟩
    · rw [hmem]
      exact h.term
    · rw [hmem, show ((a.mem v).vote c).term = (a.mem v).term from rfl, hvotes, Option.getD_some]
    · rw [hmem]
      intro T c' hc'
      simp only [View.vote, update_apply] at hc'
      split_ifs at hc'
      · exact Option.some.inj hc' ▸ hc
      · exact h.voter T c' hc'
    · rw [State.withMem_role_self, hr]
      rfl
    · rw [hr]
      intro hl
      cases hl
    · rw [hr]
      intro hc
      cases hc
    · exact (h.msgs m hm).mono hl.ext hl.le (.refl _)
    · rw [hmem]
      rfl
    · rw [hmem]
      exact hvotes

theorem handleVote (hfrom : m.from_ ∈ σ.peers) (hne : m.from_ ≠ v) (hT : m.term = (a.mem v).term)
    (hpos : 0 < m.term) (hL : (a.dur m.from_).cand m.term = some L) (hi : m.index = L.length)
    (ht : m.logTerm = termAt Entry.term L L.length) :
    Yields Benign (Reaches σ v d a) (r.handleVote m) := by
  have hpos' : 0 < r.term := by rw [h.term, ← hT]; exact hpos
  rw [Raft.handleVote, h.log.shows.isUpToDate_eq]
  simp [bind, Except.bind, pure, Except.pure]
  split_ifs with hg
  · obtain ⟨hvote, hup⟩ := hg
    obtain ⟨a', h1, h2, h3, h4⟩ := h.granted hs hr hfrom hne (hT ▸ hL)
      (by rw [hi, ht] at hup; exact hup.imp_right fun h => ⟨h.1.symm, h.2⟩) hvote
    exact ⟨a', h1, h2.send nofun hne hpos' (fun _ => h3 ▸ h4) (not_promising hr)⟩
  · exact .refl hs (h.sendReject hne hpos')

end

theorem sendProp (hr : r.state = .follower) (ht : m.type = .prop) (hz : m.term = 0) (to_ : ℕ) :
    NodeOK σ a v d (r.send { m with to_ := to_ }) := by
  have heq : r.send { m with to_ := to_ } =
      { r with msgs := r.msgs ++ [{ m with to_ := to_, from_ := v }] } := by
    simp [Raft.send, ht, h.id]
  rw [heq]
  exact h.push ⟨rfl, .inl ⟨ht, hz⟩⟩ (not_promising hr)

theorem stepFollower (hs : Inv σ.protocol a) (hr : r.state = .follower) (hm : Heard σ a v m) :
    Yields Benign (Reaches σ v d a) (r.stepFollower m) := by
  have hstay : Reaches σ v d a r := .refl hs h
  rcases hm with hm | ⟨ht, hz⟩ | ⟨hfrom, hne, hto, hT, hpos, hsay⟩
  · rw [isLocalMsg] at hm
    rw [Raft.stepFollower]
    cases ht : m.type <;> rw [ht] at hm <;> first | exact hstay | cases hm
  · rw [Raft.stepFollower, ht]
    refine Reaches.refl hs ?_
    split_ifs
    · exact h
    · rw [← ht]
      exact h.sendProp hr ht hz r.lead
  · rw [Raft.stepFollower]
    cases ht : m.type <;> simp only [Says, ht] at hsay ⊢
    case app =>
      exact (h.timers m.from_ 0 r.heartbeatElapsed r.pendingConf).handleAppendEntries hs hr hsay
        hT hne
    case heartbeat =>
      exact (h.timers m.from_ 0 r.heartbeatElapsed r.pendingConf).handleHeartbeat hs hr hsay
        hT hto hne
    case snap =>
      exact (h.timers r.lead 0 r.heartbeatElapsed r.pendingConf).handleSnapshot hs hr hsay
        hT hto hne
    case vote =>
      obtain ⟨L, h1, h2, h3⟩ := hsay
      exact h.handleVote hs hr hfrom hne hT hpos h1 h2 h3
    all_goals exact hstay

end NodeOK

end EtcdCompat
