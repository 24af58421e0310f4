import EtcdCompat.Proofs.NodeLeader

/-!
# Elections, and any step of a node

A candidate stands with its log and is elected by the stored votes of a quorum; the messages it has
queued since it asked for them promise nothing. With the handlers of the three roles, every message
a node may get and every tick keeps it fit to its views.
-/

namespace EtcdCompat

open List Raft

open Consensus

variable {σ : Replicated} {a a' : State ℕ Entry} {v : ℕ} {d : Held} {r : Raft} {m : Message}

namespace NodeOK

section

variable (h : NodeOK σ a v d r) {u : ℕ}
include h

theorem becomeCandidate (hs : Inv σ.protocol a) :
    Yields Benign (fun r' => ∃ a', Local σ.protocol v a a' ∧ NodeOK σ a' v d r' ∧
      r'.state = .candidate ∧ r'.votes = [] ∧ (a'.rd v).cand (a'.mem v).term = none)
      r.becomeCandidate := by
  rw [Raft.becomeCandidate]
  split_ifs with hr
  · exact not_false
  · have hrole : a.role v ≠ .leader := by
      rw [h.role]
      cases hst : r.state
      · nofun
      · nofun
      · exact absurd hst hr
    have hl := (MemStep.campaign (p := σ.protocol) hrole).local hs
    have hmem : (a.withMem v ((a.mem v).campaign v) .candidate).mem v = (a.mem v).campaign v :=
      State.withMem_mem_self ..
    have hnone : (a.rd v).cand ((a.mem v).term + 1) = none := by
      cases hc : (a.rd v).cand ((a.mem v).term + 1) with
      | none => rfl
      | some L =>
        have h1 := (hs.rd v).votesLe _ _ ((hs.rd v).cand _ L hc).1
        have h2 := (hs.rdLe v).term
        omega
    refine ⟨_, hl, ⟨h.id, h.peer, ?_, ?_, ?_, State.withMem_role_self .., h.kept.congr rfl,
      h.applied, h.log.congr (by rw [hmem]; rfl) (by rw [hmem]; rfl) rfl, ?_, nofun,
      fun _ => ⟨nodup_nil, nofun⟩, fun m hm => ?_, fun hp => ?_⟩, rfl, rfl, ?_⟩
    · rw [hmem]
      exact congrArg (· + 1) h.term
    · rw [hmem, View.campaign]
      simp
      exact h.id
    · rw [hmem]
      intro T c hc
      simp only [View.campaign, Function.update_apply] at hc
      split_ifs at hc
      · exact Option.some.inj hc ▸ h.peer
      · exact h.voter T c hc
    · rw [Raft.reset, map_map]
      exact h.prs
    · exact (h.msgs m hm).mono hl.ext hl.le (.refl _)
    · rcases hp with hp | ⟨_, hp⟩
      · cases hp
      · rw [hmem] at hp
        exact absurd hnone hp
    · rw [hmem]
      exact hnone

theorem poll {b : Bool}
    (hg : r.state = .candidate → b = true → u ∈ σ.peers ∧
      (u ≠ v → (a.dur u).votes (a.mem v).term = some v)) : NodeOK σ a v d (r.poll u b).2 := by
  refine { h with polls := fun hs => ?_ }
  have hp := h.polls hs
  rw [Raft.poll]
  split_ifs with hsome
  · exact hp
  · refine ⟨?_, fun q hq ht => ?_⟩
    · rw [map_append, nodup_append]
      refine ⟨hp.nodup, nodup_singleton _, fun x hx y hy => ?_⟩
      rw [mem_singleton.1 hy]
      rintro rfl
      obtain ⟨q, hq, rfl⟩ := mem_map.1 hx
      exact hsome (lookup_isSome_iff.2 ⟨q, hq, beq_self_eq_true _⟩)
    · rcases mem_append.1 hq with hq | hq
      · exact hp.granted q hq ht
      · rw [mem_singleton.1 hq] at ht ⊢
        exact hg hs ht

variable (hs : Inv σ.protocol a)
include hs

theorem sendVote (hr : r.state = .candidate) (hnone : (a.rd v).cand (a.mem v).term = none)
    (hu : u ≠ v) :
    Yields Benign (fun r' => NodeOK σ a v d r' ∧ r'.state = .candidate) (r.sendVote u) := by
  have hcand := (hs.stands v (by rw [h.role, hr]; rfl)).2
  rw [Raft.sendVote, h.log.shows.lastTerm_eq]
  refine ⟨h.send nofun hu ?_ ⟨_, hcand, h.lastIndex_eq, rfl⟩ fun hp => ?_, hr⟩
  · rw [h.term]
    exact Nat.zero_lt_of_lt ((hs.mem v).cand _ _ hcand).2.1
  · rcases hp with hp | ⟨_, hp⟩
    · rw [hr] at hp
      cases hp
    · exact absurd hnone hp

theorem campaign : Yields Benign (Reaches σ v d a) r.campaign := by
  rw [Raft.campaign]
  refine (h.becomeCandidate hs).bind fun r₁ hr₁ => ?_
  obtain ⟨a', hl, hok, hst, hvotes, hnone⟩ := hr₁
  have hpoll : NodeOK σ a' v d (r₁.poll r₁.id true).2 := by
    refine hok.poll fun _ _ => ?_
    rw [hok.id]
    exact ⟨h.peer, fun hne => absurd rfl hne⟩
  have hquorum : (r₁.poll r₁.id true).2.quorum ≠ (r₁.poll r₁.id true).1 := by
    have h1 : (r₁.poll r₁.id true).1 = 1 := by
      rw [Raft.poll, hvotes]
      rfl
    have := hpoll.quorum_eq
    have := σ.two
    omega
  simp only []
  rw [if_neg hquorum]
  have hsent : Yields Benign (fun r' => NodeOK σ a' v d r' ∧ r'.state = .candidate)
      ((r₁.poll r₁.id true).2.others.foldlM Raft.sendVote (r₁.poll r₁.id true).2) := by
    refine Yields.foldlM (fun u hu r' hr' => ?_) ⟨hpoll, hst⟩
    exact hr'.1.sendVote hl.inv hr'.2 hnone (hpoll.others_mem hu).2
  exact hsent.mono fun r' hr' => ⟨a', hl, hr'.1⟩

theorem elected (hr : r.state = .candidate) (hq : r.quorum = (r.votes.filter (·.2)).length) :
    ∃ a', Local σ.protocol v a a' ∧
      NodeOK σ a' v d { r.reset r.term with lead := r.id, state := .leader } := by
  have hpoll := h.polls hr
  have hrole : a.role v = .candidate := by rw [h.role, hr]; rfl
  set l := r.votes.filter (·.2)
  have hsub : l.Sublist r.votes := filter_sublist
  have hgranted : ∀ q ∈ l, q.1 ∈ σ.peers ∧
      (q.1 ≠ v → (a.dur q.1).votes (a.mem v).term = some v) := fun q hq =>
    hpoll.granted q (hsub.subset hq) (mem_filter.1 hq).2
  have hA := Replicated.quorum_of_keys (hpoll.nodup.sublist (hsub.map _))
    (fun q hq => (hgranted q hq).1) (by rw [← hq, h.quorum_eq])
  have hvotes : ∀ u ∈ (l.map Prod.fst).toFinset, u ≠ v →
      (a.dur u).votes (a.mem v).term = some v := by
    intro u hu hne
    obtain ⟨q, hq, rfl⟩ := mem_map.1 (mem_toFinset.1 hu)
    exact (hgranted q hq).2 hne
  -- another node voted for what the candidate had stored
  have hcand : (a.rd v).cand (a.mem v).term ≠ none := by
    obtain ⟨u, hu, hne⟩ := σ.protocol.other v hA
    obtain ⟨L, hL, _⟩ := (hs.dur u).vote _ v (hvotes u hu hne)
    rw [if_neg (fun h => hne h.symm)] at hL
    rw [(hs.durLe v).cand _ L hL]
    exact Option.some_ne_none L
  have hl := (MemStep.elect (p := σ.protocol) _ hrole hA hvotes).local hs
  refine ⟨_, hl, ⟨h.id, h.peer, h.term, ?_, h.voter, Function.update_self .., h.kept.congr rfl,
    h.applied, h.log.congr rfl rfl rfl, ?_, fun _ q hq => ?_, (fun hc => by cases hc),
      fun m hm => ?_,
    fun _ => h.plain (.inr ⟨hr, hcand⟩)⟩⟩
  · simp [reset]
    exact h.vote
  · rw [reset, map_map]
    exact h.prs
  · obtain ⟨q', _, rfl⟩ := mem_map.1 hq
    have hlast := h.lastIndex_eq
    refine ⟨Nat.le_add_left .., (congrArg (· + 1) hlast).le, ?_, Nat.zero_le _, fun hne => ?_,
      (fun _ hact => by cases hact)⟩
    · simp only [resetProgress]
      split_ifs
      · exact hlast.le
      · exact Nat.zero_le _
    · simp only [resetProgress]
      rw [if_neg (fun heq => hne (heq.trans h.id))]
      exact Nat.zero_le _
  · exact (h.msgs m hm).mono hl.ext hl.le (.refl _)

end

theorem pendingConfOf_benign : ∀ (b : Bool) (es : List Entry),
    Yields Benign (fun _ => True) (pendingConfOf b es)
  | _, [] => trivial
  | b, e :: es => by
    rw [pendingConfOf]
    split_ifs
    · exact pendingConfOf_benign b es
    · exact not_false
    · exact pendingConfOf_benign true es

variable (h : NodeOK σ a v d r)
include h

variable (hs : Inv σ.protocol a)
include hs

section

variable (hr : r.state = .candidate)
include hr

theorem becomeLeader (hq : r.quorum = (r.votes.filter (·.2)).length) :
    Yields Benign (Leads σ v d a) r.becomeLeader := by
  obtain ⟨a', hl, hok⟩ := h.elected hs hr hq
  have happend : ∀ b, Yields Benign (Leads σ v d a) (Raft.appendEntry
      { r.reset r.term with lead := r.id, state := .leader, pendingConf := b }
      [{ data := none }]) := fun b =>
    ((hok.timers r.id 0 0 b).appendEntry hl.inv rfl (cons_ne_nil _ _)).mono
      fun _ hq => hq.trans hl
  rw [Raft.becomeLeader, if_neg (by rw [hr]; nofun)]
  simp only []
  rcases hok.log.shows.entries_cases (r.raftLog.committed + 1) noLimit with
    ⟨_, he⟩ | ⟨_, he⟩ | ⟨_, _, es, he, _⟩
  · rw [show (r.reset r.term).raftLog = r.raftLog from rfl] at he ⊢
    rw [he]
    exact happend false
  · rw [show (r.reset r.term).raftLog = r.raftLog from rfl] at he ⊢
    rw [he]
    exact not_false
  · rw [show (r.reset r.term).raftLog = r.raftLog from rfl] at he ⊢
    rw [he]
    exact (pendingConfOf_benign _ es).bind fun b _ => happend b

theorem handleVoteResp (hfrom : m.from_ ∈ σ.peers)
    (hg : m.reject = false → (a.dur m.from_).votes (a.mem v).term = some v) :
    Yields Benign (Reaches σ v d a) (r.handleVoteResp m) := by
  have hpoll : NodeOK σ a v d (r.poll m.from_ (!m.reject)).2 := by
    refine h.poll fun _ hrej => ⟨hfrom, fun _ => hg ?_⟩
    simpa using hrej
  rw [Raft.handleVoteResp]
  simp only []
  split_ifs with hq
  · exact ((hpoll.becomeLeader hs hr hq).bind fun _ hl => hl.bcastAppend).mono
      fun _ hl => hl.reaches
  · obtain ⟨a', h1, h2, _⟩ := hpoll.becomeFollower hs none_ le_rfl
    exact ⟨a', h1, h2⟩
  · exact .refl hs hpoll

theorem stepCandidate (hm : Heard σ a v m) :
    Yields Benign (Reaches σ v d a) (r.stepCandidate m) := by
  have hstay : Reaches σ v d a r := .refl hs h
  rcases hm with hm | ⟨ht, _⟩ | ⟨hfrom, hne, hto, hT, hpos, hsay⟩
  · rw [isLocalMsg] at hm
    rw [Raft.stepCandidate]
    cases ht : m.type <;> rw [ht] at hm <;> first | exact hstay | cases hm
  · rw [Raft.stepCandidate, ht]
    exact hstay
  · obtain ⟨a', h1, h2, h3⟩ := h.becomeFollower hs m.from_ (show r.term ≤ m.term by
      rw [h.term, hT])
    have hterm : m.term = r.term := by rw [h.term, hT]
    have hsay' := hsay.sent_mono h1.ext
    rw [hterm] at h2
    rw [Raft.stepCandidate]
    cases ht : m.type <;> simp only [Says, ht] at hsay hsay' ⊢
    case app =>
      exact (h2.handleAppendEntries h1.inv rfl hsay' h3.symm hne).mono fun _ hq => hq.trans h1
    case heartbeat =>
      exact (h2.handleHeartbeat h1.inv rfl hsay' h3.symm hto hne).mono fun _ hq => hq.trans h1
    case snap =>
      rw [hterm]
      exact (h2.handleSnapshot h1.inv rfl hsay' h3.symm hto hne).mono fun _ hq => hq.trans h1
    case vote => exact .refl hs (h.sendReject hne (hterm ▸ hpos))
    case voteResp =>
      refine h.handleVoteResp hs hr hfrom fun hrej => ?_
      rw [← hT, hsay hrej, hto]
    all_goals exact hstay

end

theorem stepFunc (hm : Heard σ a v m) : Yields Benign (Reaches σ v d a) (r.stepFunc m) := by
  rw [Raft.stepFunc]
  split
  · exact h.stepFollower hs ‹_› hm
  · exact h.stepCandidate hs ‹_› hm
  · exact h.stepLeader hs ‹_› hm

theorem step (hm : Cluster.isInput m = true ∨ Sent σ a m ∧ m.to_ = v) :
    Yields Benign (Reaches σ v d a) (r.step m) := by
  rw [Raft.step]
  by_cases hhup : m.type = .hup
  · rw [if_pos hhup]
    split_ifs
    · exact h.campaign hs
    · exact .refl hs h
  rw [if_neg hhup]
  by_cases hzero : m.term = 0
  · rw [if_pos hzero]
    refine h.stepFunc hs ?_
    rcases hm with hm | ⟨hm | ⟨_, _, hpos, _⟩, _⟩
    · rw [Cluster.isInput, Bool.and_eq_true, Bool.or_eq_true, beq_iff_eq] at hm
      exact hm.2.imp_right fun ht => .inl ⟨ht, hzero⟩
    · exact .inr (.inl hm)
    · omega
  rw [if_neg hzero]
  obtain ⟨hsent, hto⟩ : Sent σ a m ∧ m.to_ = v := by
    refine hm.resolve_left fun hm => ?_
    rw [Cluster.isInput, Bool.and_eq_true, decide_eq_true_eq] at hm
    exact hzero hm.1
  obtain ⟨hfrom, hne, hpos, hsay⟩ := hsent.resolve_left fun hm => hzero hm.2
  have hne' : m.from_ ≠ v := fun h => hne (hto.trans h.symm)
  rcases lt_trichotomy m.term r.term with hlt | heq | hgt
  · rw [if_neg (by omega), if_pos hlt]
    exact .refl hs h
  · rw [if_neg (by omega), if_neg (by omega)]
    exact h.stepFunc hs (.inr (.inr ⟨hfrom, hne', hto, heq.trans h.term, hpos, hsay⟩))
  · rw [if_pos hgt]
    obtain ⟨a', h1, h2, h3⟩ := h.becomeFollower hs
      (if m.type = .vote then none_ else m.from_) hgt.le
    exact (h2.stepFunc h1.inv (.inr (.inr ⟨hfrom, hne', hto, h3.symm, hpos,
      hsay.sent_mono h1.ext⟩))).mono fun _ hq => hq.trans h1

theorem tick (rand : ℕ) : Yields Benign (Reaches σ v d a) (r.tick rand) := by
  have helection : Yields Benign (Reaches σ v d a) (r.tickElection rand) := by
    rw [Raft.tickElection]
    dsimp only
    split_ifs
    · exact .refl hs (h.timers r.lead 0 r.heartbeatElapsed r.pendingConf)
    · exact (h.timers r.lead 0 r.heartbeatElapsed r.pendingConf).step hs (.inl (by rfl))
    · exact .refl hs (h.timers r.lead _ r.heartbeatElapsed r.pendingConf)
  have hquorum : ∀ {r'}, NodeOK σ a v d r' → Yields Benign (Reaches σ v d a) r'.tickQuorum := by
    intro r' h'
    rw [Raft.tickQuorum]
    dsimp only
    split_ifs
    · exact (h'.timers r'.lead 0 r'.heartbeatElapsed r'.pendingConf).step hs (.inl (by rfl))
    · exact .refl hs (h'.timers r'.lead 0 r'.heartbeatElapsed r'.pendingConf)
    · exact .refl hs h'
  rw [Raft.tick]
  split
  · rw [Raft.tickHeartbeat]
    refine Reaches.bind (hquorum (h.timers r.lead _ _ r.pendingConf)) fun a' r' hl hr' => ?_
    split_ifs
    · exact .refl hl.inv hr'
    · exact (hr'.timers r'.lead r'.electionElapsed 0 r'.pendingConf).step hl.inv (.inl (by rfl))
    · exact .refl hl.inv hr'
  · exact helection

end NodeOK

end EtcdCompat
