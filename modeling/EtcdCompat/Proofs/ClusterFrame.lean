import EtcdCompat.Proofs.ClusterSpec

/-!
# What the other nodes' steps leave alone

What a message says stays true when the state of the cluster grows (`MsgOK.mono`), and so does the
relation of a node to its views when another one moves (`Frame`).
-/

namespace EtcdCompat

open Consensus

variable {σ : Replicated} {a a' : State ℕ Entry} {v : ℕ}

section Messages

variable {x x' : View ℕ Entry} {q q' : ℕ → ℕ} {w : Option ℕ} {m : Message}

theorem Settled.mono (h : Ext σ.protocol a a') (hrd : ∀ u, w = some u → (a.rd u).Le (a'.rd u))
    {T c : ℕ} (hc : Settled σ a w T c) : Settled σ a' w T c := by
  rcases hc with hc | ⟨T₀, i, hT, hc, hi⟩
  · exact .inl hc
  · exact .inr ⟨T₀, i, hT, hc.mono h hrd, hi⟩

theorem Settled.le {T c c' : ℕ} (hc : Settled σ a w T c) (hle : c' ≤ c) : Settled σ a w T c' := by
  rcases hc with hc | ⟨T₀, i, hT, hc, hi⟩
  · exact .inl (hle.trans hc)
  · exact .inr ⟨T₀, i, hT, hc, hle.trans hi⟩

section

variable (h : Ext σ.protocol a a')
include h

variable (hrd : ∀ u, w = some u → (a.rd u).Le (a'.rd u))
include hrd

theorem AppOK.mono (hq : ∀ T, a.leader T = some m.from_ → q T ≤ q' T) (hm : AppOK σ a q w m) :
    AppOK σ a' q' w m := by
  have hT : a.leader m.term ≠ none := by simp [hm.leader]
  have htake := h.take_ll hT hm.length
  have hlen := (h.ll m.term (.inl hT)).length_le
  refine ⟨h.leader _ _ hm.leader, hm.reach.trans (hq _ hm.leader), hm.length.trans hlen, ?_, ?_,
    hm.commit.mono h hrd⟩
  · rw [htake]
    exact hm.entries
  · have := hm.length
    rw [Consensus.termAt_prefix (h.ll m.term (.inl hT)) (by omega)]
    exact hm.logTerm

theorem SnapOK.mono (hq : ∀ T, a.leader T = some m.from_ → q T ≤ q' T) (hm : SnapOK σ a q w m) :
    SnapOK σ a' q' w m := by
  have hT : a.leader m.term ≠ none := by simp [hm.leader]
  have hll := h.ll m.term (.inl hT)
  refine ⟨h.leader _ _ hm.leader, hm.pos, hm.reach.trans (hq _ hm.leader),
    hm.length.trans hll.length_le,
    ?_, hm.commit.mono h hrd, hm.nodes, hm.active.trans (h.dur m.to_).term⟩
  rw [Consensus.termAt_prefix hll hm.length]
  exact hm.term

theorem HeartbeatOK.mono (hm : HeartbeatOK σ a w m) : HeartbeatOK σ a' w m :=
  ⟨h.leader _ _ hm.leader, hm.acked.trans ((h.dur m.to_).acked _), hm.commit.mono h hrd⟩

theorem Says.mono (hx : x.Le x') (hq : ∀ T, a.leader T = some m.from_ → q T ≤ q' T)
    (hm : Says σ a x q w m) : Says σ a' x' q' w m := by
  cases ht : m.type <;> simp only [Says, ht] at hm ⊢
  case app => exact hm.mono h hrd hq
  case appResp => exact ⟨hm.1.trans hx.term, fun hr => (hm.2 hr).trans (hx.acked _)⟩
  case vote =>
    obtain ⟨L, h1, h2⟩ := hm
    exact ⟨L, hx.cand _ L h1, h2⟩
  case voteResp => exact fun hr => hx.votes _ _ (hm hr)
  case snap => exact hm.mono h hrd hq
  case heartbeat => exact hm.mono h hrd
  case heartbeatResp => exact hm.trans hx.term

theorem MsgOK.mono (hx : x.Le x') (hq : ∀ T, a.leader T = some m.from_ → q T ≤ q' T)
    (hm : MsgOK σ a x q w m) : MsgOK σ a' x' q' w m := by
  rcases hm with hm | ⟨h1, h2, h3, h4⟩
  · exact .inl hm
  · exact .inr ⟨h1, h2, h3, h4.mono h hrd hx hq⟩

end

theorem Settled.to_none (hw : ∀ u, w = some u → a.dur u = a.rd u) {T c : ℕ}
    (hc : Settled σ a w T c) : Settled σ a none T c := by
  rcases hc with hc | ⟨T₀, i, hT, hc, hi⟩
  · exact .inl hc
  · exact .inr ⟨T₀, i, hT, hc.to_none hw, hi⟩

theorem MsgOK.to_none (hw : ∀ u, w = some u → a.dur u = a.rd u) (hm : MsgOK σ a x q w m) :
    MsgOK σ a x q none m := by
  refine hm.imp_right fun h => ⟨h.1, h.2.1, h.2.2.1, ?_⟩
  have hsay := h.2.2.2
  cases ht : m.type <;> simp only [Says, ht] at hsay ⊢
  case app =>
    exact { hsay with commit := hsay.commit.to_none hw }
  case snap =>
    exact { hsay with commit := hsay.commit.to_none hw }
  case heartbeat => exact ⟨hsay.leader, hsay.acked, hsay.commit.to_none hw⟩
  all_goals exact hsay

variable (h : Ext σ.protocol a a')
include h

theorem bound_mono (hx : x.Le x') {l : ℕ} (T : ℕ) (hT : a.leader T = some l) :
    bound a x T ≤ bound a' x' T := by
  rw [bound, bound, h.base T (by simp [hT])]
  exact max_le_max le_rfl (hx.acked T)

theorem Queued.mono (hmem : (a.mem v).Le (a'.mem v)) (hrd : (a.rd v).Le (a'.rd v))
    (hm : Queued σ a v m) : Queued σ a' v m := by
  refine ⟨hm.1, hm.2.mono h (fun u hu => ?_) hmem (bound_mono h hmem)⟩
  rw [Protocol.counts_eq_some hu]
  exact hrd

theorem Taken.mono (hrd : (a.rd v).Le (a'.rd v)) (hm : Taken σ a v m) : Taken σ a' v m :=
  ⟨hm.1, hm.2.mono h nofun hrd (bound_mono h hrd)⟩

theorem Sent.mono (hm : Sent σ a m) : Sent σ a' m :=
  MsgOK.mono h nofun (h.dur m.from_) (fun _ => h.pub_le) hm

theorem Says.sent_mono (hm : Says σ a (a.dur m.from_) a.pub none m) :
    Says σ a' (a'.dur m.from_) a'.pub none m :=
  hm.mono h nofun (h.dur m.from_) (fun _ => h.pub_le)

end Messages

/-- The views of `u` are the same, and the rest has only grown. -/
structure Frame (σ : Replicated) (u : ℕ) (a a' : State ℕ Entry) : Prop where
  ext : Ext σ.protocol a a'
  mem : a'.mem u = a.mem u
  rd : a'.rd u = a.rd u
  dur : a'.dur u = a.dur u
  role : a'.role u = a.role u

theorem Frame.of_local (h : Local σ.protocol v a a') {u : ℕ} (hu : u ≠ v) : Frame σ u a a' :=
  ⟨h.ext, h.mem u hu, congrFun h.rd u, congrFun h.dur u, h.role u hu⟩

section Nodes

variable {d : Held} {u₀ : Unstable} {islead : Bool} {l : RaftLog} {n : Node}

theorem Kept.congr (h : Kept σ a v d.ms d.stored) (hd : a'.dur v = a.dur v) :
    Kept σ a' v d.ms d.stored :=
  ⟨by rw [hd]; exact h.view, h.store, h.dummy, h.snap⟩

theorem Out.congr (h : Out a v l u₀) (hlog : (a'.mem v).log = (a.mem v).log)
    (hrd : a'.rd v = a.rd v) : Out a' v l u₀ := by
  refine ⟨?_, ?_, ?_⟩
  · rw [hlog, hrd]
    exact h.flying
  · rw [hrd]
    exact h.snap
  · rw [hrd]
    exact h.old

theorem LogFits.congr (h : LogFits σ a v d l) (hlog : (a'.mem v).log = (a.mem v).log)
    (hcommit : (a'.mem v).commit = (a.mem v).commit) (hrd : a'.rd v = a.rd v) :
    LogFits σ a' v d l := by
  refine ⟨h.storage, h.applied, ?_, ?_, ?_, ?_, fun u₀ hu => (h.out u₀ hu).congr hlog hrd⟩
  · rw [hlog]
    exact h.shows
  · rw [hcommit]
    exact h.committed
  · rw [hlog]
    exact h.whole
  · rw [hcommit]
    exact h.snap

theorem PrOK.mono {u : ℕ} {pr : Progress} (h : Ext σ.protocol a a')
    (hlen : (a.mem v).log.length ≤ (a'.mem v).log.length) (hT : (a'.mem v).term = (a.mem v).term)
    (hpr : PrOK a v u pr) : PrOK a' v u pr := by
  refine ⟨hpr.next_pos, ?_, hpr.match_le.trans hlen, hpr.pending_le.trans hlen, fun hu => ?_,
    fun hu hr => ?_⟩
  · have := hpr.next_le
    omega
  · rw [hT]
    exact (hpr.acked hu).trans ((h.dur u).acked _)
  · rw [hT]
    exact (hpr.active hu hr).trans (h.dur u).term

theorem PollOK.mono {votes : List (ℕ × Bool)} (h : Ext σ.protocol a a')
    (hT : (a'.mem v).term = (a.mem v).term) (hp : PollOK σ a v votes) : PollOK σ a' v votes := by
  refine ⟨hp.nodup, fun q hq ht => ?_⟩
  obtain ⟨h1, h2⟩ := hp.granted q hq ht
  refine ⟨h1, fun hne => ?_⟩
  rw [hT]
  exact (h.dur q.1).votes _ _ (h2 hne)

theorem NodeOK.frame {r : Raft} (h : Frame σ v a a') (hr : NodeOK σ a v d r) :
    NodeOK σ a' v d r := by
  have hmem := h.mem
  refine ⟨hr.id, hr.peer, ?_, ?_, ?_, h.role.trans hr.role, hr.kept.congr h.dur,
    hr.applied, hr.log.congr (by rw [hmem]) (by rw [hmem]) h.rd, hr.prs, fun hs q hq => ?_,
      fun hs => ?_,
    fun m hm => ?_, ?_⟩
  · rw [hmem]
    exact hr.term
  · rw [hmem]
    exact hr.vote
  · rw [hmem]
    exact hr.voter
  · exact (hr.leads hs q hq).mono h.ext (by rw [hmem]) (by rw [hmem])
  · exact (hr.polls hs).mono h.ext (by rw [hmem])
  · exact (hr.msgs m hm).mono h.ext (by rw [hmem]; exact .refl _) (by rw [h.rd]; exact .refl _)
  · rw [hmem, h.rd]
    exact hr.plain

theorem FlightOK.congr {f : Flight} (h : Ext σ.protocol a a') (hrd : a'.rd v = a.rd v)
    (hdur : a'.dur v = a.dur v) (hf : FlightOK σ a v n f islead d u₀) :
    FlightOK σ a' v n f islead d u₀ := by
  refine ⟨hf.entries, hf.snapshot, hf.snap, ?_, fun m hm => ?_, hf.plain, ?_, ?_, ?_, ?_, ?_⟩
  · rw [hrd]
    exact hf.last
  · exact (hf.messages m hm).mono h (by rw [hrd]; exact .refl _)
  · rw [hrd]
    exact hf.commits
  · rw [hrd]
    exact hf.shows
  · rw [hrd]
    exact hf.whole
  · rw [hrd]
    exact hf.hard
  · rw [hrd, hdur]
    exact hf.saved

theorem DriverOK.congr {fl : Option Flight} (h : Ext σ.protocol a a') (hrd : a'.rd v = a.rd v)
    (hdur : a'.dur v = a.dur v) (hn : DriverOK σ a v n fl islead d) (r : Raft) :
    DriverOK σ a' v { n with raft := r } fl islead d := by
  refine ⟨hn.advancec, hn.soft, ?_, ?_, ?_, fun f hf => ?_⟩
  · rw [hrd]
    exact hn.hard
  · rw [hrd]
    exact hn.snapi
  · rw [hrd, hdur]
    exact hn.idle
  · obtain ⟨u₀, h1, h2⟩ := hn.flight f hf
    have h3 := h2.congr h hrd hdur
    exact ⟨u₀, h1, { h3 with }⟩

theorem MemberOK.frame {mb : Member} (h : Frame σ v a a') (hm : MemberOK σ a v mb) :
    MemberOK σ a' v mb := by
  cases mb with
  | down ms why =>
    have hd : DownOK σ a v ms why := hm
    obtain ⟨stored, hk⟩ := hd.kept
    refine ⟨?_, ?_, h.role.trans hd.role, ?_, ⟨stored, ⟨?_, hk.store, hk.dummy, hk.snap⟩⟩, hd.why⟩
    · rw [h.mem, h.dur]
      exact hd.mem
    · rw [h.rd, h.dur]
      exact hd.rd
    · rw [h.mem]
      exact hd.voter
    · rw [h.dur]
      exact hk.view
  | up n fl islead =>
    obtain ⟨d, h1, h2⟩ := hm
    exact ⟨d, h1.frame h, h2.congr h.ext h.rd h.dur n.raft⟩

end Nodes

end EtcdCompat
