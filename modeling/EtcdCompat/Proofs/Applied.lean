import EtcdCompat.Proofs.RaftSafety

/-!
# What a `Ready` hands out to be applied

A leader that sends before it stores may commit in memory what a crash takes back. What a `Ready`
hands out is safe under either driver: by then the `Ready` before it is stored, so a quorum has
written the entries, every later leader has them, and no node is ever given others.
-/

namespace EtcdCompat

open List Option
open Consensus (State Ext)

/-- The entries a driver has been given to apply. -/
def Cluster.handed : Member → List Entry
  | .up _ (some fl) _ => fl.rd.committedEntries
  | _ => []

open Cluster (run handed)

/-- The leader is given its first entry. -/
def handing : List Cluster.Event := elected ++ acked ++ [.ready 1]

theorem noop_handed : noop ∈ handed ((run trio handing).member 1) := by decide +kernel

theorem handing_leads : ∃ r, (run trio handing).Up 1 r ∧ r.state = .leader ∧ r.term = 1 ∧
    r.raftLog.firstIndex = 1 ∧ (∃ pr, (2, pr) ∈ r.prs ∧ pr.match_ = 1) ∧
    r.raftLog.Holds 1 noop := by
  obtain ⟨r, hr, h⟩ := map_eq_some_iff.1 (show
    ((run trio handing).member 1).raft?.map (fun r => (r.state, r.term, r.raftLog.firstIndex,
      (r.prs.find? (·.1 = 2)).map fun q => (q.1, q.2.match_))) = some (.leader, 1, 1, some (2, 1))
    by decide +kernel)
  simp at h
  obtain ⟨hlead, hterm, hfirst, pr, hpr, hmatch⟩ := h
  have hslice : ((run trio handing).member 1).raft?.map (fun r => r.raftLog.slice 1 2 noLimit) =
      some (.ok (.ok [noop])) := by decide +kernel
  rw [hr] at hslice
  exact ⟨r, hr, hlead, hterm, hfirst, ⟨pr, mem_of_find?_eq_some hpr, hmatch⟩,
    some.inj hslice⟩

def three : Replicated := ⟨trio, by decide⟩

variable {σ : Replicated} {c : Cluster} {a : State ℕ Entry} {evs evs' : List Cluster.Event}
  {v w u i : ℕ} {e e' : Entry} {r r' : Raft} {m m' : Message}

section Views

variable (σ evs evs') in
/-- The states of the protocol at a time and at a later one. -/
theorem run_later : ∃ a a', Sim σ (run σ.toSetup evs) a ∧
    Sim σ (run σ.toSetup (evs ++ evs')) a' ∧ Ext σ.protocol a a' := by
  obtain ⟨a, -, h⟩ := (Sim.init (σ := σ)).foldl evs
  obtain ⟨a', hrun, h'⟩ := h.foldl evs'
  rw [← foldl_append] at h'
  exact ⟨a, a', h, h', hrun.ext h.inv⟩

variable (h : Sim σ c a)
include h

/-- The entry at its place in the view that is about to be stored. -/
theorem Sim.of_handed (he : e ∈ handed (c.member v)) :
    e.index ≤ (a.rd v).commit ∧ 0 < e.index ∧ (a.rd v).log[e.index - 1]? = some e := by
  have hmb := h.member v
  rcases hv : c.member v with _ | ⟨n, _ | fl, islead⟩ <;> rw [hv] at he hmb
  · cases he
  · cases he
  obtain ⟨d, -, hd⟩ := hmb
  obtain ⟨u₀, -, hf⟩ := hd.flight _ rfl
  obtain ⟨j, hj, hlog⟩ := hf.commits e he
  have hindex : e.index = j + 1 := (h.inv.rd v).log.placed j e hlog
  refine ⟨by omega, by omega, ?_⟩
  rw [hindex]
  exact hlog

theorem Sim.kept (u : ℕ) : ∃ stored, Kept σ a u (c.member u).storage stored := by
  have hmb := h.member u
  rcases hu : c.member u with _ | ⟨n, fl, islead⟩ <;> rw [hu] at hmb
  · exact hmb.kept
  · obtain ⟨d, hn, -⟩ := hmb
    rw [show (Member.up n fl islead).storage = d.ms from hn.log.storage]
    exact ⟨d.stored, hn.kept⟩

/-- The log of a leader is the log of its term. -/
theorem Sim.leads (hv : c.Up v r) (hlead : r.state = .leader) : a.leader r.term = some v ∧
    ∃ stored, Shows r.raftLog (a.ll r.term) stored := by
  obtain ⟨d, hn⟩ := h.up hv
  obtain ⟨hl, hll, -⟩ := h.inv.leads v (by rw [hn.role, hlead]; rfl)
  rw [hn.term, hll]
  exact ⟨hl, d.stored, hn.log.shows⟩

/-- What a message in the network says. -/
theorem Sim.sent (hm : m ∈ c.net) (hne : m.type ≠ .prop) :
    m.to_ ≠ m.from_ ∧ Says σ a (a.dur m.from_) a.pub none m := by
  obtain ⟨-, hto, -, hsays⟩ := (h.net m hm).resolve_left fun hp => hne hp.1
  exact ⟨hto, hsays⟩

end Views

section Handed

variable (he : e ∈ handed ((run σ.toSetup evs).member v))
include he

/-- An entry is in the logs on disk of a quorum before it is handed out. -/
theorem applied_written (hboot : σ.boot.length < e.index) : ∃ A ⊆ σ.peers.toFinset,
    σ.peers.length / 2 + 1 ≤ A.card ∧ ∀ u ∈ A, e ∈ (run σ.toSetup evs).wal u := by
  obtain ⟨a, h⟩ := Sim.run σ evs
  obtain ⟨hcommit, hpos, hlog⟩ := h.of_handed he
  obtain ⟨A, ⟨hA, hcard⟩, hwal⟩ := h.written (h.inv.knownRd v)
    (show σ.boot.length ≤ e.index - 1 by omega) (by omega) hlog
  exact ⟨A, hA, hcard, hwal⟩

omit he in
theorem applied_written_trio : ∃ A ⊆ trio.peers.toFinset, 2 ≤ A.card ∧
    ∀ u ∈ A, noop ∈ (run trio handing).wal u :=
  applied_written (σ := three) noop_handed (by decide)

/-- Two nodes, or one at two times, are given one entry for one index. -/
theorem applied_agree (he' : e' ∈ handed ((run σ.toSetup (evs ++ evs')).member w))
    (hindex : e.index = e'.index) : e = e' := by
  obtain ⟨a, a', h, h', hext⟩ := run_later σ evs evs'
  obtain ⟨hcommit, hpos, hlog⟩ := h.of_handed he
  obtain ⟨hcommit', -, hlog'⟩ := h'.of_handed he'
  have hknown := (h.inv.knownRd v).mono h.inv hext fun u hu => by cases hu
  have htake := hknown.agree h'.inv (h'.inv.knownRd w) (h.inv.rd v).log.boot
    (h'.inv.rd w).log.boot hcommit (hindex ▸ hcommit')
  rw [← hindex, ← getElem?_take_of_lt (show e.index - 1 < e.index by omega), ← htake,
    getElem?_take_of_lt (by omega), hlog] at hlog'
  exact some.inj hlog'

omit he in
theorem applied_agree_trio : ∃ e, e ∈ handed ((run trio handing).member 1) ∧
    noop ∈ handed ((run trio (handing ++ (learned.tail ++ [.ready 2]))).member 2) ∧ e = noop := by
  have he' : noop ∈ handed ((run trio (handing ++ (learned.tail ++ [.ready 2]))).member 2) := by
    decide +kernel
  exact ⟨noop, noop_handed, he', applied_agree (σ := three) noop_handed he' rfl⟩

/-- A leader of that term or a later one has the entry, as long as it has not compacted it. -/
theorem applied_kept (hv : (run σ.toSetup evs).Up v r)
    (hw : (run σ.toSetup (evs ++ evs')).Up w r') (hlead : r'.state = .leader)
    (hterm : r.term ≤ r'.term) (hfirst : r'.raftLog.firstIndex ≤ e.index) :
    r'.raftLog.Holds e.index e := by
  obtain ⟨a, a', h, h', hext⟩ := run_later σ evs evs'
  obtain ⟨hcommit, hpos, hlog⟩ := h.of_handed he
  obtain ⟨d, hn⟩ := h.up hv
  obtain ⟨hl, stored, hshows⟩ := h'.leads hw hlead
  have hterm' : (a.rd v).term ≤ r'.term := (h.inv.rdLe v).term.trans (hn.term ▸ hterm)
  have hknown := (h.inv.knownRd v).mono h.inv hext fun u hu => by cases hu
  have hpub := (hknown.commit_le_pub h'.inv hl hterm').trans (h'.inv.pub _ w hl).ll
  have hholds := hknown.holds h'.inv (h.inv.rd v).log.boot (by simp [hl]) hterm'
  rw [Shows.firstIndex_eq] at hfirst
  refine hshows.holds_iff.2 ⟨hfirst, ?_⟩
  -- the leader's log reaches the entry, and is the handed out one up to it
  have hget := getElem?_eq_getElem (show e.index - 1 < (a'.ll r'.term).length by omega)
  have htake : ((a'.ll r'.term).take (a.rd v).commit)[e.index - 1]? = _ :=
    (getElem?_take_of_lt (by omega)).trans hget
  rw [hget, ← hholds.getElem?_some htake, hlog]

omit he in
theorem applied_kept_trio : ∃ r, (run trio handing).Up 1 r ∧ r.raftLog.Holds 1 noop := by
  obtain ⟨r, hr, hlead, -, hfirst, -⟩ := handing_leads
  exact ⟨r, hr, applied_kept (σ := three) noop_handed hr (by rwa [append_nil]) hlead le_rfl
    hfirst.le⟩

end Handed

/-- No crash takes back a term, a vote or a commit index that was stored. -/
theorem stored_resumed {hs : HardState}
    (hhs : ((run σ.toSetup evs).member v).storage.hardState = hs)
    (hv : (run σ.toSetup (evs ++ evs')).Up v r) :
    hs.term ≤ r.term ∧ hs.commit ≤ r.raftLog.committed ∧
      (hs.term = r.term → hs.vote ≠ none_ → r.vote = hs.vote) := by
  obtain ⟨a, a', h, h', hext⟩ := run_later σ evs evs'
  obtain ⟨d, hn⟩ := h'.up hv
  obtain ⟨stored, hkept⟩ := h.kept v
  have hle := ((hext.dur v).trans (h'.inv.durLe v)).trans (h'.inv.rdLe v)
  rw [hn.term, hn.log.committed, hn.vote]
  rcases hkept.view with ⟨-, hhard⟩ | ⟨hms, -⟩
  · rw [← hhs, hhard]
    refine ⟨hle.term, hle.commit, fun hterm hvote => ?_⟩
    rcases hc : (a.dur v).votes (a.dur v).term with _ | u
    · simp [hsOf, hc] at hvote
    · rw [← hterm, hsOf, hle.votes _ u hc, hc]
  · rw [← hhs, hms]
    exact ⟨Nat.zero_le _, Nat.zero_le _, fun _ hvote => absurd rfl hvote⟩

theorem stored_resumed_trio : ∃ r, (run trio (elected ++ [.crash 2, .start 2 0])).Up 2 r ∧
    r.vote = 1 := by
  have hhs : ((run trio elected).member 2).storage.hardState = { term := 1, vote := 1 } := by
    decide +kernel
  obtain ⟨r, hr, hterm⟩ := map_eq_some_iff.1 (show
    ((run trio (elected ++ [.crash 2, .start 2 0])).member 2).raft?.map Raft.term = some 1 by
      decide +kernel)
  exact ⟨r, hr, (stored_resumed (σ := three) hhs hr).2.2 hterm.symm (by decide)⟩

/-- A term has one leader at all times, which takes back nothing that is in its log. -/
theorem leader_keeps (hv : (run σ.toSetup evs).Up v r)
    (hw : (run σ.toSetup (evs ++ evs')).Up w r') (hlead : r.state = .leader)
    (hlead' : r'.state = .leader) (hterm : r.term = r'.term) :
    v = w ∧ ∀ i e, r.raftLog.Holds i e → r'.raftLog.firstIndex ≤ i → r'.raftLog.Holds i e := by
  obtain ⟨a, a', h, h', hext⟩ := run_later σ evs evs'
  obtain ⟨hl, stored, hshows⟩ := h.leads hv hlead
  obtain ⟨hl', stored', hshows'⟩ := h'.leads hw hlead'
  have hll := hext.ll r.term (.inl (by simp [hl]))
  rw [← hterm] at hl' hshows'
  refine ⟨some.inj ((hext.leader _ _ hl).symm.trans hl'), fun i e he hfirst => ?_⟩
  rw [Shows.firstIndex_eq] at hfirst
  exact hshows'.holds_iff.2 ⟨hfirst, hll.getElem?_some (hshows.holds_iff.1 he).2⟩

theorem leader_keeps_trio : ∃ r, (run trio handing).Up 1 r ∧ r.raftLog.Holds 1 noop := by
  obtain ⟨r, hr, hlead, -, hfirst, -, he⟩ := handing_leads
  exact ⟨r, hr, (leader_keeps (σ := three) hr (by rwa [append_nil]) hlead hlead rfl).2 1 noop he
    hfirst.le⟩

section Sent

variable (hm : m ∈ (run σ.toSetup evs).net) (hm' : m' ∈ (run σ.toSetup evs).net)
include hm hm'

/-- A node that has given its vote in a term, before a crash or after it, gives no other node one
and has not asked for votes itself. -/
theorem votes_once (hfrom : m'.from_ = m.from_) (hterm : m'.term = m.term)
    (htype : m.type = .voteResp) (hgrant : m.reject = false) :
    (m'.type = .voteResp → m'.reject = false → m'.to_ = m.to_) ∧ m'.type ≠ .vote := by
  obtain ⟨a, h⟩ := Sim.run σ evs
  obtain ⟨hto, hsays⟩ := h.sent hm (by simp [htype])
  simp only [Says, htype] at hsays
  have hvote := hsays hgrant
  refine ⟨fun htype' hgrant' => ?_, fun htype' => ?_⟩
  · obtain ⟨-, hsays'⟩ := h.sent hm' (by simp [htype'])
    simp only [Says, htype'] at hsays'
    have hvote' := hsays' hgrant'
    rw [hfrom, hterm, hvote] at hvote'
    exact (some.inj hvote').symm
  · obtain ⟨-, hsays'⟩ := h.sent hm' (by simp [htype'])
    simp only [Says, htype'] at hsays'
    obtain ⟨L, hL, -⟩ := hsays'
    rw [hfrom, hterm] at hL
    have hself := ((h.inv.dur _).cand _ L hL).1
    rw [hvote] at hself
    exact hto (some.inj hself)

omit hm hm' in
theorem votes_once_trio : ∃ m ∈ (run trio elected).net, m.type = .voteResp ∧ m.type ≠ .vote := by
  have hm : { type := .voteResp, to_ := 1, from_ := 2, term := 1 } ∈ (run trio elected).net := by
    decide +kernel
  exact ⟨_, hm, rfl, (votes_once (σ := three) hm hm rfl rfl rfl rfl).2⟩

/-- All the append messages ever sent in a term are from one node, and have the same entry at an
index. -/
theorem appends_agree (htype : m.type = .app) (htype' : m'.type = .app) (hterm : m'.term = m.term) :
    m'.from_ = m.from_ ∧ ∀ (j j' : ℕ) e e', m.index + j = m'.index + j' →
      m.entries[j]? = some e → m'.entries[j']? = some e' → e = e' := by
  obtain ⟨a, h⟩ := Sim.run σ evs
  have hsays := (h.sent hm (by simp [htype])).2
  have hsays' := (h.sent hm' (by simp [htype'])).2
  simp only [Says, htype] at hsays
  simp only [Says, htype'] at hsays'
  have hget : ∀ {m : Message} {j : ℕ} {e : Entry}, AppOK σ a a.pub none m →
      m.entries[j]? = some e → (a.ll m.term)[m.index + j]? = some e := by
    intro m j e h he
    rw [h.entries, getElem?_drop, getElem?_take] at he
    split_ifs at he
    exact he
  refine ⟨?_, fun j j' e e' hj he he' => ?_⟩
  · have hleader := hsays'.leader
    rw [hterm, hsays.leader] at hleader
    exact (some.inj hleader).symm
  · have he' := hget hsays' he'
    rw [hterm, ← hj, hget hsays he] at he'
    exact some.inj he'

omit hm hm' in
theorem appends_agree_trio : ∃ m ∈ (run trio elected).net, m.from_ = 1 ∧
    ∀ e, m.entries[0]? = some e → e = noop := by
  have hm : { type := .app, to_ := 2, from_ := 1, term := 1, entries := [noop] } ∈
      (run trio elected).net := by decide +kernel
  exact ⟨_, hm, rfl, fun e he =>
    (appends_agree (σ := three) hm hm rfl rfl rfl).2 0 0 e noop rfl he rfl⟩

end Sent

/-- What a leader counts as replicated on another node of its term that node has on disk, as long
as it has not compacted it. -/
theorem match_stored {pr : Progress} {ms : MemoryStorage} (hv : (run σ.toSetup evs).Up v r)
    (hlead : r.state = .leader) (hpr : (u, pr) ∈ r.prs) (hne : u ≠ v) (hi : i ≤ pr.match_)
    (he : r.raftLog.Holds i e) (hms : ((run σ.toSetup evs).member u).storage = ms)
    (hterm : ms.hardState.term = r.term) (hdummy : ms.ents0.index < i) :
    ms.ents[i - ms.ents0.index - 1]? = some e := by
  obtain ⟨a, h⟩ := Sim.run σ evs
  obtain ⟨d, hn⟩ := h.up hv
  obtain ⟨hl, stored, hshows⟩ := h.leads hv hlead
  obtain ⟨stored, hkept⟩ := h.kept u
  rw [hms] at hkept
  rcases hkept.view with ⟨rfl, hhard⟩ | ⟨rfl, -⟩
  · have hdur : (a.dur u).term = r.term := by
      rw [← hterm, hhard]
      rfl
    have hacked : pr.match_ ≤ (a.dur u).acked r.term :=
      hn.term ▸ (hn.leads hlead _ hpr).acked hne
    have hcurrent := (h.inv.dur u).current
    rw [hdur, Consensus.Holds] at hcurrent
    have hlog := (hshows.holds_iff.1 he).2
    rw [← getElem?_take_of_lt (show i - 1 < (a.dur u).acked r.term by omega)] at hlog
    rw [hkept.store.ents, getElem?_drop, ← hcurrent.getElem?_some hlog]
    congr 1
    omega
  · have hstart := (h.inv.led _ v hl).start
    rw [← hterm] at hstart
    exact absurd hstart (Nat.not_lt_zero _)

theorem match_stored_trio : ((run trio handing).member 2).storage.ents[0]? = some noop := by
  obtain ⟨r, hr, hlead, hterm, -, ⟨pr, hpr, hmatch⟩, he⟩ := handing_leads
  have hms : ((run trio handing).member 2).storage.hardState.term = 1 ∧
      ((run trio handing).member 2).storage.ents0.index = 0 := by decide +kernel
  have hget := match_stored (σ := three) hr hlead hpr (by decide) hmatch.ge he rfl
    (hms.1.trans hterm.symm) (hms.2.trans_lt Nat.one_pos)
  rwa [show ((run three.toSetup handing).member 2).storage.ents0.index = 0 from hms.2] at hget

end EtcdCompat
