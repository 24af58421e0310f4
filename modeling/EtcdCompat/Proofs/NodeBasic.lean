import EtcdCompat.Proofs.ClusterFrame

/-!
# The moves of a node

A handler takes a node that fits its views to one that does, by steps of the party in memory
(`Reaches`). This module has the pieces handlers are made of: sending, changing a progress, stepping
down, moving the commit index.
-/

namespace EtcdCompat

open List

open Consensus

variable {σ : Replicated} {a a' : State ℕ Entry} {v : ℕ} {d : Held} {r : Raft}

section Logs

variable {log : List Entry}

theorem term_pos (hs : Inv σ.protocol a) (h : LogOK σ.protocol a log) {e : Entry}
    (he : e ∈ log) : 0 < e.term := by
  obtain ⟨j, hj⟩ := List.getElem?_of_mem he
  rcases h.started j e hj with hT | hT
  · obtain ⟨l, hl⟩ := Option.ne_none_iff_exists'.1 hT
    exact Nat.zero_lt_of_lt (hs.led _ l hl).start
  · have horig := (h.origin j e hj).length_le
    rw [hT, (hs.unled _ hs.start_unled).2, List.length_take_of_le
      (List.getElem?_eq_some_iff.1 hj).1] at horig
    change e.term = σ.startTerm at hT
    change j + 1 ≤ σ.boot.length at horig
    rw [hT]
    rw [Setup.boot] at horig
    rw [Setup.startTerm]
    cases hd : σ.confChange with
    | none =>
      rw [hd] at horig
      exact absurd horig (Nat.not_succ_le_zero j)
    | some _ => exact Nat.one_pos

theorem matches_ll (hs : Inv σ.protocol a) (h : LogOK σ.protocol a log) {T l : ℕ}
    (hl : a.leader T = some l) : Matches log (a.ll T) :=
  ⟨fun _ _ _ h1 h2 h3 => h.take_eq (hs.led T l hl).llOK h1 h2 h3,
    fun _ he => term_pos hs (hs.led T l hl).llOK he⟩

end Logs

namespace Kept

variable {ms : MemoryStorage} {stored : List Entry} {w : Option ℕ} {x : View ℕ Entry}

variable (h : Kept σ a v ms stored) {i : ℕ}
include h

theorem commit_le : ms.hardState.commit ≤ (a.dur v).commit := by
  rcases h.view with ⟨_, hk⟩ | ⟨hk, _⟩
  · rw [hk]
    exact le_rfl
  · rw [hk]
    exact Nat.zero_le _

theorem indexed (hs : Inv σ.protocol a) : Indexed stored := by
  rcases h.view with ⟨hk, _⟩ | ⟨_, hk, _⟩
  · rw [hk]
    exact (hs.dur v).log.placed
  · rw [hk]
    nofun

theorem view_of_pos (hpos : 0 < ms.hardState.commit) :
    stored = (a.dur v).log ∧ ms.hardState = hsOf (a.dur v) := by
  refine h.view.resolve_right fun hk => ?_
  rw [hk.1] at hpos
  exact absurd hpos (lt_irrefl 0)

theorem take_eq (hs : Inv σ.protocol a) (hx : Known σ.protocol a w x)
    (hb : σ.boot <+: x.log) (hle : (a.dur v).commit ≤ x.commit) (hi : i ≤ ms.hardState.commit) :
    stored.take i = x.log.take i := by
  have hc := h.commit_le
  rcases h.view with ⟨hst, _⟩ | ⟨hms, _, _⟩
  · rw [hst]
    exact (hs.knownDur v).agree hs hx (hs.dur v).log.boot hb (by omega) (by omega)
  · rw [hms] at hi
    rw [Nat.le_zero.1 hi, take_zero, take_zero]

theorem termAt_eq (hs : Inv σ.protocol a) (hx : Known σ.protocol a w x)
    (hb : σ.boot <+: x.log) (hle : (a.dur v).commit ≤ x.commit) (hi : i ≤ ms.hardState.commit) :
    termAt Entry.term stored i = termAt Entry.term x.log i := by
  have htake := h.take_eq hs hx hb hle hi
  rw [← termAt_take (c := i) le_rfl, htake, termAt_take le_rfl]

end Kept

namespace NodeOK

variable {u : ℕ}

section

variable (h : NodeOK σ a v d r)
include h

theorem termPos (hs : Inv σ.protocol a) (hT : a.leader (a.mem v).term ≠ none) : 0 < r.term := by
  obtain ⟨l, hl⟩ := Option.ne_none_iff_exists'.1 hT
  rw [h.term]
  exact Nat.zero_lt_of_lt (hs.led _ l hl).start

theorem lastIndex_eq : r.raftLog.lastIndex = (a.mem v).log.length :=
  h.log.shows.lastIndex_eq

theorem dummy_le (hs : Inv σ.protocol a) : r.raftLog.dummy ≤ r.raftLog.committed := by
  rw [h.log.committed, RaftLog.dummy]
  cases hsn : r.raftLog.unstable.snapshot with
  | none =>
    simp [h.log.storage]
    exact h.kept.dummy.trans (h.kept.commit_le.trans (hs.durMem v).commit)
  | some s => exact (h.log.snap s hsn).2.1

theorem commit_le (hs : Inv σ.protocol a) : r.raftLog.committed ≤ (a.mem v).log.length := by
  rw [h.log.committed]
  exact (hs.knownMem v).le

theorem nodup_prs : (r.prs.map Prod.fst).Nodup :=
  h.prs.nodup_iff.2 σ.nodup

theorem quorum_eq : r.quorum = σ.peers.length / 2 + 1 := by
  rw [Raft.quorum, ← h.prs.length_eq, length_map]

end

variable {m : Message}

theorem mem_of_pr {pr : Progress} (h : r.pr u = some pr) : (u, pr) ∈ r.prs := by
  obtain ⟨l₁, l₂, hl, _⟩ := lookup_eq_some_iff.1 h
  rw [hl]
  exact mem_append_right _ mem_cons_self

theorem others_mem (h : NodeOK σ a v d r) (hu : u ∈ r.others) : u ∈ σ.peers ∧ u ≠ v := by
  rw [Raft.others, mem_filter, decide_eq_true_eq, h.id] at hu
  exact ⟨h.prs.mem_iff.1 hu.1, hu.2⟩

theorem timers (h : NodeOK σ a v d r) (lead electionElapsed heartbeatElapsed : ℕ)
    (pendingConf : Bool) :
    NodeOK σ a v d
      { r with
        lead := lead
        electionElapsed := electionElapsed
        heartbeatElapsed := heartbeatElapsed
        pendingConf := pendingConf } :=
  { h with }

theorem withPrs (h : NodeOK σ a v d r) {prs : List (ℕ × Progress)}
    (hkeys : (prs.map Prod.fst).Perm σ.peers)
    (hl : r.state = .leader → ∀ q ∈ prs, PrOK a v q.1 q.2) : NodeOK σ a v d { r with prs := prs } :=
  { h with prs := hkeys, leads := hl }

theorem map_updatePr (r : Raft) (u : ℕ) (f : Progress → Progress) :
    (r.updatePr u f).prs.map Prod.fst = r.prs.map Prod.fst := by
  rw [Raft.updatePr, map_map]
  refine map_congr_left fun q _ => ?_
  simp
  split_ifs <;> rfl

variable (h : NodeOK σ a v d r)
include h

theorem updatePr {f : Progress → Progress}
    (hf : r.state = .leader → ∀ pr, PrOK a v u pr → PrOK a v u (f pr)) :
    NodeOK σ a v d (r.updatePr u f) := by
  refine h.withPrs ((map_updatePr r u f).symm ▸ h.prs) fun hs q hq => ?_
  obtain ⟨q', hq', rfl⟩ := mem_map.1 hq
  have hold := h.leads hs q' hq'
  split_ifs with hu
  · exact hu ▸ hf hs q'.2 (hu ▸ hold)
  · exact hold

theorem push (hm : Queued σ a v m)
    (hp : r.state = .leader ∨ r.state = .candidate ∧ (a.rd v).cand (a.mem v).term ≠ none →
      Plain m) : NodeOK σ a v d { r with msgs := r.msgs ++ [m] } := by
  refine { h with msgs := fun m' hm' => ?_, plain := fun hs m' hm' => ?_ }
  · rcases mem_append.1 hm' with h1 | h1
    · exact h.msgs m' h1
    · rw [mem_singleton.1 h1]
      exact hm
  · rcases mem_append.1 hm' with h1 | h1
    · exact h.plain hs m' h1
    · rw [mem_singleton.1 h1]
      exact hp hs

theorem send (hne : m.type ≠ .prop) (hto : m.to_ ≠ v)
    (hpos : 0 < r.term)
    (hsay : Says σ a (a.mem v) (bound a (a.mem v)) (σ.protocol.counts v)
      { m with from_ := v, term := (a.mem v).term })
    (hp : r.state = .leader ∨ r.state = .candidate ∧ (a.rd v).cand (a.mem v).term ≠ none →
      Plain m) : NodeOK σ a v d (r.send m) := by
  have heq : r.send m = { r with msgs := r.msgs ++
      [{ m with from_ := v, term := (a.mem v).term }] } := by
    simp [Raft.send, hne, h.id, h.term]
  rw [heq]
  refine h.push ⟨rfl, .inr ⟨h.peer, hto, h.term ▸ hpos, hsay⟩⟩ fun hs => ?_
  exact hp hs

theorem sendReject (hu : u ≠ v) (hpos : 0 < r.term) :
    NodeOK σ a v d (r.send { type := .voteResp, to_ := u, reject := true }) :=
  h.send nofun hu hpos nofun fun _ => rfl

end NodeOK

/-- The node `r'` fits its views after steps of the party from `a` on. -/
def Reaches (σ : Replicated) (v : ℕ) (d : Held) (a : State ℕ Entry) (r' : Raft) : Prop :=
  ∃ a', Local σ.protocol v a a' ∧ NodeOK σ a' v d r'

namespace Reaches

theorem refl (hs : Inv σ.protocol a) (h : NodeOK σ a v d r) : Reaches σ v d a r :=
  ⟨a, .refl hs, h⟩

theorem trans (hl : Local σ.protocol v a a') (h : Reaches σ v d a' r) : Reaches σ v d a r := by
  obtain ⟨a'', h1, h2⟩ := h
  exact ⟨a'', hl.trans h1, h2⟩

theorem bind {x : Except Panic Raft} {f : Raft → Except Panic Raft}
    (hx : Yields Benign (Reaches σ v d a) x)
    (hf : ∀ a' r', Local σ.protocol v a a' → NodeOK σ a' v d r' →
      Yields Benign (Reaches σ v d a') (f r')) :
    Yields Benign (Reaches σ v d a) (x >>= f) := by
  refine hx.bind fun r' hr' => ?_
  obtain ⟨a', h1, h2⟩ := hr'
  exact (hf a' r' h1 h2).mono fun _ h => h.trans h1

end Reaches

namespace NodeOK

theorem withLog (h : NodeOK σ a v d r) (hl : Local σ.protocol v a a') {l : RaftLog}
    (hT : (a'.mem v).term = (a.mem v).term) (hv : (a'.mem v).votes = (a.mem v).votes)
    (hrole : a'.role v = a.role v) (hlen : (a.mem v).log.length ≤ (a'.mem v).log.length ∨
      r.state ≠ .leader) (hlog : LogFits σ a' v d l) :
    NodeOK σ a' v d { r with raftLog := l } := by
  refine ⟨h.id, h.peer, h.term.trans hT.symm, ?_, ?_, hrole.trans h.role,
    h.kept.congr (congrFun hl.dur v), h.applied, hlog, h.prs, fun hs q hq => ?_, fun hs => ?_,
      fun m hm => ?_,
    ?_⟩
  · rw [hT, hv]
    exact h.vote
  · rw [hv]
    exact h.voter
  · exact (h.leads hs q hq).mono hl.ext (hlen.resolve_right fun hn => hn hs) hT
  · exact (h.polls hs).mono hl.ext hT
  · exact (h.msgs m hm).mono hl.ext hl.le (by rw [hl.rd]; exact .refl _)
  · rw [hl.rd, hT]
    exact h.plain

theorem becomeFollower (h : NodeOK σ a v d r) (hs : Inv σ.protocol a) {T : ℕ} (lead : ℕ)
    (hT : r.term ≤ T) : ∃ a', Local σ.protocol v a a' ∧ NodeOK σ a' v d (r.becomeFollower T lead) ∧
      (a'.mem v).term = T := by
  have keys : ((r.becomeFollower T lead).prs.map Prod.fst).Perm σ.peers := by
    rw [Raft.becomeFollower, Raft.reset, map_map]
    exact h.prs
  rcases hT.eq_or_lt with rfl | hlt
  · have hl := (MemStep.stepDown (p := σ.protocol) (v := v) (s := a)).local hs
    refine ⟨_, hl, ?_, ?_⟩
    · have hmem : (a.withMem v (a.mem v) .follower).mem v = a.mem v :=
        State.withMem_mem_self ..
      refine ⟨h.id, h.peer, ?_, ?_, ?_, State.withMem_role_self .., h.kept.congr rfl,
        h.applied, h.log.congr (by rw [hmem]) (by rw [hmem]) rfl, keys, nofun, nofun,
          fun m hm => ?_, nofun⟩
      · rw [hmem]
        exact h.term
      · rw [hmem]
        simp [Raft.becomeFollower, Raft.reset]
        exact h.vote
      · rw [hmem]
        exact h.voter
      · exact (h.msgs m hm).mono hl.ext hl.le (.refl _)
    · rw [State.withMem_mem_self, ← h.term]
  · have hlt' : (a.mem v).term < T := h.term ▸ hlt
    have hl := (MemStep.bump (p := σ.protocol) T hlt').local hs
    have hmem : (a.withMem v { a.mem v with term := T } .follower).mem v =
      { a.mem v with term := T } := State.withMem_mem_self ..
    have hnone : (a.mem v).votes T = none := by
      cases hv : (a.mem v).votes T with
      | none => rfl
      | some c => exact absurd ((hs.mem v).votesLe T c hv) (by omega)
    refine ⟨_, hl, ⟨h.id, h.peer, ?_, ?_, ?_, State.withMem_role_self .., h.kept.congr rfl,
      h.applied, h.log.congr (by rw [hmem]) (by rw [hmem]) rfl, keys, nofun, nofun, fun m hm => ?_,
        nofun⟩, ?_⟩
    · rw [hmem]
      rfl
    · rw [hmem]
      simp [Raft.becomeFollower, Raft.reset, hlt.ne, hnone]
    · rw [hmem]
      exact h.voter
    · exact (h.msgs m hm).mono hl.ext hl.le (.refl _)
    · rw [hmem]

end NodeOK

end EtcdCompat
