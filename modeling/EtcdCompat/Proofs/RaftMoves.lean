import EtcdCompat.Proofs.LogNumbers
import Mathlib.Logic.Relation

/-!
# What a node does in a step

Every function of the node makes a sequence of the moves in `Act` or panics, so that what each move
keeps holds after every step. Three propositions stand for what a step is given: `n` that the
message is numbered, `b` that it takes the next index of a follower back to what is matched, and `c`
that it elects a node that is not a member.
-/

namespace EtcdCompat.Raft

open List

variable {r r' : Raft} {u : ℕ} {pr : Progress} {m : Message} {n b c : Prop}

/-- A panic, but not over the applied index, and a nil dereference only with `c`. -/
def Fails (c : Prop) (p : Panic) : Prop := p.isApplied = false ∧ (p = .nilDereference → c)

theorem fails_of_mild {p : Panic} (h : Mild p) : Fails c p :=
  ⟨h.other, fun hp => by rw [hp] at h; cases h⟩

theorem yields_of_mild {α : Type} {P : α → Prop} {x : Except Panic α} (h : Yields Mild P x) :
    Yields (Fails c) P x :=
  h.imp (fun _ => fails_of_mild) fun _ h => h

inductive Act (n b : Prop) : Raft → Raft → Prop
  | note {r : Raft} (vote : ℕ) (votes : List (ℕ × Bool)) (e h : ℕ) :
    Act n b r { r with vote := vote, votes := votes, electionElapsed := e, heartbeatElapsed := h }
  | send {r : Raft} (m : Message) : Act n b r (r.send m)
  | track {r : Raft} {u : ℕ} {pr : Progress} (f : Progress → Progress) : r.pr u = some pr →
    (r.raftLog.Numbered → pr.match_ < pr.next → b ∨ (f pr).match_ < (f pr).next) →
    Act n b r (r.updatePr u f)
  | inactive {r : Raft} : Act n b r r.checkQuorumActive.2
  | heard {r : Raft} (lead : ℕ) : Act n b r { r with lead := lead }
  | follower {r : Raft} (t lead : ℕ) : Act n b r (r.becomeFollower t lead)
  | candidate {r : Raft} :
    Act n b r { r.reset (r.term + 1) with vote := r.id, state := .candidate }
  | elect {r : Raft} {ents : List Entry} (pending : Bool) :
    r.raftLog.entries (r.raftLog.committed + 1) noLimit = .ok (.ok ents) →
    (pending = true → ∃ e ∈ ents, e.type = .confChange) →
    Act n b r { r.reset r.term with lead := r.id, state := .leader, pendingConf := pending }
  | append {r : Raft} {l : RaftLog} (pending : Bool) (es : List Entry) : r.state = .leader →
    (pending = true → r.pendingConf = true ∨ ∃ e ∈ es, e.type = .confChange) →
    r.raftLog.append (stamp r.term (r.raftLog.lastIndex + 1) es) = .ok l →
    Act n b r (updatePr { r with pendingConf := pending, raftLog := l } r.id
      fun pr => (pr.maybeUpdate l.lastIndex).2)
  | commit {r : Raft} {l : RaftLog} : r.raftLog.Commits l → Act n b r { r with raftLog := l }
  | accept {r : Raft} {l : RaftLog} (prs : List (ℕ × Progress)) : r.state ≠ .leader →
    (r.raftLog.Numbered → n → r.raftLog.Moves l) → Act n b r { r with raftLog := l, prs := prs }

abbrev Acts (n b : Prop) : Raft → Raft → Prop := Relation.ReflTransGen (Act n b)

def keys (r : Raft) : List ℕ := r.prs.map Prod.fst

theorem pr_eq_none_iff : r.pr u = none ↔ u ∉ r.keys := by
  rw [pr, lookup_eq_none_iff, keys]
  simp only [bne_iff_ne, mem_map, not_exists, not_and]
  exact ⟨fun h q hq he => h q hq he.symm, fun h q hq he => h q hq he.symm⟩

theorem quorum_congr (h : r'.keys = r.keys) : r'.quorum = r.quorum := by
  have := congrArg length h
  rw [keys, keys, length_map, length_map] at this
  rw [quorum, quorum, this]

theorem keys_updatePr (f : Progress → Progress) : (r.updatePr u f).keys = r.keys := by
  unfold keys updatePr
  rw [map_map]
  refine map_congr_left fun q _ => ?_
  simp
  split_ifs <;> rfl

/-- Moves that leave the members as they are. -/
structure Ran (n b : Prop) (r r' : Raft) : Prop where
  acts : Acts n b r r'
  keys : r'.keys = r.keys

namespace Ran

theorem refl : Ran n b r r := ⟨.refl, rfl⟩

theorem trans {r'' : Raft} (h : Ran n b r r') (h' : Ran n b r' r'') : Ran n b r r'' :=
  ⟨h.acts.trans h'.acts, h'.keys.trans h.keys⟩

theorem act (h : Act n b r r') (hk : r'.keys = r.keys) : Ran n b r r' := ⟨.single h, hk⟩

theorem send (m : Message) : Ran n b r (r.send m) := .act (.send m) rfl

theorem track {f : Progress → Progress} (hpr : r.pr u = some pr)
    (hf : r.raftLog.Numbered → pr.match_ < pr.next → b ∨ (f pr).match_ < (f pr).next) :
    Ran n b r (r.updatePr u f) :=
  .act (.track f hpr hf) (keys_updatePr f)

theorem poll (u : ℕ) (v : Bool) : Ran n b r (r.poll u v).2 :=
  .act (.note r.vote _ r.electionElapsed r.heartbeatElapsed) rfl

theorem mem (h : Ran n b r r') (hu : u ∈ r.keys) : u ∈ r'.keys := h.keys ▸ hu

end Ran

section Sending

theorem sendSnapshot_ran (hpr : r.pr u = some pr) :
    Yields (Fails c) (Ran n b r) (r.sendSnapshot u pr) := by
  unfold sendSnapshot
  simp only
  split_ifs
  · exact .refl
  · exact fails_of_mild rfl
  · exact (Ran.track hpr fun _ h => .inr h).trans (.send _)

theorem sentEntries_mild (pr : Progress) (last : ℕ) :
    Yields Mild (fun pr' => pr.next ≤ last → pr.match_ < pr.next → pr'.match_ < pr'.next)
      (sentEntries pr last) := by
  unfold sentEntries Inflights.add
  split
  · split_ifs
    · rfl
    · exact fun h h' => h'.trans (Nat.lt_succ_of_le h)
  · exact fun _ h => h
  · rfl

theorem sendEntries_ran (hpr : r.pr u = some pr) {ents : List Entry} (term : ℕ)
    (hents : r.raftLog.Numbered → NumberedFrom pr.next ents) :
    Yields (Fails c) (Ran n b r) (r.sendEntries u pr term ents) := by
  unfold sendEntries
  simp only
  split
  · exact .send _
  · rename_i e he
    refine (yields_of_mild (sentEntries_mild pr e.index)).bind fun pr' hpr' => ?_
    refine (Ran.track hpr fun hl hlt => .inr (hpr' ?_ hlt)).trans (.send _)
    rw [getLast?_eq_getElem?] at he
    rw [hents hl _ e he]
    exact Nat.le_add_right _ _

theorem sendAppend_ran (hu : u ∈ r.keys) : Yields (Fails c) (Ran n b r) (r.sendAppend u) := by
  unfold sendAppend
  rcases hpr : r.pr u with _ | pr
  · exact absurd hu (pr_eq_none_iff.1 hpr)
  simp only
  split_ifs
  · exact .refl
  · refine (yields_of_mild (r.raftLog.term_mild _)).bind fun t _ => ?_
    refine (yields_of_mild (r.raftLog.entries_mild _ _)).bind fun es hes => ?_
    split
    · exact sendEntries_ran hpr _ fun hl => (hes hl _ rfl).numbered
    · exact sendSnapshot_ran hpr

theorem mem_keys_of_others (hu : u ∈ r.others) : u ∈ r.keys := (mem_filter.1 hu).1

theorem bcastAppend_ran : Yields (Fails c) (Ran n b r) r.bcastAppend :=
  Yields.foldlM (fun _ hu _ hr =>
    (sendAppend_ran (hr.mem (mem_keys_of_others hu))).mono fun _ => hr.trans) .refl

theorem bcastHeartbeat_ran : Yields (Fails c) (Ran n b r) r.bcastHeartbeat := by
  refine Yields.foldlM (fun u hu r' hr => ?_) .refl
  unfold sendHeartbeat
  rcases hpr : r'.pr u with _ | pr
  · exact absurd (hr.mem (mem_keys_of_others hu)) (pr_eq_none_iff.1 hpr)
  · exact (hr.trans (.send _)).trans (.track hpr fun _ h => .inr h)

end Sending

section Leader

theorem maybeCommit_ran : Yields (Fails c) (fun x => Ran n b r x.2) r.maybeCommit := by
  unfold maybeCommit
  split
  · exact fails_of_mild rfl
  · exact (yields_of_mild (r.raftLog.maybeCommit_mild _ _)).bind fun x hx => .act (.commit hx) rfl

theorem appendEntry_ran {pending : Bool} {es : List Entry} (hs : r.state = .leader)
    (hown : r.pr r.id = none → c)
    (hp : pending = true → r.pendingConf = true ∨ ∃ e ∈ es, e.type = .confChange) :
    Yields (Fails c) (Ran n b r) (appendEntry { r with pendingConf := pending } es) := by
  unfold appendEntry
  refine (yields_of_mild (r.raftLog.append_mild _)).bind_ok fun l hl _ => ?_
  simp only
  split
  · rename_i hnone
    exact ⟨rfl, fun _ => hown hnone⟩
  · have happend : Ran n b r _ := .act (.append pending es hs hp hl) (keys_updatePr _)
    exact maybeCommit_ran.bind fun x hx => happend.trans hx

theorem pendingConfOf_mild : ∀ (b : Bool) (ents : List Entry),
    Yields Mild (fun b' => b' = true → b = true ∨ ∃ e ∈ ents, e.type = .confChange)
      (pendingConfOf b ents)
  | _, [] => .inl
  | b, e :: ents => by
    unfold pendingConfOf
    split_ifs with he
    · exact (pendingConfOf_mild b ents).mono fun _ h h' => (h h').imp_right fun ⟨e, hmem, h⟩ =>
        ⟨e, mem_cons_of_mem _ hmem, h⟩
    · rfl
    · exact (pendingConfOf_mild true ents).mono fun _ _ _ =>
        .inr ⟨e, mem_cons_self, not_not.1 he⟩

theorem keys_reset (t : ℕ) : (r.reset t).keys = r.keys := by
  unfold keys reset
  rw [map_map]
  rfl

theorem becomeLeader_ran (hown : r.pr r.id = none → c) :
    Yields (Fails c) (Ran n b r) r.becomeLeader := by
  unfold becomeLeader
  split_ifs
  · exact fails_of_mild rfl
  refine (yields_of_mild (r.raftLog.entries_mild _ noLimit)).bind_ok fun x hents _ => ?_
  rcases x with e | ents
  · exact fails_of_mild rfl
  · refine (yields_of_mild (pendingConfOf_mild _ ents)).bind fun pending hp => ?_
    have helect : Ran n b r _ := .act (.elect pending hents fun h => (hp h).resolve_left
      fun h => by cases h) (keys_reset r.term)
    refine (appendEntry_ran rfl (fun hnone => hown ?_) .inl).mono fun _ h => helect.trans h
    rw [pr_eq_none_iff] at hnone ⊢
    exact helect.keys ▸ hnone

theorem campaign_ran (hown : r.quorum = 1 → r.pr r.id = none → c) :
    Yields (Fails c) (Ran n b r) r.campaign := by
  unfold campaign becomeCandidate
  split_ifs
  · exact fails_of_mild rfl
  have hcandidate : Ran n b r _ := .act .candidate (keys_reset (r.term + 1))
  have hpoll := hcandidate.trans (.poll r.id true)
  simp only [bind, Except.bind]
  split_ifs with hq
  · refine (becomeLeader_ran fun hnone => hown ?_ ?_).mono fun _ => hpoll.trans
    · exact (quorum_congr hpoll.keys).symm.trans (hq.trans rfl)
    · rw [pr_eq_none_iff] at hnone ⊢
      exact hpoll.keys ▸ hnone
  · refine Yields.foldlM (fun _ _ r' hr => ?_) hpoll
    exact (yields_of_mild r'.raftLog.lastTerm_mild).bind fun _ _ => hr.trans (.send _)

theorem filterConf_eq_true : ∀ {b : Bool} {es : List Entry}, (filterConf b es).1 = true →
    b = true ∨ ∃ e ∈ (filterConf b es).2, e.type = .confChange
  | b, [], h => .inl h
  | b, e :: es, h => by
    by_cases he : e.type = .confChange
    · cases b with
      | true => exact .inl rfl
      | false => exact .inr ⟨e, by simp [filterConf, he], he⟩
    · simp only [filterConf, he, if_false] at h ⊢
      exact (filterConf_eq_true h).imp_right fun ⟨e, hmem, h⟩ => ⟨e, mem_cons_of_mem _ hmem, h⟩

theorem handleProp_ran (hs : r.state = .leader) :
    Yields (Fails c) (Ran n b r) (r.handleProp m) := by
  unfold handleProp
  split_ifs with h0 hown
  · exact fails_of_mild rfl
  · exact .refl
  · refine (appendEntry_ran hs (fun h => absurd h (by simpa using hown)) filterConf_eq_true).bind
      fun r' hr => bcastAppend_ran.mono fun _ => hr.trans

theorem maybeUpdate_lt {i : ℕ} (h : pr.match_ < pr.next) :
    (pr.maybeUpdate i).2.match_ < (pr.maybeUpdate i).2.next := by
  unfold Progress.maybeUpdate Progress.resume
  by_cases hi : pr.match_ < i
  · simp only [if_pos hi]
    split_ifs with hn
    · exact Nat.lt_succ_self _
    · exact Nat.lt_of_succ_le (not_lt.1 hn)
  · simp only [if_neg hi]
    split_ifs with hn
    · exact h.trans hn
    · exact h

theorem becomeProbe_lt : pr.becomeProbe.match_ < pr.becomeProbe.next := by
  unfold Progress.becomeProbe
  split_ifs
  · exact Nat.lt_of_succ_le (le_max_left _ _)
  · exact Nat.lt_succ_self _

theorem progressUpdated_lt {i : ℕ} (h : pr.match_ < pr.next) :
    (progressUpdated pr i).match_ < (progressUpdated pr i).next := by
  unfold progressUpdated
  split
  · exact Nat.lt_succ_self _
  · split_ifs
    · exact becomeProbe_lt
    · exact h
  · exact h

/-- The message rejects the entry probed last, and with the follower's hint the next one to probe
is matched. -/
def Backs (m : Message) (pr : Progress) : Prop :=
  m.type = .appResp ∧ m.reject = true ∧ pr.state ≠ .replicate ∧ pr.next - 1 = m.index ∧
    max (min m.index (m.rejectHint + 1)) 1 ≤ pr.match_

theorem maybeDecrTo_lt (hm : m.type = .appResp) (hrej : m.reject = true)
    (h : pr.match_ < pr.next) : Backs m pr ∨
      (pr.maybeDecrTo m.index m.rejectHint).2.match_ < (pr.maybeDecrTo m.index m.rejectHint).2.next
    := by
  unfold Progress.maybeDecrTo
  split_ifs with hs hle hn
  · exact .inr h
  · exact .inr (Nat.lt_succ_self _)
  · exact .inr h
  · by_cases hb : max (min m.index (m.rejectHint + 1)) 1 ≤ pr.match_
    · exact .inl ⟨hm, hrej, hs, not_not.1 hn, hb⟩
    · exact .inr (not_le.1 hb)

theorem handleAppResp_ran (hm : m.type = .appResp) (hpr : r.pr m.from_ = some pr)
    (hb : Backs m pr → b) : Yields (Fails c) (Ran n b r) (r.handleAppResp pr m) := by
  have hmem : ∀ f, m.from_ ∈ (r.updatePr m.from_ f).keys := fun f => by
    rw [keys_updatePr]
    exact not_not.1 (mt pr_eq_none_iff.2 (by simp [hpr]))
  unfold handleAppResp
  simp only
  by_cases hrej : m.reject = true
  · rw [if_pos hrej]
    have hdecr := fun h : pr.match_ < pr.next =>
      (@maybeDecrTo_lt { pr with recentActive := true } m hm hrej h).imp_left hb
    split_ifs
    · refine (sendAppend_ran (hmem _)).mono fun _ => Ran.trans ?_
      exact .track hpr fun _ _ => .inr becomeProbe_lt
    · refine (sendAppend_ran (hmem _)).mono fun _ => Ran.trans ?_
      exact .track hpr fun _ => hdecr
    · exact Ran.track hpr fun _ => hdecr
  · rw [if_neg hrej]
    have hupd := fun h : pr.match_ < pr.next => @maybeUpdate_lt { pr with recentActive := true }
      m.index h
    by_cases hnews : (Progress.maybeUpdate { pr with recentActive := true } m.index).1 = true
    · rw [if_pos hnews]
      have htrack : Ran n b r (r.updatePr m.from_ fun _ => progressUpdated
          (Progress.maybeUpdate { pr with recentActive := true } m.index).2 m.index) :=
        .track hpr fun _ h => .inr (progressUpdated_lt (hupd h))
      refine (maybeCommit_ran (n := n) (b := b)).bind fun x hx => ?_
      have hran := htrack.trans hx
      split_ifs
      · exact bcastAppend_ran.mono fun _ => hran.trans
      · exact (sendAppend_ran (hx.mem (hmem _))).mono fun _ => hran.trans
      · exact hran
    · rw [if_neg hnews]
      exact Ran.track hpr fun _ h => .inr (hupd h)

theorem handleHeartbeatResp_ran (hpr : r.pr m.from_ = some pr) :
    Yields (Fails c) (Ran n b r) (r.handleHeartbeatResp pr m) := by
  have hmem : ∀ f, m.from_ ∈ (r.updatePr m.from_ f).keys := fun f => by
    rw [keys_updatePr]
    exact not_not.1 (mt pr_eq_none_iff.2 (by simp [hpr]))
  unfold handleHeartbeatResp
  simp only
  split_ifs
  all_goals first
    | exact Ran.track hpr fun _ h => .inr h
    | exact (sendAppend_ran (hmem _)).mono fun _ => Ran.trans (.track hpr fun _ h => .inr h)

theorem stepLeader_ran (hs : r.state = .leader)
    (hb : ∀ pr, r.pr m.from_ = some pr → Backs m pr → b) :
    Yields (Fails c) (Ran n b r) (r.stepLeader m) := by
  unfold stepLeader
  cases hm : m.type with
  | beat => exact bcastHeartbeat_ran
  | checkQuorum =>
    have hinactive : Ran n b r r.checkQuorumActive.2 := .act .inactive (by
      unfold keys checkQuorumActive
      rw [map_map]
      refine map_congr_left fun q _ => ?_
      simp
      split_ifs <;> rfl)
    simp only
    split_ifs
    · exact hinactive
    · exact hinactive.trans (.act (.follower _ _) (keys_reset r.term))
  | prop => exact handleProp_ran hs
  | vote => exact .send _
  | appResp | heartbeatResp | snapStatus | unreachable =>
    rcases hpr : r.pr m.from_ with _ | pr
    · exact .refl
    simp only
    first
      | exact handleAppResp_ran hm hpr (hb pr hpr)
      | exact handleHeartbeatResp_ran hpr
      | unfold handleSnapStatus
        split_ifs
        · exact .refl
        · exact Ran.track hpr fun _ _ => .inr becomeProbe_lt
        · exact Ran.track hpr fun _ _ => .inr becomeProbe_lt
      | unfold handleUnreachable
        split_ifs
        · exact Ran.track hpr fun _ _ => .inr becomeProbe_lt
        · exact .refl
  | _ => exact .refl

end Leader

section Follower

theorem handleAppendEntries_acts (hs : r.state ≠ .leader)
    (hn : n → NumberedFrom (m.index + 1) m.entries) :
    Yields (Fails c) (Acts n b r) (r.handleAppendEntries m) := by
  unfold handleAppendEntries
  split_ifs
  · exact .single (.send _)
  · refine (yields_of_mild (r.raftLog.maybeAppend_mild _ _ _ _)).bind fun x hx => ?_
    rcases x with _ | ⟨mlastIndex, l⟩
    · exact .single (.send _)
    · exact .tail (.single (.accept r.prs hs fun h h' => hx _ rfl h (hn h'))) (.send _)

theorem handleHeartbeat_acts : Yields (Fails c) (Acts n b r) (r.handleHeartbeat m) :=
  (yields_of_mild (r.raftLog.commitTo_mild m.commit)).bind fun _ hl =>
    .tail (.single (.commit hl)) (.send _)

theorem restore_acts (hs : r.state ≠ .leader) (s : Snapshot) :
    Yields (Fails c) (fun x => Acts n b r x.2) (r.restore s) := by
  unfold restore
  split_ifs with hle
  · exact .refl
  · refine (yields_of_mild (r.raftLog.matchTerm_mild _ _)).bind fun match_ _ => ?_
    split_ifs
    · exact (yields_of_mild (r.raftLog.commitTo_mild _)).bind fun l hl => .single (.commit hl)
    · exact .single (.accept _ hs fun _ _ => .restore (not_le.1 hle))

theorem handleSnapshot_acts (hs : r.state ≠ .leader) :
    Yields (Fails c) (Acts n b r) (r.handleSnapshot m) := by
  refine (restore_acts (n := n) (b := b) hs m.snapshot).bind fun x hx => ?_
  obtain ⟨restored, r'⟩ := x
  simp only
  split_ifs <;> exact hx.tail (.send _)

theorem handleVoteResp_acts
    (hown : (r.poll m.from_ (!m.reject)).1 = r.quorum → r.pr r.id = none → c) :
    Yields (Fails c) (Acts n b r) (r.handleVoteResp m) := by
  have hpoll : Ran n b r _ := .poll m.from_ (!m.reject)
  unfold handleVoteResp
  simp only
  split_ifs with hq
  · have hwon := hq.symm.trans (quorum_congr hpoll.keys)
    refine (@becomeLeader_ran (r.poll m.from_ (!m.reject)).2 n b c (hown hwon)).bind fun r' hr => ?_
    exact bcastAppend_ran.mono fun _ h => ((hpoll.trans hr).trans h).acts
  · exact hpoll.acts.tail (.follower _ _)
  · exact hpoll.acts

theorem stepCandidate_acts (hm : n → m.Numbered) (hown : m.type = .voteResp →
      (r.poll m.from_ (!m.reject)).1 = r.quorum → r.pr r.id = none → c) :
    Yields (Fails c) (Acts n b r) (r.stepCandidate m) := by
  have hdown : ∀ t lead, Acts n b r (r.becomeFollower t lead) := fun t lead =>
    .single (.follower t lead)
  have hfollower : ∀ t lead, (r.becomeFollower t lead).state ≠ .leader := fun _ _ h => by cases h
  unfold stepCandidate
  cases hty : m.type with
  | app =>
    exact (handleAppendEntries_acts (hfollower _ _) fun h => hm h hty).mono fun _ =>
      (hdown r.term m.from_).trans
  | heartbeat => exact handleHeartbeat_acts.mono fun _ => (hdown r.term m.from_).trans
  | snap => exact (handleSnapshot_acts (hfollower _ _)).mono fun _ => (hdown m.term m.from_).trans
  | vote => exact .single (.send _)
  | voteResp => exact handleVoteResp_acts (hown hty)
  | _ => exact .refl

theorem handleVote_acts : Yields (Fails c) (Acts n b r) (r.handleVote m) := by
  unfold handleVote
  refine (yields_of_mild (r.raftLog.isUpToDate_mild m.index m.logTerm)).bind fun _ _ => ?_
  split_ifs
  · exact .tail (.single (.note m.from_ r.votes 0 r.heartbeatElapsed)) (.send _)
  · exact .single (.send _)

theorem stepFollower_acts (hs : r.state = .follower) (hm : n → m.Numbered) :
    Yields (Fails c) (Acts n b r) (r.stepFollower m) := by
  have hheard : ∀ lead, Acts n b r { r with electionElapsed := 0, lead := lead } := fun lead =>
    .tail (.single (.note r.vote r.votes 0 r.heartbeatElapsed)) (.heard lead)
  have hne : r.state ≠ .leader := fun h => by rw [hs] at h; cases h
  unfold stepFollower
  cases hty : m.type with
  | prop =>
    simp only
    split_ifs
    · exact .refl
    · exact .single (.send _)
  | app =>
    refine (handleAppendEntries_acts ?_ fun h => hm h hty).mono fun _ => (hheard m.from_).trans
    exact hne
  | heartbeat => exact handleHeartbeat_acts.mono fun _ => (hheard m.from_).trans
  | snap =>
    refine (handleSnapshot_acts ?_).mono fun _ => (hheard r.lead).trans
    exact hne
  | vote => exact handleVote_acts
  | _ => exact .refl

end Follower

section Step

/-- The message makes the node a leader, unless it panics. -/
def Elects (r : Raft) (m : Message) : Prop :=
  m.type = .hup ∧ r.state ≠ .leader ∧ r.quorum = 1 ∨
    m.type = .voteResp ∧ r.state = .candidate ∧ (m.term = 0 ∨ m.term = r.term) ∧
      (r.poll m.from_ (!m.reject)).1 = r.quorum

/-- The message takes the next index of a follower of this leader back to what is matched. -/
def Backed (r : Raft) (m : Message) : Prop :=
  r.state = .leader ∧ (m.term = 0 ∨ m.term = r.term) ∧ ∃ pr, r.pr m.from_ = some pr ∧ Backs m pr

theorem stepFunc_acts (ht : m.term = 0 ∨ m.term = r.term) (hn : n → m.Numbered)
    (hb : r.Backed m → b) (hc : r.Elects m → r.pr r.id = none → c) :
    Yields (Fails c) (Acts n b r) (r.stepFunc m) := by
  unfold stepFunc
  cases hs : r.state with
  | follower => exact stepFollower_acts hs hn
  | candidate => exact stepCandidate_acts hn fun hm hq => hc (.inr ⟨hm, hs, ht, hq⟩)
  | leader =>
    exact (stepLeader_ran hs fun pr hpr h => hb ⟨hs, ht, pr, hpr, h⟩).mono fun _ h => h.acts

theorem step_acts (hn : n → m.Numbered) (hb : r.Backed m → b)
    (hc : r.Elects m → r.pr r.id = none → c) : Yields (Fails c) (Acts n b r) (r.step m) := by
  -- a node that has just stepped down does not take a vote or a rejection
  have hdown : ∀ lead,
      Yields (Fails c) (Acts n b r) ((r.becomeFollower m.term lead).stepFunc m) := fun lead =>
    (stepFollower_acts rfl hn).mono fun _ => .head (.follower m.term lead)
  unfold step
  split_ifs with hhup hs h0 hgt hlt
  · exact (campaign_ran fun hq => hc (.inl ⟨hhup, hs, hq⟩)).mono fun _ h => h.acts
  · exact .refl
  · exact stepFunc_acts (.inl h0) hn hb hc
  · exact hdown _
  · exact hdown _
  · exact .refl
  · exact stepFunc_acts (.inr (by omega)) hn hb hc

theorem step_local (hm : m.type = .hup ∧ r.promotable ∨ m.type = .beat ∨ m.type = .checkQuorum) :
    Yields (Fails False) (Acts True False r) (r.step m) := by
  refine step_acts (fun _ h => ?_) (fun hb => ?_) fun helects hnone => ?_
  · simp [h] at hm
  · obtain ⟨-, -, pr, -, hb⟩ := hb
    simp [hb.1] at hm
  · rcases hm with ⟨-, hown⟩ | h | h
    · rw [promotable, hnone] at hown
      cases hown
    all_goals
      rw [Elects, h] at helects
      rcases helects with ⟨h, -⟩ | ⟨h, -⟩ <;> cases h

theorem tickElection_acts (rand : ℕ) :
    Yields (Fails False) (Acts True False r) (r.tickElection rand) := by
  have hcount : ∀ e, Acts True False r { r with electionElapsed := e } := fun e =>
    .single (.note r.vote r.votes e r.heartbeatElapsed)
  unfold tickElection
  split_ifs with hown
  · exact hcount 0
  · simp only
    split_ifs
    · have hmember : r.promotable = true := by simpa using hown
      refine (step_local (.inl ⟨rfl, ?_⟩)).mono fun _ => (hcount 0).trans
      exact hmember
    · exact hcount _

theorem tickHeartbeat_acts : Yields (Fails False) (Acts True False r) r.tickHeartbeat := by
  have hcount : ∀ {r₁ : Raft} e h, Acts True False r₁ { r₁ with
      heartbeatElapsed := h
      electionElapsed := e } := fun e h => .single (.note _ _ e h)
  have hquorum : ∀ {r₁ : Raft}, Yields (Fails False) (Acts True False r₁) r₁.tickQuorum := by
    intro r₁
    unfold tickQuorum
    simp only
    split_ifs
    · exact (step_local (.inr (.inr rfl))).mono fun _ => (hcount 0 r₁.heartbeatElapsed).trans
    · exact hcount 0 r₁.heartbeatElapsed
    · exact .refl
  unfold tickHeartbeat
  refine hquorum.bind fun r' hr => ?_
  have hran := (hcount _ _).trans hr
  split_ifs
  · exact hran
  · exact (step_local (.inr (.inl rfl))).mono fun _ h =>
      hran.trans ((hcount r'.electionElapsed 0).trans h)
  · exact hran

theorem tick_acts (r : Raft) (rand : ℕ) :
    Yields (Fails False) (Acts True False r) (r.tick rand) := by
  unfold tick
  cases r.state with
  | follower => exact tickElection_acts rand
  | candidate => exact tickElection_acts rand
  | leader => exact tickHeartbeat_acts

/-- The node once the members and the pending change are as after `cc`. -/
def changed (r : Raft) (cc : ConfChange) : Raft :=
  if cc.nodeID = none_ then r.resetPendingConf
  else match cc.type with
    | .addNode => r.addNode cc.nodeID
    | .removeNode => (r.delProgress cc.nodeID).resetPendingConf
    | .updateNode => r.resetPendingConf

theorem applyConfChange_acts (r : Raft) (cc : ConfChange) :
    Yields (Fails False) (Acts True False (r.changed cc)) (r.applyConfChange cc) := by
  unfold applyConfChange changed
  split_ifs
  · exact .refl
  · cases cc.type with
    | addNode => exact .refl
    | updateNode => exact .refl
    | removeNode =>
      unfold removeNode resetPendingConf
      simp only
      split_ifs
      · exact .refl
      · refine (maybeCommit_ran (n := True) (b := False)).bind fun x hx => ?_
        split_ifs
        · exact bcastAppend_ran.mono fun _ h => (hx.trans h).acts
        · exact hx.acts

end Step

/-- The log of the node has moved on from `l₀`. -/
def Moved (l₀ : RaftLog) (r : Raft) : Prop := l₀.Numbered ∧ l₀.Moves r.raftLog

theorem Moved.refl (h : r.raftLog.Numbered) : Moved r.raftLog r := ⟨h, .refl h⟩

theorem Acts.moved (h : Acts n b r r') (hl : r.raftLog.Numbered) (hn : n) :
    Moved r.raftLog r' := by
  induction h with
  | refl => exact .refl hl
  | tail _ hact ih =>
    have hnum := ih.2.numbered hl
    refine ⟨hl, ih.2.trans ?_⟩
    cases hact with
    | append pending es hs hp happend =>
      exact ((RaftLog.append_mild _ _).of_ok happend) _ hnum (.stamp _ _ _)
    | commit hc => exact hc.moves hnum
    | accept prs hs hm => exact hm hnum hn
    | _ => exact .refl hnum

theorem step_moved (hl : r.raftLog.Numbered) (hm : m.Numbered) :
    Yields Other (Moved r.raftLog) (r.step m) :=
  (step_acts (c := True) (fun _ => hm) (fun h => h) fun _ _ => trivial).imp (fun _ h => h.1)
    fun _ h => h.moved hl trivial

theorem tick_moved (hl : r.raftLog.Numbered) (rand : ℕ) :
    Yields Other (Moved r.raftLog) (r.tick rand) :=
  (r.tick_acts rand).imp (fun _ h => h.1) fun _ h => h.moved hl trivial

theorem changed_raftLog (cc : ConfChange) : (r.changed cc).raftLog = r.raftLog := by
  unfold changed
  split_ifs
  · rfl
  · cases cc.type with
    | addNode =>
      simp only [addNode]
      split_ifs <;> rfl
    | _ => rfl

theorem applyConfChange_moved (hl : r.raftLog.Numbered) (cc : ConfChange) :
    Yields Other (Moved r.raftLog) (r.applyConfChange cc) := by
  rw [← @changed_raftLog r cc] at hl ⊢
  exact (r.applyConfChange_acts cc).imp (fun _ h => h.1) fun _ h => h.moved hl trivial

end EtcdCompat.Raft
