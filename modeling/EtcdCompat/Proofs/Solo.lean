import EtcdCompat.Proofs.ClusterStart

/-!
# A cluster of one node

A single node commits an entry once it is in its log, before it is stored, so its run is not one of
the replicated protocol. It is never sent a message, and what it has stored is a prefix of what it
handed out, which is a prefix of its log (`Solo`).
-/

namespace EtcdCompat

open List Cluster Raft

open Consensus (termAt)

theorem Shows.maybeCommit_yields {l : RaftLog} {log stored : List Entry} (h : Shows l log stored)
    (i : ℕ) {t : ℕ} (ht : 0 < t) :
    Yields Benign (fun q => q.2 = l ∨ i ≤ log.length ∧ q.2 = { l with committed := i })
      (l.maybeCommit i t) := by
  rw [RaftLog.maybeCommit]
  split_ifs with hgt
  · by_cases hin : l.dummy ≤ i ∧ i ≤ log.length
    · rw [h.term_eq hin.1 hin.2]
      simp only [RaftLog.zeroTermOnErrCompacted, bind, Except.bind]
      split_ifs
      · rw [h.commitTo_eq hin.2, max_eq_right hgt.le]
        exact .inr ⟨hin.2, rfl⟩
      · exact .inl rfl
    · rw [h.term_out (by omega)]
      simp only [RaftLog.zeroTermOnErrCompacted, bind, Except.bind, if_neg ht.ne]
      exact .inl rfl
  · exact .inl rfl

/-- The terms along the log do not decrease, and end at `t` at most. -/
structure Ascends (log : List Entry) (t : ℕ) : Prop where
  sorted : log.Pairwise fun a b => a.term ≤ b.term
  le : ∀ e ∈ log, e.term ≤ t

namespace Ascends

theorem nil (t : ℕ) : Ascends [] t := ⟨.nil, nofun⟩

theorem mono {log : List Entry} {t t' : ℕ} (h : Ascends log t) (ht : t ≤ t') : Ascends log t' :=
  ⟨h.sorted, fun e he => (h.le e he).trans ht⟩

theorem append {log es : List Entry} {t : ℕ} (h : Ascends log t) (hes : ∀ e ∈ es, e.term = t) :
    Ascends (log ++ es) t := by
  refine ⟨pairwise_append.2 ⟨h.sorted, ?_, fun a ha b hb => ?_⟩, fun e he => ?_⟩
  · exact Pairwise.imp_of_mem (R := fun _ _ => True)
      (fun ha hb _ => (hes _ ha).le.trans (hes _ hb).ge)
      (pairwise_of_forall fun _ _ => trivial)
  · exact (h.le a ha).trans (hes b hb).ge
  · exact (mem_append.1 he).elim (h.le e) fun he => (hes e he).le

end Ascends

/-- The only node `v`, with the log it has and the one it has stored. -/
structure SoloRaft (v : ℕ) (log stored : List Entry) (r : Raft) : Prop where
  id : r.id = v
  prs : r.prs.map Prod.fst = [v]
  msgs : r.msgs = []
  lead : r.state = .follower → r.lead = none_
  leads : r.state = .leader → 0 < r.term
  shows : Shows r.raftLog log stored
  plain : r.raftLog.unstable.snapshot = none
  commit : r.raftLog.committed ≤ log.length
  terms : Ascends log r.term

/-- The node `r'` comes from `r`, its log has grown, and a `Ready` handed out still fits it. -/
def SoloReach (v : ℕ) (log stored : List Entry) (r r' : Raft) : Prop :=
  r'.raftLog.storage = r.raftLog.storage ∧ ∃ log', SoloRaft v log' stored r' ∧ log <+: log' ∧
    ∀ u₀ rl, Flying r.raftLog.unstable log u₀ rl 0 → Flying r'.raftLog.unstable log' u₀ rl 0

variable {v : ℕ} {log stored : List Entry} {r r' : Raft}

namespace SoloReach

theorem of_log (h : SoloRaft v log stored r') (hs : r'.raftLog.storage = r.raftLog.storage)
    (hu : r'.raftLog.unstable = r.raftLog.unstable) : SoloReach v log stored r r' :=
  ⟨hs, log, h, prefix_rfl, fun _ _ hf => hu ▸ hf⟩

theorem refl (h : SoloRaft v log stored r) : SoloReach v log stored r r := of_log h rfl rfl

theorem yields {α : Type} {x : Except Panic α} {g : α → Raft} (hr : SoloReach v log stored r r')
    (hx : ∀ log', SoloRaft v log' stored r' →
      Yields Benign (fun q => SoloReach v log' stored r' (g q)) x) :
    Yields Benign (fun q => SoloReach v log stored r (g q)) x := by
  obtain ⟨h1, log', h2, h3, h4⟩ := hr
  refine (hx log' h2).mono fun q hq => ?_
  obtain ⟨g1, log'', g2, g3, g4⟩ := hq
  exact ⟨g1.trans h1, log'', g2, h3.trans g3, fun u₀ rl hfl => g4 u₀ rl (h4 u₀ rl hfl)⟩

theorem bind {x : Except Panic Raft} {f : Raft → Except Panic Raft}
    (hx : Yields Benign (SoloReach v log stored r) x)
    (hf : ∀ log' r', SoloRaft v log' stored r' →
      Yields Benign (SoloReach v log' stored r') (f r')) :
    Yields Benign (SoloReach v log stored r) (x >>= f) :=
  hx.bind fun r' hr' => hr'.yields (g := fun r'' => r'') fun log' h' => hf log' r' h'

end SoloReach

namespace SoloRaft

variable (h : SoloRaft v log stored r) {es : List Entry} {m : Message}
include h

theorem quorum_eq : r.quorum = 1 := by
  have := congrArg length h.prs
  rw [length_map] at this
  rw [quorum, this]
  simp

theorem others_eq : r.others = [] := by
  rw [others, h.prs, h.id]
  simp

theorem with_ {prs : List (ℕ × Progress)} (hprs : prs.map Prod.fst = r.prs.map Prod.fst) (vote : ℕ)
    (votes : List (ℕ × Bool)) (pendingConf : Bool) (electionElapsed heartbeatElapsed : ℕ) :
    SoloRaft v log stored
      { r with
        prs := prs
        vote := vote
        votes := votes
        pendingConf := pendingConf
        electionElapsed := electionElapsed
        heartbeatElapsed := heartbeatElapsed } :=
  { h with prs := hprs.trans h.prs }

theorem updatePr (id : ℕ) (f : Progress → Progress) :
    SoloRaft v log stored (r.updatePr id f) := by
  refine h.with_ ?_ r.vote r.votes r.pendingConf r.electionElapsed r.heartbeatElapsed
  rw [map_map]
  refine map_congr_left fun q _ => ?_
  simp only [Function.comp]
  split_ifs <;> rfl

theorem becomeFollower : SoloRaft v log stored (r.becomeFollower r.term none_) := by
  refine { h with prs := ?_, lead := fun _ => rfl, leads := nofun }
  exact Eq.trans (by simp [Raft.becomeFollower, Raft.reset]) h.prs

theorem maybeCommit (ht : 0 < r.term) :
    Yields Benign (fun q => SoloReach v log stored r q.2) r.maybeCommit := by
  rw [Raft.maybeCommit]
  split
  · exact not_false
  · refine (h.shows.maybeCommit_yields _ ht).bind fun q hq => ?_
    rcases hq with hq | ⟨hle, hq⟩
    · simp only [hq]
      exact .refl h
    · simp only [hq]
      exact .of_log { h with shows := h.shows.withCommitted _, commit := hle } rfl rfl

theorem append (hne : es ≠ []) :
    ∃ l, r.raftLog.append (stamp r.term (r.raftLog.lastIndex + 1) es) = .ok l ∧
      SoloReach v log stored r { r with raftLog := l } := by
  have hlast := h.shows.lastIndex_eq
  set ents := stamp r.term (r.raftLog.lastIndex + 1) es with hents
  have hne' : ents ≠ [] := by
    intro h0
    have hlen := length_stamp r.term (r.raftLog.lastIndex + 1) es
    rw [← hents, h0] at hlen
    exact hne (length_eq_zero_iff.1 hlen.symm)
  have hidx : Indexed (log.take log.length ++ ents) := by
    intro j e he
    rw [take_length] at he
    rcases lt_or_ge j log.length with hj | hj
    · rw [getElem?_append_left hj] at he
      exact h.shows.indexed j e he
    · rw [getElem?_append_right hj] at he
      have := (of_getElem?_stamp he).2
      omega
  obtain ⟨u, h1, h2, h3, h4, h5⟩ :=
    h.shows.append_eq hne' le_rfl h.shows.dummy_le_length h.commit hidx
  rw [take_length] at h5
  refine ⟨_, h1, rfl, log ++ ents, ⟨h.id, h.prs, h.msgs, h.lead, h.leads, h5, h2.trans h.plain, ?_,
    h.terms.append fun e he => term_of_mem_stamp he⟩, prefix_append ..,
      fun u₀ rl hf => ?_⟩
  · rw [length_append]
    exact h.commit.trans (Nat.le_add_right ..)
  · refine hf.append h2 h3 h4 (k := log.length) ?_ (Nat.zero_le _) ?_ ?_
    · rw [take_length, take_left']
      rfl
    · rw [length_append]
      have := length_pos_iff.2 hne'
      omega
    · intro s hs
      rw [h.plain] at hs
      cases hs

theorem appendEntry (ht : 0 < r.term) (hne : es ≠ []) :
    Yields Benign (SoloReach v log stored r) (r.appendEntry es) := by
  obtain ⟨l, h1, h2⟩ := h.append hne
  rw [Raft.appendEntry, h1]
  simp only [bind, Except.bind]
  split
  · exact not_false
  · have hcommit := h2.yields (g := Prod.snd) fun log' h' =>
      (h'.updatePr r.id fun pr => (pr.maybeUpdate l.lastIndex).2).maybeCommit ht
    exact hcommit.bind fun q hq => hq

theorem handleProp (ht : 0 < r.term) :
    Yields Benign (SoloReach v log stored r) (r.handleProp m) := by
  rw [Raft.handleProp]
  split_ifs with hnil
  · exact not_false
  · exact .refl h
  · have hne := NodeOK.filterConf_ne_nil (b := r.pendingConf) hnil
    generalize Raft.filterConf r.pendingConf m.entries = q at hne ⊢
    obtain ⟨b, es⟩ := q
    have hb := h.with_ rfl r.vote r.votes b r.electionElapsed r.heartbeatElapsed
    refine SoloReach.bind (hb.appendEntry ht hne) fun log' r' h' => ?_
    rw [Raft.bcastAppend, h'.others_eq]
    exact .refl h'

theorem becomeLeader (hc : r.state ≠ .follower) (ht : 0 < r.term) :
    Yields Benign (SoloReach v log stored r) r.becomeLeader := by
  have happend : ∀ b, Yields Benign (SoloReach v log stored r) (Raft.appendEntry
      { r.reset r.term with lead := r.id, state := .leader, pendingConf := b }
      [{ data := none }]) := fun b => by
    refine appendEntry
      (r := { r.reset r.term with lead := r.id, state := .leader, pendingConf := b })
      { h with prs := ?_, lead := nofun, leads := fun _ => ht } ht (cons_ne_nil _ _)
    exact Eq.trans (by simp [Raft.reset]) h.prs
  rw [Raft.becomeLeader, if_neg hc]
  simp only []
  rcases h.shows.entries_cases (r.raftLog.committed + 1) noLimit with
    ⟨_, he⟩ | ⟨_, he⟩ | ⟨_, _, es, he, _⟩ <;>
    rw [show (r.reset r.term).raftLog = r.raftLog from rfl, he]
  · exact happend false
  · exact not_false
  · exact (NodeOK.pendingConfOf_benign _ es).bind fun b _ => happend b

theorem campaign : Yields Benign (SoloReach v log stored r) r.campaign := by
  rw [Raft.campaign, Raft.becomeCandidate]
  split_ifs
  · exact not_false
  · have hcand : SoloRaft v log stored
        { r.reset (r.term + 1) with vote := r.id, state := .candidate } := by
      refine { h with
        prs := ?_
        lead := fun hs => by cases hs
        leads := fun hs => by cases hs
        terms := h.terms.mono (Nat.le_succ _) }
      exact Eq.trans (by simp [Raft.reset]) h.prs
    have hpoll := hcand.with_ rfl r.id [(r.id, true)] false 0 0
    have hlead := hpoll.becomeLeader (fun hs => by cases hs) (Nat.succ_pos _)
    simp only [bind, Except.bind]
    split_ifs with hq
    · exact hlead
    · exact absurd hpoll.quorum_eq hq

theorem stepLeader (hr : r.state = .leader) (hm : isInput m = true) :
    Yields Benign (SoloReach v log stored r) (r.stepLeader m) := by
  have hstay : SoloReach v log stored r r := .refl h
  rw [Raft.stepLeader]
  rw [isInput, isLocalMsg] at hm
  cases ht : m.type <;> simp [ht] at hm ⊢
  case beat =>
    rw [Raft.bcastHeartbeat, h.others_eq]
    exact hstay
  case prop => exact h.handleProp (h.leads hr)
  case checkQuorum =>
    have hmap : SoloRaft v log stored r.checkQuorumActive.2 := by
      refine h.with_ ?_ r.vote r.votes r.pendingConf r.electionElapsed r.heartbeatElapsed
      rw [map_map]
      refine map_congr_left fun q _ => ?_
      simp only [Function.comp]
      split_ifs <;> rfl
    generalize hq : r.checkQuorumActive = q at hmap ⊢
    obtain ⟨active, r'⟩ := q
    have hlog : r'.raftLog = r.raftLog := by
      rw [Raft.checkQuorumActive, Prod.mk.injEq] at hq
      rw [← hq.2]
    cases active
    · exact .of_log hmap.becomeFollower (congrArg _ hlog) (congrArg _ hlog)
    · exact .of_log hmap (congrArg _ hlog) (congrArg _ hlog)
  case snapStatus =>
    split
    · exact hstay
    · rw [Raft.handleSnapStatus]
      split_ifs
      · exact hstay
      · exact .of_log (h.updatePr ..) rfl rfl
      · exact .of_log (h.updatePr ..) rfl rfl
  case unreachable =>
    split
    · exact hstay
    · rw [Raft.handleUnreachable]
      split_ifs
      · exact .of_log (h.updatePr ..) rfl rfl
      · exact hstay
  case hup => exact hstay

theorem step (hm : isInput m = true) :
    Yields Benign (SoloReach v log stored r) (r.step m) := by
  have hstay : SoloReach v log stored r r := .refl h
  have hterm : m.term = 0 := by
    rw [isInput, Bool.and_eq_true, decide_eq_true_eq] at hm
    exact hm.1
  rw [Raft.step]
  by_cases hhup : m.type = .hup
  · rw [if_pos hhup]
    split_ifs
    · exact h.campaign
    · exact hstay
  rw [if_neg hhup, if_pos hterm, Raft.stepFunc]
  split
  · rw [Raft.stepFollower]
    rw [isInput, isLocalMsg] at hm
    cases ht : m.type <;> simp [ht] at hm ⊢
    case prop =>
      rw [if_pos (h.lead ‹_›)]
      exact hstay
    all_goals exact hstay
  · rw [Raft.stepCandidate]
    rw [isInput, isLocalMsg] at hm
    cases ht : m.type <;> simp [ht] at hm ⊢
    all_goals exact hstay
  · exact h.stepLeader ‹_› hm

theorem tick (rand : ℕ) : Yields Benign (SoloReach v log stored r) (r.tick rand) := by
  have helapsed : ∀ {r' : Raft} {log'}, SoloRaft v log' stored r' → ∀ i j,
      SoloRaft v log' stored { r' with electionElapsed := i, heartbeatElapsed := j } :=
    fun h' i j => h'.with_ rfl _ _ _ i j
  have hquorum : ∀ {r' : Raft} {log'}, SoloRaft v log' stored r' →
      Yields Benign (SoloReach v log' stored r') r'.tickQuorum := by
    intro r' log' h'
    rw [Raft.tickQuorum]
    dsimp only
    split_ifs
    · exact (helapsed h' 0 r'.heartbeatElapsed).step (by rfl)
    · exact .of_log (helapsed h' 0 r'.heartbeatElapsed) rfl rfl
    · exact .refl h'
  rw [Raft.tick]
  split
  · rw [Raft.tickHeartbeat]
    refine SoloReach.bind (hquorum (helapsed h _ _)) fun log' r' h' => ?_
    split_ifs
    · exact .refl h'
    · exact (helapsed h' r'.electionElapsed 0).step (by rfl)
    · exact .refl h'
  · rw [Raft.tickElection]
    dsimp only
    split_ifs
    · exact .of_log (helapsed h 0 r.heartbeatElapsed) rfl rfl
    · exact (helapsed h 0 r.heartbeatElapsed).step (by rfl)
    · exact .of_log (helapsed h _ r.heartbeatElapsed) rfl rfl

end SoloRaft

/-- What the only node `v` has stored. -/
structure SoloKept (v : ℕ) (stored : List Entry) (ms : MemoryStorage) : Prop where
  store : Stores ms stored
  indexed : Indexed stored
  terms : Ascends stored ms.hardState.term
  conf : ms.snapshot.metadata.confState.nodes = [] ∨ ms.snapshot.metadata.confState.nodes = [v]

/-- The `Ready` its driver works on, of the unstable part `u₀` and the log `rl`. -/
structure SoloFlight (log stored : List Entry) (n : Node) (f : Flight) (u₀ : Unstable)
    (rl : List Entry) : Prop where
  plain : u₀.snapshot = none
  entries : f.rd.entries = u₀.entries
  snapshot : f.rd.snapshot = {}
  messages : f.rd.messages = []
  ahead : rl <+: log
  flying : Flying n.raft.raftLog.unstable log u₀ rl 0
  last : n.prevLastUnstable = if u₀.entries = [] then none else
    some (rl.length, termAt Entry.term rl rl.length)
  unsaved : f.saved = false →
    Shows { storage := n.raft.raftLog.storage, unstable := u₀ } rl stored ∧ stored <+: rl ∧ ∀ t,
      t = (if isEmptyHardState f.rd.hardState then
      n.raft.raftLog.storage.hardState else f.rd.hardState).term →
      Ascends rl t ∧ n.prevHardSt.term ≤ t
  saved : f.saved = true → stored = rl ∧ n.prevHardSt.term ≤ n.raft.raftLog.storage.hardState.term

structure SoloDriver (log stored : List Entry) (n : Node) (fl : Option Flight) : Prop where
  ahead : stored <+: log
  advancec : n.advancec = fl.isSome
  idle : fl = none → n.prevLastUnstable = none ∧
    n.prevHardSt.term ≤ n.raft.raftLog.storage.hardState.term
  flight : ∀ f, fl = some f → ∃ u₀ rl, SoloFlight log stored n f u₀ rl

def Solo (v : ℕ) : Member → Prop
  | .down ms why => (∃ stored, SoloKept v stored ms) ∧ ∀ e, why = some e → Benign e
  | .up n fl _ => ∃ log stored, SoloRaft v log stored n.raft ∧
      SoloKept v stored n.raft.raftLog.storage ∧ SoloDriver log stored n fl

namespace Solo

variable {n : Node} {fl : Option Flight} (islead : Bool)

theorem reach {x : Except Panic Raft} (hk : SoloKept v stored n.raft.raftLog.storage)
    (hd : SoloDriver log stored n fl) (hx : Yields Benign (SoloReach v log stored n.raft) x) :
    Yields Benign (Solo v) (do return .up { n with raft := ← x } fl islead) := by
  refine hx.bind fun r hr => ?_
  obtain ⟨hs, log', h1, h2, h3⟩ := hr
  refine ⟨log', stored, h1, hs.symm ▸ hk, hd.ahead.trans h2, hd.advancec, fun hfl => ?_,
    fun f hf => ?_⟩
  · exact ⟨(hd.idle hfl).1, hs.symm ▸ (hd.idle hfl).2⟩
  · obtain ⟨u₀, rl, g⟩ := hd.flight f hf
    refine ⟨u₀, rl, g.plain, g.entries, g.snapshot, g.messages, g.ahead.trans h2,
      h3 u₀ rl g.flying, g.last, fun hsaved => ?_, fun hsaved => ?_⟩
    · simp only [hs]
      exact g.unsaved hsaved
    · simp only [hs]
      exact g.saved hsaved

variable (hr : SoloRaft v log stored n.raft)
include hr

theorem hard_ready (hterm : n.prevHardSt.term ≤ n.raft.raftLog.storage.hardState.term)
    {hst : HardState}
    (hhst : hst = if n.raft.hardState ≠ n.prevHardSt then n.raft.hardState else {}) :
    ∀ t, t = (if isEmptyHardState hst then n.raft.raftLog.storage.hardState else hst).term →
      Ascends log t ∧ (if isEmptyHardState hst then n.prevHardSt else hst).term ≤ t := by
  rintro t rfl
  split_ifs at hhst with hne
  · split_ifs with hemp
    · have hempty : n.raft.hardState = {} := hhst ▸ beq_iff_eq.1 hemp
      have hzero : n.raft.term = 0 := congrArg HardState.term hempty
      exact ⟨hr.terms.mono (by omega), hterm⟩
    · subst hhst
      exact ⟨hr.terms, le_rfl⟩
  · have heq : n.raft.hardState = n.prevHardSt := not_not.1 hne
    subst hhst
    have hemp : isEmptyHardState {} = true := rfl
    exact ⟨hr.terms.mono ((congrArg HardState.term heq).trans_le hterm), hterm⟩

theorem awaiting {f : Flight} {u₀ : Unstable} (hf : SoloFlight log stored n f u₀ stored) :
    Awaiting n n.raft.raftLog log u₀ stored 0 := by
  refine ⟨hr.shows, hf.flying, fun s hs => ?_, hf.last,
    fun _ _ => (prefix_iff_eq_take.1 hf.ahead).symm, fun s hs => ?_⟩
  · rw [hf.plain] at hs
    cases hs
  · rw [hr.plain] at hs
    cases hs

section

variable (hk : SoloKept v stored n.raft.raftLog.storage)
include hk

theorem ready (hd : SoloDriver log stored n fl) :
    Yields Benign (Solo v) (readyMember n fl islead) := by
  cases fl with
  | some f => exact ⟨_, _, hr, hk, hd⟩
  | none =>
    obtain ⟨es, hes, -⟩ := hr.shows.nextEnts_eq hr.commit
    rcases readyMember_cases hes hd.advancec islead with h | ⟨rd, hrd, h⟩ <;> rw [h]
    · exact ⟨_, _, hr, hk, hd⟩
    · rw [newReady, hes] at hrd
      cases hrd
      obtain ⟨hlast, hterm⟩ := hd.idle rfl
      refine ⟨log, stored, { hr with msgs := rfl }, hk, hd.ahead, rfl, (fun hfl => by cases hfl),
        fun f hf => ?_⟩
      cases hf
      refine ⟨n.raft.raftLog.unstable, log, hr.plain, rfl, ?_, hr.msgs, prefix_rfl,
        .refl _ _ _, hr.shows.prevLastUnstable_accept hlast rfl, fun _ => ?_,
        (fun hsv => by cases hsv)⟩
      · simp [hr.plain]
      · exact ⟨(hr.shows.withCommitted 0).withApplied 0, hd.ahead, hard_ready hr hterm rfl⟩

theorem handed {rd : Ready} {u₀ : Unstable} {rl : List Entry}
    (hf : SoloFlight log stored n { rd := rd } u₀ rl) :
    Unsaved n.raft.raftLog log stored u₀ rl 0 rd := by
  obtain ⟨hshows, hpre, -⟩ := hf.unsaved rfl
  refine ⟨hr.shows, (hshows.withCommitted _).withApplied _, hf.flying, fun s hs => ?_,
    fun hlen => hpre.eq_of_length_le (hlen.le.trans hk.store.dummy), hf.entries, ?_⟩
  · rw [hf.plain] at hs
    cases hs
  · rw [hf.plain, hf.snapshot]
    rfl

theorem save (hd : SoloDriver log stored n fl) :
    Yields Benign (Solo v) (saveMember n fl islead) := by
  rcases fl with _ | ⟨rd, _ | _⟩
  · exact ⟨_, _, hr, hk, hd⟩
  · obtain ⟨u₀, rl, hf⟩ := hd.flight _ rfl
    obtain ⟨hshows, -, hterms⟩ := hf.unsaved rfl
    obtain ⟨ms, h1, h2, h3, h4, -, h6⟩ := (handed hr hk hf).persist
    obtain ⟨hasc, hprev⟩ := hterms _ rfl
    rw [saveMember, h1]
    refine ⟨log, rl, { hr with shows := h6 }, ⟨h2, hshows.indexed, ?_, ?_⟩, hf.ahead,
      hd.advancec, nofun, fun f hf' => ?_⟩
    · rw [show (n.withStorage ms).raft.raftLog.storage = ms from rfl, h3]
      exact hasc
    · rw [show (n.withStorage ms).raft.raftLog.storage = ms from rfl, h4, hf.plain]
      exact hk.conf
    · cases hf'
      refine ⟨u₀, rl, { hf with unsaved := nofun, saved := fun _ => ⟨rfl, ?_⟩ }⟩
      rw [show (n.withStorage ms).raft.raftLog.storage = ms from rfl, h3]
      exact hprev
  · exact ⟨_, _, hr, hk, hd⟩

theorem advance {rd : Ready} (hd : SoloDriver log stored n (some { rd := rd, saved := true })) :
    Yields Benign (fun n' => Solo v (.up n' none islead)) n.advance := by
  obtain ⟨u₀, rl, hf⟩ := hd.flight _ rfl
  obtain ⟨rfl, hterm⟩ := hf.saved rfl
  have hadv : n.advancec = true := hd.advancec
  rw [Node.advance, hadv]
  refine (advanceApplied_yields n).bind fun l hl => ?_
  obtain ⟨i, -, rfl⟩ := hl
  obtain ⟨u, hu, hshows, hsnap, -⟩ := ((awaiting hr hf).withApplied i).advance
  simp only [hu]
  refine ⟨log, stored, { hr with shows := hshows, plain := hsnap.trans ?_ }, hk, hd.ahead, rfl,
    fun _ => ⟨rfl, hterm⟩, (fun _ hf => by cases hf)⟩
  split_ifs
  · rfl
  · exact hr.plain

end

theorem withStorage {ms : MemoryStorage}
    (hd : SoloDriver log stored n fl) (hk : SoloKept v stored ms)
    (hhard : ms.hardState = n.raft.raftLog.storage.hardState)
    (hshows : ∀ {l : RaftLog} {log' : List Entry}, stored <+: log' → Shows l log' stored →
      l.storage = n.raft.raftLog.storage → Shows { l with storage := ms } log' stored) :
    Solo v (.up (n.withStorage ms) fl islead) := by
  refine ⟨log, stored, { hr with shows := hshows hd.ahead hr.shows rfl }, hk, hd.ahead,
    hd.advancec, fun hfl => ?_, fun f hf => ?_⟩
  · exact ⟨(hd.idle hfl).1, (hd.idle hfl).2.trans_eq (congrArg HardState.term hhard.symm)⟩
  · obtain ⟨u₀, rl, g⟩ := hd.flight f hf
    refine ⟨u₀, rl, { g with unsaved := fun hsaved => ?_, saved := fun hsaved => ?_ }⟩
    · obtain ⟨h1, h2, h3⟩ := g.unsaved hsaved
      refine ⟨hshows h2 h1 rfl, h2, ?_⟩
      rw [← hhard] at h3
      exact h3
    · exact ⟨(g.saved hsaved).1,
        (g.saved hsaved).2.trans_eq (congrArg HardState.term hhard.symm)⟩

variable (hk : SoloKept v stored n.raft.raftLog.storage)
include hk

variable (hd : SoloDriver log stored n fl)
include hd

theorem compact (i : ℕ) : Yields Benign (Solo v) (compactMember i n fl islead) := by
  rw [compactMember]
  split_ifs
  · exact ⟨_, _, hr, hk, hd⟩
  · rcases hk.store.compact_cases hk.indexed i with
      hc | hc | ⟨ms, hc, h1, h2, _, h4, h5, h6⟩ <;> rw [hc]
    · exact ⟨_, _, hr, hk, hd⟩
    · exact not_false
    · refine withStorage islead hr hd ⟨h1, hk.indexed, h6 ▸ hk.terms, h5 ▸ hk.conf⟩ h6
        fun hpre hl _ => hl.of_compact h1 h2 (h4.trans hpre.length_le) ?_
      exact take_eq_of_prefix hpre h4

theorem createSnapshot (i : ℕ) (data : Option Bytes) :
    Yields Benign (Solo v) (createSnapshotMember [v] i data n fl islead) := by
  rw [createSnapshotMember]
  split_ifs
  · exact ⟨_, _, hr, hk, hd⟩
  · rcases hk.store.createSnapshot_cases i (some { nodes := [v] }) data with
      hc | hc | hc | ⟨sn, hc, _, _, _, h4⟩ <;> rw [hc]
    · exact ⟨_, _, hr, hk, hd⟩
    · exact not_false
    · exact not_false
    · refine withStorage islead hr hd
        ⟨⟨hk.store.dummy, hk.store.term, hk.store.ents⟩, hk.indexed, hk.terms,
          .inr (congrArg ConfState.nodes h4)⟩ rfl fun _ hl hst => ?_
      rw [← hst]
      exact hl.of_snapshot sn

theorem shuffle (ids : List ℕ) : Solo v (shuffleMember ids n fl islead) := by
  rw [shuffleMember]
  split_ifs with hperm
  · have hkeys := keys_shuffle hperm
    rw [hr.prs] at hperm
    exact reach islead (x := .ok _) hk hd
      (.of_log { hr with prs := hkeys.trans (perm_singleton.1 hperm) } rfl rfl)
  · exact ⟨_, _, hr, hk, hd⟩

end Solo

section Start

variable {ms : MemoryStorage} {σ : Setup}

namespace SoloKept

variable {c : Config}

theorem newRaft_yields (hk : SoloKept v stored ms) (hid : c.id = v) (hms : c.storage = ms)
    (hpeers : c.peers = if ms.snapshot.metadata.confState.nodes = [] then [v] else []) :
    Yields Benign (fun r => SoloRaft v stored stored r ∧ r.raftLog.storage = ms) (newRaft c) := by
  have hnodes : c.nodes = .ok [v] := by
    rw [Config.nodes, hms, hpeers]
    rcases hk.conf with h | h <;> simp [h]
  have hblank : ∀ {k t : ℕ} (vote : ℕ), k ≤ stored.length → Ascends stored t →
      SoloRaft v stored stored { c.blank [v] with
        raftLog := { newLog ms with committed := k }
        term := t
        vote := vote } := fun vote hle ht =>
    ⟨hid, by simp [Config.blank], rfl, fun _ => rfl, (fun hs => by cases hs),
      (Shows.of_newLog hk.store hk.indexed).withCommitted _, rfl, hle, ht⟩
  have hload : Yields Benign (fun r => SoloRaft v stored stored r ∧ r.raftLog.storage = ms)
      ((c.blank [v]).loadHardState ms.hardState) := by
    have hlog : (c.blank [v]).raftLog = newLog ms := by rw [Config.blank, hms]
    rw [loadHardState]
    split_ifs with hemp
    · have hzero : ms.hardState.term = 0 := congrArg HardState.term (beq_iff_eq.1 hemp)
      have h := hblank 0 (show (newLog ms).committed ≤ stored.length from hk.store.dummy)
        (hzero ▸ hk.terms)
      rw [← hlog] at h
      exact ⟨h, by rw [hlog]; rfl⟩
    · rw [loadState]
      split_ifs with hout
      · exact not_false
      · have hlast := (Shows.of_newLog hk.store hk.indexed).lastIndex_eq
        rw [hlog, hlast] at hout
        have h := hblank ms.hardState.vote
          (show ms.hardState.commit ≤ stored.length by omega) hk.terms
        rw [← hlog] at h
        exact ⟨h, by rw [hlog]; rfl⟩
  rw [newRaft]
  split_ifs
  · exact not_false
  rw [hnodes, hms]
  refine hload.bind fun r hr => ?_
  obtain ⟨hr, hst⟩ := hr
  refine (appliedTo_yields r.raftLog c.applied).bind fun l hl => ?_
  obtain ⟨i, rfl⟩ : ∃ i, l = { r.raftLog with applied := i } := by
    rcases hl with rfl | ⟨_, rfl⟩
    · exact ⟨_, rfl⟩
    · exact ⟨_, rfl⟩
  have h : SoloRaft v stored stored { r with raftLog := { r.raftLog with applied := i } } :=
    { hr with shows := hr.shows.withApplied i }
  exact ⟨h.becomeFollower, hst⟩

theorem startNode_yields (hk : SoloKept v stored {}) (hid : c.id = v) (h1 : c.storage = {})
    (h2 : c.peers = []) (h3 : c.applied = 0) (d : Bytes) :
    Yields Benign (fun n => ∃ r log, n = .start r ∧ SoloRaft v log stored r ∧
      r.raftLog.storage = {} ∧ stored = []) (startNode c [(v, d)]) := by
  obtain rfl : stored = [] := hk.store.ents.symm
  have hnodup : ([(v, d)].map Prod.fst).Nodup := nodup_singleton v
  rcases startNode_cases h1 h2 h3 hnodup rfl with
    hnode | ⟨u, prs, b, hnode, g2, g3, g5⟩ <;> rw [hnode]
  · exact not_false
  have hboot : ∀ e ∈ stamp 1 1 [confEntry d], e.term = 1 :=
    fun e he => term_of_mem_stamp he
  exact ⟨_, _, rfl, ⟨hid, g5, rfl, fun _ => rfl, (fun hs => by cases hs), g3.withCommitted _, g2,
    le_rfl, (Ascends.nil 1).append hboot⟩, rfl, rfl⟩

theorem start_yields (hk : SoloKept v stored ms) (hσ : σ.peers = [v]) (applied : ℕ) :
    Yields Benign (fun n => Solo v (.up n none false)) (σ.start v ms applied) := by
  have hdriver : ∀ {r : Raft} {log}, r.raftLog.storage = ms → SoloRaft v log stored r →
      stored <+: log → Solo v (.up (.start r) none false) := fun hst hr hpre =>
    ⟨_, stored, hr, hst ▸ hk, hpre, rfl, fun _ => ⟨rfl, Nat.zero_le _⟩, nofun⟩
  have hrestart : ∀ applied, Yields Benign (fun n => Solo v (.up n none false))
      (restartNode (σ.config v ms applied)) := by
    intro applied
    refine (hk.newRaft_yields (c := σ.config v ms applied) rfl rfl ?_).bind fun r hr => ?_
    · rw [Setup.config, hσ]
    · exact hdriver hr.2 hr.1 prefix_rfl
  rw [Setup.start]
  split_ifs with hms
  · subst hms
    split
    · exact hrestart 0
    · rename_i d _
      rw [hσ]
      refine (hk.startNode_yields (c := { σ.config v {} 0 with peers := [] }) rfl rfl rfl rfl
        (d v)).mono fun n hn => ?_
      obtain ⟨r, log, rfl, h1, h2, rfl⟩ := hn
      exact hdriver h2 h1 nil_prefix
  · exact hrestart applied

end SoloKept

end Start

/-- In a cluster of one no message is ever sent, and the node fits. -/
structure SoloSim (v : ℕ) (c : Cluster) : Prop where
  member : ∀ u, Solo v (c.member u)
  net : c.net = []

namespace SoloSim

variable {σ : Setup} {c : Cluster} {u : ℕ}

theorem init (v : ℕ) : SoloSim v {} :=
  ⟨fun _ => ⟨⟨[], ⟨le_rfl, rfl, rfl⟩, nofun, .nil _, .inl rfl⟩, nofun⟩, rfl⟩

variable (h : SoloSim v c)
include h

theorem setMember {mb : Member} (hmb : Solo v mb) : SoloSim v (c.setMember u mb) := by
  refine ⟨fun w => ?_, h.net⟩
  rcases eq_or_ne w u with rfl | hne
  · rw [setMember_self]
    exact hmb
  · rw [setMember_of_ne hne]
    exact h.member w

theorem onNode {f : Node → Option Flight → Bool → Except Panic Member}
    (hf : ∀ n fl islead log stored, SoloRaft v log stored n.raft →
      SoloKept v stored n.raft.raftLog.storage → SoloDriver log stored n fl →
      Yields Benign (Solo v) (f n fl islead)) : SoloSim v (c.onNode u f) := by
  have hu := h.member u
  rw [Cluster.onNode]
  cases hmb : c.member u with
  | down ms why => exact h
  | up n fl islead =>
    rw [hmb] at hu
    obtain ⟨log, stored, hr, hk, hd⟩ := hu
    have hfn := hf n fl islead log stored hr hk hd
    dsimp only
    cases hfr : f n fl islead with
    | ok mb =>
      rw [hfr] at hfn
      exact h.setMember hfn
    | error p =>
      rw [hfr] at hfn
      exact h.setMember ⟨⟨stored, hk⟩, fun e he => Option.some.inj he ▸ hfn⟩

theorem start (hσ : σ.peers = [v]) (u applied : ℕ) :
    SoloSim v (step σ c (.start u applied)) := by
  refine h.setMember ?_
  have hu := h.member u
  cases hmb : c.member u with
  | up n fl islead =>
    rw [hmb] at hu
    exact hu
  | down ms why =>
    rw [hmb] at hu
    rw [startMember]
    split_ifs with hpeer
    · rw [hσ, mem_singleton] at hpeer
      subst hpeer
      obtain ⟨⟨stored, hk⟩, _⟩ := id hu
      have hstart := hk.start_yields hσ applied
      cases hs : σ.start u ms applied with
      | ok n =>
        rw [hs] at hstart
        exact hstart
      | error p =>
        rw [hs] at hstart
        exact ⟨⟨stored, hk⟩, fun e he => Option.some.inj he ▸ hstart⟩
    · exact hu

theorem sendable (early : Bool) (u : ℕ) : Cluster.sendable early (c.member u) = [] := by
  have hu := h.member u
  rcases hmb : c.member u with _ | ⟨n, _ | ⟨rd, saved⟩, islead⟩ <;> rw [hmb] at hu
  · rfl
  · rfl
  · obtain ⟨log, stored, _, _, hd⟩ := hu
    obtain ⟨u₀, rl, hf⟩ := hd.flight _ rfl
    rw [Cluster.sendable]
    split_ifs
    · exact hf.messages
    · rfl

theorem recv {m : Message} (hm : isInput m = true) :
    SoloSim v (c.onNode u fun n fl islead => do return .up (← n.recv m) fl islead) := by
  refine h.onNode fun n fl islead log stored hr hk hd => ?_
  rw [Node.recv]
  split_ifs
  · have hstep := hr.step (m := { m with from_ := n.raft.id }) hm
    simpa only [bind_assoc, pure_bind] using Solo.reach islead hk hd hstep
  · simpa only [bind_assoc, pure_bind] using Solo.reach islead hk hd (hr.step hm)
  · exact ⟨log, stored, hr, hk, hd⟩

theorem step (hσ : σ.peers = [v]) (ev : Cluster.Event) : SoloSim v (Cluster.step σ c ev) := by
  cases ev with
  | start u applied => exact h.start hσ u applied
  | recv u m =>
    rw [Cluster.step, h.net, if_neg (fun hm => nomatch hm.1)]
    exact h
  | input u m =>
    rw [Cluster.step]
    split_ifs with hm
    · exact h.recv hm
    · exact h
  | tick u rand =>
    refine h.onNode fun n fl islead log stored hr hk hd => ?_
    rw [Node.tick]
    simpa only [bind_assoc, pure_bind] using Solo.reach islead hk hd (hr.tick rand)
  | ready u => exact h.onNode fun n fl islead log stored hr hk hd => Solo.ready islead hr hk hd
  | save u =>
    obtain ⟨h1, h2⟩ := h.onNode (u := u) fun n fl islead log stored hr hk hd =>
      Solo.save islead hr hk hd
    exact ⟨h1, h2⟩
  | send u =>
    rw [Cluster.step, h.sendable, append_nil]
    exact h
  | advance u =>
    refine h.onNode fun n fl islead log stored hr hk hd => ?_
    rcases fl with _ | ⟨rd, _ | _⟩
    · exact ⟨log, stored, hr, hk, hd⟩
    · exact ⟨log, stored, hr, hk, hd⟩
    · exact (Solo.advance islead hr hk hd).bind fun _ hn' => hn'
  | createSnapshot u i data =>
    rw [Cluster.step, hσ]
    exact h.onNode fun n fl islead log stored hr hk hd => Solo.createSnapshot islead hr hk hd i data
  | compact u i =>
    exact h.onNode fun n fl islead log stored hr hk hd => Solo.compact islead hr hk hd i
  | resetPendingConf u =>
    rw [Cluster.step]
    refine h.onNode fun n fl islead log stored hr hk hd => ?_
    exact Solo.reach islead (x := .ok _) hk hd (.of_log (hr.with_ rfl _ _ false _ _) rfl rfl)
  | shuffle u ids =>
    rw [Cluster.step]
    refine h.onNode fun n fl islead log stored hr hk hd => ?_
    exact Solo.shuffle islead hr hk hd ids
  | crash u =>
    rw [Cluster.step]
    refine h.onNode fun n fl islead log stored hr hk hd => ?_
    exact ⟨⟨stored, hk⟩, nofun⟩

omit h in
theorem run (hσ : σ.peers = [v]) (evs : List Cluster.Event) : SoloSim v (Cluster.run σ evs) := by
  have hfold : ∀ (evs : List Cluster.Event) {c : Cluster}, SoloSim v c →
      SoloSim v (evs.foldl (Cluster.step σ) c) := by
    intro evs
    induction evs with
    | nil => exact fun h => h
    | cons ev evs ih => exact fun h => ih (h.step hσ ev)
  exact hfold evs (init v)

end SoloSim

end EtcdCompat
