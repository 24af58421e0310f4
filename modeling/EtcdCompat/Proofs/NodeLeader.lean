import EtcdCompat.Proofs.NodeFollower

/-!
# A leader's handlers

What a leader sends is a part of its own log, and what it counts as replicated on another node that
node has stored. It commits an entry of its term when a quorum has it, itself included.
-/

namespace EtcdCompat

open List Raft

open Consensus

variable {σ : Replicated} {a a' : State ℕ Entry} {v : ℕ} {d : Held} {r : Raft} {m : Message}

namespace PrOK

variable {u : ℕ} {pr : Progress}

variable (h : PrOK a v u pr)
include h

theorem maybeUpdate {n : ℕ} (hn : n ≤ (a.mem v).log.length)
    (ha : u ≠ v → n ≤ (a.dur u).acked (a.mem v).term) : PrOK a v u (pr.maybeUpdate n).2 := by
  obtain ⟨h1, h2, h3, h4, h5, h6⟩ := h
  rw [Progress.maybeUpdate]
  by_cases hlt : pr.match_ < n
  · split_ifs with hnext
    · exact ⟨by simp, by simpa using hn, hn, h4, ha, h6⟩
    · exact ⟨h1, h2, hn, h4, ha, h6⟩
  · split_ifs with hnext
    · exact ⟨by simp, by simpa using hn, h3, h4, h5, h6⟩
    · exact ⟨h1, h2, h3, h4, h5, h6⟩

theorem heard (ha : u ≠ v → (a.mem v).term ≤ (a.dur u).term) :
    PrOK a v u { pr with recentActive := true } :=
  { h with active := fun hu _ => ha hu }

theorem withIns (ins : Inflights) : PrOK a v u { pr with ins := ins } :=
  { h with }

theorem pause : PrOK a v u pr.pause :=
  { h with }

theorem resume : PrOK a v u pr.resume :=
  { h with }

theorem snapshotFailure : PrOK a v u pr.snapshotFailure :=
  { h with pending_le := Nat.zero_le _ }

theorem inactive : PrOK a v u { pr with recentActive := false } :=
  { h with active := nofun }

theorem becomeProbe : PrOK a v u pr.becomeProbe := by
  have h1 := h.match_le
  have h2 := h.pending_le
  rw [Progress.becomeProbe]
  split_ifs
  · exact ⟨by simp only; omega, by simp only; omega, h1, Nat.zero_le _, h.acked, nofun⟩
  · exact ⟨by simp only; omega, by simp only; omega, h1, Nat.zero_le _, h.acked, nofun⟩

theorem becomeReplicate : PrOK a v u pr.becomeReplicate :=
  ⟨Nat.le_add_left .., Nat.succ_le_succ h.match_le, h.match_le, Nat.zero_le _, h.acked, nofun⟩

theorem becomeSnapshot {i : ℕ} (hi : i ≤ (a.mem v).log.length) : PrOK a v u (pr.becomeSnapshot i) :=
  { h with pending_le := hi, active := nofun }

theorem maybeDecrTo (rejected last : ℕ) : PrOK a v u (pr.maybeDecrTo rejected last).2 := by
  obtain ⟨h1, h2, h3, h4, h5, h6⟩ := h
  rw [Progress.maybeDecrTo]
  split_ifs with hs hm hn
  · exact ⟨h1, h2, h3, h4, h5, h6⟩
  · exact ⟨Nat.le_add_left .., Nat.succ_le_succ h3, h3, h4, h5, h6⟩
  · exact ⟨h1, h2, h3, h4, h5, h6⟩
  · exact ⟨le_max_right .., by simp only [Progress.resume]; omega, h3, h4, h5, h6⟩

theorem progressUpdated (index : ℕ) : PrOK a v u (Raft.progressUpdated pr index) := by
  rw [Raft.progressUpdated]
  split
  · exact h.becomeReplicate
  · split_ifs
    · exact h.becomeProbe
    · exact h
  · exact h.withIns _

theorem sentEntries {last : ℕ} (hl : last ≤ (a.mem v).log.length) :
    Yields Benign (PrOK a v u) (Raft.sentEntries pr last) := by
  rw [Raft.sentEntries]
  split
  · rw [Inflights.add]
    split_ifs
    · exact not_false
    · exact ⟨Nat.le_add_left .., Nat.succ_le_succ hl, h.match_le, h.pending_le, h.acked, h.active⟩
  · exact h.pause
  · exact not_false

end PrOK

namespace NodeOK

variable {u : ℕ} {pr : Progress}

theorem leading (h : NodeOK σ a v d r) (hs : Inv σ.protocol a) (hr : r.state = .leader) :
    a.leader (a.mem v).term = some v ∧ a.ll (a.mem v).term = (a.mem v).log ∧
      (a.mem v).log.length ≤ bound a (a.mem v) (a.mem v).term := by
  refine hs.leads v ?_
  rw [h.role, hr]
  rfl

theorem settled (hs : Inv σ.protocol a) (v : ℕ) :
    Settled σ a (σ.protocol.counts v) (a.mem v).term (a.mem v).commit := by
  rcases (hs.knownMem v).comm with hc | ⟨T, i, hT, hc, hi, _⟩
  · exact .inl hc.le
  · exact .inr ⟨T, i, hT, hc, hi⟩

variable (h : NodeOK σ a v d r)
include h

variable (hs : Inv σ.protocol a)
include hs

theorem sendEntries (hr : r.state = .leader) (hu : u ≠ v) (hpr : PrOK a v u pr) {ents : List Entry}
    (hents : ents <+: (a.mem v).log.drop (pr.next - 1)) :
    Yields Benign (fun r' => NodeOK σ a v d r' ∧ r'.state = .leader)
      (r.sendEntries u pr (termAt Entry.term (a.mem v).log (pr.next - 1)) ents) := by
  obtain ⟨hlead, hll, hbound⟩ := h.leading hs hr
  have hpos := h.termPos hs (by simp [hlead])
  have hlen : pr.next - 1 + ents.length ≤ (a.mem v).log.length := by
    have := hpr.next_le
    have := hents.length_le
    rw [List.length_drop] at this
    omega
  have hmsg : ∀ {r' : Raft}, NodeOK σ a v d r' → r'.state = .leader → r'.term = r.term →
      NodeOK σ a v d (r'.send
        { type := .app
          to_ := u
          index := pr.next - 1
          logTerm := termAt Entry.term (a.mem v).log (pr.next - 1)
          entries := ents
          commit := r.raftLog.committed }) := by
    intro r' h' hr' ht'
    refine h'.send nofun hu (ht' ▸ hpos) ⟨hlead, hlen.trans hbound, ?_, ?_, ?_, ?_⟩ fun _ => trivial
    · rw [hll]
      exact hlen
    · simp only [hll]
      rw [List.drop_take, Nat.add_sub_cancel_left]
      exact List.prefix_iff_eq_take.1 hents
    · rw [hll]
    · rw [h.log.committed]
      exact settled hs v
  rw [Raft.sendEntries]
  cases hlast : ents.getLast? with
  | none => exact ⟨hmsg h hr rfl, hr⟩
  | some e =>
    have hidx : e.index ≤ (a.mem v).log.length := by
      have hmem : e ∈ (a.mem v).log :=
        List.mem_of_mem_drop (hents.subset (List.mem_of_getLast? hlast))
      obtain ⟨j, hj⟩ := List.getElem?_of_mem hmem
      rw [h.log.shows.indexed j e hj]
      exact (List.getElem?_eq_some_iff.1 hj).1
    refine (hpr.sentEntries hidx).bind fun pr' hpr' => ?_
    exact ⟨hmsg (h.updatePr fun _ _ _ => hpr') hr rfl, hr⟩

theorem snapshot_eq (hne : r.raftLog.snapshot.metadata.index ≠ 0) :
    r.raftLog.snapshot.metadata.index ≤ (a.mem v).commit ∧
      r.raftLog.snapshot.metadata.term =
        termAt Entry.term (a.mem v).log r.raftLog.snapshot.metadata.index ∧
      r.raftLog.snapshot.metadata.confState.nodes = σ.peers := by
  rw [RaftLog.snapshot] at hne ⊢
  cases hsn : r.raftLog.unstable.snapshot with
  | some s =>
    rw [Option.getD_some]
    obtain ⟨_, h2, _, h4⟩ := h.log.snap s hsn
    exact ⟨h2, (h.log.shows.pending s hsn).2, h4⟩
  | none =>
    rw [hsn, Option.getD_none, h.log.storage] at hne
    rw [Option.getD_none, h.log.storage]
    rcases h.kept.snap with ⟨h0, _⟩ | ⟨h1, h2, h3, h4⟩
    · exact absurd h0 hne
    · have hdur := (hs.durMem v).commit
      have hhard := h.kept.commit_le
      refine ⟨by omega, ?_, h4⟩
      rw [h3]
      exact h.kept.termAt_eq hs (hs.knownMem v) (hs.mem v).log.boot hdur h2

variable (hr : r.state = .leader)
include hr

theorem sendSnapshot (hu : u ≠ v) (hpr : PrOK a v u pr) :
    Yields Benign (fun r' => NodeOK σ a v d r' ∧ r'.state = .leader) (r.sendSnapshot u pr) := by
  obtain ⟨hlead, hll, hbound⟩ := h.leading hs hr
  have hpos := h.termPos hs (by simp [hlead])
  rw [Raft.sendSnapshot]
  by_cases hact : pr.recentActive = true
  · simp [hact]
    by_cases hemp : isEmptySnap r.raftLog.snapshot = true
    · rw [if_pos hemp]
      exact not_false
    · rw [if_neg hemp]
      have hne : r.raftLog.snapshot.metadata.index ≠ 0 := by
        simpa [isEmptySnap] using hemp
      obtain ⟨h1, h2, h3⟩ := h.snapshot_eq hs hne
      have hlen := h1.trans (hs.knownMem v).le
      refine ⟨(h.updatePr fun _ _ hp => hp.becomeSnapshot hlen).send (fun ht => by cases ht) hu
        hpos ?_ fun _ => trivial, hr⟩
      refine ⟨hlead, Nat.pos_of_ne_zero hne, hlen.trans hbound, ?_, ?_, ?_, h3, hpr.active hu hact⟩
      · rw [hll]
        exact hlen
      · rw [hll]
        exact h2
      · exact (settled hs v).le h1
  · simp [hact]
    exact ⟨h, hr⟩

theorem sendAppend (hu : u ≠ v) :
    Yields Benign (fun r' => NodeOK σ a v d r' ∧ r'.state = .leader) (r.sendAppend u) := by
  rw [Raft.sendAppend]
  cases hpr : r.pr u with
  | none => exact not_false
  | some pr =>
    have hok : PrOK a v u pr := h.leads hr _ (mem_of_pr hpr)
    have hnext := hok.next_pos
    have hd := h.log.shows.dummy_le_length
    simp only []
    split_ifs
    · exact ⟨h, hr⟩
    · rcases h.log.shows.entries_cases pr.next r.maxMsgSize with ⟨h1, h2⟩ | ⟨h1, h2⟩ |
        ⟨h1, h2, es, h3, h4, _⟩
      · rw [h.log.shows.term_ge (i := pr.next - 1) (by omega), h2]
        exact h.sendEntries hs hr hu hok nil_prefix
      · rw [h.log.shows.term_out (i := pr.next - 1) (.inl (by omega)), h2]
        exact h.sendSnapshot hs hr hu hok
      · rw [h.log.shows.term_ge (i := pr.next - 1) (by omega), h3]
        exact h.sendEntries hs hr hu hok h4

theorem bcastAppend :
    Yields Benign (fun r' => NodeOK σ a v d r' ∧ r'.state = .leader) r.bcastAppend := by
  refine Yields.foldlM (fun u hu r' hr' => ?_) ⟨h, hr⟩
  exact hr'.1.sendAppend hs hr'.2 (h.others_mem hu).2

theorem sendHeartbeat (hu : u ≠ v) :
    Yields Benign (fun r' => NodeOK σ a v d r' ∧ r'.state = .leader) (r.sendHeartbeat u) := by
  obtain ⟨hlead, _⟩ := h.leading hs hr
  rw [Raft.sendHeartbeat]
  cases hpr : r.pr u with
  | none => exact not_false
  | some pr =>
    have hok : PrOK a v u pr := h.leads hr _ (mem_of_pr hpr)
    refine ⟨h.send nofun hu (h.termPos hs (by simp [hlead])) ⟨hlead, ?_, ?_⟩ fun _ => trivial, hr⟩
    · exact (min_le_left ..).trans (hok.acked hu)
    · rw [h.log.committed]
      exact (settled hs v).le (min_le_right ..)

theorem bcastHeartbeat :
    Yields Benign (fun r' => NodeOK σ a v d r' ∧ r'.state = .leader) r.bcastHeartbeat := by
  refine Yields.foldlM (fun u hu r' hr' => ?_) ⟨h, hr⟩
  refine (hr'.1.sendHeartbeat hs hr'.2 (h.others_mem hu).2).bind fun r'' hr'' => ?_
  exact ⟨hr''.1.updatePr fun _ _ hp => hp.resume, hr''.2⟩

end NodeOK

theorem lt_countP_of_sorted {l : List ℕ} (hl : l.Pairwise (· ≥ ·)) {k x : ℕ}
    (hx : l[k]? = some x) : k < l.countP fun y => decide (x ≤ y) := by
  obtain ⟨hk, rfl⟩ := List.getElem?_eq_some_iff.1 hx
  have hall : ∀ y ∈ l.take (k + 1), decide (l[k] ≤ y) = true := by
    intro y hy
    obtain ⟨j, hj⟩ := List.getElem?_of_mem hy
    obtain ⟨hj', rfl⟩ := List.getElem?_eq_some_iff.1 hj
    rw [List.length_take_of_le hk] at hj'
    rw [List.getElem_take, decide_eq_true_eq]
    rcases Nat.lt_or_eq_of_le (Nat.le_of_lt_succ hj') with hlt | rfl
    · exact List.pairwise_iff_getElem.1 hl j k (hlt.trans hk) hk hlt
    · exact le_rfl
  calc k < (l.take (k + 1)).length := by rw [List.length_take_of_le hk]; exact Nat.lt_succ_self k
    _ = (l.take (k + 1)).countP fun y => decide (l[k] ≤ y) := (List.countP_eq_length.2 hall).symm
    _ ≤ _ := (List.take_sublist _ _).countP_le

theorem Replicated.quorum_of_keys {β : Type*} {l : List (ℕ × β)}
    (hnd : (l.map Prod.fst).Nodup) (hp : ∀ q ∈ l, q.1 ∈ σ.peers)
    (hlen : σ.peers.length / 2 + 1 ≤ l.length) :
    σ.protocol.Quorum (l.map Prod.fst).toFinset := by
  refine ⟨fun u hu => ?_, ?_⟩
  · obtain ⟨q, hq, rfl⟩ := mem_map.1 (mem_toFinset.1 hu)
    exact mem_toFinset.2 (hp q hq)
  · rw [toFinset_card_of_nodup hnd, length_map]
    exact hlen

/-- The node is the leader still. -/
def Leads (σ : Replicated) (v : ℕ) (d : Held) (a : State ℕ Entry) (r' : Raft) : Prop :=
  ∃ a', Local σ.protocol v a a' ∧ NodeOK σ a' v d r' ∧ r'.state = .leader

namespace Leads

theorem reaches (h : Leads σ v d a r) : Reaches σ v d a r := by
  obtain ⟨a', h1, h2, _⟩ := h
  exact ⟨a', h1, h2⟩

theorem trans (hl : Local σ.protocol v a a') (h : Leads σ v d a' r) : Leads σ v d a r := by
  obtain ⟨a'', h1, h2⟩ := h
  exact ⟨a'', hl.trans h1, h2⟩

theorem bcastAppend (h : Leads σ v d a r) : Yields Benign (Leads σ v d a) r.bcastAppend := by
  obtain ⟨a', h1, h2, h3⟩ := h
  exact (h2.bcastAppend h1.inv h3).mono fun r' hr' => ⟨a', h1, hr'⟩

theorem sendAppend (h : Leads σ v d a r) {u : ℕ} (hu : u ≠ v) :
    Yields Benign (Leads σ v d a) (r.sendAppend u) := by
  obtain ⟨a', h1, h2, h3⟩ := h
  exact (h2.sendAppend h1.inv h3 hu).mono fun r' hr' => ⟨a', h1, hr'⟩

end Leads

namespace NodeOK

variable {es : List Entry} {pr : Progress}

section

variable (h : NodeOK σ a v d r) {i : ℕ}
include h

theorem quorum_of_matches (hr : r.state = .leader) (hi : r.sortedMatches[r.quorum - 1]? = some i) :
    i ≤ (a.mem v).log.length ∧
      ∃ A, σ.protocol.Quorum A ∧ ∀ u ∈ A, u ≠ v → i ≤ (a.dur u).acked (a.mem v).term := by
  have hperm := perm_insertionSort (· ≥ ·) (r.prs.map (·.2.match_))
  have hmem : i ∈ r.prs.map (·.2.match_) := hperm.mem_iff.1 (mem_of_getElem? hi)
  obtain ⟨q, hq, rfl⟩ := mem_map.1 hmem
  refine ⟨(h.leads hr q hq).match_le, ?_⟩
  set l := r.prs.filter fun p => decide (q.2.match_ ≤ p.2.match_) with hl
  have hcount := lt_countP_of_sorted (pairwise_insertionSort (· ≥ ·) _) hi
  rw [hperm.countP_eq, countP_map, countP_eq_length_filter] at hcount
  have hlen : σ.peers.length / 2 + 1 ≤ l.length := by
    have := h.quorum_eq
    have hlen : (r.prs.filter ((fun y => decide (q.2.match_ ≤ y)) ∘ fun p => p.2.match_)).length =
      l.length := rfl
    omega
  have hsub : l.Sublist r.prs := filter_sublist
  refine ⟨_, Replicated.quorum_of_keys (h.nodup_prs.sublist (hsub.map _))
    (fun p hp => h.prs.mem_iff.1 (mem_map_of_mem (hsub.subset hp))) hlen, fun u hu hne => ?_⟩
  obtain ⟨p, hp, rfl⟩ := mem_map.1 (mem_toFinset.1 hu)
  have hle := (mem_filter.1 hp).2
  rw [decide_eq_true_eq] at hle
  exact hle.trans ((h.leads hr p (hsub.subset hp)).acked hne)

variable (hs : Inv σ.protocol a)
include hs

variable (hr : r.state = .leader)
include hr

theorem base_lt (hi : 1 ≤ i) (ht : termAt Entry.term (a.mem v).log i = (a.mem v).term) :
    (a.base (a.mem v).term).length < i := by
  obtain ⟨hlead, hll, _⟩ := h.leading hs hr
  have hled := hs.led _ v hlead
  by_contra hle
  obtain ⟨j, rfl⟩ := Nat.exists_eq_add_of_le' hi
  have hj : j < (a.base (a.mem v).term).length := by omega
  have he := getElem?_eq_getElem hj
  have hbase := hled.base
  rw [hll] at hbase
  rw [termAt_succ (hbase.getElem?_some he)] at ht
  exact absurd (hled.before _ (getElem_mem hj)) (by
    change ¬ Entry.term _ < _
    omega)

theorem maybeCommit : Yields Benign (fun q => Leads σ v d a q.2) r.maybeCommit := by
  rw [Raft.maybeCommit]
  cases hi : r.sortedMatches[r.quorum - 1]? with
  | none => exact not_false
  | some i =>
    obtain ⟨hlen, A, hA, hacks⟩ := h.quorum_of_matches hr hi
    have hstay : Leads σ v d a r := ⟨a, .refl hs, h, hr⟩
    have hd := h.dummy_le hs
    simp only [RaftLog.maybeCommit, bind, Except.bind]
    split_ifs with hgt
    · rw [h.log.shows.term_ge (show r.raftLog.dummy ≤ i by omega)]
      simp only [RaftLog.zeroTermOnErrCompacted]
      split_ifs with ht
      · rw [h.log.shows.commitTo_eq hlen, max_eq_right hgt.le]
        rw [h.term] at ht
        rw [h.log.committed] at hgt
        obtain ⟨_, hll, _⟩ := h.leading hs hr
        have hcomm := hs.comm_of_acks (by rw [h.role, hr]; rfl) hA
          (h.base_lt hs hr (by omega) ht) hacks
        obtain ⟨a', h1, h2⟩ := h.learn hs le_rfl hcomm le_rfl (hll ▸ take_prefix ..) hgt.le
        exact ⟨a', h1, h2, hr⟩
      · exact hstay
    · exact hstay

theorem extend (hne : es ≠ []) :
    ∃ rl, r.raftLog.append (stamp r.term (r.raftLog.lastIndex + 1) es) = .ok rl ∧
      Leads σ v d a { r with raftLog := rl } := by
  set ents := stamp r.term (r.raftLog.lastIndex + 1) es with hents
  have hrole : a.role v = .leader := by rw [h.role, hr]; rfl
  have hne' : ents ≠ [] := by
    intro h0
    have := length_stamp r.term (r.raftLog.lastIndex + 1) es
    rw [← hents, h0] at this
    exact hne (length_eq_zero_iff.1 this.symm)
  have hlast := h.lastIndex_eq
  have hplaced : ∀ (j : ℕ) e, ents[j]? = some e → e.index = (a.mem v).log.length + j + 1 := by
    intro j e he
    rw [(of_getElem?_stamp he).2, hlast]
    omega
  have hterm : ∀ e ∈ ents, e.term = (a.mem v).term := fun e he =>
    (term_of_mem_stamp he).trans h.term
  have hcommit := h.commit_le hs
  obtain ⟨u, h1, h2, h3, h4, h5⟩ := h.log.shows.append_eq hne' le_rfl
    ((h.dummy_le hs).trans hcommit) hcommit (by
      intro j e he
      rw [take_length] at he
      rcases lt_or_ge j (a.mem v).log.length with hj | hj
      · rw [getElem?_append_left hj] at he
        exact h.log.shows.indexed j e he
      · rw [getElem?_append_right hj] at he
        have := hplaced _ e he
        omega)
  rw [take_length] at h5
  have hl := (MemStep.extend (p := σ.protocol) ents hrole hterm hplaced).local hs
  have hmem : (a.extend v ents).mem v = (a.mem v).append ents := Function.update_self ..
  have hlen : (a.mem v).log.length < ((a.mem v).log ++ ents).length := by
    rw [length_append]
    exact Nat.lt_add_of_pos_right (length_pos_iff.2 hne')
  rw [h.log.committed] at hcommit
  refine ⟨_, h1, _, hl, h.withLog hl (by rw [hmem]; rfl) (by rw [hmem]; rfl) rfl
    (.inl (by rw [hmem]; exact hlen.le)) (h.logFits_append hs h2 h3 h4
      (by rw [take_left', take_length]; rfl) hcommit hlen h5 _ (by rw [hmem]; rfl)
      (by rw [hmem]; rfl) rfl), hr⟩

theorem appendEntry (hne : es ≠ []) : Yields Benign (Leads σ v d a) (r.appendEntry es) := by
  obtain ⟨rl, h1, a', h2, h3, h4⟩ := h.extend hs hr hne
  rw [Raft.appendEntry, h1]
  simp only [bind, Except.bind]
  split
  · exact not_false
  · have hupd : NodeOK σ a' v d (Raft.updatePr { r with raftLog := rl } r.id fun pr =>
        (pr.maybeUpdate rl.lastIndex).2) := by
      refine h3.updatePr fun _ pr hpr => hpr.maybeUpdate h3.lastIndex_eq.le fun hne => ?_
      exact absurd h.id hne
    have hmc := hupd.maybeCommit h2.inv hr
    refine hmc.bind fun q hq => ?_
    exact hq.trans h2

end

theorem filterConf_ne_nil : ∀ {b : Bool} {es : List Entry}, es ≠ [] → (filterConf b es).2 ≠ []
  | _, [], h => absurd rfl h
  | b, e :: es, _ => by
    rw [filterConf]
    split
    · exact cons_ne_nil _ _
    · rcases filterConf b es with ⟨b', es'⟩
      exact cons_ne_nil _ _

variable (h : NodeOK σ a v d r)
include h

theorem handleProp (hs : Inv σ.protocol a) (hr : r.state = .leader) :
    Yields Benign (Leads σ v d a) (r.handleProp m) := by
  rw [Raft.handleProp]
  split_ifs with hnil hpr
  · exact not_false
  · exact ⟨a, .refl hs, h, hr⟩
  · have hne := filterConf_ne_nil (b := r.pendingConf) hnil
    generalize Raft.filterConf r.pendingConf m.entries = q at hne ⊢
    obtain ⟨pendingConf, es⟩ := q
    exact ((h.timers r.lead r.electionElapsed r.heartbeatElapsed pendingConf).appendEntry hs hr
      hne).bind fun _ hq => hq.bcastAppend

theorem handleAppResp (hs : Inv σ.protocol a) (hr : r.state = .leader) (hpr : PrOK a v m.from_ pr)
    (hne : m.from_ ≠ v) (hT : (a.mem v).term ≤ (a.dur m.from_).term)
    (hack : m.reject = false → m.index ≤ (a.dur m.from_).acked (a.mem v).term) :
    Yields Benign (Leads σ v d a) (r.handleAppResp pr m) := by
  have hstay : ∀ {pr'}, PrOK a v m.from_ pr' → Leads σ v d a (r.updatePr m.from_ fun _ => pr') :=
    fun hp => ⟨a, .refl hs, h.updatePr fun _ _ _ => hp, hr⟩
  have hheard := hpr.heard fun _ => hT
  rw [Raft.handleAppResp]
  cases hrej : m.reject with
  | true =>
    simp
    have hdecr := hheard.maybeDecrTo m.index m.rejectHint
    split_ifs
    · exact (hstay hdecr.becomeProbe).sendAppend hne
    · exact (hstay hdecr).sendAppend hne
    · exact hstay hdecr
  | false =>
    have hlen : m.index ≤ (a.mem v).log.length := by
      have := (hack hrej).trans ((hs.dur m.from_).ackedLen _)
      rwa [(h.leading hs hr).2.1] at this
    have hup := hheard.maybeUpdate hlen fun _ => hack hrej
    simp
    split
    · have hok := h.updatePr (u := m.from_) fun _ _ _ => hup.progressUpdated m.index
      refine (hok.maybeCommit hs hr).bind fun q hq => ?_
      split_ifs
      · exact hq.bcastAppend
      · exact hq.sendAppend hne
      · exact hq
    · exact hstay hup

theorem handleHeartbeatResp (hs : Inv σ.protocol a) (hr : r.state = .leader)
    (hpr : PrOK a v m.from_ pr) (hne : m.from_ ≠ v) (hT : (a.mem v).term ≤ (a.dur m.from_).term) :
    Yields Benign (Leads σ v d a) (r.handleHeartbeatResp pr m) := by
  have hheard := hpr.heard fun _ => hT
  have hok : ∀ {pr'}, PrOK a v m.from_ pr' → Leads σ v d a (r.updatePr m.from_ fun _ => pr') :=
    fun hp => ⟨a, .refl hs, h.updatePr fun _ _ _ => hp, hr⟩
  rw [Raft.handleHeartbeatResp]
  split_ifs
  · exact (hok (hheard.withIns _)).sendAppend hne
  · exact hok (hheard.withIns _)
  · exact (hok hheard).sendAppend hne
  · exact hok hheard

theorem handleSnapStatus (hpr : PrOK a v m.from_ pr) :
    NodeOK σ a v d (r.handleSnapStatus pr m) := by
  rw [Raft.handleSnapStatus]
  split_ifs
  · exact h
  · exact h.updatePr fun _ _ _ => hpr.becomeProbe.pause
  · exact h.updatePr fun _ _ _ => hpr.snapshotFailure.becomeProbe.pause

theorem handleUnreachable (hpr : PrOK a v m.from_ pr) :
    NodeOK σ a v d (r.handleUnreachable pr m) := by
  rw [Raft.handleUnreachable]
  split_ifs
  · exact h.updatePr fun _ _ _ => hpr.becomeProbe
  · exact h

theorem checkQuorumActive : NodeOK σ a v d r.checkQuorumActive.2 := by
  refine h.withPrs ?_ fun hs q hq => ?_
  · rw [map_map]
    have : (Prod.fst ∘ fun q : ℕ × Progress =>
        if q.1 = r.id then q else (q.1, { q.2 with recentActive := false })) = Prod.fst := by
      funext q
      simp
      split_ifs <;> rfl
    rw [this]
    exact h.prs
  · obtain ⟨q', hq', rfl⟩ := mem_map.1 hq
    have hold := h.leads hs q' hq'
    split_ifs
    · exact hold
    · exact hold.inactive

theorem stepLeader (hs : Inv σ.protocol a) (hr : r.state = .leader) (hm : Heard σ a v m) :
    Yields Benign (Reaches σ v d a) (r.stepLeader m) := by
  have hstay : Reaches σ v d a r := .refl hs h
  rcases hm with hm | ⟨ht, _⟩ | ⟨_, hne, _, hT, hpos, hsay⟩
  · rw [isLocalMsg] at hm
    rw [Raft.stepLeader]
    cases ht : m.type <;> rw [ht] at hm <;> simp at hm ⊢
    case hup => exact hstay
    case beat => exact (h.bcastHeartbeat hs hr).mono fun r' hr' => .refl hs hr'.1
    case unreachable =>
      cases hpr : r.pr m.from_ with
      | none => exact hstay
      | some pr => exact .refl hs (h.handleUnreachable (h.leads hr _ (mem_of_pr hpr)))
    case snapStatus =>
      cases hpr : r.pr m.from_ with
      | none => exact hstay
      | some pr => exact .refl hs (h.handleSnapStatus (h.leads hr _ (mem_of_pr hpr)))
    case checkQuorum =>
      have hq := h.checkQuorumActive
      split_ifs
      · exact .refl hs hq
      · obtain ⟨a', h1, h2, _⟩ := hq.becomeFollower hs none_ le_rfl
        exact ⟨a', h1, h2⟩
  · rw [Raft.stepLeader, ht]
    exact (h.handleProp hs hr).mono fun _ hq => hq.reaches
  · rw [Raft.stepLeader]
    cases ht : m.type <;> simp only [Says, ht] at hsay ⊢
    case vote => exact .refl hs (h.sendReject hne (by rw [h.term, ← hT]; exact hpos))
    case appResp =>
      rw [hT] at hsay
      cases hpr : r.pr m.from_ with
      | none => exact hstay
      | some pr =>
        exact (h.handleAppResp hs hr (h.leads hr _ (mem_of_pr hpr)) hne hsay.1 hsay.2).mono
          fun _ hq => hq.reaches
    case heartbeatResp =>
      rw [hT] at hsay
      cases hpr : r.pr m.from_ with
      | none => exact hstay
      | some pr =>
        exact (h.handleHeartbeatResp hs hr (h.leads hr _ (mem_of_pr hpr)) hne hsay).mono
          fun _ hq => hq.reaches
    all_goals exact hstay

end NodeOK

end EtcdCompat
