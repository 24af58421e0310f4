import EtcdCompat.Proofs.NodeStep

/-!
# The driver's steps

Handing out a `Ready` makes the view in memory the one to be stored, storing it makes that the
stored one, and the `Advance` changes no view. Snapshots and compactions of the storage stay within
what is stored and committed.
-/

namespace EtcdCompat

open List Option Function Cluster

open Consensus

variable {σ : Replicated} {a a' : State ℕ Entry} {v : ℕ} {d : Held} {r : Raft} {n : Node}
  {fl : Option Flight} {islead : Bool}

theorem hsOf_eq_empty {x y : View ℕ Entry} (hle : x.Le y)
    (hvote : ∀ c, y.votes y.term = some c → c ∈ σ.peers) (hy : hsOf y = {}) : hsOf x = {} := by
  obtain ⟨h1, h2, h3⟩ : y.term = 0 ∧ (y.votes y.term).getD none_ = 0 ∧ y.commit = 0 := by
    simpa [hsOf] using hy
  have hterm : x.term = 0 := Nat.le_zero.1 (h1 ▸ hle.term)
  have hcommit : x.commit = 0 := Nat.le_zero.1 (h3 ▸ hle.commit)
  have hnone : x.votes x.term = none := by
    cases hx : x.votes x.term with
    | none => rfl
    | some c =>
      have hc := hle.votes _ c hx
      rw [hterm, ← h1] at hc
      rw [hc, getD_some] at h2
      exact absurd (hvote c hc) (h2 ▸ σ.nonzero)
  rw [hsOf, hnone, hterm, hcommit]
  rfl

namespace Shows

variable {l : RaftLog} {log stored : List Entry} {rd : Ready}

theorem nextEnts_eq (h : Shows l log stored) (hc : l.committed ≤ log.length) :
    ∃ es, l.nextEnts = .ok es ∧ ∀ e ∈ es, ∃ j, j < l.committed ∧ log[j]? = some e := by
  have hfirst := firstIndex_eq l
  rw [RaftLog.nextEnts]
  split_ifs with hgt
  · obtain ⟨es, h1, h2, _⟩ := h.slice_eq noLimit
      (show l.dummy < max (l.applied + 1) l.firstIndex by omega) hgt (by omega)
    rw [h1]
    refine ⟨es, rfl, fun e he => ?_⟩
    obtain ⟨k, hk⟩ := List.getElem?_of_mem (h2.subset he)
    have hlt := (List.getElem?_eq_some_iff.1 hk).1
    rw [List.length_take] at hlt
    rw [List.getElem?_take_of_lt (by omega), List.getElem?_drop] at hk
    exact ⟨_, by omega, hk⟩
  · exact ⟨[], rfl, nofun⟩

theorem getLast?_drop (h : Shows l log stored) {k : ℕ} (hk : k ≤ log.length) :
    (log.drop k).getLast?.map (fun e => (e.index, e.term)) =
      if log.drop k = [] then none else some (log.length, termAt Entry.term log log.length) := by
  split_ifs with hnil
  · rw [hnil]
    rfl
  · have hlt : k < log.length := by
      by_contra hge
      exact hnil (drop_eq_nil_of_le (by omega))
    have hlast : (log.drop k).getLast? = log[log.length - 1]? := by
      rw [getLast?_eq_getElem?, length_drop, getElem?_drop]
      congr 1
      omega
    have he := getElem?_eq_getElem (show log.length - 1 < log.length by omega)
    have hterm := termAt_succ (f := Entry.term) he
    have hi := h.indexed _ _ he
    rw [Nat.sub_add_cancel (by omega)] at hterm hi
    rw [hlast, he, map_some, hi, hterm]

theorem prevLastUnstable_accept (h : Shows n.raft.raftLog log stored)
    (hlast : n.prevLastUnstable = none) (hrd : rd.entries = n.raft.raftLog.unstable.entries) :
    (n.accept rd).prevLastUnstable = if n.raft.raftLog.unstable.entries = [] then none else
      some (log.length, termAt Entry.term log log.length) := by
  have hdrop := h.getLast?_drop h.offset
  rw [← h.entries] at hdrop
  simp only [Node.accept, hrd]
  rw [← hdrop]
  cases n.raft.raftLog.unstable.entries.getLast? with
  | none => exact hlast
  | some e => rfl

end Shows

theorem readyMember_cases {es : List Entry} (hes : n.raft.raftLog.nextEnts = .ok es)
    (hadv : n.advancec = false) (islead : Bool) :
    readyMember n none islead = .ok (.up n none islead) ∨
      ∃ rd, newReady n.raft n.prevSoftSt n.prevHardSt = .ok rd ∧
        readyMember n none islead =
          .ok (.up (n.accept rd) (some { rd := rd }) (rd.leads islead)) := by
  obtain ⟨rd, hrd⟩ : ∃ rd, newReady n.raft n.prevSoftSt n.prevHardSt = .ok rd := by
    rw [newReady, hes]
    exact ⟨_, rfl⟩
  simp only [readyMember, Node.ready, hadv, Bool.false_eq_true, if_false, hrd, bind, Except.bind,
    pure, Except.pure]
  split_ifs
  · exact .inr ⟨rd, rfl, rfl⟩
  · exact .inl rfl

namespace NodeOK

variable (h : NodeOK σ a v d r)
include h

theorem nextEnts_eq (hs : Inv σ.protocol a) : ∃ es, r.raftLog.nextEnts = .ok es ∧
      ∀ e ∈ es, ∃ j, j < (a.mem v).commit ∧ (a.mem v).log[j]? = some e := by
  rw [← h.log.committed]
  exact h.log.shows.nextEnts_eq (h.log.committed ▸ h.commit_le hs)

theorem hardState_eq : r.hardState = hsOf (a.mem v) := by
  rw [Raft.hardState, hsOf, h.term, h.vote, h.log.committed]

theorem taken (hsaved : a.dur v = a.rd v) : ∀ m ∈ r.msgs, Taken σ (a.ready v) v m := by
  intro m hm
  obtain ⟨h1, h2⟩ := h.msgs m hm
  have hrd : (a.ready v).rd v = a.mem v := update_self ..
  have hext : Ext σ.protocol a (a.ready v) := Inv.ext_ready a v
  refine ⟨h1, ?_⟩
  rw [hrd]
  refine (h2.to_none fun u hu => ?_).mono hext nofun (.refl _) (bound_mono hext (.refl _))
  rw [Protocol.counts_eq_some hu]
  exact hsaved

theorem ready :
    NodeOK σ (a.ready v) v { d with out := some r.raftLog.unstable } { r with msgs := [] } := by
  have hrd : (a.ready v).rd v = a.mem v := update_self ..
  have hext : Ext σ.protocol a (a.ready v) := Inv.ext_ready a v
  have hfit := h.log
  refine ⟨h.id, h.peer, h.term, h.vote, h.voter, h.role, h.kept.congr rfl, h.applied,
    ⟨hfit.storage, hfit.applied, hfit.shows, hfit.committed, hfit.whole, hfit.snap, ?_⟩, h.prs,
    fun hs q hq => (h.leads hs q hq).mono hext le_rfl rfl, fun hs => (h.polls hs).mono hext rfl,
    (fun _ hm => by cases hm), (fun _ _ hm => by cases hm)⟩
  intro u₀ hu
  cases hu
  refine ⟨?_, fun s hs => .inl hs, fun s hs => ?_⟩
  · rw [hrd]
    exact Flying.refl ..
  · rw [hrd]
    exact (hfit.snap s hs).2.1

end NodeOK

namespace DriverOK

variable (hd : DriverOK σ a v n none islead d) {rd : Ready}
include hd

theorem hard_ready (hs : Inv σ.protocol a) (hn : NodeOK σ a v d n.raft) {hst : HardState}
    (hhst : hst = if n.raft.hardState ≠ n.prevHardSt then n.raft.hardState else {}) :
    (if isEmptyHardState hst then d.ms.hardState else hst) = hsOf (a.mem v) ∧
      ((if isEmptyHardState hst then n.prevHardSt else hst) = {} ∨
        (if isEmptyHardState hst then n.prevHardSt else hst) = hsOf (a.mem v)) := by
  rw [hn.hardState_eq] at hhst
  have hempty : ∀ {x : View ℕ Entry}, x.Le (a.mem v) → hsOf (a.mem v) = {} → hsOf x = {} :=
    fun hle hm => hsOf_eq_empty hle (fun c hc => hn.voter _ c hc) hm
  have hstored : hsOf (a.mem v) = {} → d.ms.hardState = {} := by
    intro hm
    rcases hn.kept.view with ⟨_, hk⟩ | ⟨hk, _⟩
    · rw [hk]
      exact hempty (hs.durMem v) hm
    · rw [hk]
  obtain ⟨_, _, _, hprev⟩ := hd.idle rfl
  by_cases hm : hsOf (a.mem v) = {}
  · have hst0 : hst = {} := by rw [hhst, hm, ite_self]
    have hprev' : n.prevHardSt = {} := by
      rcases hd.hard with h | h
      · exact h
      · rw [h]
        exact hempty (hs.rdLe v) hm
    rw [hst0, hm, if_pos (by rfl), if_pos (by rfl)]
    exact ⟨hstored hm, .inl hprev'⟩
  · by_cases heq : hsOf (a.mem v) = n.prevHardSt
    · have hst0 : hst = {} := by rw [hhst, if_neg (fun h => h heq)]
      rw [hst0, if_pos (by rfl), if_pos (by rfl)]
      refine ⟨?_, .inr heq.symm⟩
      rw [heq]
      exact (hprev.resolve_left fun h => hm (heq.trans h)).symm
    · have hst1 : hst = hsOf (a.mem v) := by rw [hhst, if_pos heq]
      have : isEmptyHardState hst = false := by
        rw [hst1, isEmptyHardState]
        simpa using hm
      rw [this]
      exact ⟨hst1, .inr hst1⟩

theorem soft_ready
    (hrd : rd.softState =
      if n.raft.softState ≠ n.prevSoftSt then some n.raft.softState else none) :
    rd.leads islead = (n.raft.state == .leader) ∧
      (rd.softState.getD n.prevSoftSt).raftState = n.raft.state := by
  rw [Ready.leads, hrd]
  split_ifs with hne
  · exact ⟨rfl, rfl⟩
  · have heq : n.raft.softState = n.prevSoftSt := not_not.1 hne
    simp only [getD_none, hd.soft, ← heq]
    exact ⟨rfl, rfl⟩

theorem ready (hs : Inv σ.protocol a) (hn : NodeOK σ a v d n.raft)
    (hrd : newReady n.raft n.prevSoftSt n.prevHardSt = .ok rd) :
    DriverOK σ (a.ready v) v (n.accept rd) (some { rd := rd }) (rd.leads islead)
      { d with out := some n.raft.raftLog.unstable } := by
  obtain ⟨es, hes, hcommits⟩ := hn.nextEnts_eq hs
  rw [newReady, hes] at hrd
  have hsoft := hd.soft_ready (show rd.softState =
    if n.raft.softState ≠ n.prevSoftSt then some n.raft.softState else none by
      rw [← Except.ok.inj hrd])
  cases hrd
  obtain ⟨hsaved, hlast, _⟩ := hd.idle rfl
  have hview : (a.ready v).rd v = a.mem v := update_self ..
  have hfit := hn.log
  have hshows : Shows { storage := d.ms, unstable := n.raft.raftLog.unstable } (a.mem v).log
      d.stored := hfit.storage ▸ (hfit.shows.withCommitted 0).withApplied 0
  obtain ⟨hhard, hprev⟩ := hd.hard_ready hs hn rfl
  have hsnapi : ∀ s, n.raft.raftLog.unstable.snapshot = some s →
      isEmptySnap (n.raft.raftLog.unstable.snapshot.getD {}) = false ∧
        n.raft.raftLog.unstable.snapshot.getD {} = s := by
    intro s hs
    rw [hs, getD_some, isEmptySnap]
    exact ⟨by simpa using (hfit.snap s hs).1.ne', rfl⟩
  refine ⟨rfl, ?_, ?_, ?_, (fun hfl => by cases hfl), fun f hf => ?_⟩
  · simp only [Node.accept]
    rw [hsoft.1, hsoft.2]
  · rw [hview]
    exact hprev
  · rw [hview]
    simp only [Node.accept]
    split_ifs with hemp
    · exact hd.snapi.trans (hs.rdLe v).commit
    · cases hsn : n.raft.raftLog.unstable.snapshot with
      | none =>
        rw [hsn] at hemp
        exact absurd rfl hemp
      | some s => exact (hfit.snap s hsn).2.1
  · cases hf
    refine ⟨_, rfl, rfl, rfl, fun s hsn => ?_, ?_, hn.taken hsaved, fun hl => ?_, ?_, fun _ => ?_,
      fun _ => ?_, fun _ => ?_, (fun hsv => by cases hsv)⟩
    · obtain ⟨h1, _, h3, h4⟩ := hfit.snap s hsn
      obtain ⟨h5, h6⟩ := hsnapi s hsn
      rw [h6] at h5
      refine ⟨h1, h3, h4, ?_⟩
      simp [Node.accept, h5, h6]
    · rw [hview]
      exact hfit.shows.prevLastUnstable_accept hlast rfl
    · refine hn.plain (.inl ?_)
      rw [hsoft.1] at hl
      simpa using hl
    · rw [hview]
      exact hcommits
    · rw [hview]
      exact hshows
    · rw [hview]
      exact hfit.whole
    · rw [hview]
      exact hhard

end DriverOK

theorem readyMember_ok (hs : Inv σ.protocol a) (hn : NodeOK σ a v d n.raft)
    (hd : DriverOK σ a v n fl islead d) :
    Yields Benign (fun mb => MemberOK σ a v mb ∨ a.dur v = a.rd v ∧ MemberOK σ (a.ready v) v mb)
      (readyMember n fl islead) := by
  cases fl with
  | some f => exact .inl ⟨d, hn, hd⟩
  | none =>
    obtain ⟨es, hes, _⟩ := hn.nextEnts_eq hs
    rcases readyMember_cases hes hd.advancec islead with h | ⟨rd, hrd, h⟩ <;> rw [h]
    · exact .inl ⟨d, hn, hd⟩
    · exact .inr ⟨(hd.idle rfl).1, _, hn.ready, hd.ready hs hn hrd⟩

namespace FlightOK

variable {rd : Ready} {u₀ : Unstable}

variable (hf : FlightOK σ a v n { rd := rd } islead d u₀)
include hf

theorem kept (hs : Inv σ.protocol a) (hn : NodeOK σ a v d n.raft) (ho : Out a v n.raft.raftLog u₀)
    {ms : MemoryStorage} (hstore : Stores ms (a.rd v).log) (hhard : ms.hardState = hsOf (a.rd v))
    (hsnap : ms.snapshot = u₀.snapshot.getD d.ms.snapshot)
    (hdummy : ms.ents0.index = storedDummy d.ms u₀) :
    Kept σ (a.save v) v ms (a.rd v).log := by
  have hdur : (a.save v).dur v = a.rd v := update_self ..
  have hcommit : ms.hardState.commit = (a.rd v).commit := by rw [hhard]; rfl
  have hold : d.ms.hardState.commit ≤ (a.rd v).commit :=
    hn.kept.commit_le.trans (hs.durLe v).commit
  refine ⟨.inl ?_, hstore, ?_, ?_⟩
  · rw [hdur]
    exact ⟨rfl, hhard⟩
  · rw [hdummy, hcommit, storedDummy]
    cases hu : u₀.snapshot with
    | none => exact hn.kept.dummy.trans hold
    | some s => exact ho.old s hu
  · rw [hsnap, hcommit]
    cases hu : u₀.snapshot with
    | none =>
      refine hn.kept.snap.imp_right fun h => ⟨h.1, h.2.1.trans hold, ?_, h.2.2.2⟩
      rw [getD_none, h.2.2.1]
      exact hn.kept.termAt_eq hs (hs.knownRd v) (hs.rd v).log.boot (hs.durLe v).commit h.2.1
    | some s =>
      obtain ⟨h1, _, h3, _⟩ := hf.snap s hu
      exact .inr ⟨h1, ho.old s hu, ((hf.shows rfl).pending s hu).2, h3⟩

theorem unsaved (hn : NodeOK σ a v d n.raft) (hu : d.out = some u₀) :
    Unsaved n.raft.raftLog (a.mem v).log d.stored u₀ (a.rd v).log (a.rd v).commit rd := by
  have hfit := hn.log
  have hshows := ((hf.shows rfl).withCommitted n.raft.raftLog.committed).withApplied
    n.raft.raftLog.applied
  refine ⟨hfit.shows, ?_, (hfit.out u₀ hu).flying, fun s hu => (hf.snap s hu).1,
    fun hw => hf.whole rfl ?_, hf.entries, hf.snapshot⟩
  · rw [← hfit.storage] at hshows
    exact hshows
  · rw [hw, hfit.storage]
    exact hn.kept.dummy

theorem save (hs : Inv σ.protocol a) (hn : NodeOK σ a v d n.raft)
    (hd : DriverOK σ a v n (some { rd := rd }) islead d) (hu : d.out = some u₀) :
    ∃ ms, n.raft.raftLog.storage.persist rd = .ok ms ∧
      MemberOK σ (a.save v) v
        (.up (n.withStorage ms) (some { rd := rd, saved := true }) islead) := by
  have hdur : (a.save v).dur v = a.rd v := update_self ..
  have hext : Ext σ.protocol a (a.save v) := hs.ext_save v
  have hfit := hn.log
  have ho := hfit.out u₀ hu
  have happ := hn.applied.trans hn.kept.commit_le
  have hrdc := (hs.durLe v).commit
  obtain ⟨ms, h1, h2, h3, h4, h5, h6⟩ := (hf.unsaved hn hu).persist
  simp only [hfit.storage, hf.hard rfl] at h3 h4 h5
  have hcommit : ms.hardState.commit = (a.rd v).commit := by rw [h3]; rfl
  refine ⟨ms, h1, { d with ms := ms, stored := (a.rd v).log }, ?_, ?_⟩
  · refine ⟨hn.id, hn.peer, hn.term, hn.vote, hn.voter, hn.role, hf.kept hs hn ho h2 h3 h4 h5,
      by rw [hcommit]; exact happ.trans hrdc, ⟨rfl, hfit.applied, ?_, hfit.committed, fun hw => ?_,
        hfit.snap, ?_⟩,
      hn.prs, fun hl q hq => (hn.leads hl q hq).mono hext le_rfl rfl,
      fun hc => (hn.polls hc).mono hext rfl,
        fun m hm => (hn.msgs m hm).mono hext (.refl _) (.refl _),
      hn.plain⟩
    · exact h6
    · refine (ho.flying.moved.resolve_right fun hlt => ?_).symm
      rw [hcommit] at hw
      exact absurd hlt (not_lt.2 hw)
    · intro u hu'
      have := hfit.out u hu'
      exact ⟨this.flying, this.snap, this.old⟩
  · refine ⟨hd.advancec, hd.soft, hd.hard, hd.snapi, nofun, fun f hf' => ?_⟩
    cases hf'
    refine ⟨u₀, hu, hf.entries, hf.snapshot, hf.snap, hf.last,
      fun m hm => (hf.messages m hm).mono hext (.refl _), hf.plain, hf.commits, nofun, nofun, nofun,
      fun _ => ⟨hdur, rfl, h3, fun s hsn => ?_⟩⟩
    rw [h5, storedDummy, hsn]
    rfl

end FlightOK

variable {rd : Ready} {c : Cluster} {mb : Member}

theorem appliedTo_yields (l : RaftLog) (i : ℕ) :
    Yields Benign (fun l' => l' = l ∨ i ≤ l.committed ∧ l' = { l with applied := i })
      (l.appliedTo i) := by
  rw [RaftLog.appliedTo]
  split_ifs with h0 hout
  · exact .inl rfl
  · exact not_false
  · exact .inr ⟨by omega, rfl⟩

theorem advanceApplied_yields (n : Node) :
    Yields Benign (fun l => ∃ i, (i = n.raft.raftLog.applied ∨
      n.prevHardSt.commit ≠ 0 ∧ i = n.prevHardSt.commit) ∧
        l = { n.raft.raftLog with applied := i }) n.advanceApplied := by
  rw [Node.advanceApplied]
  split_ifs with hc
  · refine (appliedTo_yields n.raft.raftLog n.prevHardSt.commit).mono fun l hl => ?_
    rcases hl with rfl | ⟨_, rfl⟩
    · exact ⟨_, .inl rfl, rfl⟩
    · exact ⟨_, .inr ⟨hc, rfl⟩, rfl⟩
  · exact ⟨_, .inl rfl, rfl⟩

theorem FlightOK.awaiting {u₀ : Unstable} (hs : Inv σ.protocol a) (hn : NodeOK σ a v d n.raft)
    (hf : FlightOK σ a v n { rd := rd, saved := true } islead d u₀) (hu₀ : d.out = some u₀)
    (hsnapi : n.prevSnapi ≤ (a.rd v).commit) :
    Awaiting n n.raft.raftLog (a.mem v).log u₀ (a.rd v).log (a.rd v).commit := by
  obtain ⟨_, hstored, -, hdummy⟩ := hf.saved rfl
  have hfit := hn.log
  have ho := hfit.out u₀ hu₀
  refine ⟨hstored ▸ hfit.shows, ho.flying, hfit.storage.symm ▸ hdummy, hf.last, fun ht hlen => ?_,
    fun s hsn => ⟨fun heq => ?_, fun h => ((hf.snap s h).2.2.2).symm⟩⟩
  · cases hrl : (a.rd v).log.length with
    | zero => rw [take_zero, length_eq_zero_iff.1 hrl]
    | succ k =>
      rw [hrl] at ht hlen
      have h1 := getElem?_eq_getElem (show k < (a.mem v).log.length by omega)
      have h2 := getElem?_eq_getElem (show k < (a.rd v).log.length by omega)
      rw [termAt_succ h1, termAt_succ h2] at ht
      rw [(hs.mem v).log.take_eq (hs.rd v).log h1 h2 ht, ← hrl, take_length]
  · exact (ho.snap s hsn).resolve_right (by omega)

theorem NodeOK.advanced {u₀ u : Unstable} (hn : NodeOK σ a v d n.raft)
    (hf : FlightOK σ a v n { rd := rd, saved := true } islead d u₀) (hu₀ : d.out = some u₀) {i : ℕ}
    (hi : i ≤ d.ms.hardState.commit)
    (hshows : Shows { n.raft.raftLog with applied := i, unstable := u } (a.mem v).log
      (a.rd v).log)
    (hsnap : u.snapshot = if n.raft.raftLog.unstable.snapshot = u₀.snapshot then none
      else n.raft.raftLog.unstable.snapshot) :
    NodeOK σ a v { d with applied := i, out := none }
      { n.raft with raftLog := { n.raft.raftLog with applied := i, unstable := u } } := by
  obtain ⟨_, hstored, hhard, -⟩ := hf.saved rfl
  have hfit := hn.log
  have hcommit : d.ms.hardState.commit = (a.rd v).commit := by rw [hhard]; rfl
  refine { hn with
    applied := hi
    log := { hfit with applied := rfl, shows := ?_, snap := fun s hsn => ?_, out := nofun } }
  · rw [hstored]
    exact hshows
  · rw [hsnap] at hsn
    split_ifs at hsn with hne
    obtain ⟨g1, g2, _, g4⟩ := hfit.snap s hsn
    refine ⟨g1, g2, ?_, g4⟩
    have := ((hfit.out u₀ hu₀).snap s hsn).resolve_left fun h => hne (hsn.trans h.symm)
    exact hi.trans (hcommit ▸ this.le)

theorem advance_ok (hs : Inv σ.protocol a) (hn : NodeOK σ a v d n.raft)
    (hd : DriverOK σ a v n (some { rd := rd, saved := true }) islead d) :
    Yields Benign (fun n' => MemberOK σ a v (.up n' none islead)) n.advance := by
  obtain ⟨u₀, hu₀, hf⟩ := hd.flight _ rfl
  obtain ⟨hsaved, -, hhard, -⟩ := hf.saved rfl
  have hadv : n.advancec = true := hd.advancec
  rw [Node.advance, hadv]
  refine (advanceApplied_yields n).bind fun l hl => ?_
  obtain ⟨i, hi, rfl⟩ := hl
  have hi : i ≤ d.ms.hardState.commit := by
    rcases hi with rfl | ⟨hc, rfl⟩
    · exact hn.log.applied ▸ hn.applied
    · rcases hd.hard with h | h
      · rw [h] at hc
        exact absurd rfl hc
      · rw [h, hhard]
  obtain ⟨u, hu, hshows, hsnap, -⟩ := ((hf.awaiting hs hn hu₀ hd.snapi).withApplied i).advance
  simp only [hu]
  refine ⟨_, hn.advanced hf hu₀ hi hshows hsnap, rfl, hd.soft, hd.hard, hd.snapi, fun _ => ?_,
    nofun⟩
  refine ⟨hsaved, rfl, rfl, ?_⟩
  simp only [hhard]
  exact hd.hard

theorem withStorage_ok {ms : MemoryStorage} (hn : NodeOK σ a v d n.raft)
    (hd : DriverOK σ a v n fl islead d) (hhard : ms.hardState = d.ms.hardState)
    (hkept : Kept σ a v ms d.stored)
    (hshows : Shows { n.raft.raftLog with storage := ms } (a.mem v).log d.stored)
    (hout : ∀ f u₀, fl = some f → d.out = some u₀ →
      (f.saved = false → Shows { storage := ms, unstable := u₀ } (a.rd v).log d.stored) ∧
      (f.saved = true → ∀ s, u₀.snapshot = some s → ms.ents0.index = d.ms.ents0.index)) :
    MemberOK σ a v (.up (n.withStorage ms) fl islead) := by
  have hfit := hn.log
  refine ⟨{ d with ms := ms }, ?_, hd.advancec, hd.soft, hd.hard, hd.snapi, fun hfl => ?_,
    fun f hfl => ?_⟩
  · refine { hn with
      kept := hkept
      applied := hhard ▸ hn.applied
      log := ⟨rfl, hfit.applied, hshows, hfit.committed, hhard ▸ hfit.whole, hfit.snap,
        fun u₀ hu => ?_⟩ }
    have := hfit.out u₀ hu
    exact ⟨this.flying, this.snap, this.old⟩
  · simp only [hhard]
    exact hd.idle hfl
  · obtain ⟨u₀, hu, hf⟩ := hd.flight f hfl
    obtain ⟨h1, h2⟩ := hout f u₀ hfl hu
    refine ⟨u₀, hu, { hf with
      shows := h1
      whole := hhard ▸ hf.whole
      hard := hhard ▸ hf.hard
      saved := fun hsv => ?_ }⟩
    obtain ⟨g1, g2, g3, g4⟩ := hf.saved hsv
    exact ⟨g1, g2, hhard.trans g3, fun s hsn => (h2 hsv s hsn).trans (g4 s hsn)⟩

theorem createSnapshotMember_ok (hn : NodeOK σ a v d n.raft)
    (hd : DriverOK σ a v n fl islead d) (i : ℕ) (data : Option Bytes) :
    Yields Benign (MemberOK σ a v) (createSnapshotMember σ.peers i data n fl islead) := by
  have hstay : MemberOK σ a v (.up n fl islead) := ⟨d, hn, hd⟩
  have hstorage := hn.log.storage
  rw [createSnapshotMember]
  simp only [hstorage]
  split_ifs with hi
  · exact hstay
  · rcases hn.kept.store.createSnapshot_cases i (some { nodes := σ.peers }) data with
      h | h | h | ⟨sn, h, h1, h2, h3, h4⟩ <;> rw [h]
    · exact hstay
    · exact not_false
    · exact not_false
    · have hst := hn.kept.store
      have hview := hn.kept.view_of_pos (by omega)
      refine withStorage_ok hn hd rfl ⟨.inl hview, ⟨hst.dummy, hst.term, hst.ents⟩, hn.kept.dummy,
        .inr ⟨by simp only; omega, by simp only; omega, ?_, ?_⟩⟩ ?_ fun f u₀ hf hu =>
          ⟨fun hsv => ?_, fun _ _ _ => rfl⟩
      · simp only [h2, h3]
      · simp only [h4]
        rfl
      · rw [← hstorage]
        exact hn.log.shows.of_snapshot sn
      · obtain ⟨u₁, hu₁, hfl⟩ := hd.flight f hf
        cases hu.symm.trans hu₁
        exact (hfl.shows hsv).of_snapshot sn

theorem compactMember_ok (hs : Inv σ.protocol a) (hn : NodeOK σ a v d n.raft)
    (hd : DriverOK σ a v n fl islead d) (i : ℕ) :
    Yields Benign (MemberOK σ a v) (compactMember i n fl islead) := by
  have hstay : MemberOK σ a v (.up n fl islead) := ⟨d, hn, hd⟩
  rw [compactMember]
  split_ifs with hi
  · exact hstay
  · rw [hn.log.applied] at hi
    have happ := hn.applied
    have hk := hn.kept
    rw [hn.log.storage]
    have hidx := hk.indexed hs
    rcases hk.store.compact_cases hidx i with h | h | ⟨ms, h, h1, h2, h3, _, h5, h6⟩ <;> rw [h]
    · exact hstay
    · exact not_false
    · obtain ⟨hst, hhs⟩ := hk.view_of_pos (by omega)
      have hmem := hk.take_eq hs (hs.knownMem v) (hs.mem v).log.boot (hs.durMem v).commit
        (i := i) (by omega)
      have hrd := hk.take_eq hs (hs.knownRd v) (hs.rd v).log.boot (hs.durLe v).commit
        (i := i) (by omega)
      have hc := hk.commit_le
      have hmc := (hs.durMem v).commit.trans (hs.knownMem v).le
      have hrc := (hs.durLe v).commit.trans (hs.knownRd v).le
      refine withStorage_ok hn hd h6 ⟨.inl ⟨hst, h6.trans hhs⟩, h1, by rw [h2, h6]; omega, ?_⟩
        (hn.log.shows.of_compact h1 h2 (by omega) hmem.symm) fun f u₀ hf hu =>
          ⟨fun hsv => ?_, fun hsv s hsn => ?_⟩
      · rw [h5, h6]
        exact hk.snap
      · obtain ⟨u₁, hu₁, hfl⟩ := hd.flight f hf
        cases hu.symm.trans hu₁
        exact (hfl.shows hsv).of_compact h1 h2 (by omega) hrd.symm
      · obtain ⟨u₁, hu₁, hfl⟩ := hd.flight f hf
        cases hu.symm.trans hu₁
        have := (hfl.saved hsv).2.2.2 s hsn
        have := (hfl.snap s hsn).2.1
        omega

theorem Cluster.setMember_self : (c.setMember v mb).member v = mb :=
  update_self ..

theorem Cluster.setMember_of_ne {u : ℕ} (hu : u ≠ v) : (c.setMember v mb).member u = c.member u :=
  update_of_ne hu ..

theorem Raft.keys_shuffle {r : Raft} {ids : List ℕ} (hperm : ids.Perm (r.prs.map (·.1))) :
    (ids.filterMap fun i => (r.pr i).map fun pr => (i, pr)).map Prod.fst = ids := by
  have hid : ∀ i ∈ ids, ((r.pr i).map fun pr => (i, pr)).map Prod.fst = some i := by
    intro i hi
    obtain ⟨q, hq, rfl⟩ := mem_map.1 (hperm.mem_iff.1 hi)
    obtain ⟨pr, hpr⟩ := isSome_iff_exists.1
      (show (r.pr q.1).isSome from lookup_isSome_iff.2 ⟨q, hq, beq_self_eq_true _⟩)
    rw [hpr]
    rfl
  rw [map_filterMap, filterMap_congr hid, filterMap_some]

theorem shuffleMember_ok (hn : NodeOK σ a v d n.raft) (hd : DriverOK σ a v n fl islead d)
    (ids : List ℕ) : MemberOK σ a v (shuffleMember ids n fl islead) := by
  rw [shuffleMember]
  split_ifs with hperm
  · refine ⟨d, hn.withPrs ?_ fun hl q hq => ?_, hd.congr (.refl a) rfl rfl _⟩
    · rw [Raft.keys_shuffle hperm]
      exact hperm.trans hn.prs
    · obtain ⟨i, _, hi⟩ := mem_filterMap.1 hq
      obtain ⟨pr, hpr, rfl⟩ := map_eq_some_iff.1 hi
      exact hn.leads hl _ (NodeOK.mem_of_pr hpr)
  · exact ⟨d, hn, hd⟩

end EtcdCompat
