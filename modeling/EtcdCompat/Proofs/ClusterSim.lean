import EtcdCompat.Proofs.ClusterStart

/-!
# The cluster simulates the protocol

Each event of the cluster is matched by steps of the protocol that keep every member fitting its
views and every message in the network true (`Sim`). What a node has stored it has itself written,
or a quorum has (`Written`).
-/

namespace EtcdCompat

open List Function Cluster

open Consensus

/-- A quorum has written the entry. -/
def Written (σ : Replicated) (c : Cluster) (e : Entry) : Prop :=
  ∃ A, σ.protocol.Quorum A ∧ ∀ u ∈ A, e ∈ c.wal u

structure Sim (σ : Replicated) (c : Cluster) (a : State ℕ Entry) : Prop where
  inv : Inv σ.protocol a
  member : ∀ v, MemberOK σ a v (c.member v)
  net : ∀ m ∈ c.net, Sent σ a m
  logged : ∀ u (j : ℕ) e, σ.boot.length ≤ j → (a.dur u).log[j]? = some e →
    e ∈ c.wal u ∨ Written σ c e

variable {σ : Replicated} {c : Cluster} {a a' : State ℕ Entry} {v : ℕ} {d : Held} {n : Node}
  {fl : Option Flight} {islead : Bool}

theorem Cluster.setMember_member : c.setMember v (c.member v) = c := by
  rw [setMember, update_eq_self]

theorem Cluster.onNode_ok {f : Node → Option Flight → Bool → Except Panic Member} {mb : Member}
    (hc : c.member v = .up n fl islead) (hf : f n fl islead = .ok mb) :
    c.onNode v f = c.setMember v mb := by
  rw [onNode, hc]
  simp only [hf]

theorem Written.mono {c' : Cluster} {e : Entry} (h : ∀ u, c.wal u ⊆ c'.wal u)
    (he : Written σ c e) : Written σ c' e := by
  obtain ⟨A, hA, hw⟩ := he
  exact ⟨A, hA, fun u hu => h u (hw u hu)⟩

/-- The state `a'` is reached without a change to the stored views, and but for `v` to any. -/
structure Moves (σ : Replicated) (v : ℕ) (a a' : State ℕ Entry) : Prop where
  run : Run σ.protocol a a'
  frame : ∀ u, u ≠ v → Frame σ u a a'
  dur : a'.dur v = a.dur v

namespace Moves

theorem refl (a : State ℕ Entry) : Moves σ v a a :=
  ⟨.refl, fun _ _ => ⟨.refl a, rfl, rfl, rfl, rfl⟩, rfl⟩

theorem of_local (h : Local σ.protocol v a a') : Moves σ v a a' :=
  ⟨h.run, fun _ hu => .of_local h hu, congrFun h.dur v⟩

theorem ready (h : a.dur v = a.rd v) : Moves σ v a (a.ready v) :=
  ⟨.single (.ready v h), fun _ hu => ⟨Inv.ext_ready a v, rfl, update_of_ne hu .., rfl,
    rfl⟩,
    rfl⟩

theorem crash (a : State ℕ Entry) : Moves σ v a (a.crash v) :=
  ⟨.single (.crash v), fun _ hu => ⟨Inv.ext_crash a v, update_of_ne hu ..,
    update_of_ne hu .., rfl, update_of_ne hu ..⟩, rfl⟩

end Moves

theorem NodeOK.crash {r : Raft} {why : Option Panic} (h : NodeOK σ a v d r)
    (hs : Inv σ.protocol a) (hwhy : ∀ e, why = some e → Benign e) :
    DownOK σ (a.crash v) v r.raftLog.storage why := by
  have hmem : (a.crash v).mem v = a.dur v := update_self ..
  refine ⟨hmem, update_self .., update_self .., fun T u hu => ?_,
    ⟨d.stored, ?_⟩, hwhy⟩
  · rw [hmem] at hu
    exact h.voter T u ((hs.durMem v).votes T u hu)
  · rw [h.log.storage]
    exact h.kept.congr rfl

namespace Sim

variable (h : Sim σ c a)
include h

theorem setMember {mb : Member} (hm : Moves σ v a a') (hmb : MemberOK σ a' v mb) :
    Sim σ (c.setMember v mb) a' := by
  have hext := hm.run.ext h.inv
  refine ⟨hm.run.inv h.inv, fun u => ?_, fun m hm => (h.net m hm).mono hext,
    fun u j e hj he => ?_⟩
  · rcases eq_or_ne u v with rfl | hne
    · rw [setMember_self]
      exact hmb
    · rw [setMember_of_ne hne]
      exact (h.member u).frame (hm.frame u hne)
  · have hdur : a'.dur u = a.dur u := by
      rcases eq_or_ne u v with rfl | hne
      · exact hm.dur
      · exact (hm.frame u hne).dur
    rw [hdur] at he
    exact h.logged u j e hj he

theorem onNode {f : Node → Option Flight → Bool → Except Panic Member}
    (hf : ∀ n fl islead d, NodeOK σ a v d n.raft → DriverOK σ a v n fl islead d →
      Yields Benign (fun mb => ∃ a', Moves σ v a a' ∧ MemberOK σ a' v mb) (f n fl islead)) :
    ∃ a', Run σ.protocol a a' ∧ Sim σ (c.onNode v f) a' := by
  have hv := h.member v
  rw [Cluster.onNode]
  cases hmb : c.member v with
  | down ms why => exact ⟨a, .refl, h⟩
  | up n fl islead =>
    rw [hmb] at hv
    obtain ⟨d, hn, hd⟩ := hv
    have hfn := hf n fl islead d hn hd
    dsimp only
    cases hfr : f n fl islead with
    | ok mb =>
      rw [hfr] at hfn
      obtain ⟨a', hm, hmb'⟩ := hfn
      exact ⟨a', hm.run, h.setMember hm hmb'⟩
    | error p =>
      rw [hfr] at hfn
      have hdown : MemberOK σ (a.crash v) v (.down n.raft.raftLog.storage (some p)) :=
        hn.crash h.inv fun e he => Option.some.inj he ▸ hfn
      exact ⟨_, (Moves.crash a).run, h.setMember (.crash a) hdown⟩

end Sim

variable {m : Message}

theorem Reaches.member {x : Except Panic Raft} (hd : DriverOK σ a v n fl islead d)
    (hx : Yields Benign (Reaches σ v d a) x) :
    Yields Benign (fun mb => ∃ a', Moves σ v a a' ∧ MemberOK σ a' v mb)
      (do return .up { n with raft := ← x } fl islead) := by
  refine hx.bind fun r hr => ?_
  obtain ⟨a', hl, hr'⟩ := hr
  exact ⟨a', .of_local hl, d, hr',
    hd.congr hl.ext (congrFun hl.rd v) (congrFun hl.dur v) r⟩

theorem recv_ok (hs : Inv σ.protocol a) (hn : NodeOK σ a v d n.raft)
    (hd : DriverOK σ a v n fl islead d) (hm : isInput m = true ∨ Sent σ a m ∧ m.to_ = v) :
    Yields Benign (fun mb => ∃ a', Moves σ v a a' ∧ MemberOK σ a' v mb)
      (do return .up (← n.recv m) fl islead) := by
  have hstay : MemberOK σ a v (.up n fl islead) := ⟨d, hn, hd⟩
  rw [Node.recv]
  split_ifs with hprop hpr
  · have hm' : isInput { m with from_ := n.raft.id } = true ∨
        Sent σ a { m with from_ := n.raft.id } ∧ m.to_ = v := by
      refine hm.imp id fun hm => ⟨?_, hm.2⟩
      rcases hm.1 with hm | ⟨_, _, _, hsay⟩
      · exact .inl hm
      · simp only [Says, hprop] at hsay
    simpa only [bind_assoc, pure_bind] using Reaches.member hd (hn.step hs hm')
  · simpa only [bind_assoc, pure_bind] using Reaches.member hd (hn.step hs hm)
  · exact ⟨a, .refl a, hstay⟩

theorem tick_ok (hs : Inv σ.protocol a) (hn : NodeOK σ a v d n.raft)
    (hd : DriverOK σ a v n fl islead d) (rand : ℕ) :
    Yields Benign (fun mb => ∃ a', Moves σ v a a' ∧ MemberOK σ a' v mb)
      (do return .up (← n.tick rand) fl islead) := by
  rw [Node.tick]
  simpa only [bind_assoc, pure_bind] using Reaches.member hd (hn.tick hs rand)

theorem advanceMember_ok (hs : Inv σ.protocol a) (hn : NodeOK σ a v d n.raft)
    (hd : DriverOK σ a v n fl islead d) :
    Yields Benign (MemberOK σ a v) (advanceMember n fl islead) := by
  have hstay : MemberOK σ a v (.up n fl islead) := ⟨d, hn, hd⟩
  rcases fl with _ | ⟨rd, _ | _⟩
  · exact hstay
  · exact hstay
  · exact (advance_ok hs hn hd).bind fun n' hn' => hn'

theorem Says.of_plain {x y : View ℕ Entry} {q : ℕ → ℕ} {w : Option ℕ} (hp : Plain m)
    (hm : Says σ a x q w m) : Says σ a y q w m := by
  cases ht : m.type <;> simp only [Says, Plain, ht] at hm hp ⊢
  case app => exact hm
  case heartbeat => exact hm
  case snap => exact hm
  case voteResp =>
    rw [hp]
    intro hrej
    cases hrej

theorem Taken.sent (hs : Inv σ.protocol a) (hm : Taken σ a v m)
    (hsend : a.dur v = a.rd v ∨ σ.early = true ∧ Plain m) : Sent σ (a.publish σ.early v) m := by
  obtain ⟨hfrom, hm⟩ := hm
  have hext : Ext σ.protocol a (a.publish σ.early v) := Inv.ext_publish a v
  have hq : ∀ T, a.leader T = some m.from_ → bound a (a.rd v) T ≤ (a.publish σ.early v).pub T := by
    intro T hT
    rw [hfrom] at hT
    have hsource : a.source σ.early v = a.rd v := by
      rw [State.source]
      split_ifs with he
      · rfl
      · exact hsend.resolve_right fun h => he h.1
    simp only [State.publish, if_pos hT, bound, hsource]
    exact max_le_max (hs.pub T v hT).base le_rfl
  have hrd : MsgOK σ (a.publish σ.early v) (a.rd v) (a.publish σ.early v).pub none m :=
    hm.mono hext (fun _ hu => by cases hu) (.refl _) hq
  rw [Sent, hfrom]
  rcases hsend with hsaved | ⟨_, hplain⟩
  · exact hsaved ▸ hrd
  · exact hrd.imp_right fun h => ⟨h.1, h.2.1, h.2.2.1, h.2.2.2.of_plain hplain⟩

namespace Sim

variable (h : Sim σ c a) {j : ℕ} {e : Entry}
include h

theorem sendable (v : ℕ) :
    ∀ m ∈ Cluster.sendable σ.early (c.member v), Sent σ (a.publish σ.early v) m := by
  intro m hm
  have hv := h.member v
  rcases hmb : c.member v with _ | ⟨n, _ | ⟨rd, saved⟩, islead⟩ <;> rw [hmb] at hv hm
  · cases hm
  · cases hm
  · obtain ⟨d, hn, hd⟩ := hv
    obtain ⟨u₀, _, hf⟩ := hd.flight _ rfl
    rw [Cluster.sendable] at hm
    split_ifs at hm with hsend
    · refine (hf.messages m hm).sent h.inv ?_
      rcases (Bool.or_eq_true _ _).mp hsend with hsaved | hearly
      · exact .inl (hf.saved hsaved).1
      · obtain ⟨he, hl⟩ := (Bool.and_eq_true _ _).mp hearly
        exact .inr ⟨he, hf.plain hl m hm⟩
    · cases hm

theorem send (v : ℕ) : ∃ a', Run σ.protocol a a' ∧
    Sim σ { c with net := c.net ++ Cluster.sendable σ.early (c.member v) } a' := by
  have hstep : Run σ.protocol a (a.publish σ.early v) := .single (.publish v)
  have hext := hstep.ext h.inv
  refine ⟨_, hstep, hstep.inv h.inv,
    fun u => (h.member u).frame ⟨hext, rfl, rfl, rfl, rfl⟩, fun m hm => ?_, h.logged⟩
  rcases mem_append.1 hm with hm | hm
  · exact (h.net m hm).mono hext
  · exact h.sendable v m hm

theorem written {x : View ℕ Entry} (hx : Known σ.protocol a none x) (hboot : σ.boot.length ≤ j)
    (hj : j < x.commit) (he : x.log[j]? = some e) : Written σ c e := by
  rcases hx.comm with hc | ⟨T, i, _, hc, hi, hp⟩
  · exact absurd hj (not_lt.2 (hc.le.trans hboot))
  have hll : (a.ll T)[j]? = some e := by
    have hlt : j < ((a.ll T).take x.commit).length := by
      rw [length_take_of_le (hi.trans (h.inv.comm_le_ll hc))]
      exact hj
    rw [← getElem?_take_of_lt hj, getElem?_eq_getElem hlt, ← he]
    exact (hp.getElem?_some (getElem?_eq_getElem hlt)).symm
  obtain ⟨_, _, A, hA, hack⟩ := id hc
  by_cases hw : Written σ c e
  · exact hw
  refine ⟨A, hA, fun u hu => ?_⟩
  have hdur := h.inv.holds_dur hc ((hack u hu).resolve_right nofun)
  refine (h.logged u j e hboot (hdur.getElem?_some ?_)).resolve_right hw
  rw [getElem?_take_of_lt (hj.trans_le hi)]
  exact hll

theorem logged_ready {rd : Ready} {u₀ : Unstable} (hn : NodeOK σ a v d n.raft)
    (hu : d.out = some u₀) (hf : FlightOK σ a v n { rd := rd } islead d u₀)
    (hboot : σ.boot.length ≤ j) (he : (a.rd v).log[j]? = some e) :
    e ∈ c.wal v ∨ e ∈ rd.entries ∨ Written σ c e := by
  have hshows := hf.shows rfl
  by_cases hj : u₀.offset - 1 ≤ j
  · refine .inr (.inl ?_)
    rw [hf.entries, show u₀.entries = _ from hshows.entries]
    refine mem_of_getElem? (i := j - (u₀.offset - 1)) ?_
    rw [getElem?_drop, Nat.add_sub_cancel' hj]
    exact he
  · rw [not_le] at hj
    cases hsnap : u₀.snapshot with
    | none =>
      have hcommon := hshows.common hsnap (u₀.offset - 1) (.inl le_rfl)
      have hstored : d.stored[j]? = some e := by
        rw [← getElem?_take_of_lt hj, ← hcommon, getElem?_take_of_lt hj]
        exact he
      rcases hn.kept.view with ⟨hview, _⟩ | ⟨_, hnil, _⟩
      · rw [hview] at hstored
        exact (h.logged v j e hboot hstored).imp_right .inr
      · rw [hnil] at hstored
        cases hstored
    | some s =>
      have hoff : u₀.offset = s.metadata.index + 1 := (hshows.pending s hsnap).1
      have hold := (hn.log.out u₀ hu).old s hsnap
      exact .inr (.inr (h.written (h.inv.knownRd v) hboot (by omega) he))

theorem save (v : ℕ) :
    ∃ a', Run σ.protocol a a' ∧ Sim σ (Cluster.step σ.toSetup c (.save v)) a' := by
  have hv := h.member v
  have hidle : c.onNode v Cluster.saveMember = c → Cluster.saveEntries (c.member v) = [] →
      ∃ a', Run σ.protocol a a' ∧ Sim σ (Cluster.step σ.toSetup c (.save v)) a' := by
    intro hc hes
    refine ⟨a, .refl, ?_⟩
    rw [Cluster.step, hc, hes, append_nil, update_eq_self]
    exact h
  have hstay : ∀ {n fl islead}, c.member v = .up n fl islead →
      Cluster.saveMember n fl islead = .ok (.up n fl islead) →
      c.onNode v Cluster.saveMember = c := fun hmb hsave => by
    rw [Cluster.onNode_ok hmb hsave, ← hmb, Cluster.setMember_member]
  rcases hmb : c.member v with _ | ⟨n, _ | ⟨rd, _ | _⟩, islead⟩
  · exact hidle (by rw [Cluster.onNode, hmb]) (by rw [hmb]; rfl)
  · exact hidle (hstay hmb rfl) (by rw [hmb]; rfl)
  · rw [hmb] at hv
    obtain ⟨d, hn, hd⟩ := hv
    obtain ⟨u₀, hu, hf⟩ := hd.flight _ rfl
    obtain ⟨ms, hms, hmb'⟩ := hf.save h.inv hn hd hu
    have hstep : Run σ.protocol a (a.save v) := .single (.save v)
    have hext := hstep.ext h.inv
    refine ⟨_, hstep, ?_⟩
    have hon : c.onNode v Cluster.saveMember =
        c.setMember v (.up (n.withStorage ms) (some { rd := rd, saved := true }) islead) := by
      refine Cluster.onNode_ok hmb ?_
      rw [Cluster.saveMember, hms]
      rfl
    have hes : Cluster.saveEntries (c.member v) = rd.entries := by rw [hmb]; rfl
    rw [Cluster.step, hon, hes]
    have hwal : ∀ u, c.wal u ⊆ update c.wal v (c.wal v ++ rd.entries) u := by
      intro u
      rcases eq_or_ne u v with rfl | hne
      · rw [update_self]
        exact subset_append_left ..
      · rw [update_of_ne hne]
        exact Subset.refl _
    refine ⟨hstep.inv h.inv, fun u => ?_, fun m hm => (h.net m hm).mono hext,
      fun u j e hj he => ?_⟩
    · rcases eq_or_ne u v with rfl | hne
      · exact Cluster.setMember_self (c := c) ▸ hmb'
      · have hframe : Frame σ u a (a.save v) :=
          ⟨hext, rfl, rfl, update_of_ne hne .., rfl⟩
        have := (h.member u).frame hframe
        exact Cluster.setMember_of_ne (c := c) hne ▸ this
    · rcases eq_or_ne u v with rfl | hne
      · rw [show (a.save u).dur u = a.rd u from update_self ..] at he
        rcases h.logged_ready hn hu hf hj he with hw | hw | hw
        · exact .inl (hwal u hw)
        · refine .inl ?_
          simp only [update_self]
          exact mem_append_right _ hw
        · exact .inr (hw.mono hwal)
      · rw [show (a.save v).dur u = a.dur u from update_of_ne hne ..] at he
        exact (h.logged u j e hj he).imp (fun hw => hwal u hw) (Written.mono hwal)
  · exact hidle (hstay hmb rfl) (by rw [hmb]; rfl)

end Sim

namespace Sim

theorem init : Sim σ {} σ.protocol.init := by
  refine ⟨σ.protocol.inv_init, fun v => ?_, nofun, fun u j e hj he => ?_⟩
  · exact ⟨rfl, rfl, rfl, nofun, ⟨[], .inr ⟨rfl, rfl, rfl⟩, ⟨le_rfl, rfl, rfl⟩, le_rfl,
      .inl ⟨rfl, rfl⟩⟩, nofun⟩
  · exact absurd (List.getElem?_eq_some_iff.1 he).1 (not_lt.2 hj)

variable (h : Sim σ c a)
include h

theorem start (v applied : ℕ) : ∃ a', Run σ.protocol a a' ∧
    Sim σ (step σ.toSetup c (.start v applied)) a' := by
  refine ⟨a, .refl, h.setMember (.refl a) ?_⟩
  have hv := h.member v
  cases hmb : c.member v with
  | up n fl islead =>
    rw [hmb] at hv
    exact hv
  | down ms why =>
    rw [hmb] at hv
    have hd : DownOK σ a v ms why := hv
    rw [startMember]
    split_ifs with hpeer
    · have hstart := hd.start_yields h.inv hpeer applied
      cases hs : σ.start v ms applied with
      | ok n =>
        rw [hs] at hstart
        exact hstart
      | error p =>
        rw [hs] at hstart
        exact { hd with why := fun e he => Option.some.inj he ▸ hstart }
    · exact hd

/-- Each event is matched by steps of the protocol. -/
theorem step (ev : Cluster.Event) :
    ∃ a', Run σ.protocol a a' ∧ Sim σ (Cluster.step σ.toSetup c ev) a' := by
  have hstay : ∀ {v f}, (∀ n fl islead d, NodeOK σ a v d n.raft → DriverOK σ a v n fl islead d →
      Yields Benign (MemberOK σ a v) (f n fl islead)) →
      ∃ a', Run σ.protocol a a' ∧ Sim σ (c.onNode v f) a' := fun hf =>
    h.onNode fun n fl islead d hn hd => (hf n fl islead d hn hd).mono fun _ hmb => ⟨a, .refl a, hmb⟩
  cases ev with
  | start v applied => exact h.start v applied
  | recv v m =>
    rw [Cluster.step]
    split_ifs with hm
    · exact h.onNode fun n fl islead d hn hd => recv_ok h.inv hn hd (.inr ⟨h.net m hm.1, hm.2⟩)
    · exact ⟨a, .refl, h⟩
  | input v m =>
    rw [Cluster.step]
    split_ifs with hm
    · exact h.onNode fun n fl islead d hn hd => recv_ok h.inv hn hd (.inl hm)
    · exact ⟨a, .refl, h⟩
  | tick v rand => exact h.onNode fun n fl islead d hn hd => tick_ok h.inv hn hd rand
  | ready v =>
    refine h.onNode fun n fl islead d hn hd => (readyMember_ok h.inv hn hd).mono fun mb hmb => ?_
    rcases hmb with hmb | ⟨hsaved, hmb⟩
    · exact ⟨a, .refl a, hmb⟩
    · exact ⟨_, .ready hsaved, hmb⟩
  | save v => exact h.save v
  | send v => exact h.send v
  | advance v => exact hstay fun n fl islead d hn hd => advanceMember_ok h.inv hn hd
  | createSnapshot v i data =>
    exact hstay fun n fl islead d hn hd => createSnapshotMember_ok hn hd i data
  | compact v i => exact hstay fun n fl islead d hn hd => compactMember_ok h.inv hn hd i
  | resetPendingConf v =>
    rw [Cluster.step]
    refine hstay fun n fl islead d hn hd => ?_
    exact ⟨d, hn.timers _ _ _ _, hd.congr (.refl a) rfl rfl _⟩
  | shuffle v ids =>
    rw [Cluster.step]
    refine hstay fun n fl islead d hn hd => ?_
    exact shuffleMember_ok hn hd ids
  | crash v =>
    rw [Cluster.step]
    refine h.onNode fun n fl islead d hn hd => ?_
    exact ⟨_, .crash a, hn.crash h.inv nofun⟩

theorem foldl (evs : List Cluster.Event) :
    ∃ a', Run σ.protocol a a' ∧ Sim σ (evs.foldl (Cluster.step σ.toSetup) c) a' := by
  induction evs generalizing c a with
  | nil => exact ⟨a, .refl, h⟩
  | cons ev evs ih =>
    obtain ⟨a₁, h1, h2⟩ := h.step ev
    obtain ⟨a₂, h3, h4⟩ := ih h2
    exact ⟨a₂, h1.trans h3, h4⟩

omit h in
theorem run (σ : Replicated) (evs : List Event) :
    ∃ a, Sim σ (run σ.toSetup evs) a := by
  obtain ⟨a, _, h⟩ := (init (σ := σ)).foldl evs
  exact ⟨a, h⟩

end Sim

end EtcdCompat
