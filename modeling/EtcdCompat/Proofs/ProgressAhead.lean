import EtcdCompat.Proofs.RaftMoves
import EtcdCompat.Proofs.RaftSafety

/-!
# What a leader sends next

A leader's next index for a follower is above what is matched and at most one past its log, as long
as no rejection takes it back: `maybeDecrTo` does not look at the match of a follower it probes.
-/

namespace EtcdCompat

open List

open Consensus (State Inv)

namespace Raft

/-- Every follower of a leader is sent entries above those it matches. -/
def Ahead (r : Raft) : Prop := r.state = .leader → ∀ u pr, r.pr u = some pr → pr.match_ < pr.next

variable {r r' : Raft} {n b : Prop}

theorem lookup_map (g : ℕ → Progress → Progress) (u : ℕ) : ∀ l : List (ℕ × Progress),
    (l.map fun q => (q.1, g q.1 q.2)).lookup u = (l.lookup u).map (g u)
  | [] => rfl
  | q :: l => by
    rw [map_cons, lookup_cons, lookup_cons, lookup_map g u l]
    cases h : u == q.1
    · rfl
    · rw [eq_of_beq h]
      rfl

theorem Ahead.of_map {g : ℕ → Progress → Progress}
    (hr : r'.prs = r.prs.map fun q => (q.1, g q.1 q.2))
    (h : ∀ u pr, r.pr u = some pr → (g u pr).match_ < (g u pr).next) : r'.Ahead := by
  intro _ u pr' hpr'
  rw [Raft.pr, hr, lookup_map] at hpr'
  obtain ⟨pr, hpr, rfl⟩ := Option.map_eq_some_iff.1 hpr'
  exact h u pr hpr

theorem Ahead.updatePr (h : r.Ahead) (hs : r.state = .leader) {u : ℕ} {f : Progress → Progress}
    (hf : ∀ pr, r.pr u = some pr → pr.match_ < pr.next → (f pr).match_ < (f pr).next) :
    (r.updatePr u f).Ahead := by
  refine .of_map (r := r) (g := fun w pr => if w = u then f pr else pr) ?_ fun w pr hpr => ?_
  · refine map_congr_left fun q _ => ?_
    split_ifs <;> rfl
  · split_ifs with hw
    · exact hf pr (hw ▸ hpr) (h hs w pr hpr)
    · exact h hs w pr hpr

theorem Act.ahead (hact : Act n b r r') (hl : r.raftLog.Numbered) (hb : ¬ b) (h : r.Ahead) :
    r'.Ahead := by
  cases hact with
  | track f hpr hf =>
    refine fun hs => h.updatePr hs (fun pr' hpr' hlt => ?_) hs
    cases hpr.symm.trans hpr'
    exact (hf hl hlt).resolve_left hb
  | inactive =>
    refine fun hs => Ahead.of_map (r := r) (g := fun w pr =>
      if w = r.id then pr else { pr with recentActive := false }) ?_ (fun w pr hpr => ?_) hs
    · refine map_congr_left fun q _ => ?_
      split_ifs <;> rfl
    · split_ifs <;> exact h hs w pr hpr
  | follower t lead => exact fun hs => by cases hs
  | candidate => exact fun hs => by cases hs
  | elect pending hents hp =>
    refine .of_map (r := r) (g := fun w _ => r.resetProgress w) rfl fun w pr _ => ?_
    unfold resetProgress
    split_ifs
    · exact Nat.lt_succ_self _
    · exact Nat.succ_pos _
  | append pending es hs hp happend =>
    exact Ahead.updatePr (r := { r with pendingConf := pending, raftLog := _ }) h hs
      fun _ _ => maybeUpdate_lt
  | accept prs hs hl => exact fun hs' => absurd hs' hs
  | _ => exact h

theorem Acts.ahead (hacts : Acts n b r r') (hl : r.raftLog.Numbered) (hn : n) (hb : ¬ b)
    (h : r.Ahead) : r'.Ahead := by
  induction hacts with
  | refl => exact h
  | tail hacts hact ih => exact hact.ahead ((Acts.moved hacts hl hn).2.numbered hl) hb ih

end Raft

variable {σ : Replicated} {c : Cluster} {a : State ℕ Entry} {v : ℕ} {m : Message} {r : Raft}

theorem NodeOK.numbered {d : Held} (hs : Inv σ.protocol a) (h : NodeOK σ a v d r) :
    r.raftLog.Numbered := by
  have hshows := h.log.shows
  have hdrop : ∀ {log es : List Entry} {k : ℕ}, Indexed log → es = log.drop k →
      NumberedFrom (k + 1) es := fun hlog hes j e he => by
    rw [hes, getElem?_drop] at he
    have := hlog _ e he
    omega
  refine ⟨hdrop (h.kept.indexed hs) (h.log.storage ▸ h.kept.store.ents), ?_⟩
  have := hdrop hshows.indexed hshows.entries
  rwa [Nat.sub_add_cancel hshows.pos] at this

theorem Sent.numbered (hs : Inv σ.protocol a) (h : Sent σ a m) : m.Numbered := by
  intro hm j e he
  rcases h with ⟨hprop, _⟩ | ⟨_, _, _, hsays⟩
  · rw [hm] at hprop
    cases hprop
  · simp only [Says, hm] at hsays
    have happ : AppOK σ a a.pub none m := hsays
    rw [happ.entries, getElem?_drop] at he
    have := Indexed.take (hs.led _ _ happ.leader).llOK.placed _ _ e he
    omega

namespace Cluster

theorem onNode_up {Q : Raft → Prop} {f : Node → Option Flight → Bool → Except Panic Member}
    (hc : ∀ w r, c.Up w r → Q r) (hf : ∀ n fl islead, c.Up v n.raft → Q n.raft →
      Yields (fun _ => True) (fun mb : Member => ∀ r, mb.raft? = some r → Q r) (f n fl islead)) :
    ∀ w r, (c.onNode v f).Up w r → Q r := by
  rw [onNode]
  rcases hmb : c.member v with _ | ⟨n, fl, islead⟩
  · exact hc
  · have hup : c.Up v n.raft := by rw [Up, hmb]; rfl
    have hset : ∀ mb : Member, (∀ r, mb.raft? = some r → Q r) →
        ∀ w r, (c.setMember v mb).Up w r → Q r := by
      intro mb hmb w r hr
      rw [Up] at hr
      by_cases hw : w = v
      · rw [hw, setMember_self] at hr
        exact hmb r hr
      · rw [setMember_of_ne hw] at hr
        exact hc w r hr
    have hyields := hf n fl islead hup (hc v _ hup)
    rcases hx : f n fl islead with e | mb
    · simp only [hx]
      exact hset _ fun _ h => by cases h
    · simp only [hx]
      exact hset mb (hyields.of_ok hx)

theorem recv_ahead {n : Node} (hl : n.raft.raftLog.Numbered) (hm : m.Numbered)
    (hb : ¬ n.raft.Backed m) (h : n.raft.Ahead) :
    Yields (fun _ => True) (fun n' => n'.raft.Ahead) (n.recv m) := by
  have hstep : ∀ {m : Message}, m.Numbered → ¬ n.raft.Backed m →
      Yields (fun _ => True) Raft.Ahead (n.raft.step m) := fun hm hb =>
    (Raft.step_acts (n := True) (c := True) (fun _ => hm) hb fun _ _ => trivial).imp
      (fun _ _ => trivial) fun _ hr => hr.ahead hl trivial not_false h
  rw [Node.recv]
  split_ifs with hprop hpr
  · refine (hstep (fun happ => ?_) fun hback => ?_).bind fun r hr => hr
    · rw [hprop] at happ
      cases happ
    · obtain ⟨_, _, pr, _, hresp, _⟩ := hback
      rw [hprop] at hresp
      cases hresp
  · exact (hstep hm hb).bind fun r hr => hr
  · exact h

/-- Only a rejection that arrives can take a leader's next index back. -/
theorem step_ahead (h : Sim σ c a) (hc : ∀ w r, c.Up w r → r.Ahead) (ev : Event)
    (hev : ∀ v m r, ev = .recv v m → m ∈ c.net ∧ m.to_ = v → c.Up v r → ¬ r.Backed m) :
    ∀ w r, (step σ.toSetup c ev).Up w r → r.Ahead := by
  have hnum : ∀ {v r}, c.Up v r → r.raftLog.Numbered := fun hup => by
    obtain ⟨d, hn⟩ := h.up hup
    exact hn.numbered h.inv
  have hstay : ∀ {n : Node} {fl islead}, n.raft.Ahead →
      ∀ r, (Member.up n fl islead).raft? = some r → r.Ahead := fun hn r hr =>
    Option.some.inj hr ▸ hn
  have hnode : ∀ {fl islead} {x : Except Panic Node},
      Yields (fun _ => True) (fun n => n.raft.Ahead) x →
      Yields (fun _ => True) (fun mb : Member => ∀ r, mb.raft? = some r → r.Ahead)
        (do return .up (← x) fl islead) := fun hx => hx.bind fun n hn => hstay hn
  cases ev with
  | start v applied =>
    intro w r hr
    rw [step, Up] at hr
    by_cases hw : w = v
    · rw [hw, setMember_self] at hr
      have hmb := h.member v
      rcases hcm : c.member v with ⟨ms, why⟩ | ⟨n, fl, islead⟩ <;> rw [hcm] at hr hmb
      · rw [startMember] at hr
        split_ifs at hr with hpeer
        · have hstart := DownOK.start_yields h.inv hpeer hmb applied
          rcases hs : σ.start v ms applied with e | n <;> rw [hs] at hr hstart
          · cases hr
          · obtain ⟨d, hn, _⟩ := hstart
            cases hr
            intro hl
            have hrole := hn.role
            rw [hl, DownOK.role hmb] at hrole
            cases hrole
        · cases hr
      · exact hc v r (by rw [Up, hcm]; exact hr)
    · rw [setMember_of_ne hw] at hr
      exact hc w r hr
  | recv v m =>
    rw [step]
    split_ifs with hm
    · exact onNode_up hc fun n fl islead hup hn => hnode <|
        recv_ahead (hnum hup) ((h.net m hm.1).numbered h.inv) (hev v m _ rfl hm hup) hn
    · exact hc
  | input v m =>
    rw [step]
    split_ifs with hm
    · have hty : m.type ≠ .app ∧ m.type ≠ .appResp := by
        refine ⟨fun h => ?_, fun h => ?_⟩ <;> simp [isInput, isLocalMsg, h] at hm
      refine onNode_up hc fun n fl islead hup hn => hnode ?_
      refine recv_ahead (hnum hup) (fun h => absurd h hty.1) (fun hb => ?_) hn
      obtain ⟨_, _, pr, _, hresp, _⟩ := hb
      exact hty.2 hresp
    · exact hc
  | tick v rand =>
    refine onNode_up hc fun n fl islead hup hn => hnode ?_
    refine ((n.raft.tick_acts rand).imp (fun _ _ => trivial) fun _ h => h).bind fun r hr => ?_
    exact hr.ahead (hnum hup) trivial not_false hn
  | ready v =>
    refine onNode_up hc fun n fl islead hup hn => ?_
    rcases fl with _ | fl
    · unfold readyMember Node.ready
      split_ifs
      · exact hstay hn
      · rw [bind_assoc]
        refine (Yields.trivial _).bind fun rd _ => ?_
        split_ifs <;> exact hstay hn
    · exact hstay hn
  | save v =>
    refine onNode_up hc fun n fl islead hup hn => ?_
    rcases fl with _ | ⟨rd, _ | _⟩
    · exact hstay hn
    · exact (Yields.trivial _).bind fun ms _ => hstay hn
    · exact hstay hn
  | send v => exact hc
  | advance v =>
    refine onNode_up hc fun n fl islead hup hn => ?_
    rcases fl with _ | ⟨rd, _ | _⟩
    · exact hstay hn
    · exact hstay hn
    · refine hnode ?_
      unfold Node.advance
      split_ifs
      · exact hn
      · exact (Yields.trivial _).bind fun l _ => (Yields.trivial _).bind fun l' _ => hn
  | createSnapshot v i data =>
    refine onNode_up hc fun n fl islead hup hn => ?_
    unfold createSnapshotMember
    simp only
    split_ifs
    · exact hstay hn
    · refine (Yields.trivial _).bind fun x _ => ?_
      rcases x with e | ms <;> exact hstay hn
  | compact v i =>
    refine onNode_up hc fun n fl islead hup hn => ?_
    unfold compactMember
    split_ifs
    · exact hstay hn
    · refine (Yields.trivial _).bind fun x _ => ?_
      rcases x with e | ms <;> exact hstay hn
  | resetPendingConf v => exact onNode_up hc fun n fl islead hup hn => hstay hn
  | shuffle v ids =>
    refine onNode_up hc fun n fl islead hup hn => ?_
    unfold shuffleMember
    split_ifs
    · refine hstay fun hl u pr hpr => ?_
      obtain ⟨i, _, hi⟩ := mem_filterMap.1 (NodeOK.mem_of_pr hpr)
      obtain ⟨pr', hpr', heq⟩ := Option.map_eq_some_iff.1 hi
      cases heq
      exact hn hl u pr hpr'
    · exact hstay hn
  | crash v => exact onNode_up hc fun n fl islead hup hn r hr => by cases hr

/-- No message that arrives takes the next index of a follower back to what is matched. -/
def Forward (σ : Setup) (evs : List Event) : Prop :=
  ∀ pre v m r, pre ++ [.recv v m] <+: evs → m ∈ (run σ pre).net ∧ m.to_ = v →
    (run σ pre).Up v r → ¬ r.Backed m

theorem run_ahead (σ : Replicated) (evs : List Event) :
    Forward σ.toSetup evs → ∀ v r, (run σ.toSetup evs).Up v r → r.Ahead := by
  induction evs using reverseRecOn with
  | nil => exact fun _ v r hr => by cases hr
  | append_singleton evs ev ih =>
    intro hfw
    obtain ⟨a, h⟩ := Sim.run σ evs
    have hrun : run σ.toSetup (evs ++ [ev]) = step σ.toSetup (run σ.toSetup evs) ev :=
      foldl_concat ..
    rw [hrun]
    refine step_ahead h (ih fun pre v m r hpre => ?_) ev fun v m r hev => ?_
    · exact hfw pre v m r (hpre.trans (prefix_append _ _))
    · subst hev
      exact hfw evs v m r prefix_rfl

end Cluster

open Cluster (run Event)

/-- Two nodes that send one entry a message. -/
def pair : Setup :=
  { peers := [1, 2]
    nodup := by decide
    nonzero := by decide
    opts := fun _ => { maxSizePerMsg := 0 } }

/-- The node 2 does not have the entry at 1. -/
def rejection : Message :=
  { type := .appResp, to_ := 1, from_ := 2, term := 3, index := 1, reject := true }

/-- The node 1 leads for the second time, its log ahead of that of 2, and gets a rejection once more
after 2 has taken the entry and was reported unreachable. -/
def rejectedTwice : List Event :=
  [.start 1 0, .start 2 0, .input 1 { type := .hup }] ++ drive 1 ++
  [.recv 2 { type := .vote, to_ := 2, from_ := 1, term := 1 }] ++ drive 2 ++
  [.recv 1 { type := .voteResp, to_ := 1, from_ := 2, term := 1 },
    .input 2 { type := .hup }] ++ drive 2 ++
  [.recv 1 { type := .vote, to_ := 1, from_ := 2, term := 2 },
    .input 1 { type := .hup }] ++ drive 1 ++
  [.recv 2 { type := .vote, to_ := 2, from_ := 1, term := 3, index := 1, logTerm := 1 }] ++
  drive 2 ++ [.recv 1 { type := .voteResp, to_ := 1, from_ := 2, term := 3 }] ++ drive 1 ++
  [.recv 2
    { type := .app, to_ := 2, from_ := 1, term := 3, index := 1, logTerm := 1
      entries := [{ term := 3, index := 2 }] }] ++ drive 2 ++
  [.recv 1 rejection] ++ drive 1 ++
  [.recv 2 { type := .app, to_ := 2, from_ := 1, term := 3, entries := [noop] }] ++ drive 2 ++
  [.recv 1 { type := .appResp, to_ := 1, from_ := 2, term := 3, index := 1 },
    .input 1 { type := .unreachable, from_ := 2 }, .recv 1 rejection]

end EtcdCompat
