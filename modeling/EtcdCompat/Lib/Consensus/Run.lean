import EtcdCompat.Lib.Consensus.Steps

/-!
# Runs

The steps that store, publish and forget move whole views and keep the invariant as well. A party's
steps in memory leave the views of the others and everything stored alone (`Local`), and every
state of a run from the start has the invariant.
-/

namespace Consensus

open Function List

variable {ι E : Type*} [DecidableEq ι] {p : Protocol ι E} {s s' s'' : State ι E} {v : ι}

namespace Inv

theorem ext_ready (s : State ι E) (v : ι) : Ext p s (s.ready v) :=
  ⟨fun _ _ h => h, fun _ _ => rfl, fun _ _ => prefix_rfl, fun _ _ => le_rfl, fun _ => .refl _⟩

theorem ready (hs : Inv p s) (hsaved : s.dur v = s.rd v) : Inv p (s.ready v) := by
  have h : Ext p s (s.ready v) := ext_ready s v
  have hgrow : ∀ u, (s.rd u).Le ((s.ready v).rd u) :=
    forall_update (P := fun u y => (s.rd u).Le y) (hs.rdLe v) fun _ => .refl _
  refine ⟨fun T l hT => hs.led_mono h hT rfl, hs.unled, fun u => h.viewOK (hs.mem u),
    forall_update (h.viewOK (hs.mem v)) fun u => h.viewOK (hs.rd u),
    fun u => h.viewOK (hs.dur u), fun u => (hs.durLe u).trans (hgrow u),
    forall_update (P := fun u y => y.Le (s.mem u)) (.refl _) hs.rdLe, hs.leads, hs.stands,
    fun T l hT => ?_, fun u => (hs.knownMem u).mono hs h fun u _ => hgrow u,
    forall_update ?_ fun u => (hs.knownRd u).mono hs h nofun,
    fun u => (hs.knownDur u).mono hs h nofun, fun u hu => ?_⟩
  · obtain ⟨h1, h2, h3, h4, h5⟩ := hs.pub T l hT
    exact ⟨h1, h2, h3, h4, fun hr hm => (h5 hr hm).trans (max_le_max le_rfl ((hgrow l).acked T))⟩
  · refine Known.mono hs h nofun ((hs.knownMem v).to_none fun w hw => ?_)
    cases Protocol.counts_eq_some hw
    exact hsaved
  · rcases eq_or_ne u v with rfl | hne
    · exact .inl (by rw [show (s.ready u).rd u = s.mem u from update_self ..]; rfl)
    · rw [show (s.ready v).rd u = s.rd u from update_of_ne hne ..] at hu ⊢
      exact hs.grows u hu

theorem ext_save (hs : Inv p s) (v : ι) : Ext p s (s.save v) := by
  refine ⟨fun _ _ h => h, fun _ _ => rfl, fun _ _ => prefix_rfl, fun _ _ => le_rfl, ?_⟩
  exact forall_update (P := fun u y => (s.dur u).Le y) (hs.durLe v) fun _ => .refl _

theorem save (hs : Inv p s) (v : ι) : Inv p (s.save v) := by
  have h := hs.ext_save v
  refine ⟨fun T l hT => hs.led_mono h hT rfl, hs.unled, fun u => h.viewOK (hs.mem u),
    fun u => h.viewOK (hs.rd u), forall_update (h.viewOK (hs.rd v)) fun u => h.viewOK (hs.dur u),
    forall_update (P := fun u y => y.Le (s.rd u)) (.refl _) hs.durLe, hs.rdLe, hs.leads,
    hs.stands, fun T l hT => ?_, fun u => (hs.knownMem u).mono hs h fun _ _ => .refl _,
    fun u => (hs.knownRd u).mono hs h nofun,
    forall_update ((hs.knownRd v).mono hs h nofun) fun u => (hs.knownDur u).mono hs h nofun,
    hs.grows⟩
  obtain ⟨h1, h2, h3, h4, h5⟩ := hs.pub T l hT
  exact ⟨h1, h2, h3, fun he => (h4 he).trans (max_le_max le_rfl ((h.dur l).acked T)), h5⟩

theorem ext_publish (s : State ι E) (v : ι) : Ext p s (s.publish p.early v) := by
  refine ⟨fun _ _ h => h, fun _ _ => rfl, fun _ _ => prefix_rfl, fun T _ => ?_,
    fun _ => .refl _⟩
  simp only [State.publish]
  split_ifs
  · exact le_max_left ..
  · exact le_rfl

theorem publish (hs : Inv p s) (v : ι) : Inv p (s.publish p.early v) := by
  have h : Ext p s (s.publish p.early v) := ext_publish s v
  refine ⟨fun T l hT => hs.led_mono h hT rfl, hs.unled, fun u => h.viewOK (hs.mem u),
    fun u => h.viewOK (hs.rd u), fun u => h.viewOK (hs.dur u), hs.durLe, hs.rdLe, hs.leads,
    hs.stands, fun T l hT => ?_, fun u => (hs.knownMem u).mono hs h fun _ _ => .refl _,
    fun u => (hs.knownRd u).mono hs h nofun, fun u => (hs.knownDur u).mono hs h nofun, hs.grows⟩
  change s.leader T = some l at hT
  obtain ⟨h1, h2, h3, h4, h5⟩ := hs.pub T l hT
  have hgrow := h.pub T (by simp [hT])
  have hpub : (s.publish p.early v).pub T ≤ s.pub T ∨ l = v ∧
      (s.publish p.early v).pub T ≤ max (s.pub T) ((s.source p.early l).acked T) := by
    simp only [State.publish]
    split_ifs with hl
    · cases hT.symm.trans hl
      exact .inr ⟨rfl, le_rfl⟩
    · exact .inl le_rfl
  have hsrc : (s.source p.early l).acked T ≤ (s.rd l).acked T := by
    rw [State.source]
    split_ifs
    · exact le_rfl
    · exact (hs.durLe l).acked T
  refine ⟨h1.trans hgrow, ?_, fun u hu => (h3 u hu).trans hgrow, fun he => ?_, fun hr hm => ?_⟩
  · rcases hpub with hp | ⟨_, hp⟩
    · exact hp.trans h2
    · exact hp.trans (max_le h2 (hsrc.trans ((hs.rd l).ackedLen T)))
  · rcases hpub with hp | ⟨_, hp⟩
    · exact hp.trans (h4 he)
    · refine hp.trans (max_le (h4 he) ?_)
      simp only [State.source, he, Bool.false_eq_true, if_false]
      exact le_max_right ..
  · rcases hpub with hp | ⟨_, hp⟩
    · exact hp.trans (h5 hr hm)
    · exact hp.trans (max_le (h5 hr hm) (hsrc.trans (le_max_right ..)))

theorem ext_crash (s : State ι E) (v : ι) : Ext p s (s.crash v) :=
  ⟨fun _ _ h => h, fun _ _ => rfl, fun _ _ => prefix_rfl, fun _ _ => le_rfl,
    fun _ => .refl _⟩

theorem crash (hs : Inv p s) (v : ι) : Inv p (s.crash v) := by
  have h : Ext p s (s.crash v) := ext_crash s v
  have hcases : ∀ u, u = v ∧ (s.crash v).mem u = s.dur u ∧ (s.crash v).rd u = s.dur u ∧
      (s.crash v).role u = .follower ∨ u ≠ v ∧ (s.crash v).mem u = s.mem u ∧
      (s.crash v).rd u = s.rd u ∧ (s.crash v).role u = s.role u := by
    intro u
    rcases eq_or_ne u v with rfl | hne
    · exact .inl ⟨rfl, update_self .., update_self .., update_self ..⟩
    · exact .inr ⟨hne, update_of_ne hne .., update_of_ne hne ..,
        update_of_ne hne ..⟩
  refine ⟨fun T l hT => hs.led_mono h hT rfl, hs.unled,
    forall_update (h.viewOK (hs.dur v)) fun u => h.viewOK (hs.mem u),
    forall_update (h.viewOK (hs.dur v)) fun u => h.viewOK (hs.rd u),
    fun u => h.viewOK (hs.dur u),
    forall_update (P := fun u y => (s.dur u).Le y) (.refl _) hs.durLe, fun u => ?_,
    fun u hu => ?_, fun u hu => ?_, fun T l hT => ?_, fun u => ?_,
    forall_update ((hs.knownDur v).mono hs h nofun) fun u => (hs.knownRd u).mono hs h nofun,
    fun u => (hs.knownDur u).mono hs h nofun, fun u hu => ?_⟩
  · rcases hcases u with ⟨_, h1, h2, _⟩ | ⟨_, h1, h2, _⟩
    · rw [h1, h2]
      exact .refl _
    · rw [h1, h2]
      exact hs.rdLe u
  · rcases hcases u with ⟨_, _, _, h1⟩ | ⟨_, h1, _, h2⟩
    · rw [h1] at hu
      cases hu
    · rw [h1]
      exact hs.leads u (h2 ▸ hu)
  · rcases hcases u with ⟨_, _, _, h1⟩ | ⟨_, h1, _, h2⟩
    · rw [h1] at hu
      cases hu
    · rw [h1]
      exact hs.stands u (h2 ▸ hu)
  · obtain ⟨h1, h2, h3, h4, h5⟩ := hs.pub T l hT
    refine ⟨h1, h2, forall_update (P := fun u y => u ≠ l → y.acked T ≤ s.pub T)
      (fun hu => ((hs.durMem v).acked T).trans (h3 v hu)) h3, h4, fun hr hm => ?_⟩
    rcases hcases l with ⟨_, _, _, hl⟩ | ⟨_, hm', hrd, hl⟩
    · rw [hl] at hr
      cases hr
    · rw [hrd]
      exact h5 (hl ▸ hr) (hm' ▸ hm)
  · rcases hcases u with ⟨_, h1, _⟩ | ⟨hne, h1, _⟩
    · rw [h1]
      exact Known.of_none ((hs.knownDur u).mono hs h nofun)
    · refine h1 ▸ (hs.knownMem u).mono hs h fun w hw => ?_
      cases Protocol.counts_eq_some hw
      rcases hcases u with ⟨h2, _⟩ | ⟨_, _, h2, _⟩
      · exact absurd h2 hne
      · exact h2 ▸ .refl _
  · rcases hcases u with ⟨_, h1, h2, _⟩ | ⟨_, h1, h2, _⟩
    · exact .inl (by rw [h1, h2])
    · rw [h1, h2] at hu
      rw [h1, h2]
      exact hs.grows u hu

end Inv

/-- The state `s'` came from `s` by steps of the party `v` in memory. -/
structure Local (p : Protocol ι E) (v : ι) (s s' : State ι E) : Prop where
  steps : Relation.ReflTransGen (MemStep p v) s s'
  inv : Inv p s'
  ext : Ext p s s'
  rd : s'.rd = s.rd
  dur : s'.dur = s.dur
  mem : ∀ u, u ≠ v → s'.mem u = s.mem u
  role : ∀ u, u ≠ v → s'.role u = s.role u
  le : (s.mem v).Le (s'.mem v)

namespace Local

theorem refl (hs : Inv p s) : Local p v s s :=
  ⟨.refl, hs, .refl s, rfl, rfl, fun _ _ => rfl, fun _ _ => rfl, .refl _⟩

theorem trans (h : Local p v s s') (h' : Local p v s' s'') : Local p v s s'' where
  steps := h.steps.trans h'.steps
  inv := h'.inv
  ext := h.ext.trans h'.ext
  rd := h'.rd.trans h.rd
  dur := h'.dur.trans h.dur
  mem u hu := (h'.mem u hu).trans (h.mem u hu)
  role u hu := (h'.role u hu).trans (h.role u hu)
  le := h.le.trans h'.le

end Local

theorem MemStep.inv (hs : Inv p s) (h : MemStep p v s s') : Inv p s' := by
  cases h with
  | campaign hr => exact hs.campaign
  | bump T hT => exact hs.bump hT
  | stepDown => exact hs.stepDown v
  | vote c L hr hc hv hL hu => exact hs.vote hc hv hL hu
  | elect A hr hA hv => exact hs.elect hr hA hv
  | extend es hr ht hp => exact hs.extend hr ht hp
  | adopt l m hr hl hne hm => exact hs.adopt hl hne hm
  | learn T i c hT hc hi hp hm => exact hs.learn hT hc hi hp hm

theorem MemStep.local (hs : Inv p s) (h : MemStep p v s s') : Local p v s s' := by
  have hinv := h.inv hs
  have frame : ∀ {x : View ι E} {r : Role}, MemStep p v s (s.withMem v x r) → (s.mem v).Le x →
      Local p v s (s.withMem v x r) := fun h hle =>
    ⟨.single h, h.inv hs, .withMem .., rfl, rfl, fun _ hu => State.withMem_mem_of_ne _ _ _ hu,
      fun _ hu => State.withMem_role_of_ne _ _ _ hu, by rwa [State.withMem_mem_self]⟩
  have hstep := h
  cases h with
  | campaign hr => exact frame hstep (View.le_campaign (hs.mem v))
  | bump T hT => exact frame hstep (View.le_bump hT)
  | stepDown => exact frame hstep (.refl _)
  | vote c L hr hc hv hL hu => exact frame hstep (View.le_vote hv c)
  | elect A hr hA hv =>
    exact ⟨.single hstep, hinv, hs.ext_elect hr hA hv, rfl, rfl, fun _ _ => rfl,
      fun _ hu => update_of_ne hu .., .refl _⟩
  | extend es hr ht hp =>
    refine ⟨.single hstep, hinv, hs.ext_extend hr es, rfl, rfl,
      fun _ hu => update_of_ne hu .., fun _ _ => rfl, ?_⟩
    rw [State.extend_mem_self]
    exact hs.le_append hr es
  | adopt l m hr hl hne hm => exact frame hstep (View.le_adopt _ _)
  | learn T i c hT hc hi hp hm =>
    exact frame hstep ⟨le_rfl, fun _ _ h => h, fun _ _ h => h, fun _ => le_rfl, fun _ _ => rfl, hm⟩

theorem Step.inv (hs : Inv p s) (h : Step p s s') : Inv p s' := by
  cases h with
  | mem h => exact h.inv hs
  | ready v h => exact hs.ready h
  | save v => exact hs.save v
  | publish v => exact hs.publish v
  | crash v => exact hs.crash v

theorem Step.ext (hs : Inv p s) (h : Step p s s') : Ext p s s' := by
  cases h with
  | mem h => exact (h.local hs).ext
  | ready v h => exact Inv.ext_ready s v
  | save v => exact hs.ext_save v
  | publish v => exact Inv.ext_publish s v
  | crash v => exact Inv.ext_crash s v

abbrev Run (p : Protocol ι E) : State ι E → State ι E → Prop := Relation.ReflTransGen (Step p)

theorem Local.run (h : Local p v s s') : Run p s s' := by
  have hsteps := h.steps
  clear h
  induction hsteps with
  | refl => exact .refl
  | tail _ h ih => exact ih.tail (.mem h)

theorem Run.inv (hs : Inv p s) (h : Run p s s') : Inv p s' := by
  induction h with
  | refl => exact hs
  | tail _ h ih => exact h.inv ih

theorem Run.ext (hs : Inv p s) (h : Run p s s') : Ext p s s' := by
  induction h with
  | refl => exact .refl s
  | tail hr h ih => exact ih.trans (h.ext (Run.inv hs hr))

namespace Protocol

variable (p)

def initView : View ι E where
  term := p.start
  votes := fun _ => none
  cand := fun _ => none
  log := p.boot
  acked := fun _ => 0
  commit := p.boot.length

def init : State ι E where
  mem := fun _ => p.initView
  rd := fun _ => p.initView
  dur := fun _ => p.initView
  role := fun _ => .follower
  leader := fun _ => none
  base := fun _ => p.boot
  ll := fun _ => p.boot
  pub := fun _ => 0

theorem inv_init : Inv p p.init := by
  have hlog : LogOK p p.init p.boot := by
    refine ⟨prefix_rfl, ?_, p.boot_placed, fun j e he => ?_, fun j e _ => take_prefix ..⟩
    · exact Pairwise.imp_of_mem (fun ha hb _ =>
        (p.boot_term _ ha).trans_le (p.boot_term _ hb).ge)
        (pairwise_of_forall (R := fun _ _ => True) fun _ _ => trivial)
    · exact .inr (p.boot_term e (mem_of_getElem? he))
  have hview : ∀ v, ViewOK p p.init v p.initView := fun v =>
    ⟨le_rfl, hlog, fun e he => (p.boot_term e he).le, nofun, fun _ h => absurd h (lt_irrefl _),
      fun _ h => absurd h (lt_irrefl _), fun _ => Nat.zero_le _, nil_prefix,
      fun T i hi hle => absurd (hi.trans_le hle) (Nat.not_lt_zero _), nofun, nofun⟩
  have hknown : ∀ w, Known p p.init w p.initView := fun w => ⟨le_rfl, le_rfl, .inl rfl⟩
  exact ⟨nofun, fun _ _ => ⟨rfl, rfl⟩, hview, hview, hview, fun _ => .refl _, fun _ => .refl _,
    nofun, nofun, nofun, fun v => hknown _, fun _ => hknown _, fun _ => hknown _,
    fun _ _ => .inl rfl⟩

end Protocol

end Consensus
