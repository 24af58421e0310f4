import EtcdCompat.Lib.Consensus.Safety

/-!
# The steps in memory keep the invariant

`withMem` is the frame of the steps that change one party's view in memory and leave the record of
the elections alone; the election of a leader and the extension of its log change the record of
one term.
-/

namespace Consensus

open List Option View State

open Function

variable {ι E : Type*} [DecidableEq ι] {p : Protocol ι E} {s s' : State ι E} {v : ι}

theorem forall_update {f : ι → View ι E} {x : View ι E} {P : ι → View ι E → Prop} (hv : P v x)
    (hu : ∀ u, P u (f u)) (u : ι) : P u (update f v x u) :=
  (forall_update_iff f P).2 ⟨hv, fun u _ => hu u⟩ u

namespace State

variable (s v) (x : View ι E) (r : Role) {u : ι}

@[simp] theorem withMem_mem_self : (s.withMem v x r).mem v = x := update_self ..

@[simp] theorem withMem_role_self : (s.withMem v x r).role v = r := update_self ..

variable {v}

theorem withMem_mem_of_ne (h : u ≠ v) : (s.withMem v x r).mem u = s.mem u :=
  update_of_ne h ..

theorem withMem_role_of_ne (h : u ≠ v) : (s.withMem v x r).role u = s.role u :=
  update_of_ne h ..

variable (v) (es : List E)

@[simp] theorem extend_ll_self : (s.extend v es).ll (s.mem v).term = (s.mem v).log ++ es :=
  update_self ..

@[simp] theorem extend_mem_self : (s.extend v es).mem v = (s.mem v).append es :=
  update_self ..

end State

namespace View

variable {x : View ι E}

theorem le_campaign (hx : ViewOK p s v x) : x.Le (x.campaign v) := by
  have hnv : ∀ c, x.votes (x.term + 1) ≠ some c := fun c hc =>
    absurd (hx.votesLe _ c hc) (by omega)
  refine ⟨Nat.le_succ _, fun T c hc => ?_, fun T L hL => ?_, fun _ => le_rfl, fun _ _ => rfl,
    le_rfl⟩
  · simp only [campaign, update_apply]
    split_ifs with hT
    · exact absurd (hT ▸ hc) (hnv c)
    · exact hc
  · simp only [campaign, update_apply]
    split_ifs with hT
    · exact absurd (hT ▸ (hx.cand T L hL).1) (hnv v)
    · exact hL

omit [DecidableEq ι] in
theorem le_bump {T : ℕ} (hT : x.term < T) : x.Le { x with term := T } :=
  ⟨hT.le, fun _ _ h => h, fun _ _ h => h, fun _ => le_rfl, fun _ _ => rfl, le_rfl⟩

omit [DecidableEq ι] in
theorem le_vote (hv : x.votes x.term = none) (c : ι) : x.Le (x.vote c) := by
  refine ⟨le_rfl, fun T c' hc' => ?_, fun _ _ h => h, fun _ => le_rfl, fun _ _ => rfl, le_rfl⟩
  simp only [vote, update_apply]
  split_ifs with hT
  · rw [hT, hv] at hc'
    cases hc'
  · exact hc'

omit [DecidableEq ι] in
theorem le_adopt (x : View ι E) (L : List E) : x.Le (x.adopt L) := by
  refine ⟨le_rfl, fun _ _ h => h, fun _ _ h => h, fun T => ?_, fun T hT => ?_, le_rfl⟩
  · simp only [adopt, update_apply]
    split_ifs with hT
    · rw [hT]
      exact le_max_left ..
    · exact le_rfl
  · exact update_of_ne hT.ne ..

end View

theorem ViewOK.acknowledge {x : View ι E} {log : List E} {n : ℕ} (hx : ViewOK p s v x)
    (hl : s.leader x.term ≠ none) (hlog : LogOK p s log) (hterm : ∀ e ∈ log, p.termOf e ≤ x.term)
    (hn : n ≤ (s.ll x.term).length) (hcur : Holds s x.term n log)
    (hkeep : ∀ T i, T < x.term → Keeps s T i x.log (x.term + 1) → Keeps s T i log (x.term + 1)) :
    ViewOK p s v { x with log := log, acked := update x.acked x.term n } := by
  have hack : ∀ {T}, T ≠ x.term → update x.acked x.term n T = x.acked T :=
    fun h => update_of_ne h ..
  refine ⟨hx.term, hlog, hterm, hx.votesLe, fun T hT => ?_, fun T hT => ?_, fun T => ?_, ?_,
    fun T i hi hle => ?_, hx.cand, fun T c hc => ?_⟩
  · rcases eq_or_ne T x.term with rfl | hne
    · exact le_rfl
    · exact hx.ackedLe T (hack hne ▸ hT)
  · rcases eq_or_ne T x.term with rfl | hne
    · exact hl
    · exact hx.ackedLed T (hack hne ▸ hT)
  · rcases eq_or_ne T x.term with rfl | hne
    · simpa using hn
    · exact (hack hne).trans_le (hx.ackedLen T)
  · simpa using hcur
  · rcases eq_or_ne T x.term with rfl | hne
    · simp only [update_self] at hle
      exact .inl ((take_prefix_take_left hle).trans hcur)
    · simp only [hack hne] at hle
      have hT := hx.ackedLe T (by omega)
      exact hkeep T i (by omega) (hx.keeps T i hi hle)
  · obtain ⟨L, hL, hok⟩ := hx.vote T c hc
    refine ⟨L, hL, hok.imp_right fun h => h.congr fun T₀ hT₀ => hack ?_⟩
    have := hx.votesLe T c hc
    omega

theorem Ext.withMem (s : State ι E) (v : ι) (x : View ι E) (r : Role) :
    Ext p s (s.withMem v x r) :=
  ⟨fun _ _ h => h, fun _ _ => rfl, fun _ _ => prefix_rfl, fun _ _ => le_rfl,
    fun _ => .refl _⟩

namespace Inv

variable {x : View ι E} {A : Finset ι} {es : List E} {m : ℕ}

variable (hs : Inv p s) {T : ℕ} {L : List E}
include hs

theorem led_mono (h : Ext p s s') {l : ι} (hT : s.leader T = some l) (hll : s'.ll T = s.ll T) :
    Led p s' T l := by
  have hl := hs.led T l hT
  refine hl.mono hT h (fun u => (hs.dur u).ackedLed) (fun u => (hs.dur u).ackedLen)
    (fun u => (hs.dur u).votesLe) ?_ ?_
  · rw [hll]
    exact h.logOK hl.llOK
  · rw [hll]
    exact hl.own

theorem withMem {r : Role} (hx : ViewOK p s v x) (hle : (s.mem v).Le x)
    (hlead : r = .leader → s.role v = .leader ∧ x.term = (s.mem v).term ∧ x.log = (s.mem v).log)
    (hstand : r = .candidate → s.leader x.term ≠ some v ∧ x.cand x.term = some x.log)
    (hpub : ∀ T l, s.leader T = some l → v ≠ l → x.acked T ≤ s.pub T)
    (hk : Known p s (p.counts v) x) (hg : Grows s v x) : Inv p (s.withMem v x r) := by
  have h : Ext p s (s.withMem v x r) := .withMem s v x r
  refine ⟨fun T l hT => hs.led_mono h hT rfl, hs.unled,
    forall_update (h.viewOK hx) fun u => h.viewOK (hs.mem u), fun u => h.viewOK (hs.rd u),
    fun u => h.viewOK (hs.dur u), hs.durLe, forall_update ((hs.rdLe v).trans hle) hs.rdLe,
    fun u hu => ?_, fun u hu => ?_, fun T l hT => ?_,
    forall_update (hk.mono hs h fun _ _ => .refl _) fun u =>
      (hs.knownMem u).mono hs h fun _ _ => .refl _,
    fun u => (hs.knownRd u).mono hs h fun _ _ => .refl _,
    fun u => (hs.knownDur u).mono hs h fun _ _ => .refl _, forall_update hg hs.grows⟩
  · rcases eq_or_ne u v with rfl | hne
    · rw [withMem_role_self] at hu
      obtain ⟨h1, h2, h3⟩ := hlead hu
      obtain ⟨h4, h5, h6⟩ := hs.leads u h1
      rw [withMem_mem_self, h2, h3]
      exact ⟨h4, h5, h6.trans (max_le_max le_rfl (hle.acked _))⟩
    · rw [withMem_role_of_ne _ _ _ hne] at hu
      rw [withMem_mem_of_ne _ _ _ hne]
      exact hs.leads u hu
  · rcases eq_or_ne u v with rfl | hne
    · rw [withMem_role_self] at hu
      rw [withMem_mem_self]
      exact hstand hu
    · rw [withMem_role_of_ne _ _ _ hne] at hu
      rw [withMem_mem_of_ne _ _ _ hne]
      exact hs.stands u hu
  · have hp := hs.pub T l hT
    refine ⟨hp.base, hp.ll, forall_update (P := fun u y => u ≠ l → y.acked T ≤ s.pub T)
      (hpub T l hT) hp.acked, hp.saved, fun hr hm => ?_⟩
    rcases eq_or_ne l v with rfl | hne
    · rw [withMem_role_self] at hr
      rw [withMem_mem_self, (hlead hr).2.1] at hm
      exact hp.lead (hlead hr).1 hm
    · rw [withMem_role_of_ne _ _ _ hne] at hr
      rw [withMem_mem_of_ne _ _ _ hne] at hm
      exact hp.lead hr hm

theorem grows_of_lt (h : (s.mem v).term < x.term) : Grows s v x := by
  intro heq
  have := (hs.rdLe v).term
  omega

theorem acked_le_pub (T : ℕ) (l : ι) (hT : s.leader T = some l) (hne : v ≠ l) :
    (s.mem v).acked T ≤ s.pub T :=
  (hs.pub T l hT).acked v hne

theorem stepDown (v : ι) : Inv p (s.withMem v (s.mem v) .follower) :=
  hs.withMem (hs.mem v) (.refl _) nofun nofun hs.acked_le_pub (hs.knownMem v) (hs.grows v)

omit hs in
theorem viewOK_bump (hx : ViewOK p s v x) (hT : x.term < T) :
    ViewOK p s v { x with term := T } := by
  have h0 : x.acked T = 0 := by
    by_contra h
    exact absurd (hx.ackedLe T (Nat.pos_of_ne_zero h)) (by omega)
  refine ⟨hx.term.trans hT.le, hx.log, fun e he => (hx.logTerm e he).trans hT.le,
    fun T' c hc => (hx.votesLe T' c hc).trans hT.le, fun T' h => (hx.ackedLe T' h).trans hT.le,
    hx.ackedLed, hx.ackedLen, by simp [Holds, h0], fun T' i hi hle => ?_, hx.cand, hx.vote⟩
  rcases hx.keeps T' i hi hle with hh | ⟨T'', h1, h2, h3⟩
  · exact .inl hh
  · exact .inr ⟨T'', h1, h2.trans_le (Nat.succ_le_succ hT.le), h3⟩

theorem known_bump (hT : (s.mem v).term < T) :
    Known p s (p.counts v) { s.mem v with term := T } := by
  refine ⟨(hs.knownMem v).le, (hs.knownMem v).boot, (hs.knownMem v).comm.imp_right ?_⟩
  intro hk
  obtain ⟨T', i, h1, h2⟩ := hk
  exact ⟨T', i, h1.trans hT.le, h2⟩

theorem bump (hT : (s.mem v).term < T) :
    Inv p (s.withMem v { s.mem v with term := T } .follower) :=
  hs.withMem (viewOK_bump (hs.mem v) hT) (le_bump hT) nofun nofun hs.acked_le_pub
    (hs.known_bump hT) (hs.grows_of_lt hT)

theorem campaign : Inv p (s.withMem v ((s.mem v).campaign v) .candidate) := by
  have hlt := Nat.lt_succ_self (s.mem v).term
  have hx := viewOK_bump (hs.mem v) hlt
  have hk := hs.known_bump (v := v) hlt
  have hnc : ∀ L, (s.mem v).cand ((s.mem v).term + 1) ≠ some L := fun L hL =>
    absurd ((hs.mem v).votesLe _ v ((hs.mem v).cand _ L hL).1) (by omega)
  refine hs.withMem (x := (s.mem v).campaign v) { hx with votesLe := ?_, cand := ?_, vote := ?_ }
    (View.le_campaign (hs.mem v)) nofun ?_ hs.acked_le_pub { hk with } (hs.grows_of_lt hlt)
  · intro T c hc
    simp only [View.campaign, update_apply] at hc ⊢
    split_ifs at hc with hT
    · exact hT.le
    · exact hx.votesLe T c hc
  · intro T L hL
    simp only [View.campaign, update_apply] at hL ⊢
    split_ifs at hL ⊢ with hT
    · cases hL
      have := (hs.mem v).term
      exact ⟨rfl, by omega, hx.log, fun e he => hT ▸ Nat.lt_succ_of_le ((hs.mem v).logTerm e he)⟩
    · exact hx.cand T L hL
  · intro T c hc
    simp only [View.campaign, update_apply] at hc ⊢
    split_ifs at hc with hT
    · cases hc
      refine ⟨(s.mem v).log, by simp [hT], .inr ?_⟩
      intro T₀ i _ hi hle
      rw [hT]
      exact (hs.mem v).keeps T₀ i hi hle
    · obtain ⟨L, hL, hv⟩ := hx.vote T c hc
      rw [if_neg hT]
      exact ⟨L, hL, hv⟩
  · intro _
    refine ⟨fun hl => ?_, by simp [View.campaign]⟩
    exact hnc _ ((hs.durMem v).cand _ _ (hs.led _ v hl).stood)

theorem own_termAt {T i : ℕ} (hT : s.leader T ≠ none) (hi : (s.base T).length < i)
    (hi' : i ≤ (s.ll T).length) : ∃ e, (s.ll T)[i - 1]? = some e ∧ p.termOf e = T := by
  obtain ⟨l, hl⟩ := ne_none_iff_exists'.1 hT
  have he := getElem?_eq_getElem (show i - 1 < (s.ll T).length by omega)
  exact ⟨_, he, (hs.led T l hl).own _ _ (by omega) he⟩

theorem base_prefix_of_last (hL : LogOK p s L) {e : E} (he : L[L.length - 1]? = some e)
    (hne : L ≠ []) (hT : s.leader (p.termOf e) ≠ none) : s.base (p.termOf e) <+: L := by
  obtain ⟨l, hl⟩ := ne_none_iff_exists'.1 hT
  have hled := hs.led _ l hl
  have hpos := length_pos_iff.2 hne
  have hpre : L <+: s.ll (p.termOf e) := by
    have := hL.origin _ e he
    rwa [Nat.sub_add_cancel hpos, take_length] at this
  refine prefix_of_prefix_length_le hled.base hpre ?_
  by_contra hlt
  have hLb : L <+: s.base (p.termOf e) :=
    prefix_of_prefix_length_le hpre hled.base (by omega)
  have hmem : e ∈ s.base (p.termOf e) := hLb.subset (mem_of_getElem? he)
  exact absurd (hled.before e hmem) (lt_irrefl _)

/-- A log at least as up to date keeps what was acknowledged, or a later leader lacks it. -/
theorem keeps_of_upToDate {log L : List E} {T T₀ i : ℕ} (hlog : LogOK p s log) (hL : LogOK p s L)
    (hLT : ∀ e ∈ L, p.termOf e < T) (hu : p.UpToDate L log) (hT₀ : s.leader T₀ ≠ none)
    (hi : (s.base T₀).length < i) (hi' : i ≤ (s.ll T₀).length) (hh : Holds s T₀ i log) :
    Keeps s T₀ i L T := by
  obtain ⟨e₀, he₀, ht₀⟩ := hs.own_termAt hT₀ hi hi'
  have hlen : i ≤ log.length := by
    have := hh.length_le
    rwa [length_take_of_le hi'] at this
  have he₀' : log[i - 1]? = some e₀ := by
    refine hh.getElem?_some ?_
    rw [getElem?_take_of_lt (by omega)]
    exact he₀
  have hne : log ≠ [] := length_pos_iff.1 (by omega)
  obtain ⟨a, ha, hta⟩ := p.lastTerm_eq hne
  have hle : T₀ ≤ p.termOf a := ht₀ ▸ hlog.termOf_le (by omega) he₀' ha
  have hLne : L ≠ [] := by
    intro h
    rcases hu with hlt | ⟨_, hlt⟩
    · simp [h, Protocol.lastTerm, termAt] at hlt
    · rw [h, length_nil] at hlt
      omega
  obtain ⟨b, hb, htb⟩ := p.lastTerm_eq hLne
  rw [Protocol.UpToDate, hta, htb] at hu
  rcases hu with hlt | ⟨heq, hlt⟩
  · obtain ⟨l, hl⟩ := ne_none_iff_exists'.1 hT₀
    have hstart := (hs.led T₀ l hl).start
    have hled : s.leader (p.termOf b) ≠ none := (hL.started _ b hb).resolve_right (by omega)
    have hbase := hs.base_prefix_of_last hL hb hLne hled
    by_cases hh' : Holds s T₀ i (s.base (p.termOf b))
    · exact .inl (hh'.trans hbase)
    · exact .inr ⟨_, by omega, hLT b (mem_of_getElem? hb), hled, hh'⟩
  · have h1 := hlog.origin _ a ha
    have h2 := hL.origin _ b hb
    rw [Nat.sub_add_cancel (length_pos_iff.2 hne), take_length] at h1
    rw [Nat.sub_add_cancel (length_pos_iff.2 hLne), take_length, ← heq] at h2
    exact .inl (hh.trans (prefix_of_prefix_length_le h1 h2 hlt))

theorem vote {c : ι} (hc : c ≠ v) (hv : (s.mem v).votes (s.mem v).term = none)
    (hL : (s.dur c).cand (s.mem v).term = some L) (hu : p.UpToDate L (s.mem v).log) :
    Inv p (s.withMem v ((s.mem v).vote c) .follower) := by
  have hx := hs.mem v
  obtain ⟨_, hst, hLok, hLT⟩ := (hs.dur c).cand _ L hL
  refine hs.withMem (x := (s.mem v).vote c) { hx with votesLe := ?_, cand := ?_, vote := ?_ }
    (View.le_vote hv c) nofun nofun hs.acked_le_pub { hs.knownMem v with } (hs.grows v)
  · intro T c' hc'
    simp only [View.vote, update_apply] at hc' ⊢
    split_ifs at hc' with hT
    · exact hT.le
    · exact hx.votesLe T c' hc'
  · intro T L' hL'
    obtain ⟨h1, h2⟩ := hx.cand T L' hL'
    refine ⟨?_, h2⟩
    simp only [View.vote, update_apply]
    split_ifs with hT
    · rw [hT, hv] at h1
      cases h1
    · exact h1
  · intro T c' hc'
    simp only [View.vote, update_apply] at hc' ⊢
    split_ifs at hc' with hT
    · cases hc'
      refine ⟨L, by rw [if_neg hc, hT]; exact hL, ?_⟩
      by_cases hl : s.leader T = none
      · refine .inr fun T₀ i hT₀ hi (hle : i ≤ (s.mem v).acked T₀) => ?_
        have hled := hx.ackedLed T₀ (by omega)
        rcases hx.keeps T₀ i hi hle with hh | ⟨T', h1, h2, h3, h4⟩
        · exact hs.keeps_of_upToDate hx.log hLok (hT ▸ hLT) hu hled hi
            (hle.trans (hx.ackedLen T₀)) hh
        · refine .inr ⟨T', h1, ?_, h3, h4⟩
          have hne : T' ≠ T := fun h => h3 (h ▸ hl)
          omega
      · exact .inl hl
    · exact hx.vote T c' hc'

section

variable (hr : s.role v = .candidate) (hA : p.Quorum A)
  (hv : ∀ u ∈ A, u ≠ v → (s.dur u).votes (s.mem v).term = some v)
include hr hA hv

/-- Two quorums cannot elect two leaders for one term. -/
theorem unled_of_votes : s.leader (s.mem v).term = none := by
  obtain ⟨hne, hc⟩ := hs.stands v hr
  cases hl : s.leader (s.mem v).term with
  | none => rfl
  | some l =>
    exfalso
    have hlv : l ≠ v := fun h => hne (h ▸ hl)
    obtain ⟨B, hB, hvote⟩ := (hs.led _ l hl).voted
    obtain ⟨u, huA, huB⟩ := p.inter hA hB
    have h1 := (hvote u huB).1
    rcases eq_or_ne u v with rfl | hu
    · have h2 := (hs.durMem u).votes _ l h1
      rw [((hs.mem u).cand _ _ hc).1] at h2
      exact hlv (some.inj h2).symm
    · rw [hv u huA hu] at h1
      exact hlv (some.inj h1).symm

theorem ext_elect : Ext p s (s.elect v) := by
  obtain ⟨_, hcand⟩ := hs.stands v hr
  obtain ⟨_, hstart, _⟩ := (hs.mem v).cand _ _ hcand
  have hT : ∀ {T}, s.leader T ≠ none → T ≠ (s.mem v).term := fun h h' =>
    h (h' ▸ hs.unled_of_votes hr hA hv)
  refine ⟨fun T l hl => ?_, fun T hl => ?_, fun T hl => ?_, fun T hl => ?_, fun _ => .refl _⟩
  · exact (update_of_ne (hT (by simp [hl])) ..).trans hl
  · exact update_of_ne (hT hl) ..
  · have : T ≠ (s.mem v).term := hl.elim hT (by omega)
    rw [show (s.elect v).ll T = s.ll T from update_of_ne this ..]
  · exact (update_of_ne (hT hl) ..).ge

theorem elect : Inv p (s.elect v) := by
  have hx := hs.mem v
  obtain ⟨_, hcand⟩ := hs.stands v hr
  obtain ⟨_, hstart, _, hbefore⟩ := hx.cand _ _ hcand
  have hun := hs.unled_of_votes hr hA hv
  have hstood : (s.dur v).cand (s.mem v).term = some (s.mem v).log := by
    obtain ⟨u, hu, hne⟩ := p.other v hA
    obtain ⟨L, hL, _⟩ := (hs.dur u).vote _ v (hv u hu hne)
    rw [if_neg hne.symm] at hL
    rw [hL, ← hcand]
    exact ((hs.durMem v).cand _ L hL).symm
  have hT : ∀ {T}, s.leader T ≠ none → T ≠ (s.mem v).term := fun h h' => h (h' ▸ hun)
  have h : Ext p s (s.elect v) := hs.ext_elect hr hA hv
  have hnew : (s.elect v).leader (s.mem v).term = some v := update_self ..
  have hbase : (s.elect v).base (s.mem v).term = (s.mem v).log := update_self ..
  have hll : (s.elect v).ll (s.mem v).term = (s.mem v).log := update_self ..
  have hpub : (s.elect v).pub (s.mem v).term = (s.mem v).log.length := update_self ..
  have hold : ∀ {T}, T ≠ (s.mem v).term → (s.elect v).leader T = s.leader T :=
    fun h => update_of_ne h ..
  have hrole : ∀ {u}, u ≠ v → (s.elect v).role u = s.role u := fun h => update_of_ne h ..
  have h0 : ∀ u, (s.mem u).acked (s.mem v).term = 0 := by
    intro u
    by_contra hu
    exact (hs.mem u).ackedLed _ (Nat.pos_of_ne_zero hu) hun
  refine ⟨fun T l hl => ?_, fun T hl => ?_, fun u => h.viewOK (hs.mem u),
    fun u => h.viewOK (hs.rd u), fun u => h.viewOK (hs.dur u), hs.durLe, hs.rdLe,
    fun u hu => ?_, fun u hu => ?_, fun T l hl => ?_,
    fun u => (hs.knownMem u).mono hs h fun _ _ => .refl _,
    fun u => (hs.knownRd u).mono hs h fun _ _ => .refl _,
    fun u => (hs.knownDur u).mono hs h fun _ _ => .refl _, fun u hu => ?_⟩
  · rcases eq_or_ne T (s.mem v).term with rfl | hne
    · obtain rfl : v = l := some.inj (hnew.symm.trans hl)
      have hvoted : ∀ u ∈ A, (s.dur u).votes (s.mem v).term = some v := by
        intro u hu
        rcases eq_or_ne u v with rfl | hne
        · exact ((hs.dur u).cand _ _ hstood).1
        · exact hv u hu hne
      refine ⟨hstart, hbase ▸ h.logOK hx.log, hll ▸ h.logOK hx.log, by rw [hbase, hll],
        hbase ▸ hbefore, fun j e hj he => ?_, hbase ▸ hstood, A, hA,
        fun u hu => ⟨hvoted u hu, ?_⟩⟩
      · rw [hbase] at hj
        rw [hll] at he
        exact absurd (List.getElem?_eq_some_iff.1 he).1 (by omega)
      · obtain ⟨L, hL, hok⟩ := (hs.dur u).vote _ v (hvoted u hu)
        have hok := hok.resolve_left fun hne => hne hun
        have hLlog : L = (s.mem v).log := by
          split_ifs at hL with huv
          · exact some.inj (hL.symm.trans (huv ▸ hstood))
          · exact some.inj (hL.symm.trans hstood)
        rw [hbase, ← hLlog]
        exact h.voteOK (hs.dur u).ackedLed (hs.dur u).ackedLen hok
    · rw [hold hne] at hl
      exact hs.led_mono h hl (update_of_ne hne ..)
  · have hne : T ≠ (s.mem v).term := by
      intro hT
      rw [hT, hnew] at hl
      cases hl
    rw [hold hne] at hl
    obtain ⟨h1, h2⟩ := hs.unled T hl
    exact ⟨(update_of_ne hne ..).trans h1, (update_of_ne hne ..).trans h2⟩
  · rcases eq_or_ne u v with rfl | hne
    · exact ⟨hnew, hll, hbase.symm ▸ le_max_left ..⟩
    · rw [hrole hne] at hu
      obtain ⟨h1, h2, h3⟩ := hs.leads u hu
      have hled : s.leader (s.mem u).term ≠ none := by simp [h1]
      refine ⟨(hold (hT hled)).trans h1, (update_of_ne (hT hled) ..).trans h2, ?_⟩
      exact (h.base _ hled).symm ▸ h3
  · rcases eq_or_ne u v with rfl | hne
    · rw [show (s.elect u).role u = .leader from update_self ..] at hu
      cases hu
    · rw [hrole hne] at hu
      refine ⟨fun hl => ?_, (hs.stands u hu).2⟩
      change (s.elect v).leader (s.mem u).term = some u at hl
      rcases eq_or_ne (s.mem u).term (s.mem v).term with hT' | hT'
      · rw [hT', hnew] at hl
        exact hne (some.inj hl).symm
      · rw [hold hT'] at hl
        exact (hs.stands u hu).1 hl
  · rcases eq_or_ne T (s.mem v).term with rfl | hne
    · refine ⟨by rw [hbase, hpub], by rw [hll, hpub], fun u _ => (h0 u).le.trans (Nat.zero_le _),
        fun _ => ?_, fun _ _ => ?_⟩ <;>
      · rw [hbase, hpub]
        exact le_max_left ..
    · rw [hold hne] at hl
      obtain ⟨h1, h2, h3, h4, h5⟩ := hs.pub T l hl
      have hb : (s.elect v).base T = s.base T := update_of_ne hne ..
      have hp : (s.elect v).pub T = s.pub T := update_of_ne hne ..
      have hL : (s.elect v).ll T = s.ll T := update_of_ne hne ..
      refine ⟨by rwa [hb, hp], by rwa [hL, hp], by rwa [hp], by rwa [hb, hp], fun hrl hm => ?_⟩
      rw [hb, hp]
      refine h5 ?_ hm
      have hlv : l ≠ v := fun hlv => hne (by rw [← hm, hlv]; rfl)
      rwa [hrole hlv] at hrl
  · refine (hs.grows u hu).imp_right ?_
    intro hg
    have hll : (s.elect v).ll (s.mem u).term = s.ll (s.mem u).term :=
      update_of_ne (hT hg.1) ..
    refine ⟨h.led hg.1, fun i => ?_⟩
    rw [Holds, Holds, show (s.elect v).mem u = s.mem u from rfl, hll]
    exact hg.2 i

end

section

variable (hr : s.role v = .leader)
include hr

theorem ext_extend (es : List E) : Ext p s (s.extend v es) := by
  refine ⟨fun _ _ h => h, fun _ _ => rfl, fun T _ => ?_, fun _ _ => le_rfl, fun _ => .refl _⟩
  rcases eq_or_ne T (s.mem v).term with rfl | hne
  · rw [(hs.leads v hr).2.1, extend_ll_self]
    exact prefix_append ..
  · rw [show (s.extend v es).ll T = s.ll T from update_of_ne hne ..]

theorem le_append (es : List E) : (s.mem v).Le ((s.mem v).append es) := by
  refine ⟨le_rfl, fun _ _ h => h, fun _ _ h => h, fun T => ?_, fun T hT => ?_, le_rfl⟩
  · rcases eq_or_ne T (s.mem v).term with rfl | hne
    · have := (hs.mem v).ackedLen (s.mem v).term
      rw [(hs.leads v hr).2.1] at this
      rw [show ((s.mem v).append es).acked (s.mem v).term = ((s.mem v).log ++ es).length from
        update_self .., length_append]
      omega
    · exact (update_of_ne hne ..).ge
  · exact update_of_ne hT.ne ..

variable (ht : ∀ e ∈ es, p.termOf e = (s.mem v).term)
include ht

theorem nil_of_holds_new {u : ι} {i : ℕ}
    (hi : (s.ll (s.mem v).term).length < i)
    (hh : Holds (s.extend v es) (s.mem v).term i (s.rd u).log) : es = [] := by
  have hlog := (hs.leads v hr).2.1
  rw [Holds, extend_ll_self] at hh
  rw [hlog] at hi
  cases es with
  | nil => rfl
  | cons e es =>
    have he : (s.rd u).log[(s.mem v).log.length]? = some e := by
      refine hh.getElem?_some ?_
      rw [List.getElem?_take_of_lt hi, List.getElem?_append_right le_rfl, Nat.sub_self]
      rfl
    have horig := ((hs.rd u).log.origin _ e he).length_le
    rw [ht e List.mem_cons_self, hlog, List.length_take_of_le
      (List.getElem?_eq_some_iff.1 he).1] at horig
    omega

variable (hp : ∀ j e, es[j]? = some e → p.Placed ((s.mem v).log.length + j) e)
include hp

theorem logOK_extend : LogOK p (s.extend v es) ((s.mem v).log ++ es) := by
  have hx := hs.mem v
  have hold := (hs.ext_extend hr es).logOK hx.log
  have hcases : ∀ {j : ℕ} {e : E}, ((s.mem v).log ++ es)[j]? = some e →
      (s.mem v).log[j]? = some e ∧ j < (s.mem v).log.length ∨
        (s.mem v).log.length ≤ j ∧ es[j - (s.mem v).log.length]? = some e := by
    intro j e he
    rcases lt_or_ge j (s.mem v).log.length with hj | hj
    · rw [getElem?_append_left hj] at he
      exact .inl ⟨he, hj⟩
    · rw [getElem?_append_right hj] at he
      exact .inr ⟨hj, he⟩
  refine ⟨hx.log.boot.trans (prefix_append ..), ?_, fun j e he => ?_, fun j e he => ?_,
    fun j e he => ?_⟩
  · refine pairwise_append.2 ⟨hx.log.sorted, ?_, fun a ha b hb => ?_⟩
    · exact Pairwise.imp_of_mem (fun ha hb _ => (ht _ ha).trans_le (ht _ hb).ge)
        (pairwise_of_forall (R := fun _ _ => True) fun _ _ => trivial)
    · exact (ht b hb).symm ▸ hx.logTerm a ha
  · rcases hcases he with ⟨he, _⟩ | ⟨hj, he⟩
    · exact hold.placed j e he
    · have := hp _ e he
      rwa [Nat.add_sub_cancel' hj] at this
  · rcases hcases he with ⟨he, _⟩ | ⟨hj, he⟩
    · exact hold.started j e he
    · rw [ht e (mem_of_getElem? he)]
      exact .inl (by simp [show (s.extend v es).leader (s.mem v).term = some v from
        (hs.leads v hr).1])
  · rcases hcases he with ⟨he, hj⟩ | ⟨hj, he⟩
    · rw [take_append_of_le_length hj]
      exact hold.origin j e he
    · rw [ht e (mem_of_getElem? he), extend_ll_self]
      exact take_prefix ..

theorem viewOK_extend : ViewOK p (s.extend v es) v ((s.mem v).append es) := by
  have hx := (hs.ext_extend hr es).viewOK (hs.mem v)
  have hll := s.extend_ll_self v es
  refine hx.acknowledge ?_ (hs.logOK_extend hr ht hp) (fun e he => ?_) (by rw [hll]) ?_
    fun T i _ hk => hk.imp_left fun h => h.trans (prefix_append ..)
  · simp [show (s.extend v es).leader (s.mem v).term = some v from (hs.leads v hr).1]
  · rcases mem_append.1 he with he | he
    · exact hx.logTerm e he
    · exact (ht e he).le
  · rw [Holds, hll]
    exact take_prefix ..

theorem extend : Inv p (s.extend v es) := by
  have h := hs.ext_extend hr es
  obtain ⟨hlead, hlog, _⟩ := hs.leads v hr
  have hll := s.extend_ll_self v es
  have hold : ∀ {T}, T ≠ (s.mem v).term → (s.extend v es).ll T = s.ll T :=
    fun h => update_of_ne h ..
  refine ⟨fun T l hl => ?_, fun T hl => ?_,
    forall_update (hs.viewOK_extend hr ht hp) fun u => h.viewOK (hs.mem u),
    fun u => h.viewOK (hs.rd u), fun u => h.viewOK (hs.dur u), hs.durLe,
    forall_update ((hs.rdLe v).trans (hs.le_append hr es)) hs.rdLe, fun u hu => ?_, fun u hu => ?_,
    fun T l hl => ?_, forall_update ?_ fun u => (hs.knownMem u).mono hs h fun _ _ => .refl _,
    fun u => (hs.knownRd u).mono hs h fun _ _ => .refl _,
    fun u => (hs.knownDur u).mono hs h fun _ _ => .refl _, fun u hu => ?_⟩
  · rcases eq_or_ne T (s.mem v).term with rfl | hne
    · have hled := hs.led _ l hl
      refine hled.mono hl h (fun u => (hs.dur u).ackedLed) (fun u => (hs.dur u).ackedLen)
        (fun u => (hs.dur u).votesLe) (hll ▸ hs.logOK_extend hr ht hp) fun j e hj he => ?_
      rw [hll] at he
      rcases lt_or_ge j (s.mem v).log.length with hj' | hj'
      · rw [getElem?_append_left hj', ← hlog] at he
        exact hled.own j e hj he
      · rw [getElem?_append_right hj'] at he
        exact ht e (mem_of_getElem? he)
    · exact hs.led_mono h hl (hold hne)
  · have hne : T ≠ (s.mem v).term := by
      intro hT
      rw [hT, show (s.extend v es).leader (s.mem v).term = some v from hlead] at hl
      cases hl
    exact ⟨(hs.unled T hl).1, (hold hne).trans (hs.unled T hl).2⟩
  · rcases eq_or_ne u v with rfl | hne
    · rw [extend_mem_self]
      refine ⟨hlead, hll, le_max_of_le_right (le_of_eq ?_)⟩
      rw [show ((s.mem u).append es).term = (s.mem u).term from rfl, append]
      simp
    · rw [show (s.extend v es).mem u = s.mem u from update_of_ne hne ..]
      obtain ⟨h1, h2, h3⟩ := hs.leads u hu
      refine ⟨h1, (hold fun hT => hne ?_).trans h2, h3⟩
      rw [hT, hlead] at h1
      exact (some.inj h1).symm
  · refine forall_update (P := fun u y => s.role u = .candidate → s.leader y.term ≠ some u ∧
      y.cand y.term = some y.log) (fun hu => ?_) hs.stands u hu
    rw [hr] at hu
    cases hu
  · obtain ⟨h1, h2, h3, h4, h5⟩ := hs.pub T l hl
    have hgrow := (h.ll T (.inl (by simp [show s.leader T = some l from hl]))).length_le
    refine ⟨h1, h2.trans hgrow, forall_update (P := fun u y => u ≠ l → y.acked T ≤ s.pub T)
      (fun hv => ?_) h3, h4, fun hrl hm => h5 hrl ?_⟩
    · have hT : T ≠ (s.mem v).term := by
        intro hT
        rw [hT, show (s.extend v es).leader (s.mem v).term = some v from hlead] at hl
        exact hv (some.inj hl)
      exact (update_of_ne hT _ (s.mem v).acked).trans_le (h3 v hv)
    · exact forall_update (x := (s.mem v).append es)
        (P := fun u y => y.term = T → (s.mem u).term = T) id (fun _ => id) l hm
  · have hk := (hs.knownMem v).mono hs h fun _ _ => .refl _
    refine ⟨hk.le.trans (prefix_append ..).length_le, hk.boot, hk.comm.imp_right ?_⟩
    intro hk
    obtain ⟨T, i, hT, hc, hi, hpre⟩ := hk
    exact ⟨T, i, hT, hc, hi, hpre.trans (prefix_append ..)⟩
  · rcases eq_or_ne u v with rfl | hne
    · rw [extend_mem_self]
      refine .inr ⟨by simp [show (s.extend u es).leader (s.mem u).term = some u from hlead,
        append], fun i _ => ?_⟩
      rw [Holds, show ((s.mem u).append es).term = (s.mem u).term from rfl, hll]
      exact take_prefix ..
    · rw [show (s.extend v es).mem u = s.mem u from update_of_ne hne ..] at hu ⊢
      refine (hs.grows u hu).imp_right ?_
      intro hg
      refine ⟨hg.1, fun i hi => ?_⟩
      rcases eq_or_ne (s.mem u).term (s.mem v).term with hT | hT
      · rcases le_or_gt i (s.ll (s.mem u).term).length with hle | hgt
        · exact (h.holds hg.1 hle).2 (hg.2 i ((h.holds hg.1 hle).1 hi))
        · have hes : es = [] := hs.nil_of_holds_new hr ht (hT ▸ hgt) (hT ▸ hi)
          have hsame : (s.extend v es).ll (s.mem u).term = s.ll (s.mem u).term := by
            rw [hT, hll, hes, append_nil, hlog]
          rw [Holds, hsame] at hi ⊢
          exact hg.2 i hi
      · rw [Holds, hold hT]
        rw [Holds, hold hT] at hi
        exact hg.2 i hi

end

theorem viewOK_adopt (hl : s.leader (s.mem v).term ≠ none) (hm : m ≤ (s.ll (s.mem v).term).length) :
    ViewOK p s v ((s.mem v).adopt ((s.ll (s.mem v).term).take m)) := by
  have hx := hs.mem v
  obtain ⟨l, hl'⟩ := ne_none_iff_exists'.1 hl
  have hled := hs.led _ l hl'
  have hlen := length_take_of_le hm
  have hacc : Holds s (s.mem v).term ((s.mem v).acked (s.mem v).term) (s.mem v).log := hx.current
  rw [adopt, hlen]
  split_ifs with h
  · refine hx.acknowledge hl hx.log hx.logTerm (max_le (hx.ackedLen _) hm) ?_ fun _ _ _ => id
    rcases max_choice ((s.mem v).acked (s.mem v).term) m with heq | heq
    · rwa [heq]
    · rwa [heq]
  · refine hx.acknowledge hl (hled.llOK.of_prefix (List.take_prefix ..) ?_) (fun e he => ?_)
      (max_le (hx.ackedLen _) hm) ?_ fun T i hT hk => ?_
    · refine prefix_of_prefix_length_le (hs.llOK _) (List.take_prefix ..) ?_
      by_contra hlt
      refine h (IsPrefix.trans ?_ hx.log.boot)
      exact prefix_of_prefix_length_le (List.take_prefix ..) (hs.llOK _) (by omega)
    · obtain ⟨j, hj⟩ := mem_iff_getElem?.1 (mem_of_mem_take he)
      rcases lt_or_ge j (s.base (s.mem v).term).length with hlt | hge
      · have := hled.base.getElem?_some (getElem?_eq_getElem hlt)
        rw [hj] at this
        rw [some.inj this]
        exact (hled.before _ (getElem_mem hlt)).le
      · exact (hled.own j e hge hj).le
    -- acknowledged entries of the current term stay: only a longer prefix replaces the log
    · refine take_prefix_take_left (max_le ?_ le_rfl)
      by_contra hlt
      exact h ((take_prefix_take_left (by omega)).trans hacc)
    · by_cases hb : Holds s T i (s.base (s.mem v).term)
      · refine hk.imp_left fun hh => ?_
        refine prefix_of_prefix_length_le (hb.trans hled.base) (List.take_prefix ..) ?_
        by_contra hlt
        refine h (IsPrefix.trans ?_ hh)
        exact prefix_of_prefix_length_le (List.take_prefix ..) (hb.trans hled.base)
          (by omega)
      · exact .inr ⟨_, hT, Nat.lt_succ_self _, hl, hb⟩

theorem grows_adopt (hl : s.leader (s.mem v).term ≠ none) :
    Grows s v ((s.mem v).adopt ((s.ll (s.mem v).term).take m)) := by
  intro hT
  refine .inr ⟨hl, fun i hi => ?_⟩
  have hold : Holds s (s.mem v).term i (s.mem v).log := by
    rcases hs.grows v hT with h | ⟨_, h⟩
    · rw [h]
      exact hi
    · exact h i hi
  rw [adopt]
  split_ifs with h
  · exact hold
  · refine take_prefix_take_left ?_
    by_contra hlt
    exact h ((take_prefix_take_left (by omega)).trans hold)

theorem adopt {l : ι} (hl : s.leader (s.mem v).term = some l) (hne : l ≠ v)
    (hm : m ≤ s.pub (s.mem v).term) :
    Inv p (s.withMem v ((s.mem v).adopt ((s.ll (s.mem v).term).take m)) .follower) := by
  have hled : s.leader (s.mem v).term ≠ none := by simp [hl]
  have hm' := hm.trans (hs.pub _ l hl).ll
  have hlen : ((s.ll (s.mem v).term).take m).length = m := length_take_of_le hm'
  have hx := hs.viewOK_adopt hled hm'
  refine hs.withMem hx (View.le_adopt _ _) nofun nofun (fun T l' hl' hne' => ?_) ?_
    (hs.grows_adopt hled)
  · simp only [View.adopt, update_apply]
    split_ifs with hT
    · rw [hlen, hT]
      exact max_le (hs.acked_le_pub _ l hl hne.symm) hm
    · exact hs.acked_le_pub T l' hl' hne'
  · have hk := hs.knownMem v
    have hh := hk.holds hs (hs.mem v).log.boot hled le_rfl
    -- the committed part is in the leader's log, so a replaced log is longer than it
    have hcommit : Holds s (s.mem v).term (s.mem v).commit
        ((s.mem v).adopt ((s.ll (s.mem v).term).take m)).log := by
      rw [View.adopt]
      split_ifs with h
      · exact hh
      · refine take_prefix_take_left ?_
        by_contra hlt
        exact h ((take_prefix_take_left (by omega)).trans hh)
    have hclen : (s.mem v).commit ≤ (s.ll (s.mem v).term).length :=
      (hk.commit_le_pub hs hl le_rfl).trans (hs.pub _ l hl).ll
    refine ⟨?_, hk.boot, hk.comm.imp_right ?_⟩
    · have := hcommit.length_le
      rwa [length_take_of_le hclen] at this
    · intro hk
      obtain ⟨T, i, hT, hc, hi, _⟩ := hk
      refine ⟨T, i, hT, hc, hi, ?_⟩
      have hpre : (s.ll T).take (s.mem v).commit <+: s.ll (s.mem v).term :=
        (take_prefix_take_left hi).trans (hs.comm_prefix hc hT hled)
      refine IsPrefix.trans ?_ hcommit
      refine prefix_of_prefix_length_le hpre (List.take_prefix ..) ?_
      rw [length_take_of_le hclen]
      exact length_take_le ..

theorem learn {T i c : ℕ} (hT : T ≤ (s.mem v).term) (hc : Comm p s (p.counts v) T i) (hi : c ≤ i)
    (hp : (s.ll T).take c <+: (s.mem v).log) (hm : (s.mem v).commit ≤ c) :
    Inv p (s.withMem v { s.mem v with commit := c } (s.role v)) := by
  refine hs.withMem (x := { s.mem v with commit := c }) { hs.mem v with }
    ⟨le_rfl, fun _ _ h => h, fun _ _ h => h, fun _ => le_rfl, fun _ _ => rfl, hm⟩
    (fun h => ⟨h, rfl, rfl⟩) (fun h => hs.stands v h) hs.acked_le_pub
    ⟨?_, (hs.knownMem v).boot.trans hm, .inr ⟨T, i, hT, hc, hi, hp⟩⟩ (hs.grows v)
  have := hp.length_le
  rwa [length_take_of_le (hi.trans (hs.comm_le_ll hc))] at this

end Inv

end Consensus
