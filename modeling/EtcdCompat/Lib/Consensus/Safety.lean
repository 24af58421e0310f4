import EtcdCompat.Lib.Consensus.Invariant

/-!
# Leader completeness

In a state with the invariant, what a quorum acknowledged in a term is in the log of every later
leader, so that the committed parts of any two views agree.
-/

namespace Consensus

open List

variable {ι E : Type*} [DecidableEq ι] {p : Protocol ι E} {s s' : State ι E}

namespace Inv

variable (hs : Inv p s) {w : Option ι} {T₀ T i : ℕ} {T i : ℕ}
include hs

theorem llOK (T : ℕ) : p.boot <+: s.ll T := by
  cases hT : s.leader T with
  | none => rw [(hs.unled T hT).2]
  | some l => exact (hs.led T l hT).llOK.boot

theorem base_prefix {T : ℕ} (hT : s.leader T ≠ none) : s.base T <+: s.ll T := by
  obtain ⟨l, hl⟩ := Option.ne_none_iff_exists'.1 hT
  exact (hs.led T l hl).base

theorem boot_base {T : ℕ} (hT : s.leader T ≠ none) : p.boot <+: s.base T := by
  obtain ⟨l, hl⟩ := Option.ne_none_iff_exists'.1 hT
  exact (hs.led T l hl).baseOK.boot

theorem start_unled : s.leader p.start = none := by
  cases h : s.leader p.start with
  | none => rfl
  | some l => exact absurd (hs.led _ l h).start (lt_irrefl _)

theorem comm_le_ll (hc : Comm p s w T i) : i ≤ (s.ll T).length :=
  hc.le_ll (fun u => (hs.dur u).ackedLen) fun u => (hs.rd u).ackedLen

theorem durMem (v : ι) : (s.dur v).Le (s.mem v) := (hs.durLe v).trans (hs.rdLe v)

theorem acks_stored {u c : ι} (ha : Acks s w T₀ i u) (hT : T₀ < T)
    (hv : (s.dur u).votes T = some c) : i ≤ (s.dur u).acked T₀ := by
  rcases ha with h | ⟨_, h⟩
  · exact h
  · exact (hs.durLe u).frozen T₀ (hT.trans_le ((hs.dur u).votesLe T c hv)) ▸ h

/-- Leader completeness. -/
theorem holds_base {T₀ i : ℕ} (hc : Comm p s w T₀ i) :
    ∀ T, T₀ < T → s.leader T ≠ none → Holds s T₀ i (s.base T) := by
  intro T
  induction T using Nat.strong_induction_on with
  | _ T ih =>
    intro hT hl
    obtain ⟨l, hl⟩ := Option.ne_none_iff_exists'.1 hl
    obtain ⟨A, hA, hvote⟩ := (hs.led T l hl).voted
    obtain ⟨_, hi, B, hB, hack⟩ := hc
    obtain ⟨u, huA, huB⟩ := p.inter hA hB
    have hst := hs.acks_stored (hack u huB) hT (hvote u huA).1
    rcases (hvote u huA).2 T₀ i hT hi hst with h | ⟨T', h1, h2, h3, h4⟩
    · exact h
    · exact absurd (ih T' h2 h1 h3) h4

theorem holds_dur {u : ι} (hc : Comm p s none T i) (hu : i ≤ (s.dur u).acked T) :
    Holds s T i (s.dur u).log := by
  rcases (hs.dur u).keeps T i hc.2.1 hu with h | ⟨T', hT, _, hl, hb⟩
  · exact h
  · exact absurd (hs.holds_base hc T' hT hl) hb

theorem comm_prefix (hc : Comm p s w T₀ i) (hT : T₀ ≤ T) (hl : s.leader T ≠ none) :
    (s.ll T₀).take i <+: s.ll T := by
  rcases hT.eq_or_lt with rfl | hT
  · exact take_prefix i _
  · exact (hs.holds_base hc T hT hl).trans (hs.base_prefix hl)

theorem comm_le_pub {l : ι} (hc : Comm p s w T₀ i) (hT : T₀ ≤ T) (hl : s.leader T = some l) :
    i ≤ s.pub T := by
  have hp := hs.pub T l hl
  rcases hT.eq_or_lt with rfl | hT
  · obtain ⟨_, _, A, hA, ha⟩ := hc
    obtain ⟨u, hu, hne⟩ := p.other l hA
    refine le_trans ?_ (hp.acked u hne)
    rcases ha u hu with h | ⟨_, h⟩
    · exact h.trans ((hs.durMem u).acked _)
    · exact h.trans ((hs.rdLe u).acked _)
  · have h := (hs.holds_base hc T hT (by simp [hl])).length_le
    rw [length_take_of_le (hs.comm_le_ll hc)] at h
    exact h.trans hp.base

/-- A leader that knows of the others' acknowledgements may count itself: what another one holds of
its log it has published, so it is about to store it or has stored it. -/
theorem comm_of_acks {v : ι} (hr : s.role v = .leader) {A : Finset ι} (hA : p.Quorum A) {i : ℕ}
    (hi : (s.base (s.mem v).term).length < i)
    (ha : ∀ u ∈ A, u ≠ v → i ≤ (s.dur u).acked (s.mem v).term) :
    Comm p s (p.counts v) (s.mem v).term i := by
  have hlead := (hs.leads v hr).1
  refine ⟨by simp [hlead], hi, A, hA, fun u hu => ?_⟩
  by_cases hne : u = v
  · subst hne
    obtain ⟨w, hw, hwu⟩ := p.other u hA
    have hp := hs.pub _ u hlead
    have hpub : i ≤ s.pub (s.mem u).term :=
      (ha w hw hwu).trans (((hs.durMem w).acked _).trans (hp.acked w hwu))
    cases he : p.early with
    | false =>
      have := hpub.trans (hp.saved he)
      exact .inl (by omega)
    | true =>
      have := hpub.trans (hp.lead hr rfl)
      exact .inr ⟨by simp [Protocol.counts, he], by omega⟩
  · exact .inl (ha u hu hne)

end Inv

namespace Known

variable {w w' : Option ι} {x y : View ι E} {T : ℕ}

variable (hs : Inv p s)
include hs

theorem mono (h : Ext p s s') (hrd : ∀ u, w = some u → (s.rd u).Le (s'.rd u)) (hk : Known p s w x) :
    Known p s' w x := by
  refine ⟨hk.le, hk.boot, hk.comm.imp_right ?_⟩
  intro hk
  obtain ⟨T, i, hT, hc, hi, hp⟩ := hk
  refine ⟨T, i, hT, hc.mono h hrd, hi, ?_⟩
  rwa [h.take_ll hc.1 (hi.trans (hs.comm_le_ll hc))]

theorem holds (hk : Known p s w x) (hb : p.boot <+: x.log) (hT : s.leader T ≠ none)
    (hx : x.term ≤ T) : Holds s T x.commit x.log := by
  rcases hk.comm with hc | ⟨T₀, i, hT₀, hc, hi, hp⟩
  · rw [Holds, take_eq_of_prefix (hs.llOK T) hc.le]
    exact (List.take_prefix _ _).trans hb
  · have hll := hs.comm_prefix hc (hT₀.trans hx) hT
    have hlen : x.commit ≤ ((s.ll T₀).take i).length := by
      rw [length_take_of_le (hs.comm_le_ll hc)]
      exact hi
    rw [Holds, take_eq_of_prefix hll hlen, take_take, min_eq_left hi]
    exact hp

theorem commit_le_pub (hk : Known p s w x) {l : ι} (hT : s.leader T = some l) (hx : x.term ≤ T) :
    x.commit ≤ s.pub T := by
  rcases hk.comm with hc | ⟨T₀, i, hT₀, hc, hi, _⟩
  · exact (hc.le.trans (hs.boot_base (by simp [hT])).length_le).trans (hs.pub T l hT).base
  · exact hi.trans (hs.comm_le_pub hc (hT₀.trans hx) hT)

theorem agree (hx : Known p s w x) (hy : Known p s w' y) (hbx : p.boot <+: x.log)
    (hby : p.boot <+: y.log) {c : ℕ} (hcx : c ≤ x.commit) (hcy : c ≤ y.commit) :
    x.log.take c = y.log.take c := by
  have boot : ∀ {T : ℕ} {log : List E}, p.boot <+: log → c ≤ p.boot.length →
      log.take c = (s.ll T).take c := by
    intro T log hb hc
    rw [List.take_eq_of_prefix hb hc, take_eq_of_prefix (hs.llOK T) hc]
  have comm : ∀ {w : Option ι} {z : View ι E} {T i : ℕ}, Comm p s w T i → c ≤ z.commit →
      z.commit ≤ i → (s.ll T).take z.commit <+: z.log → z.log.take c = (s.ll T).take c := by
    intro w z T i hc hcz hi hp
    have hlen : c ≤ ((s.ll T).take z.commit).length := by
      rw [length_take_of_le (hi.trans (hs.comm_le_ll hc))]
      exact hcz
    rw [List.take_eq_of_prefix hp hlen, take_take, min_eq_left hcz]
  have later : ∀ {w w' : Option ι} {T T' i i' : ℕ}, Comm p s w T i → Comm p s w' T' i' → T ≤ T' →
      c ≤ i → (s.ll T).take c = (s.ll T').take c := by
    intro w w' T T' i i' hc hc' hT hi
    have hlen : c ≤ ((s.ll T).take i).length := by
      rw [length_take_of_le (hs.comm_le_ll hc)]
      exact hi
    rw [List.take_eq_of_prefix (hs.comm_prefix hc hT hc'.1) hlen, take_take, min_eq_left hi]
  rcases hx.comm with hx | ⟨T, i, _, hc, hi, hp⟩ <;>
    rcases hy.comm with hy | ⟨T', i', _, hc', hi', hp'⟩
  · rw [boot hbx (hcx.trans hx.le), boot hby (hcx.trans hx.le)]
    exact p.start
  · rw [comm hc' hcy hi' hp', boot hbx (hcx.trans hx.le)]
  · rw [comm hc hcx hi hp, boot hby (hcy.trans hy.le)]
  · rw [comm hc hcx hi hp, comm hc' hcy hi' hp']
    rcases le_total T T' with hT | hT
    · exact later hc hc' hT (hcx.trans hi)
    · exact (later hc' hc hT (hcy.trans hi')).symm

end Known

end Consensus
