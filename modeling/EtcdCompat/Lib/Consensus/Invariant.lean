import EtcdCompat.Lib.Consensus.State

/-!
# The invariant of the elected-leader protocol

A party that acknowledged the first `i` entries of the log of term `T` still holds them, or a later
leader was elected without them (`Blamed`). A vote carries this over to the log voted for
(`VoteOK`), so the leader elected holds what the quorum acknowledged, or blames another between: the
induction on terms in `Safety` leaves nobody to blame.
-/

namespace List

variable {α : Type*} {l l' : List α} {i : ℕ}

theorem take_eq_of_prefix (h : l <+: l') (hi : i ≤ l.length) : l'.take i = l.take i := by
  obtain ⟨t, rfl⟩ := h
  exact take_append_of_le_length hi

theorem IsPrefix.getElem?_some (h : l <+: l') {a : α} (ha : l[i]? = some a) : l'[i]? = some a := by
  obtain ⟨t, rfl⟩ := h
  rw [getElem?_append_left (getElem?_eq_some_iff.1 ha).1]
  exact ha

end List

namespace Consensus

variable {ι E : Type*} (p : Protocol ι E)

/-- The view `y` came after the view `x`: promises stay, and those for past terms are frozen. -/
structure View.Le (x y : View ι E) : Prop where
  term : x.term ≤ y.term
  votes : ∀ T c, x.votes T = some c → y.votes T = some c
  cand : ∀ T L, x.cand T = some L → y.cand T = some L
  acked : ∀ T, x.acked T ≤ y.acked T
  frozen : ∀ T, T < x.term → y.acked T = x.acked T
  commit : x.commit ≤ y.commit

namespace View.Le

theorem refl (x : View ι E) : x.Le x :=
  ⟨le_rfl, fun _ _ h => h, fun _ _ h => h, fun _ => le_rfl, fun _ _ => rfl, le_rfl⟩

theorem trans {x y z : View ι E} (h : x.Le y) (h' : y.Le z) : x.Le z where
  term := h.term.trans h'.term
  votes T c hc := h'.votes T c (h.votes T c hc)
  cand T L hL := h'.cand T L (h.cand T L hL)
  acked T := (h.acked T).trans (h'.acked T)
  frozen T hT := (h'.frozen T (hT.trans_le h.term)).trans (h.frozen T hT)
  commit := h.commit.trans h'.commit

end View.Le

def Holds (s : State ι E) (T i : ℕ) (log : List E) : Prop := (s.ll T).take i <+: log

/-- A leader between the terms `T` and `b` was elected without the first `i` entries of `T`. -/
def Blamed (s : State ι E) (T i b : ℕ) : Prop :=
  ∃ T', T < T' ∧ T' < b ∧ s.leader T' ≠ none ∧ ¬ Holds s T i (s.base T')

def Keeps (s : State ι E) (T i : ℕ) (log : List E) (b : ℕ) : Prop :=
  Holds s T i log ∨ Blamed s T i b

/-- What the view acknowledged before term `T` is in `L`. -/
def VoteOK (s : State ι E) (x : View ι E) (T : ℕ) (L : List E) : Prop :=
  ∀ T₀ i, T₀ < T → (s.base T₀).length < i → i ≤ x.acked T₀ → Keeps s T₀ i L T

/-- Each entry of the log stands where the leader of its term put it. -/
structure LogOK (s : State ι E) (log : List E) : Prop where
  boot : p.boot <+: log
  sorted : log.Pairwise fun a b => p.termOf a ≤ p.termOf b
  placed : ∀ (j : ℕ) e, log[j]? = some e → p.Placed j e
  started : ∀ (j : ℕ) e, log[j]? = some e → s.leader (p.termOf e) ≠ none ∨ p.termOf e = p.start
  origin : ∀ (j : ℕ) e, log[j]? = some e → log.take (j + 1) <+: s.ll (p.termOf e)

structure ViewOK [DecidableEq ι] (s : State ι E) (v : ι) (x : View ι E) : Prop where
  term : p.start ≤ x.term
  log : LogOK p s x.log
  logTerm : ∀ e ∈ x.log, p.termOf e ≤ x.term
  votesLe : ∀ T c, x.votes T = some c → T ≤ x.term
  ackedLe : ∀ T, 0 < x.acked T → T ≤ x.term
  ackedLed : ∀ T, 0 < x.acked T → s.leader T ≠ none
  ackedLen : ∀ T, x.acked T ≤ (s.ll T).length
  current : Holds s x.term (x.acked x.term) x.log
  keeps : ∀ T i, (s.base T).length < i → i ≤ x.acked T → Keeps s T i x.log (x.term + 1)
  cand : ∀ T L, x.cand T = some L → x.votes T = some v ∧ p.start < T ∧ LogOK p s L ∧
    ∀ e ∈ L, p.termOf e < T
  vote : ∀ T c, x.votes T = some c → ∃ L,
    (if c = v then x.cand T else (s.dur c).cand T) = some L ∧
      (s.leader T ≠ none ∨ VoteOK s x T L)

/-- The record of a term's election. -/
structure Led (s : State ι E) (T : ℕ) (l : ι) : Prop where
  start : p.start < T
  baseOK : LogOK p s (s.base T)
  llOK : LogOK p s (s.ll T)
  base : s.base T <+: s.ll T
  before : ∀ e ∈ s.base T, p.termOf e < T
  own : ∀ (j : ℕ) e, (s.base T).length ≤ j → (s.ll T)[j]? = some e → p.termOf e = T
  stood : (s.dur l).cand T = some (s.base T)
  voted : ∃ A, p.Quorum A ∧ ∀ u ∈ A, (s.dur u).votes T = some l ∧ VoteOK s (s.dur u) T (s.base T)

/-- The committed part of the view's log is committed, counting the unsaved of `w`. -/
structure Known (s : State ι E) (w : Option ι) (x : View ι E) : Prop where
  le : x.commit ≤ x.log.length
  boot : p.boot.length ≤ x.commit
  comm : x.commit = p.boot.length ∨
    ∃ T i, T ≤ x.term ∧ Comm p s w T i ∧ x.commit ≤ i ∧ (s.ll T).take x.commit <+: x.log

structure Published (s : State ι E) (T : ℕ) (l : ι) : Prop where
  base : (s.base T).length ≤ s.pub T
  ll : s.pub T ≤ (s.ll T).length
  acked : ∀ v, v ≠ l → (s.mem v).acked T ≤ s.pub T
  saved : p.early = false → s.pub T ≤ max (s.base T).length ((s.dur l).acked T)
  lead : s.role l = .leader → (s.mem l).term = T →
    s.pub T ≤ max (s.base T).length ((s.rd l).acked T)

/-- Within a term a log never loses a part of the leader's. -/
def Grows (s : State ι E) (v : ι) (x : View ι E) : Prop :=
  (s.rd v).term = x.term → x.log = (s.rd v).log ∨
    s.leader x.term ≠ none ∧ ∀ i, Holds s x.term i (s.rd v).log → Holds s x.term i x.log

structure Inv [DecidableEq ι] (s : State ι E) : Prop where
  led : ∀ T l, s.leader T = some l → Led p s T l
  unled : ∀ T, s.leader T = none → s.base T = p.boot ∧ s.ll T = p.boot
  mem : ∀ v, ViewOK p s v (s.mem v)
  rd : ∀ v, ViewOK p s v (s.rd v)
  dur : ∀ v, ViewOK p s v (s.dur v)
  durLe : ∀ v, (s.dur v).Le (s.rd v)
  rdLe : ∀ v, (s.rd v).Le (s.mem v)
  leads : ∀ v, s.role v = .leader →
    s.leader (s.mem v).term = some v ∧ s.ll (s.mem v).term = (s.mem v).log ∧
      (s.mem v).log.length ≤ max (s.base (s.mem v).term).length ((s.mem v).acked (s.mem v).term)
  stands : ∀ v, s.role v = .candidate →
    s.leader (s.mem v).term ≠ some v ∧ (s.mem v).cand (s.mem v).term = some (s.mem v).log
  pub : ∀ T l, s.leader T = some l → Published p s T l
  knownMem : ∀ v, Known p s (p.counts v) (s.mem v)
  knownRd : ∀ v, Known p s none (s.rd v)
  knownDur : ∀ v, Known p s none (s.dur v)
  grows : ∀ v, Grows s v (s.mem v)

/-- What a later state keeps: elections, leaders' logs, published entries and stored promises. -/
structure Ext (s s' : State ι E) : Prop where
  leader : ∀ T l, s.leader T = some l → s'.leader T = some l
  base : ∀ T, s.leader T ≠ none → s'.base T = s.base T
  ll : ∀ T, s.leader T ≠ none ∨ T = p.start → s.ll T <+: s'.ll T
  pub : ∀ T, s.leader T ≠ none → s.pub T ≤ s'.pub T
  dur : ∀ v, (s.dur v).Le (s'.dur v)

namespace Ext

variable {p} {s s' s'' : State ι E} {T : ℕ} {log : List E} {x : View ι E} {T i : ℕ}

theorem refl (s : State ι E) : Ext p s s :=
  ⟨fun _ _ h => h, fun _ _ => rfl, fun _ _ => List.prefix_rfl, fun _ _ => le_rfl,
    fun _ => View.Le.refl _⟩

variable (h : Ext p s s')
include h

theorem led (hT : s.leader T ≠ none) : s'.leader T ≠ none := by
  obtain ⟨l, hl⟩ := Option.ne_none_iff_exists'.1 hT
  simp [h.leader T l hl]

theorem trans (h' : Ext p s' s'') : Ext p s s'' where
  leader T l hl := h'.leader T l (h.leader T l hl)
  base T hT := (h'.base T (h.led hT)).trans (h.base T hT)
  ll T hT := (h.ll T hT).trans (h'.ll T (hT.imp_left h.led))
  pub T hT := (h.pub T hT).trans (h'.pub T (h.led hT))
  dur v := (h.dur v).trans (h'.dur v)

theorem pub_le {l : ι} (hT : s.leader T = some l) : s.pub T ≤ s'.pub T :=
  h.pub T (by simp [hT])

theorem take_ll (hT : s.leader T ≠ none) (hi : i ≤ (s.ll T).length) :
    (s'.ll T).take i = (s.ll T).take i :=
  List.take_eq_of_prefix (h.ll T (.inl hT)) hi

theorem holds (hT : s.leader T ≠ none) (hi : i ≤ (s.ll T).length) :
    Holds s' T i log ↔ Holds s T i log := by
  rw [Holds, Holds, h.take_ll hT hi]

theorem keeps {T i b : ℕ} (hT : s.leader T ≠ none) (hi : i ≤ (s.ll T).length)
    (hk : Keeps s T i log b) : Keeps s' T i log b := by
  rcases hk with hh | ⟨T', h1, h2, h3, h4⟩
  · exact .inl ((h.holds hT hi).2 hh)
  · refine .inr ⟨T', h1, h2, h.led h3, ?_⟩
    rwa [h.base T' h3, h.holds hT hi]

theorem logOK (hl : LogOK p s log) : LogOK p s' log where
  boot := hl.boot
  sorted := hl.sorted
  placed := hl.placed
  started j e he := (hl.started j e he).imp_left h.led
  origin j e he := (hl.origin j e he).trans (h.ll _ (hl.started j e he))

theorem voteOK {L : List E} (hled : ∀ T, 0 < x.acked T → s.leader T ≠ none)
    (hlen : ∀ T, x.acked T ≤ (s.ll T).length) (hv : VoteOK s x T L) : VoteOK s' x T L := by
  intro T₀ i hT hi hx
  have hT₀ := hled T₀ (by omega)
  rw [h.base T₀ hT₀] at hi
  exact h.keeps hT₀ (hx.trans (hlen T₀)) (hv T₀ i hT hi hx)

theorem viewOK [DecidableEq ι] {v : ι} (hx : ViewOK p s v x) : ViewOK p s' v x where
  term := hx.term
  log := h.logOK hx.log
  logTerm := hx.logTerm
  votesLe := hx.votesLe
  ackedLe := hx.ackedLe
  ackedLed T hT := h.led (hx.ackedLed T hT)
  ackedLen T := by
    rcases Nat.eq_zero_or_pos (x.acked T) with h0 | h0
    · omega
    · exact (hx.ackedLen T).trans (h.ll T (.inl (hx.ackedLed T h0))).length_le
  current := by
    rcases Nat.eq_zero_or_pos (x.acked x.term) with h0 | h0
    · simp [Holds, h0]
    · exact (h.holds (hx.ackedLed _ h0) (hx.ackedLen _)).2 hx.current
  keeps T i hi hxi := by
    have hT := hx.ackedLed T (by omega)
    rw [h.base T hT] at hi
    exact h.keeps hT (hxi.trans (hx.ackedLen T)) (hx.keeps T i hi hxi)
  cand T L hL := by
    obtain ⟨h1, h2, h3, h4⟩ := hx.cand T L hL
    exact ⟨h1, h2, h.logOK h3, h4⟩
  vote T c hc := by
    obtain ⟨L, hL, hv⟩ := hx.vote T c hc
    refine ⟨L, ?_, hv.imp h.led (h.voteOK hx.ackedLed hx.ackedLen)⟩
    split_ifs at hL ⊢
    · exact hL
    · exact (h.dur c).cand T L hL

end Ext

theorem VoteOK.congr {s : State ι E} {x y : View ι E} {T : ℕ} {L : List E} (hv : VoteOK s x T L)
    (h : ∀ T₀, T₀ < T → y.acked T₀ = x.acked T₀) : VoteOK s y T L := by
  intro T₀ i hT hi hy
  exact hv T₀ i hT hi (h T₀ hT ▸ hy)

namespace LogOK

variable {p} {s : State ι E} {log log' : List E} {a b : E}

variable (h : LogOK p s log)
include h

theorem of_prefix (hp : log' <+: log) (hb : p.boot <+: log') : LogOK p s log' where
  boot := hb
  sorted := h.sorted.sublist hp.sublist
  placed j e he := h.placed j e (hp.getElem?_some he)
  started j e he := h.started j e (hp.getElem?_some he)
  origin j e he := by
    have hj : j + 1 ≤ log'.length := (List.getElem?_eq_some_iff.1 he).1
    rw [← List.take_eq_of_prefix hp hj]
    exact h.origin j e (hp.getElem?_some he)

theorem termOf_le {j k : ℕ} (hjk : j ≤ k) (ha : log[j]? = some a) (hb : log[k]? = some b) :
    p.termOf a ≤ p.termOf b := by
  obtain ⟨hj, rfl⟩ := List.getElem?_eq_some_iff.1 ha
  obtain ⟨hk, rfl⟩ := List.getElem?_eq_some_iff.1 hb
  rcases hjk.eq_or_lt with rfl | hlt
  · exact le_rfl
  · exact List.pairwise_iff_getElem.1 h.sorted j k hj hk hlt

/-- Log matching: logs with an entry of one term at one position agree up to it. -/
theorem take_eq (h' : LogOK p s log') {j : ℕ} (ha : log[j]? = some a) (hb : log'[j]? = some b)
    (hab : p.termOf a = p.termOf b) : log.take (j + 1) = log'.take (j + 1) := by
  have h1 := h.origin j a ha
  have h2 := h'.origin j b hb
  have hj : j + 1 ≤ log.length := (List.getElem?_eq_some_iff.1 ha).1
  have hj' : j + 1 ≤ log'.length := (List.getElem?_eq_some_iff.1 hb).1
  rw [← hab] at h2
  refine (List.prefix_of_prefix_length_le h1 h2 ?_).eq_of_length ?_ <;>
    simp [hj, hj']

end LogOK

variable {f : E → ℕ} {log : List E}

theorem termAt_succ {j : ℕ} {e : E} (he : log[j]? = some e) : termAt f log (j + 1) = f e := by
  simp [termAt, he]

theorem termAt_take {i c : ℕ} (h : i ≤ c) : termAt f (log.take c) i = termAt f log i := by
  cases i with
  | zero => rfl
  | succ i => rw [termAt, termAt, List.getElem?_take_of_lt h]

theorem termAt_prefix {l l' : List E} (h : l <+: l') {i : ℕ} (hi : i ≤ l.length) :
    termAt f l' i = termAt f l i := by
  rw [← termAt_take hi, List.take_eq_of_prefix h le_rfl, List.take_length]

namespace Protocol

theorem lastTerm_eq {log : List E} (h : log ≠ []) :
    ∃ e, log[log.length - 1]? = some e ∧ p.lastTerm log = p.termOf e := by
  have hpos := List.length_pos_iff.2 h
  have he := List.getElem?_eq_getElem (show log.length - 1 < log.length by omega)
  refine ⟨_, he, ?_⟩
  rw [lastTerm, ← termAt_succ (f := p.termOf) he, Nat.sub_add_cancel hpos]

end Protocol

namespace Comm

variable {p} {s s' : State ι E} {w : Option ι} {T i : ℕ}

theorem mono (h : Ext p s s') (hrd : ∀ u, w = some u → (s.rd u).Le (s'.rd u))
    (hc : Comm p s w T i) : Comm p s' w T i := by
  obtain ⟨hT, hi, A, hA, ha⟩ := hc
  refine ⟨h.led hT, by rwa [h.base T hT], A, hA, fun u hu => ?_⟩
  rcases ha u hu with h1 | ⟨rfl, h1⟩
  · exact .inl (h1.trans ((h.dur u).acked T))
  · exact .inr ⟨rfl, h1.trans ((hrd u rfl).acked T)⟩

theorem of_none (hc : Comm p s none T i) : Comm p s w T i := by
  obtain ⟨hT, hi, A, hA, ha⟩ := hc
  exact ⟨hT, hi, A, hA, fun u hu => .inl ((ha u hu).resolve_right fun h => by cases h.1)⟩

theorem to_none (hw : ∀ u, w = some u → s.dur u = s.rd u) (hc : Comm p s w T i) :
    Comm p s none T i := by
  obtain ⟨hT, hi, A, hA, ha⟩ := hc
  refine ⟨hT, hi, A, hA, fun u hu => .inl ?_⟩
  rcases ha u hu with h1 | ⟨h1, h2⟩
  · exact h1
  · exact hw u h1 ▸ h2

theorem le_ll (hinv : ∀ u T, (s.dur u).acked T ≤ (s.ll T).length)
    (hrd : ∀ u T, (s.rd u).acked T ≤ (s.ll T).length) (hc : Comm p s w T i) :
    i ≤ (s.ll T).length := by
  obtain ⟨_, _, A, hA, ha⟩ := hc
  obtain ⟨u, hu, _⟩ := p.inter hA hA
  rcases ha u hu with h1 | ⟨_, h1⟩
  · exact h1.trans (hinv u T)
  · exact h1.trans (hrd u T)

end Comm

namespace Known

variable {p} {s : State ι E} {w : Option ι} {x : View ι E}

theorem of_none (hk : Known p s none x) : Known p s w x := by
  refine ⟨hk.le, hk.boot, hk.comm.imp_right ?_⟩
  intro hk
  obtain ⟨T, i, hT, hc, h⟩ := hk
  exact ⟨T, i, hT, hc.of_none, h⟩

theorem to_none (hw : ∀ u, w = some u → s.dur u = s.rd u) (hk : Known p s w x) :
    Known p s none x := by
  refine ⟨hk.le, hk.boot, hk.comm.imp_right ?_⟩
  intro hk
  obtain ⟨T, i, hT, hc, h⟩ := hk
  exact ⟨T, i, hT, hc.to_none hw, h⟩

end Known

theorem Led.mono {p : Protocol ι E} {s s' : State ι E} {T : ℕ} {l : ι} (hl : Led p s T l)
    (hT : s.leader T = some l) (h : Ext p s s')
    (hled : ∀ u T, 0 < (s.dur u).acked T → s.leader T ≠ none)
    (hlen : ∀ u T, (s.dur u).acked T ≤ (s.ll T).length)
    (hvote : ∀ u T c, (s.dur u).votes T = some c → T ≤ (s.dur u).term)
    (hok : LogOK p s' (s'.ll T))
    (hown : ∀ (j : ℕ) e, (s.base T).length ≤ j → (s'.ll T)[j]? = some e → p.termOf e = T) :
    Led p s' T l := by
  have hne : s.leader T ≠ none := by simp [hT]
  obtain ⟨A, hA, hv⟩ := hl.voted
  have hb := h.base T hne
  refine ⟨hl.start, hb ▸ h.logOK hl.baseOK, hok, ?_, hb ▸ hl.before, hb ▸ hown,
    hb ▸ (h.dur l).cand T _ hl.stood, A, hA, fun u hu => ?_⟩
  · rw [hb]
    exact hl.base.trans (h.ll T (.inl hne))
  · obtain ⟨h1, h2⟩ := hv u hu
    refine ⟨(h.dur u).votes T l h1, ?_⟩
    rw [hb]
    exact (h.voteOK (hled u) (hlen u) h2).congr fun T₀ hT₀ =>
      (h.dur u).frozen T₀ (hT₀.trans_le (hvote u T l h1))

end Consensus
