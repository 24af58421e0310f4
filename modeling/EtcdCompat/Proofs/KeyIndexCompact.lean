import EtcdCompat.Proofs.KeyIndexRead

/-!
# Compacting the index of one key

`compact` drops the generations that ended at or below the compacted revision and, in the one that
spans it, all but the newest revision at or below it. A read at or above the compacted revision
passes over the first and finds the second (`WF.compact`).
-/

namespace EtcdCompat.KeyIndex

open List Option

section Skip

variable {c : ℤ}

/-- A generation that a tombstone closed at or below `c`. -/
def ClosedBy (c : ℤ) (g : Generation) : Prop := ∃ tomb, g.revs.getLast? = some tomb ∧ tomb.main ≤ c

theorem compactSkip_spec (last : Generation) : ∀ old : List Generation,
    (∀ g ∈ old, 2 ≤ g.revs.length) → ∃ pre g rest, old ++ [last] = pre ++ g :: rest
      ∧ compactSkip c (old ++ [last]) = .ok (g :: rest) ∧ (∀ p ∈ pre, ClosedBy c p)
      ∧ (rest ≠ [] → ∃ tomb, g.revs.getLast? = some tomb ∧ c < tomb.main)
  | [], _ => ⟨[], last, [], rfl, rfl, by simp, by simp⟩
  | g :: old, h => by
    have hne : g.revs ≠ [] := fun hn => by
      have := h g mem_cons_self
      simp [hn] at this
    have htomb := getLast?_eq_getLast_of_ne_nil hne
    have hstep : compactSkip c (g :: old ++ [last])
        = if (g.revs.getLast hne).main > c then .ok (g :: old ++ [last])
          else compactSkip c (old ++ [last]) := by
      rcases old with _ | ⟨g', old⟩ <;> simp [compactSkip, htomb]
    by_cases hgt : (g.revs.getLast hne).main > c
    · refine ⟨[], g, old ++ [last], rfl, ?_, by simp, fun _ => ⟨_, htomb, hgt⟩⟩
      rw [hstep, if_pos hgt]
      rfl
    · obtain ⟨pre, g', rest, heq, hskip, hpre, hg'⟩ :=
        compactSkip_spec last old fun x hx => h x (mem_cons_of_mem _ hx)
      refine ⟨g :: pre, g', rest, by rw [cons_append, heq]; rfl, ?_, ?_, hg'⟩
      · rw [hstep, if_neg hgt, hskip]
      · intro p hp
        rcases mem_cons.1 hp with rfl | hp
        · exact ⟨_, htomb, not_lt.1 hgt⟩
        · exact hpre p hp

theorem rest_split {old pre rest : List Generation} {last g : Generation}
    (heq : old ++ [last] = pre ++ g :: rest) (hr : rest ≠ []) :
    ∃ rest', rest = rest' ++ [last] ∧ old = pre ++ g :: rest' := by
  obtain ⟨rest', l, rfl⟩ := (eq_nil_or_concat rest).resolve_left hr
  rw [concat_eq_append, ← cons_append, ← append_assoc] at heq
  obtain ⟨hold, hl⟩ := append_inj' heq rfl
  exact ⟨rest', by rw [hl, concat_eq_append], hold⟩

end Skip

section Read

variable {r : ℤ} {g : Generation}

/-- What is read from generations listed from the newest. -/
def readIn (r : ℤ) (b : Bool) (gs : List Generation) : Option (Revision × Revision × ℤ) :=
  (findGenerationIn r b gs).bind fun g => if g.isEmpty then none else getIn g r

theorem find_closed : ∀ {P : List Generation}, (∀ p ∈ P, ClosedBy r p) →
    findGenerationIn r false P = none
  | [], _ => rfl
  | p :: P, h => by
    obtain ⟨tomb, ht, hle⟩ := h p mem_cons_self
    exact find_of_closed ht hle

theorem readIn_congr {t t' : List Generation} (h : ∀ b, readIn r b t = readIn r b t') :
    ∀ (l : List Generation) (b : Bool), readIn r b (l ++ t) = readIn r b (l ++ t')
  | [], b => h b
  | g :: l, b => by
    have ih := readIn_congr h l false
    unfold readIn at ih ⊢
    rw [cons_append, cons_append]
    rcases hg : g.revs with _ | ⟨x, tl⟩
    · rw [find_of_empty hg, find_of_empty hg]
      exact ih
    · have hne : g.revs ≠ [] := by simp [hg]
      have hh : g.revs.head? = some x := by simp [hg]
      have hl := getLast?_eq_getLast_of_ne_nil hne
      rw [find_of_cons hh hl, find_of_cons hh hl]
      split_ifs
      · rfl
      · rfl
      · exact ih

theorem readIn_drop_closed {P : List Generation} (h : ∀ p ∈ P, ClosedBy r p) (b : Bool) :
    readIn r b (g :: P) = readIn r b [g] := by
  have hP : findGenerationIn r false P = findGenerationIn r false [] := find_closed h
  unfold readIn
  simp only [findGenerationIn, hP]

theorem readIn_trim {a b : List Revision} {x : Revision} (hg : g.revs = a ++ x :: b)
    (hs : g.revs.Pairwise (· < ·)) (hx : x.main ≤ r) (isLast : Bool) :
    readIn r isLast [g] = readIn r isLast [{ g with revs := x :: b }] := by
  obtain ⟨first, hf⟩ : ∃ first, g.revs.head? = some first :=
    ⟨_, head?_eq_some_head (by simp [hg])⟩
  have hfirst : first.main ≤ r := by
    rcases a with _ | ⟨y, a⟩
    · simp [hg] at hf
      rwa [← hf]
    · simp [hg] at hf
      subst hf
      rw [hg, cons_append, pairwise_cons] at hs
      exact (Revision.main_le (hs.1 x (by simp)).le).trans hx
  have hl := getLast?_eq_getLast_of_ne_nil (l := x :: b) (by simp)
  have hl' : g.revs.getLast? = some ((x :: b).getLast (by simp)) := by
    rw [hg, getLast?_append, hl]
    rfl
  unfold readIn
  rw [find_of_cons hf hl', find_of_cons (g := { g with revs := x :: b }) (f := x) rfl hl]
  rw [if_pos hfirst, if_pos hx]
  split_ifs
  · rfl
  · have hempty : g.revs.isEmpty = false := by simp [hg]
    simp only [bind_some, hempty, Generation.isEmpty, isEmpty_cons, Bool.false_eq_true, if_false]
    rcases Generation.newest_split r (x :: b) with hall | ⟨a', y, b', hab, hy, hb'⟩
    · have := hall x mem_cons_self
      omega
    · rw [getIn_some (a := a ++ a') (by rw [hg, hab, append_assoc]) hy hb',
        getIn_some (g := { g with revs := x :: b }) hab hy hb']

theorem find_later : ∀ (l : List Generation) {gs : List Generation} {b : Bool},
    (∀ g ∈ l, ∀ x ∈ g.revs, r < x.main) →
    findGenerationIn r b (l ++ gs) = findGenerationIn r (b && l.isEmpty) gs
  | [], gs, b, _ => by simp
  | g :: l, gs, b, h => by
    rw [cons_append, find_of_later (h g mem_cons_self),
      find_later l fun g' hg' => h g' (mem_cons_of_mem _ hg')]
    simp

end Read

variable {ki : KeyIndex} {old pre rest : List Generation} {last g : Generation} {c : ℤ}

/-- What compaction at `c` makes of a well-formed index: reads at `c` or above are as before, and
the revision kept, if any, is the one read at `c`. -/
structure Compacted (ki : KeyIndex) (c : ℤ) (ki' : KeyIndex) : Prop where
  key : ki'.key = ki.key
  modified : ki'.modified = ki.modified
  wf : ki'.isEmpty ∨ ki'.WF
  lookup : ∀ r, c ≤ r → ki'.lookup r = ki.lookup r

theorem flatMap_revs (heq : old ++ [last] = pre ++ g :: rest) : old.flatMap (·.revs) ++ last.revs
    = pre.flatMap (·.revs) ++ (g.revs ++ rest.flatMap (·.revs)) := by
  rw [show last.revs = [last].flatMap (·.revs) by simp, ← flatMap_append, heq]
  simp

theorem Split.revs_sorted (h : Split ki old last) (heq : old ++ [last] = pre ++ g :: rest) :
    g.revs.Pairwise (· < ·) ∧ ∀ x ∈ g.revs, ∀ g' ∈ rest, ∀ y ∈ g'.revs, x < y := by
  have hs := h.sorted
  rw [flatMap_revs heq, pairwise_append, pairwise_append] at hs
  exact ⟨hs.2.1.1, fun x hx g' hg' y hy => hs.2.1.2.2 x hx y (mem_flatMap.2 ⟨g', hg', hy⟩)⟩

theorem Split.compacted (h : Split ki old last) {revs : List Revision}
    (heq : old ++ [last] = pre ++ g :: rest) (hpre : ∀ p ∈ pre, ClosedBy c p)
    (hsub : revs.Sublist g.revs) (hlen : rest ≠ [] → 2 ≤ revs.length)
    (hread : ∀ r, c ≤ r → ∀ b, readIn r b [g] = readIn r b [{ g with revs := revs }]) :
    Compacted ki c { ki with generations := { g with revs := revs } :: rest } where
  key := rfl
  modified := rfl
  wf := by
    have hs := h.sorted
    have hbound := h.bound
    rw [flatMap_revs heq] at hs hbound
    have hsub' : (revs ++ rest.flatMap (·.revs)).Sublist
        (pre.flatMap (·.revs) ++ (g.revs ++ rest.flatMap (·.revs))) :=
      (hsub.append_right _).trans (sublist_append_right _ _)
    by_cases hrest : rest = []
    · subst hrest
      by_cases hr : revs = []
      · left
        simp [isEmpty, Generation.isEmpty, hr]
      · right
        refine ⟨[], { g with revs := revs }, ⟨rfl, by simp, fun hn => absurd hn hr, ?_, ?_⟩⟩
        · simpa using hs.sublist hsub'
        · intro x hx
          exact hbound x (hsub'.subset (by simpa using hx))
    · right
      obtain ⟨rest', rfl, hold⟩ := rest_split heq hrest
      refine ⟨{ g with revs := revs } :: rest', last, ⟨rfl, fun g' hg' => ?_, fun hn => ?_, ?_, ?_⟩⟩
      · rcases mem_cons.1 hg' with rfl | hg'
        · exact hlen hrest
        · exact h.closed g' (by rw [hold]; simp [hg'])
      · exact ⟨by simp, (h.opened hn).2⟩
      · simpa using hs.sublist hsub'
      · intro x hx
        exact hbound x (hsub'.subset (by simpa using hx))
  lookup r hr := by
    have hpre' : ∀ p ∈ pre.reverse, ClosedBy r p := fun p hp => by
      obtain ⟨tomb, ht, hle⟩ := hpre p (mem_reverse.1 hp)
      exact ⟨tomb, ht, hle.trans hr⟩
    have hrev : ki.generations.reverse = rest.reverse ++ g :: pre.reverse := by
      rw [h.eq, heq]
      simp
    have hread' : ∀ b, readIn r b (g :: pre.reverse) = readIn r b [{ g with revs := revs }] :=
      fun b => (readIn_drop_closed hpre' b).trans (hread r hr b)
    have := readIn_congr hread' rest.reverse true
    rw [← hrev] at this
    simp [KeyIndex.lookup, findGeneration]
    exact this.symm

theorem Split.lookup_at (h : Split ki old last) (heq : old ++ [last] = pre ++ g :: rest)
    (hpre : ∀ p ∈ pre, ClosedBy c p)
    (hopen : rest ≠ [] → ∃ tomb, g.revs.getLast? = some tomb ∧ c < tomb.main) :
    ki.lookup c = getIn g c := by
  have hrev : ki.generations.reverse = rest.reverse ++ g :: pre.reverse := by
    rw [h.eq, heq]
    simp
  have hlater : ∀ g' ∈ rest.reverse, ∀ y ∈ g'.revs, c < y.main := by
    intro g' hg' y hy
    rw [mem_reverse] at hg'
    obtain ⟨tomb, ht, hlt⟩ := hopen (ne_nil_of_mem hg')
    have := (h.revs_sorted heq).2 tomb (mem_of_getLast? ht) g' hg' y hy
    exact hlt.trans_le (Revision.main_le this.le)
  have hclosed : findGenerationIn c false pre.reverse = none :=
    find_closed fun p hp => hpre p (mem_reverse.1 hp)
  simp only [lookup, findGeneration, hrev]
  rw [find_later _ hlater]
  rcases hg : g.revs with _ | ⟨first, tl⟩
  · rw [find_of_empty hg, hclosed, getIn_none (by simp [hg])]
    rfl
  · have hne : g.revs ≠ [] := by simp [hg]
    have hs := (h.revs_sorted heq).1
    rw [find_of_cons (f := first) (by simp [hg]) (getLast?_eq_getLast_of_ne_nil hne), hclosed]
    have htomb : ¬ (¬ (true && rest.reverse.isEmpty) = true ∧ (g.revs.getLast hne).main ≤ c) := by
      rintro ⟨hr, hle⟩
      obtain ⟨tomb, ht, hlt⟩ := hopen (by simpa using hr)
      rw [getLast?_eq_getLast_of_ne_nil hne, some.injEq] at ht
      rw [ht] at hle
      omega
    rw [if_neg htomb]
    split_ifs with hf
    · simp [Generation.isEmpty, hg]
    · rw [getIn_none]
      · rfl
      · intro y hy
        rw [hg] at hy hs
        rcases mem_cons.1 hy with rfl | hy
        · omega
        · have := Revision.main_le (rel_of_pairwise_cons hs hy).le
          omega

theorem WF.compact (h : ki.WF) (c : ℤ) : ∃ ki', Compacted ki c ki'
    ∧ ∀ available, ki.compact c available
      = .ok (ki', ((ki.lookup c).map (·.1)).toList ++ available) := by
  obtain ⟨old, last, h⟩ := h
  obtain ⟨pre, g, rest, heq, hskip, hpre, hopen⟩ := compactSkip_spec (c := c) last old h.closed
  have hat := h.lookup_at heq hpre hopen
  have hsorted := (h.revs_sorted heq).1
  have hbind : ∀ available, ki.compact c available = .ok (ki.compactFrom c g rest available) := by
    intro available
    unfold KeyIndex.compact
    rw [if_neg (by simp [h.not_isEmpty]), h.eq, hskip]
    rfl
  have hclosed : rest ≠ [] → 2 ≤ g.revs.length := fun hr => by
    obtain ⟨rest', -, hold⟩ := rest_split heq hr
    exact h.closed g (by rw [hold]; simp)
  rw [hat]
  by_cases hempty : g.revs = []
  · refine ⟨_, h.compacted heq hpre (Sublist.refl g.revs) hclosed fun _ _ _ => rfl,
      fun available => ?_⟩
    rw [hbind, compactFrom, if_pos (by simpa [Generation.isEmpty] using hempty),
      getIn_none (by simp [hempty])]
    rfl
  have hne : ¬ g.isEmpty := by simpa [Generation.isEmpty] using hempty
  rcases Generation.newest_split c g.revs with hall | ⟨a, x, b, hab, hx, hb⟩
  · -- every revision is above `c`: the generation stays as it is
    have hw : g.walk (fun rev => ¬ rev.main ≤ c) = none :=
      Generation.walk_none fun y hy => by simpa using hall y hy
    refine ⟨_, h.compacted heq hpre (Sublist.refl g.revs) hclosed fun _ _ _ => rfl,
      fun available => ?_⟩
    rw [hbind, compactFrom, if_neg hne, hw, getIn_none hall]
    simp only [getD_none, drop_zero, bind_none]
    rw [if_neg]
    · rfl
    · rintro ⟨h1, h2⟩
      have := hclosed h2
      omega
  · have hw : g.walk (fun rev => ¬ rev.main ≤ c) = some a.length :=
      Generation.walk_some hab (by simpa using hx) fun y hy => by simpa using hb y hy
    have hdrop : g.revs.drop a.length = x :: b := by rw [hab]; simp
    have hget : g.revs[a.length]? = some x := by rw [hab]; simp
    have hlen : rest ≠ [] → 2 ≤ (x :: b).length := fun hr => by
      obtain ⟨tomb, ht, hlt⟩ := hopen hr
      rcases b with _ | ⟨y, b⟩
      · rw [hab, getLast?_append] at ht
        simp at ht
        rw [← ht] at hlt
        omega
      · simp
    refine ⟨_, h.compacted heq hpre (show (x :: b).Sublist g.revs from ?_) hlen
      fun r hr => readIn_trim hab hsorted (hx.trans hr), fun available => ?_⟩
    swap
    · rw [hbind, compactFrom, if_neg hne, hw, getIn_some hab hx hb]
      simp only [getD_some, bind_some, hdrop, hget]
      rw [if_neg]
      · rfl
      · rintro ⟨h1, h2⟩
        have := hlen h2
        omega
    · rw [hab]
      exact sublist_append_right _ _

end EtcdCompat.KeyIndex
