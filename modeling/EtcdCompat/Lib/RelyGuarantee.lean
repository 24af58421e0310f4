import EtcdCompat.Lib.Program

/-!
# Programs among others

Programs make requests of one object in any order. A program keeps a contract: as long as the others
change the object within its rely, its own steps are within its guarantee, it never waits in a live
state, and it ends with its postcondition. Contracts whose guarantees are within the others' relies
hold of all programs together.
-/

universe u

variable {S ρ σ C : Type*} {α β : Type u}

/-- What the others may do, what the program may do, and when it must not have to wait. -/
structure Contract (S : Type*) where
  rely : S → S → Prop
  guar : S → S → Prop
  live : S → Prop
  refl : ∀ s, rely s s
  trans : ∀ {s s' s''}, rely s s' → rely s' s'' → rely s s''

namespace Program

/-- From the state on, among others within its rely, the program keeps the contract and ends with
the postcondition, which the others do not undo. -/
def Ensures (exec : C → S → ρ → Option (S × σ)) (c : Contract S) (Q : S → α → Prop) :
    S → Program ρ σ α → Prop
  | s, done a => ∀ s', c.rely s s' → Q s' a
  | s, request r k => ∀ s', c.rely s s' → (c.live s' → ∃ ch y, exec ch s' r = some y) ∧
    ∀ ch s'' x, exec ch s' r = some (s'', x) → c.guar s' s'' ∧ Ensures exec c Q s'' (k x)

namespace Ensures

variable {exec : C → S → ρ → Option (S × σ)} {c : Contract S} {Q : S → α → Prop} {s s' : S}

theorem mono_rely (h : c.rely s s') : ∀ {p : Program ρ σ α}, Ensures exec c Q s p →
    Ensures exec c Q s' p
  | done _, hp => fun _ hs => hp _ (c.trans h hs)
  | request _ _, hp => fun _ hs => hp _ (c.trans h hs)

theorem bind {R : S → β → Prop} {f : α → Program ρ σ β}
    (hf : ∀ s a, Q s a → Ensures exec c R s (f a)) :
    ∀ {s : S} {p : Program ρ σ α}, Ensures exec c Q s p → Ensures exec c R s (p.bind f)
  | s, done a, hp => hf s a (hp s (c.refl s))
  | _, request _ _, hp => fun s' hs => ⟨(hp s' hs).1, fun ch s'' x hx =>
    ⟨((hp s' hs).2 ch s'' x hx).1, bind hf ((hp s' hs).2 ch s'' x hx).2⟩⟩

theorem mono {R : S → α → Prop} (hR : ∀ s a, Q s a → R s a) :
    ∀ {s : S} {p : Program ρ σ α}, Ensures exec c Q s p → Ensures exec c R s p
  | _, done _, hp => fun s' hs => hR _ _ (hp s' hs)
  | _, request _ _, hp => fun s' hs => ⟨(hp s' hs).1, fun ch s'' x hx =>
    ⟨((hp s' hs).2 ch s'' x hx).1, mono hR ((hp s' hs).2 ch s'' x hx).2⟩⟩

theorem ask {r : ρ} {k : σ → Program ρ σ α}
    (hlive : ∀ s', c.rely s s' → c.live s' → ∃ ch y, exec ch s' r = some y)
    (h : ∀ s', c.rely s s' → ∀ ch s'' x, exec ch s' r = some (s'', x) →
      c.guar s' s'' ∧ Ensures exec c Q s'' (k x)) : Ensures exec c Q s (request r k) :=
  fun s' hs => ⟨hlive s' hs, h s' hs⟩

theorem restrict {exec' : C → S → ρ → Option (S × σ)} (hlive : ∀ s, ¬ c.live s)
    (h : ∀ ch s r y, exec' ch s r = some y → exec ch s r = some y) :
    ∀ {s : S} {p : Program ρ σ α}, Ensures exec c Q s p → Ensures exec' c Q s p
  | _, done _, hp => hp
  | _, request _ _, hp => fun s' hs => ⟨fun hl => (hlive s' hl).elim, fun ch s'' x hx =>
    have hx' := (hp s' hs).2 ch s'' x (h ch s' _ _ hx)
    ⟨hx'.1, restrict hlive h hx'.2⟩⟩

end Ensures

section Pool

/-- The next request of the program at a position, if it need not wait. -/
def attempt (exec : C → S → ρ → Option (S × σ)) (x : S × List (Program ρ σ α)) (i : ℕ × C) :
    S × List (Program ρ σ α) :=
  match x.2[i.1]? with
  | some (request r k) => match exec i.2 x.1 r with
    | some y => (y.1, x.2.set i.1 (k y.2))
    | none => x
  | _ => x

def contend (exec : C → S → ρ → Option (S × σ)) (x : S × List (Program ρ σ α))
    (schedule : List (ℕ × C)) : S × List (Program ρ σ α) :=
  schedule.foldl (attempt exec) x

variable {exec : C → S → ρ → Option (S × σ)} {contract : ℕ → Contract S}
  {Q : ℕ → S → α → Prop} {x : S × List (Program ρ σ α)}

theorem length_attempt (exec : C → S → ρ → Option (S × σ)) (x : S × List (Program ρ σ α))
    (i : ℕ × C) : (attempt exec x i).2.length = x.2.length := by
  unfold attempt
  split
  · split
    · exact List.length_set
    · rfl
  · rfl

theorem length_contend (exec : C → S → ρ → Option (S × σ)) :
    ∀ (schedule : List (ℕ × C)) (x : S × List (Program ρ σ α)),
      (contend exec x schedule).2.length = x.2.length
  | [], _ => rfl
  | i :: schedule, x =>
    (length_contend exec schedule (attempt exec x i)).trans (length_attempt exec x i)

section Guard

variable (guard : C → S → ρ → Bool)

/-- Requests answered under a guard only. -/
def guarded (exec : C → S → ρ → Option (S × σ)) (ch : C) (s : S) (r : ρ) : Option (S × σ) :=
  if guard ch s r then exec ch s r else none

theorem guarded_eq_some {ch : C} {s : S} {r : ρ} {y : S × σ}
    (h : guarded guard exec ch s r = some y) : guard ch s r = true ∧ exec ch s r = some y := by
  unfold guarded at h
  split_ifs at h with hg
  exact ⟨hg, h⟩

/-- Whether the next request of the program at a position is made under the guard. -/
def mayAct (x : S × List (Program ρ σ α)) (i : ℕ × C) : Bool :=
  match x.2[i.1]? with
  | some (request r _) => guard i.2 x.1 r
  | _ => true

/-- Every request of the schedule is made under the guard. -/
def Heeds (exec : C → S → ρ → Option (S × σ)) :
    S × List (Program ρ σ α) → List (ℕ × C) → Prop
  | _, [] => True
  | x, i :: schedule => mayAct guard x i = true ∧ Heeds exec (attempt exec x i) schedule

instance decidableHeeds (exec : C → S → ρ → Option (S × σ)) :
    ∀ (x : S × List (Program ρ σ α)) (schedule : List (ℕ × C)),
      Decidable (Heeds guard exec x schedule)
  | _, [] => isTrue trivial
  | x, i :: schedule =>
    have := decidableHeeds exec (attempt exec x i) schedule
    inferInstanceAs (Decidable (_ ∧ _))

theorem contend_guarded : ∀ {schedule : List (ℕ × C)} {x : S × List (Program ρ σ α)},
    Heeds guard exec x schedule → contend (guarded guard exec) x schedule = contend exec x schedule
  | [], _, _ => rfl
  | i :: schedule, x, h => by
    have hstep : attempt (guarded guard exec) x i = attempt exec x i := by
      have hguard := h.1
      unfold mayAct at hguard
      unfold attempt guarded
      split
      · rename_i r k hi
        rw [hi] at hguard
        rw [if_pos hguard]
      · rfl
    change contend _ (attempt (guarded guard exec) x i) schedule = _
    rw [hstep]
    exact contend_guarded h.2

end Guard

/-- Every program of the pool keeps its contract from here on. -/
def AllEnsure (exec : C → S → ρ → Option (S × σ)) (contract : ℕ → Contract S)
    (Q : ℕ → S → α → Prop) (x : S × List (Program ρ σ α)) : Prop :=
  ∀ i p, x.2[i]? = some p → Ensures exec (contract i) (Q i) x.1 p

/-- The guarantee of each is within the rely of every other. -/
def Compatible (contract : ℕ → Contract S) : Prop :=
  ∀ i j, i ≠ j → ∀ s s', (contract i).guar s s' → (contract j).rely s s'

theorem AllEnsure.attempt (hc : Compatible contract) (h : AllEnsure exec contract Q x)
    (i : ℕ × C) : AllEnsure exec contract Q (attempt exec x i) ∧
      ((Program.attempt exec x i).1 = x.1 ∨
        (contract i.1).guar x.1 (Program.attempt exec x i).1) := by
  unfold Program.attempt
  split
  · rename_i r k hi
    split
    · rename_i y hy
      obtain ⟨hguar, hk⟩ := (h i.1 _ hi x.1 ((contract i.1).refl _)).2 i.2 y.1 y.2 hy
      refine ⟨fun j p hj => ?_, .inr hguar⟩
      by_cases hij : i.1 = j
      · subst hij
        rw [List.getElem?_set_self (List.getElem?_eq_some_iff.1 hi).1] at hj
        cases hj
        exact hk
      · rw [List.getElem?_set_ne hij] at hj
        exact (h j p hj).mono_rely (hc i.1 j hij _ _ hguar)
    · exact ⟨h, .inl rfl⟩
  · exact ⟨h, .inl rfl⟩

theorem AllEnsure.contend (hc : Compatible contract) :
    ∀ {schedule : List (ℕ × C)} {x : S × List (Program ρ σ α)}, AllEnsure exec contract Q x →
      AllEnsure exec contract Q (contend exec x schedule)
  | [], _, h => h
  | i :: schedule, x, h =>
    @contend hc schedule (Program.attempt exec x i) (h.attempt hc i).1

/-- What every guarantee keeps is kept by every schedule. -/
theorem AllEnsure.contend_inv {J : S → Prop}
    (hJ : ∀ i s s', (contract i).guar s s' → J s → J s') (hc : Compatible contract) :
    ∀ {schedule : List (ℕ × C)} {x : S × List (Program ρ σ α)}, AllEnsure exec contract Q x →
      J x.1 → J (Program.contend exec x schedule).1
  | [], _, _, h => h
  | i :: schedule, x, hx, h => by
    obtain ⟨hnext, hstep⟩ := hx.attempt hc i
    refine @contend_inv J hJ hc schedule _ hnext ?_
    rcases hstep with hsame | hguar
    · rw [hsame]
      exact h
    · exact hJ i.1 _ _ hguar h

theorem AllEnsure.post (h : AllEnsure exec contract Q x) {i : ℕ} {a : α}
    (hi : x.2[i]? = some (done a)) : Q i x.1 a :=
  h i _ hi x.1 ((contract i).refl _)

/-- From a live state each program ends, the others standing still. -/
theorem AllEnsure.finishes (hc : Compatible contract) {i : ℕ}
    (hlive : ∀ s s', (contract i).guar s s' → (contract i).live s → (contract i).live s') :
    ∀ {p : Program ρ σ α} {x : S × List (Program ρ σ α)}, AllEnsure exec contract Q x →
      (contract i).live x.1 → x.2[i]? = some p →
      ∃ choices : List C, ∃ a,
        (Program.contend exec x (choices.map (i, ·))).2[i]? = some (done a)
  | done a, x, _, _, hi => ⟨[], a, hi⟩
  | request r k, x, h, hs, hi => by
    obtain ⟨ch, y, hy⟩ := (h i _ hi x.1 ((contract i).refl _)).1 hs
    have hstep : Program.attempt exec x (i, ch) = (y.1, x.2.set i (k y.2)) := by
      unfold Program.attempt
      simp only [hi, hy]
    have hguar := ((h i _ hi x.1 ((contract i).refl _)).2 ch y.1 y.2 hy).1
    have hnext := (h.attempt hc (i, ch)).1
    rw [hstep] at hnext
    obtain ⟨choices, a, ha⟩ := finishes hc hlive hnext (hlive _ _ hguar hs)
      (List.getElem?_set_self (List.getElem?_eq_some_iff.1 hi).1)
    refine ⟨ch :: choices, a, ?_⟩
    change (Program.contend exec (Program.attempt exec x (i, ch)) _).2[i]? = _
    rw [hstep]
    exact ha

end Pool

end Program
