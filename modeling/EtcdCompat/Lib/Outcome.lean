import Mathlib.Tactic.Basic

/-!
# Computations that may stop

A computation `Yields E P` when it returns a value with `P` or stops with an error in `E`, and two
computations `Agree R` when they stop with the same error or return values related by `R`. The rules
follow `bind` and `foldlM`.
-/

universe u

variable {ε ι : Type*} {α β γ δ : Type u}

def errorOf : Except ε α → Option ε
  | .ok _ => none
  | .error e => some e

instance decidableExistsOk (x : Except ε α) (P : α → Prop) [DecidablePred P] :
    Decidable (∃ a, x = .ok a ∧ P a) :=
  decidable_of_iff (x.toOption.map (fun a => decide (P a)) = some true) <| by
    rcases x with e | a <;> simp [Except.toOption]

theorem exists_ok_of_bind {x : Except ε α} {f : α → Except ε β} {b : β} (h : x >>= f = .ok b) :
    ∃ a, x = .ok a ∧ f a = .ok b := by
  rcases x with e | a
  · cases h
  · exact ⟨a, rfl, h⟩

/-- The computation returns a value with `P`, or stops with an error in `E`. -/
def Yields (E : ε → Prop) (P : α → Prop) : Except ε α → Prop
  | .ok a => P a
  | .error e => E e

namespace Yields

variable {E : ε → Prop} {P : α → Prop} {Q : β → Prop}
  {x : Except ε α} {P' : α → Prop} {f : α → Except ε β}

theorem trivial (x : Except ε α) : Yields (fun _ => True) (fun _ => True) x := by
  rcases x with e | a <;> exact True.intro

section

variable (h : Yields E P x)
include h

theorem of_ok {a : α} (hx : x = .ok a) : P a := by
  rw [hx] at h
  exact h

theorem imp {E' : ε → Prop} (hE : ∀ e, E e → E' e) (hP : ∀ a, P a → P' a) : Yields E' P' x := by
  rcases x with e | a
  · exact hE e h
  · exact hP a h

theorem mono (hP : ∀ a, P a → P' a) : Yields E P' x :=
  h.imp (fun _ he => he) hP

theorem and (h' : Yields E P' x) : Yields E (fun a => P a ∧ P' a) x := by
  rcases x with e | a
  · exact h
  · exact ⟨h, h'⟩

theorem bind (hf : ∀ a, P a → Yields E Q (f a)) : Yields E Q (x >>= f) := by
  rcases x with e | a
  · exact h
  · exact hf a h

theorem bind_ok (hf : ∀ a, x = .ok a → P a → Yields E Q (f a)) : Yields E Q (x >>= f) := by
  rcases x with e | a
  · exact h
  · exact hf a rfl h

end

theorem foldlM {P : α → Prop} {f : α → ι → Except ε α} :
    ∀ {l : List ι}, (∀ x ∈ l, ∀ a, P a → Yields E P (f a x)) →
    ∀ {a : α}, P a → Yields E P (l.foldlM f a)
  | [], _, _, h => h
  | x :: l, hstep, a, h => by
    rw [List.foldlM_cons]
    exact bind (hstep x List.mem_cons_self a h) fun a' h' =>
      foldlM (fun y hy => hstep y (List.mem_cons_of_mem _ hy)) h'

end Yields

/-- The computations stop with the same error, or return related values. -/
def Agree (R : α → β → Prop) : Except ε α → Except ε β → Prop
  | .ok a, .ok b => R a b
  | .error e, .error e' => e = e'
  | _, _ => False

namespace Agree

variable {R : α → β → Prop} {S : γ → δ → Prop}
  {x : Except ε α} {y : Except ε β} {E : ε → Prop} {P : β → Prop} {f : α → Except ε γ}

section

variable (h : Agree R x y)
include h

theorem mono {R' : α → β → Prop} (hR : ∀ a b, R a b → R' a b) : Agree R' x y := by
  rcases x with e | a <;> rcases y with e' | b
  · exact h
  · exact h
  · exact h
  · exact hR a b h

theorem exists_ok {a : α} (hx : x = .ok a) : ∃ b, y = .ok b ∧ R a b := by
  rw [hx] at h
  rcases y with e | b
  · exact h.elim
  · exact ⟨b, rfl, h⟩

theorem exists_ok_left {b : β} (hy : y = .ok b) : ∃ a, x = .ok a ∧ R a b := by
  rw [hy] at h
  rcases x with e | a
  · exact h.elim
  · exact ⟨a, rfl, h⟩

theorem stops_iff : (∃ e, x = .error e) ↔ ∃ e, y = .error e := by
  rcases x with e | a <;> rcases y with e' | b
  · exact ⟨fun _ => ⟨e', rfl⟩, fun _ => ⟨e, rfl⟩⟩
  · exact h.elim
  · exact h.elim
  · exact iff_of_false (fun ⟨_, h⟩ => by cases h) fun ⟨_, h⟩ => by cases h

theorem yields (hy : Yields E P y) : Yields E (fun a => ∃ b, R a b ∧ P b) x := by
  rcases x with e | a <;> rcases y with e' | b
  · rw [show e = e' from h]
    exact hy
  · exact h.elim
  · exact h.elim
  · exact ⟨b, h, hy⟩

theorem and_right (hy : Yields E P y) : Agree (fun a b => R a b ∧ P b) x y := by
  rcases x with e | a <;> rcases y with e' | b
  · exact h
  · exact h
  · exact h
  · exact ⟨h, hy⟩

theorem and_left {P : α → Prop} (hx : Yields E P x) : Agree (fun a b => R a b ∧ P a) x y := by
  rcases x with e | a <;> rcases y with e' | b
  · exact h
  · exact h
  · exact h
  · exact ⟨h, hx⟩

end

theorem of_map {g : γ → α} {x : Except ε γ} (h : Agree R (x.map g) y) :
    Agree (fun a b => R (g a) b) x y := by
  rcases x with e | a <;> rcases y with e' | b <;> exact h

theorem join {S : γ → β → Prop} {y : Except ε γ} {z : Except ε β} (h : Agree R x z)
    (h' : Agree S y z) : Agree (fun a c => ∃ b, R a b ∧ S c b) x y := by
  rcases x with e | a <;> rcases y with e' | c <;> rcases z with e'' | b
  · exact Eq.trans h (Eq.symm h')
  · exact h.elim
  · exact h'.elim
  · exact h.elim
  · exact h.elim
  · exact h'.elim
  · exact h.elim
  · exact ⟨b, h, h'⟩

theorem bind {g : β → Except ε δ} (h : Agree R x y) (hfg : ∀ a b, R a b → Agree S (f a) (g b)) :
    Agree S (x >>= f) (y >>= g) := by
  rcases x with e | a <;> rcases y with e' | b
  · exact h
  · exact h.elim
  · exact h.elim
  · exact hfg a b h

theorem bind_left {T : γ → β → Prop} (h : Agree R x y)
    (hf : ∀ a b, R a b → ∃ c, f a = .ok c ∧ T c b) : Agree T (x >>= f) y := by
  rcases x with e | a <;> rcases y with e' | b
  · exact h
  · exact h
  · exact h.elim
  · obtain ⟨c, hc, hT⟩ := hf a b h
    show Agree T (f a) _
    rw [hc]
    exact hT

theorem foldlM {f : α → ι → Except ε α} {g : β → ι → Except ε β} :
    ∀ {l : List ι}, (∀ x ∈ l, ∀ a b, R a b → Agree R (f a x) (g b x)) →
    ∀ {a : α} {b : β}, R a b → Agree R (l.foldlM f a) (l.foldlM g b)
  | [], _, _, _, h => h
  | x :: l, hstep, a, b, h => by
    rw [List.foldlM_cons, List.foldlM_cons]
    exact bind (hstep x List.mem_cons_self a b h) fun a' b' h' =>
      foldlM (fun y hy => hstep y (List.mem_cons_of_mem _ hy)) h'

end Agree
