import Mathlib.Data.List.Basic

/-!
# Programs that make requests

A program makes requests of an object that others use too, and goes on by what each is answered.
Every request is carried out at once; between two of a program's own requests those of others come
in any order. A schedule lists whose request is next.
-/

universe u

variable {S ρ σ : Type*} {α β : Type u}

inductive Program (ρ σ α : Type*) where
  | done (a : α)
  | request (r : ρ) (k : σ → Program ρ σ α)

namespace Program

def bind : Program ρ σ α → (α → Program ρ σ β) → Program ρ σ β
  | done a, f => f a
  | request r k, f => request r fun x => bind (k x) f

instance : Monad (Program ρ σ) where
  pure := done
  bind := bind

theorem bind_assoc {γ : Type u} (f : α → Program ρ σ β) (g : β → Program ρ σ γ) :
    ∀ p : Program ρ σ α, (p.bind f).bind g = p.bind fun a => (f a).bind g
  | done _ => rfl
  | request _ k => congrArg (request _) (funext fun x => bind_assoc f g (k x))

theorem run_bind_except {ε γ : Type u} (x : ExceptT ε (Program ρ σ) α)
    (f : α → ExceptT ε (Program ρ σ) β) (g : Except ε β → Program ρ σ γ) :
    Program.bind (x >>= f).run g = Program.bind x.run fun r =>
      Program.bind (ExceptT.bindCont f r) g :=
  bind_assoc ..

def ask (r : ρ) : Program ρ σ σ := request r done

def result? : Program ρ σ α → Option α
  | done a => some a
  | request _ _ => none

theorem eq_done_of_result? {p : Option (Program ρ σ α)} {a : α}
    (h : p.bind result? = some a) : p = some (done a) := by
  rcases p with _ | _ | _
  · cases h
  · exact congrArg (fun a => some (done a)) (Option.some.inj h)
  · cases h

/-- The program alone with the object. -/
def run (exec : S → ρ → S × σ) : S → Program ρ σ α → S × α
  | s, done a => (s, a)
  | s, request r k => run exec (exec s r).1 (k (exec s r).2)

theorem run_bind (exec : S → ρ → S × σ) (f : α → Program ρ σ β) :
    ∀ (s : S) (p : Program ρ σ α),
      run exec s (p.bind f) = run exec (run exec s p).1 (f (run exec s p).2)
  | _, done _ => rfl
  | s, request r k => run_bind exec f (exec s r).1 (k (exec s r).2)

theorem run_bind_ok {ε : Type u} {exec : S → ρ → S × σ} {s s' : S} {a : α}
    {x : ExceptT ε (Program ρ σ) α} (f : α → ExceptT ε (Program ρ σ) β)
    (h : run exec s x.run = (s', .ok a)) : run exec s (x >>= f).run = run exec s' (f a).run := by
  refine (run_bind exec _ s x.run).trans ?_
  rw [h]
  rfl

def advance (exec : S → ρ → S × σ) (x : S × List (Program ρ σ α)) (i : ℕ) :
    S × List (Program ρ σ α) :=
  match x.2[i]? with
  | some (request r k) => ((exec x.1 r).1, x.2.set i (k (exec x.1 r).2))
  | _ => x

def interleave (exec : S → ρ → S × σ) (x : S × List (Program ρ σ α)) (schedule : List ℕ) :
    S × List (Program ρ σ α) :=
  schedule.foldl (advance exec) x

/-- Every step of the schedule is taken in a state with the guard. -/
def Guarded (exec : S → ρ → S × σ) (guard : S × List (Program ρ σ α) → ℕ → Prop) :
    S × List (Program ρ σ α) → List ℕ → Prop
  | _, [] => True
  | x, i :: schedule => guard x i ∧ Guarded exec guard (advance exec x i) schedule

variable {exec : S → ρ → S × σ}

/-- What a request of any program keeps is kept by every schedule. -/
theorem interleave_inv {guard : S × List (Program ρ σ α) → ℕ → Prop}
    {I : S × List (Program ρ σ α) → Prop}
    (hstep : ∀ s ps i r k, I (s, ps) → ps[i]? = some (request r k) → guard (s, ps) i →
      I ((exec s r).1, ps.set i (k (exec s r).2))) :
    ∀ {schedule : List ℕ} {x : S × List (Program ρ σ α)}, I x →
      Guarded exec guard x schedule → I (interleave exec x schedule)
  | [], _, h, _ => h
  | i :: schedule, x, h, hguard => by
    have hx : I (advance exec x i) := by
      unfold advance
      split
      · rename_i r k hi
        exact hstep x.1 x.2 i r k h hi hguard.1
      · exact h
    exact @interleave_inv guard I hstep schedule _ hx hguard.2

/-- Every request the program makes, whatever it is answered, has `P`. -/
def Asks (P : ρ → Prop) : Program ρ σ α → Prop
  | done _ => True
  | request r k => P r ∧ ∀ x, Asks P (k x)

namespace Asks

variable {P : ρ → Prop}

theorem bind {f : α → Program ρ σ β} (hf : ∀ a, Asks P (f a)) :
    ∀ {p : Program ρ σ α}, Asks P p → Asks P (p >>= f)
  | done a, _ => hf a
  | request _ _, h => ⟨h.1, fun x => bind hf (h.2 x)⟩

theorem mono {Q : ρ → Prop} (hPQ : ∀ r, P r → Q r) : ∀ {p : Program ρ σ α}, Asks P p → Asks Q p
  | done _, _ => trivial
  | request _ _, h => ⟨hPQ _ h.1, fun x => mono hPQ (h.2 x)⟩

section Fallible

theorem run_inv {I : S → Prop} (hstep : ∀ s r, I s → P r → I (exec s r).1) :
    ∀ (p : Program ρ σ α) {s : S}, Asks P p → I s → I (run exec s p).1
  | done _, _, _, h => h
  | request _ k, _, hp, h => run_inv hstep (k _) (hp.2 _) (hstep _ _ h hp.1)

variable {ε : Type u} {x : ExceptT ε (Program ρ σ) α}

theorem bind_except {f : α → ExceptT ε (Program ρ σ) β} (hx : Asks P x.run)
    (hf : ∀ a, Asks P (f a).run) : Asks P (x >>= f).run := by
  refine bind (fun r => ?_) hx
  rcases r with e | a
  · trivial
  · exact hf a

theorem tryCatch {f : ε → ExceptT ε (Program ρ σ) α} (hx : Asks P x.run)
    (hf : ∀ e, Asks P (f e).run) : Asks P (tryCatch x f).run := by
  refine bind (fun r => ?_) hx
  rcases r with e | a
  · exact hf e
  · trivial

end Fallible

end Asks

end Program
