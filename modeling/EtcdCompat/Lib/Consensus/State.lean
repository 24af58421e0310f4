import Mathlib.Data.Finset.Basic
import Mathlib.Data.List.Infix
import Mathlib.Logic.Function.Basic
import Mathlib.Logic.Relation

/-!
# Replicated logs under elected leaders

Parties elect a leader for a term with a quorum of votes, it extends its log, and the others adopt
prefixes of it. Each party has three views of its promises: in memory, about to be stored (`rd`),
and stored (`dur`), to which a crash takes it back. What it tells the others rests on the stored
one; only a leader may publish entries from `rd`, when the protocol is `early`.

For each term the state records who was elected (`leader`), with which log (`base`), the log as the
leader extended it (`ll`), and how much of it is published (`pub`).
-/

namespace Consensus

open Function

structure View (ι E : Type*) where
  term : ℕ
  votes : ℕ → Option ι
  /-- The log the party stood with for a term. -/
  cand : ℕ → Option (List E)
  log : List E
  /-- How much of the leader's log of a term the party has acknowledged. -/
  acked : ℕ → ℕ
  commit : ℕ

inductive Role where
  | follower
  | candidate
  | leader
deriving DecidableEq, Repr

structure State (ι E : Type*) where
  mem : ι → View ι E
  rd : ι → View ι E
  dur : ι → View ι E
  role : ι → Role
  leader : ℕ → Option ι
  base : ℕ → List E
  ll : ℕ → List E
  pub : ℕ → ℕ

/-- The quorums, the terms and positions of entries, and the log all parties start with. -/
structure Protocol (ι E : Type*) where
  Quorum : Finset ι → Prop
  termOf : E → ℕ
  Placed : ℕ → E → Prop
  start : ℕ
  boot : List E
  early : Bool
  inter : ∀ {A B}, Quorum A → Quorum B → ∃ u ∈ A, u ∈ B
  other : ∀ {A} (v : ι), Quorum A → ∃ u ∈ A, u ≠ v
  boot_term : ∀ e ∈ boot, termOf e = start
  boot_placed : ∀ j e, boot[j]? = some e → Placed j e

variable {ι E : Type*}

namespace View

variable (x : View ι E)

def campaign (v : ι) : View ι E :=
  { x with
    term := x.term + 1
    votes := update x.votes (x.term + 1) (some v)
    cand := update x.cand (x.term + 1) (some x.log) }

def vote (c : ι) : View ι E := { x with votes := update x.votes x.term (some c) }

def append (es : List E) : View ι E :=
  { x with
    log := x.log ++ es
    acked := update x.acked x.term (x.log ++ es).length }

open scoped Classical in
/-- Take over `L`, unless the log has it already. -/
noncomputable def adopt (L : List E) : View ι E :=
  { x with
    log := if L <+: x.log then x.log else L
    acked := update x.acked x.term (max (x.acked x.term) L.length) }

end View

/-- The term of the entry at position `i`, counted from one, zero if there is none. -/
def termAt (termOf : E → ℕ) (log : List E) : ℕ → ℕ
  | 0 => 0
  | i + 1 => (log[i]?.map termOf).getD 0

namespace Protocol

variable (p : Protocol ι E)

def lastTerm (log : List E) : ℕ := termAt p.termOf log log.length

def UpToDate (L log : List E) : Prop :=
  p.lastTerm log < p.lastTerm L ∨ p.lastTerm log = p.lastTerm L ∧ log.length ≤ L.length

end Protocol

namespace State

variable [DecidableEq ι] (s : State ι E)

def withMem (v : ι) (x : View ι E) (r : Role) : State ι E :=
  { s with mem := update s.mem v x, role := update s.role v r }

def elect (v : ι) : State ι E :=
  { s with
    role := update s.role v .leader
    leader := update s.leader (s.mem v).term (some v)
    base := update s.base (s.mem v).term (s.mem v).log
    ll := update s.ll (s.mem v).term (s.mem v).log
    pub := update s.pub (s.mem v).term (s.mem v).log.length }

def extend (v : ι) (es : List E) : State ι E :=
  { s with
    mem := update s.mem v ((s.mem v).append es)
    ll := update s.ll (s.mem v).term ((s.mem v).log ++ es) }

def ready (v : ι) : State ι E := { s with rd := update s.rd v (s.mem v) }

def save (v : ι) : State ι E := { s with dur := update s.dur v (s.rd v) }

def source (early : Bool) (v : ι) : View ι E := if early then s.rd v else s.dur v

def publish (early : Bool) (v : ι) : State ι E :=
  { s with
    pub := fun T => if s.leader T = some v then max (s.pub T) ((s.source early v).acked T)
      else s.pub T }

def crash (v : ι) : State ι E :=
  { s with
    mem := update s.mem v (s.dur v)
    rd := update s.rd v (s.dur v)
    role := update s.role v .follower }

end State

variable (p : Protocol ι E)

/-- The party `u` holds the first `i` entries of the log of term `T` in its store; for the party
`w`, in the view it is about to store. -/
def Acks (s : State ι E) (w : Option ι) (T i : ℕ) (u : ι) : Prop :=
  i ≤ (s.dur u).acked T ∨ w = some u ∧ i ≤ (s.rd u).acked T

/-- A quorum acknowledged an entry of the term's own leader. -/
def Comm (s : State ι E) (w : Option ι) (T i : ℕ) : Prop :=
  s.leader T ≠ none ∧ (s.base T).length < i ∧ ∃ A, p.Quorum A ∧ ∀ u ∈ A, Acks s w T i u

/-- Whose unsaved acknowledgement the party `v` may count: its own, in an early protocol. -/
def Protocol.counts (v : ι) : Option ι := if p.early then some v else none

theorem Protocol.counts_eq_some {p : Protocol ι E} {v u : ι} (h : p.counts v = some u) : u = v := by
  rw [counts] at h
  split_ifs at h
  exact (Option.some.inj h).symm

variable [DecidableEq ι]

/-- The steps of one party in memory. -/
inductive MemStep (v : ι) (s : State ι E) : State ι E → Prop
  | campaign (hr : s.role v ≠ .leader) :
      MemStep v s (s.withMem v ((s.mem v).campaign v) .candidate)
  | bump (T : ℕ) (hT : (s.mem v).term < T) :
      MemStep v s (s.withMem v { s.mem v with term := T } .follower)
  | stepDown : MemStep v s (s.withMem v (s.mem v) .follower)
  | vote (c : ι) (L : List E) (hr : s.role v = .follower) (hc : c ≠ v)
      (hv : (s.mem v).votes (s.mem v).term = none)
      (hL : (s.dur c).cand (s.mem v).term = some L) (hu : p.UpToDate L (s.mem v).log) :
      MemStep v s (s.withMem v ((s.mem v).vote c) .follower)
  | elect (A : Finset ι) (hr : s.role v = .candidate) (hA : p.Quorum A)
      (hv : ∀ u ∈ A, u ≠ v → (s.dur u).votes (s.mem v).term = some v) : MemStep v s (s.elect v)
  | extend (es : List E) (hr : s.role v = .leader) (ht : ∀ e ∈ es, p.termOf e = (s.mem v).term)
      (hp : ∀ j e, es[j]? = some e → p.Placed ((s.mem v).log.length + j) e) :
      MemStep v s (s.extend v es)
  | adopt (l : ι) (m : ℕ) (hr : s.role v = .follower) (hl : s.leader (s.mem v).term = some l)
      (hne : l ≠ v) (hm : m ≤ s.pub (s.mem v).term) :
      MemStep v s (s.withMem v ((s.mem v).adopt ((s.ll (s.mem v).term).take m)) .follower)
  | learn (T i c : ℕ) (hT : T ≤ (s.mem v).term) (hc : Comm p s (p.counts v) T i) (hi : c ≤ i)
      (hp : (s.ll T).take c <+: (s.mem v).log) (hm : (s.mem v).commit ≤ c) :
      MemStep v s (s.withMem v { s.mem v with commit := c } (s.role v))

inductive Step (s : State ι E) : State ι E → Prop
  | mem {v : ι} {s' : State ι E} (h : MemStep p v s s') : Step s s'
  | ready (v : ι) (h : s.dur v = s.rd v) : Step s (s.ready v)
  | save (v : ι) : Step s (s.save v)
  | publish (v : ι) : Step s (s.publish p.early v)
  | crash (v : ι) : Step s (s.crash v)

end Consensus
