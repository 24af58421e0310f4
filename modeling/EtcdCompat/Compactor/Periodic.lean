import Mathlib.Data.Int.Basic

/-!
# Periodic compaction

The loop of `Periodic.Run`: it appends the store's revision to `revs`, waits for its timer, and
compacts at the revision that many intervals back. What the clock, the store and `Compact` do is
given from outside.
-/

namespace EtcdCompat.Compactor

def minute : ℤ := 60000000000

def hour : ℤ := 60 * minute

def checkCompactionInterval : ℤ := 5 * minute

/-- `time.Duration(h)*time.Hour`. -/
def hours (h : ℤ) : ℤ := (h * hour).bmod 18446744073709551616

inductive CompactError where
  | compacted
  | other

structure Periodic where
  periodInHour : ℤ
  revs : List ℤ
  paused : Bool := false
  last : ℤ

namespace Periodic

def getRev (t : Periodic) (h : ℤ) : Option ℤ :=
  let i := t.revs.length - (hours h).tdiv checkCompactionInterval
  if i < 0 then some (-1) else t.revs[i.toNat]?

/-- The revision to compact at once the timer has fired, negative where it goes on waiting. -/
def check (t : Periodic) (now : ℤ) : Option ℤ :=
  if t.paused then some (-1)
  else if now - t.last < hours t.periodInHour then some (-1)
  else t.getRev t.periodInHour

/-- What is made of the answer of `Compact`. -/
def compacted (t : Periodic) (now : ℤ) : Option CompactError → Periodic
  | none | some .compacted => { t with revs := [], last := now }
  | some .other => t

def sample (t : Periodic) (rev : ℤ) : Periodic := { t with revs := t.revs ++ [rev] }

end Periodic

inductive Event where
  | pause
  | resume
  /-- The timer fires at `now`; where `Compact` is called it returns `err` at `done`; the next
  sample is taken at `next`. -/
  | fire (now : ℤ) (err : Option CompactError) (done next : ℤ)

/-- The loop in its wait, when it took its last sample, and the calls of `Compact` so far with their
times. -/
structure State where
  t : Periodic
  sampled : ℤ
  calls : List (ℤ × ℤ) := []

variable (rev : ℤ → ℤ)

/-- The loop of a period, started at `begin_`, with its first sample taken. -/
def start (h begin_ first : ℤ) : State where
  t := { periodInHour := h, last := begin_, revs := [rev first] }
  sampled := first

def step (s : State) : Event → Option State
  | .pause => some { s with t := { s.t with paused := true } }
  | .resume => some { s with t := { s.t with paused := false } }
  | .fire now err done next => (s.t.check now).map fun r =>
    if r < 0 then { s with t := s.t.sample (rev next), sampled := next }
    else ⟨(s.t.compacted done err).sample (rev next), next, (r, now) :: s.calls⟩

/-- The timer fires no earlier than the interval after the last sample, and times do not go back. -/
def Timely : ℤ → List Event → Prop
  | _, [] => True
  | sampled, .fire now _ done next :: evs =>
    sampled + checkCompactionInterval ≤ now ∧ now ≤ done ∧ done ≤ next ∧ Timely next evs
  | sampled, _ :: evs => Timely sampled evs

end EtcdCompat.Compactor
