import EtcdCompat.Raft.Types

/-!
# What a leader knows of a follower

`Inflights` is the queue of the last indices of the append messages in flight, oldest first; the
code keeps it in a ring buffer, `InflightRing`.
-/

namespace EtcdCompat

structure Inflights where
  size : ℕ
  buffer : List ℕ := []
deriving DecidableEq, Repr

namespace Inflights

def full (ins : Inflights) : Bool := ins.buffer.length == ins.size

def add (ins : Inflights) (inflight : ℕ) : Except Panic Inflights :=
  if ins.full then .error .inflightsFull
  else .ok { ins with buffer := ins.buffer ++ [inflight] }

def freeTo (ins : Inflights) (to_ : ℕ) : Inflights :=
  { ins with buffer := ins.buffer.dropWhile (· ≤ to_) }

def freeFirstOne (ins : Inflights) : Inflights :=
  match ins.buffer with
  | [] => ins
  | i :: _ => ins.freeTo i

def reset (ins : Inflights) : Inflights := { ins with buffer := [] }

end Inflights

/-- `inflights` as the code has it. -/
structure InflightRing where
  start : ℕ := 0
  count : ℕ := 0
  size : ℕ
  buffer : List ℕ
deriving DecidableEq, Repr

namespace InflightRing

/-- `newInflights`. -/
def new (size : ℕ) : InflightRing := { size := size, buffer := List.replicate size 0 }

def full (r : InflightRing) : Bool := r.count == r.size

/-- A place past the end comes back at the front. -/
def wrap (r : InflightRing) (i : ℕ) : ℕ := if r.size ≤ i then i - r.size else i

def cell (r : InflightRing) (i : ℕ) : Except Panic ℕ :=
  r.buffer[i]?.elim (.error .indexOutOfRange) .ok

def add (r : InflightRing) (inflight : ℕ) : Except Panic InflightRing :=
  if r.full then .error .inflightsFull
  else
    let next := r.wrap (r.start + r.count)
    if next < r.buffer.length then
      .ok { r with buffer := r.buffer.set next inflight, count := r.count + 1 }
    else .error .indexOutOfRange

/-- The loop of `freeTo`, with what is left of `count`. -/
def freeLoop (r : InflightRing) (to_ : ℕ) : ℕ → ℕ → ℕ → Except Panic (ℕ × ℕ)
  | 0, i, idx => .ok (i, idx)
  | left + 1, i, idx => do
    if to_ < (← r.cell idx) then return (i, idx)
    else r.freeLoop to_ left (i + 1) (r.wrap (idx + 1))

def freeTo (r : InflightRing) (to_ : ℕ) : Except Panic InflightRing := do
  if r.count = 0 then return r
  else if to_ < (← r.cell r.start) then return r
  else
    let freed ← r.freeLoop to_ r.count 0 r.start
    return { r with count := r.count - freed.1, start := freed.2 }

def freeFirstOne (r : InflightRing) : Except Panic InflightRing := do
  r.freeTo (← r.cell r.start)

def reset (r : InflightRing) : InflightRing := { r with count := 0, start := 0 }

end InflightRing

inductive ProgressStateType where
  | probe
  | replicate
  | snapshot
deriving DecidableEq, Repr

structure Progress where
  match_ : ℕ := 0
  next : ℕ
  state : ProgressStateType := .probe
  paused : Bool := false
  pendingSnapshot : ℕ := 0
  recentActive : Bool := false
  ins : Inflights
deriving DecidableEq, Repr

namespace Progress

def resetState (pr : Progress) (state : ProgressStateType) : Progress :=
  { pr with
    paused := false
    recentActive := false
    pendingSnapshot := 0
    state := state
    ins := pr.ins.reset }

def becomeProbe (pr : Progress) : Progress :=
  if pr.state = .snapshot then
    { pr.resetState .probe with next := max (pr.match_ + 1) (pr.pendingSnapshot + 1) }
  else { pr.resetState .probe with next := pr.match_ + 1 }

def becomeReplicate (pr : Progress) : Progress :=
  { pr.resetState .replicate with next := pr.match_ + 1 }

def becomeSnapshot (pr : Progress) (snapshoti : ℕ) : Progress :=
  { pr.resetState .snapshot with pendingSnapshot := snapshoti }

def pause (pr : Progress) : Progress := { pr with paused := true }

def resume (pr : Progress) : Progress := { pr with paused := false }

/-- Whether the index is news, and the progress with it. -/
def maybeUpdate (pr : Progress) (n : ℕ) : Bool × Progress :=
  let updated := decide (pr.match_ < n)
  let pr := if pr.match_ < n then ({ pr with match_ := n } : Progress).resume else pr
  (updated, if pr.next < n + 1 then { pr with next := n + 1 } else pr)

def optimisticUpdate (pr : Progress) (n : ℕ) : Progress := { pr with next := n + 1 }

def maybeDecrTo (pr : Progress) (rejected last : ℕ) : Bool × Progress :=
  if pr.state = .replicate then
    if rejected ≤ pr.match_ then (false, pr) else (true, { pr with next := pr.match_ + 1 })
  else if pr.next - 1 ≠ rejected then (false, pr)
  else (true, ({ pr with next := max (min rejected (last + 1)) 1 } : Progress).resume)

def isPaused (pr : Progress) : Bool :=
  match pr.state with
  | .probe => pr.paused
  | .replicate => pr.ins.full
  | .snapshot => true

def snapshotFailure (pr : Progress) : Progress := { pr with pendingSnapshot := 0 }

def maybeSnapshotAbort (pr : Progress) : Bool :=
  pr.state == .snapshot && decide (pr.match_ ≥ pr.pendingSnapshot)

end Progress

end EtcdCompat
