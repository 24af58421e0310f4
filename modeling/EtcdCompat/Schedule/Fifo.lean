import Mathlib.Data.List.Basic

/-!
# The FIFO scheduler

`pkg/schedule`: `Schedule` appends a job under the lock and wakes a worker that may sleep, the
worker runs the first of the pending jobs and takes it off the list afterwards, `Stop` cancels the
context and waits for the worker. A job that is run returns at last.
-/

namespace EtcdCompat.Schedule

/-- Where the goroutine of `run` is. -/
inductive Worker (J : Type*) where
  | top
  /-- In its `select`. -/
  | waiting
  /-- With its `todo`, out of the lock. -/
  | picked (todo : J)
  | running (todo : J)
  /-- The job has returned. -/
  | ran
  /-- In the loop over the jobs it took along on cancellation. -/
  | cleaning (pendings : List J)
  | cleaningUp (todo : J) (pendings : List J)
  | returned
deriving DecidableEq, Repr

structure Fifo (J : Type*) where
  pendings : List J := []
  scheduled : ℕ := 0
  finished : ℕ := 0
  /-- Whether the channel `resume` has its one element. -/
  resume : Bool := false
  /-- The context is done, and `cancel` is nil. -/
  canceled : Bool := false
  worker : Worker J := .top
  /-- `Stop` has returned. -/
  stopped : Bool := false
  /-- The jobs whose `Schedule` has returned, in their order. -/
  accepted : List J := []
  /-- The jobs started, with whether their context was done then. -/
  starts : List (J × Bool) := []
  ends : List J := []

/-- What can happen next; the worker's choice is for a `select` with both cases ready. -/
inductive Event (J : Type*) where
  | schedule (j : J)
  | stop
  | stopReturns
  | work (preferDone : Bool)

variable {J : Type*}

namespace Fifo

/-- `Schedule`, which panics on a stopped scheduler. -/
def schedule (f : Fifo J) (j : J) : Fifo J :=
  if f.canceled then f
  else { f with
    resume := f.resume || f.pendings.isEmpty
    pendings := f.pendings ++ [j]
    accepted := f.accepted ++ [j] }

def started (f : Fifo J) (j : J) (worker : Worker J) : Fifo J :=
  { f with worker := worker, starts := f.starts ++ [(j, f.canceled)] }

def ended (f : Fifo J) (j : J) (worker : Worker J) : Fifo J :=
  { f with worker := worker, ends := f.ends ++ [j] }

/-- The next step of `run`. -/
def work (f : Fifo J) (preferDone : Bool) : Fifo J :=
  match f.worker with
  | .top => match f.pendings with
    | [] => { f with worker := .waiting }
    | todo :: _ => { f with worker := .picked todo, scheduled := f.scheduled + 1 }
  | .waiting =>
    if f.canceled && (preferDone || !f.resume) then
      { f with worker := .cleaning f.pendings, pendings := [] }
    else if f.resume then { f with worker := .top, resume := false }
    else f
  | .picked todo => f.started todo (.running todo)
  | .running todo => f.ended todo .ran
  | .ran => { f with worker := .top, finished := f.finished + 1, pendings := f.pendings.tail }
  | .cleaning [] => { f with worker := .returned }
  | .cleaning (todo :: pendings) => f.started todo (.cleaningUp todo pendings)
  | .cleaningUp todo pendings => f.ended todo (.cleaning pendings)
  | .returned => f

/-- `Stop` after its cancellation, which waits for `donec` to be closed. -/
def stopReturns (f : Fifo J) : Fifo J :=
  match f.worker with
  | .returned => { f with stopped := f.canceled }
  | _ => f

def step (f : Fifo J) : Event J → Fifo J
  | .schedule j => f.schedule j
  | .stop => { f with canceled := true }
  | .stopReturns => f.stopReturns
  | .work preferDone => f.work preferDone

def run (evs : List (Event J)) : Fifo J := evs.foldl step {}

end Fifo

end EtcdCompat.Schedule
