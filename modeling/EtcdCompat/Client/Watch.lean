import Mathlib.Data.Int.Basic
import Mathlib.Logic.Function.Basic

/-!
# Resuming the watchers of a client

`resumeWatchers` of `clientv3` asks a new server stream for each watcher again, in the order in
which the map of them was iterated over, and moves it in the map to the id of the answer.
-/

namespace EtcdCompat.ClientWatch

/-- A watcher's map of its streams by id, and the id each stream has. -/
structure Watcher (σ : Type*) where
  streams : ℤ → Option σ
  id : σ → ℤ

/-- What becomes of the request for one stream. -/
inductive Ack where
  /-- An error of `Send` or of `Recv`. -/
  | failed
  /-- A response with events, or not of a creation. -/
  | unexpected
  | created (watchId : ℤ)
deriving DecidableEq, Repr

variable {σ : Type*} [DecidableEq σ]

def Watcher.move (w : Watcher σ) (ws : σ) (watchId : ℤ) : Watcher σ where
  streams := Function.update (Function.update w.streams (w.id ws) none) watchId (some ws)
  id := Function.update w.id ws watchId

/-- The watcher after the streams and their answers, and whether the error is nil. -/
def resumeWatchers : Watcher σ → List (σ × Ack) → Watcher σ × Bool
  | w, [] => (w, true)
  | w, (ws, .created watchId) :: acks => resumeWatchers (w.move ws watchId) acks
  | w, _ :: _ => (w, false)

end EtcdCompat.ClientWatch
