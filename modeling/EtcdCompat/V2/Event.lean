import EtcdCompat.Lib.RingBuffer
import EtcdCompat.V2.Path

/-!
# Events of the v2 store and their history

An event describes the node it is about before and after. The history keeps the newest events in a
ring (`eventQueue`), and `scan` looks in it for the first event a watcher asks for. Times are
nanoseconds since the zero time.
-/

namespace EtcdCompat.V2

open GoPath

abbrev Time := ℤ

inductive Panic where
  | indexOutOfRange
  | nilDereference
  | nilMapAssignment
  | sendOnClosedChannel
  | closeOfClosedChannel
  | stackOverflow
  -- not a panic: a loop that does not end
  | diverges
deriving DecidableEq, Repr

/-- The codes of `etcdErr` that the store uses. -/
inductive ErrorCode where
  | keyNotFound
  | testFailed
  | notFile
  | notDir
  | nodeExist
  | rootROnly
  | dirNotEmpty
  | eventIndexCleared
deriving DecidableEq, Repr

structure EtcdError where
  errorCode : ErrorCode
  cause : Bytes
  index : ℕ
deriving DecidableEq, Repr

structure NodeExtern where
  key : Bytes
  value : Option Bytes := none
  dir : Bool := false
  expiration : Option Time := none
  ttl : ℤ := 0
  nodes : List NodeExtern := []
  modifiedIndex : ℕ
  createdIndex : ℕ

inductive Action where
  | get
  | create
  | set
  | update
  | delete
  | compareAndSwap
  | compareAndDelete
  | expire
deriving DecidableEq, Repr

structure Event where
  action : Action
  node : NodeExtern
  prevNode : Option NodeExtern := none
  etcdIndex : ℕ := 0
  refresh : Bool := false

def newEvent (action : Action) (key : Bytes) (modifiedIndex createdIndex : ℕ) : Event where
  action := action
  node := { key, modifiedIndex, createdIndex }

namespace Event

def index (e : Event) : ℕ := e.node.modifiedIndex

/-- The mark of a refresh is not copied. -/
def clone (e : Event) : Event := { e with refresh := false }

def setRefresh (e : Event) : Event := { e with refresh := true }

/-- The directory whose deletion or expiration the event is. -/
def deletedDir (e : Event) : Option Bytes :=
  if e.action = .delete ∨ e.action = .expire then
    (e.prevNode.filter (·.dir)).map (·.key)
  else none

end Event

structure EventHistory where
  queue : RingBuffer Event
  startIndex : ℕ := 0
  lastIndex : ℕ := 0

def newEventHistory (capacity : ℕ) : EventHistory where
  queue := RingBuffer.new Event capacity

namespace EventHistory

/-- The event at a position of the queue, dereferenced. -/
def eventAt (queue : RingBuffer Event) (i : ℕ) : Except Panic Event :=
  match queue.cells[i]? with
  | none => .error .indexOutOfRange
  | some none => .error .nilDereference
  | some (some e) => .ok e

def addEvent (eh : EventHistory) (e : Event) : Except Panic EventHistory := do
  let queue := eh.queue.insert e
  let first ← eventAt queue queue.front
  .ok { queue, startIndex := first.index, lastIndex := e.index }

/-- The key with a slash at its end, as a recursive scan compares it from there on. -/
def addSlash (key : Bytes) : Bytes :=
  let key := clean key
  if key.getLast? ≠ some slash then key ++ [slash] else key

/-- Whether an event is one for the key. The key has its slash before the last two tests. -/
def isFor (e : Event) (key keyAfter : Bytes) (recursive : Bool) : Bool :=
  e.node.key = key
    || (recursive && hasPrefix e.node.key keyAfter)
    || e.deletedDir.any (hasPrefix keyAfter ·)

/-- The loop of `scan` from a position on, at most `fuel` times around. -/
def scanFrom (eh : EventHistory) (recursive : Bool) :
    ℕ → Bytes → ℕ → Except Panic (Option Event)
  | 0, _, _ => .error .diverges
  | fuel + 1, key, i => do
    let e ← eventAt eh.queue i
    let keyAfter := if recursive ∧ ¬ e.refresh then addSlash key else key
    if ¬ e.refresh ∧ isFor e key keyAfter recursive then .ok (some e)
    else
      let i := (i + 1) % eh.queue.capacity
      if i = eh.queue.back then .ok none else scanFrom eh recursive fuel keyAfter i

def clearedCause (startIndex index : ℕ) : Bytes :=
  ascii "the requested history has been cleared [" ++ decimal startIndex ++ ascii "/"
    ++ decimal index ++ ascii "]"

/-- No event is found where the index is of the future. -/
def scan (eh : EventHistory) (key : Bytes) (recursive : Bool) (index : ℕ) :
    Except Panic (Except EtcdError (Option Event)) :=
  if index < eh.startIndex then
    .ok (.error ⟨.eventIndexCleared, clearedCause eh.startIndex index, 0⟩)
  else if index > eh.lastIndex then .ok (.ok none)
  else do
    let offset := index - eh.startIndex
    let e ← eh.scanFrom recursive eh.queue.capacity key
      ((eh.queue.front + offset) % eh.queue.capacity)
    .ok (.ok e)

end EventHistory

end EtcdCompat.V2
