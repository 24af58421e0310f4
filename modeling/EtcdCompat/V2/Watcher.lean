import Mathlib.Logic.Function.Basic
import EtcdCompat.V2.Event

/-!
# Watchers of the v2 store

The hub has the watchers by the path they watch, in the order they came. The channel of a watcher
has a buffer of a hundred events. One that is not for a stream goes after its first event, and one
whose buffer is full is dropped.
-/

namespace EtcdCompat.V2

open GoPath

structure Watcher where
  eventChan : List Event := []
  closed : Bool := false
  stream : Bool
  recursive : Bool
  sinceIndex : ℕ
  startIndex : ℕ
  removed : Bool := false
  -- the path of the list that `remove` takes it from, if it has one
  remove : Option Bytes := none

def eventChanSize : ℕ := 100

structure WatcherHub where
  count : ℤ := 0
  watchers : Bytes → List ℕ := fun _ => []
  table : List Watcher := []
  eventHistory : EventHistory

def newWatchHub (capacity : ℕ) : WatcherHub where
  eventHistory := newEventHistory capacity

/-- Whether a key is hidden from a watcher of a path above it. -/
def isHidden (watchPath keyPath : Bytes) : Bool :=
  if watchPath.length > keyPath.length then false
  else
    let afterPath := clean (slash :: keyPath.drop watchPath.length)
    contains [slash, 95] afterPath

namespace WatcherHub

def setWatcher (wh : WatcherHub) (id : ℕ) (w : Watcher) : WatcherHub :=
  { wh with table := wh.table.set id w }

/-- `l.Remove` for the list of a path. An empty list is no list. -/
def takeOff (wh : WatcherHub) (path : Bytes) (id : ℕ) : WatcherHub :=
  { wh with watchers := Function.update wh.watchers path ((wh.watchers path).erase id) }

/-- The function `w.remove`; it is a nil pointer for a watcher that was answered from history. -/
def callRemove (wh : WatcherHub) (id : ℕ) (w : Watcher) : Except Panic WatcherHub :=
  match w.remove with
  | none => .error .nilDereference
  | some path =>
    if w.removed then .ok wh
    else
      let wh := wh.setWatcher id { w with removed := true }
      .ok { wh.takeOff path id with count := wh.count - 1 }

/-- `watcher.notify`, and whether the watcher is interested. -/
def notifyWatcher (wh : WatcherHub) (id : ℕ) (w : Watcher) (e : Event)
    (originalPath deleted : Bool) : Except Panic (WatcherHub × Bool) :=
  if (w.recursive || originalPath || deleted) ∧ e.index ≥ w.sinceIndex then
    if w.closed then .error .sendOnClosedChannel
    else if w.eventChan.length < eventChanSize then
      .ok (wh.setWatcher id { w with eventChan := w.eventChan ++ [e] }, true)
    else do
      let wh ← wh.callRemove id w
      .ok (wh, true)
  else .ok (wh, false)

/-- One watcher of the list in `notifyWatchers`. -/
def notifyOne (e : Event) (nodePath : Bytes) (deleted : Bool) (wh : WatcherHub) (id : ℕ) :
    Except Panic WatcherHub :=
  match wh.table[id]? with
  | none => .error .nilDereference
  | some w =>
    let originalPath := e.node.key = nodePath
    if originalPath ∨ ¬ isHidden nodePath e.node.key then do
      let (wh, interested) ← wh.notifyWatcher id w e originalPath deleted
      if interested ∧ ¬ w.stream then
        -- the watcher as the notification left it
        let w := wh.table.getD id w
        let wh := wh.setWatcher id { w with removed := true }
        .ok { wh.takeOff nodePath id with count := wh.count - 1 }
      else .ok wh
    else .ok wh

def notifyWatchers (wh : WatcherHub) (e : Event) (nodePath : Bytes) (deleted : Bool) :
    Except Panic WatcherHub :=
  (wh.watchers nodePath).foldlM (notifyOne e nodePath deleted) wh

def add (wh : WatcherHub) (e : Event) : Except Panic WatcherHub := do
  let eventHistory ← wh.eventHistory.addEvent e
  .ok { wh with eventHistory }

/-- The loop of `notify` over the segments of the key. -/
def notifyAlong (e : Event) : WatcherHub → Bytes → List Bytes → Except Panic WatcherHub
  | wh, _, [] => .ok wh
  | wh, currPath, segment :: rest => do
    let currPath := join currPath segment
    let wh ← wh.notifyWatchers e currPath false
    notifyAlong e wh currPath rest

def notify (wh : WatcherHub) (e : Event) : Except Panic WatcherHub := do
  let wh ← wh.add e
  notifyAlong e wh [slash] (segments slash e.node.key)

/-- The watcher is found in the table at the address returned. -/
def watch (wh : WatcherHub) (key : Bytes) (recursive stream : Bool) (index storeIndex : ℕ) :
    Except Panic (WatcherHub × Except EtcdError ℕ) := do
  match ← wh.eventHistory.scan key recursive index with
  | .error err => .ok (wh, .error { err with index := storeIndex })
  | .ok event =>
    let id := wh.table.length
    let w : Watcher := { stream, recursive, sinceIndex := index, startIndex := storeIndex }
    match event with
    | some event =>
      let ne := { event.clone with etcdIndex := storeIndex }
      .ok ({ wh with table := wh.table ++ [{ w with eventChan := [ne] }] }, .ok id)
    | none =>
      let wh := { wh with
        table := wh.table ++ [{ w with remove := some key }]
        watchers := Function.update wh.watchers key (wh.watchers key ++ [id])
        count := wh.count + 1 }
      .ok (wh, .ok id)

def remove (wh : WatcherHub) (id : ℕ) : Except Panic WatcherHub :=
  match wh.table[id]? with
  | none => .error .nilDereference
  | some w =>
    if w.closed then .error .closeOfClosedChannel
    else
      let w := { w with closed := true }
      let wh := wh.setWatcher id w
      if w.remove.isSome then wh.callRemove id w else .ok wh

/-- The consumer takes the next event off the channel, if there is one. -/
def receive (wh : WatcherHub) (id : ℕ) : WatcherHub × Option Event :=
  match wh.table[id]? with
  | none => (wh, none)
  | some w => match w.eventChan with
    | [] => (wh, none)
    | e :: rest => (wh.setWatcher id { w with eventChan := rest }, some e)

end WatcherHub

end EtcdCompat.V2
