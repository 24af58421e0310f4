import EtcdCompat.Storage.Store

/-!
# Watchers

`watchableStore`: a store with two groups of watchers. A synced one is sent the events of each
transaction when it ends, an unsynced one what it misses by `syncWatchers`. Whether there is room in
a channel is told by the events of a run, and `sent` has all that was ever put into channels.
-/

namespace EtcdCompat

inductive EventType where
  | put
  | delete
deriving DecidableEq, Repr

structure StorageEvent where
  type : EventType
  kv : KeyValue
deriving DecidableEq, Repr

structure WatchResponse where
  watchID : ℕ
  events : List StorageEvent := []
  revision : ℤ := 0
  compactRevision : ℤ := 0
deriving DecidableEq, Repr

structure Watcher where
  key : Bytes
  stop : Option Bytes
  cur : ℤ
deriving DecidableEq, Repr

inductive WatchPanic where
  | store (f : Fatal)
  | addTwice
  | multipleRevisions
  | curExceedsCurrent
deriving DecidableEq

section Interval

/-- `StringAffineComparable.Compare` being negative: the empty string is above all others. -/
def AffineLt (s sc : Bytes) : Prop := s ≠ [] ∧ (sc = [] ∨ s < sc)

instance (s sc : Bytes) : Decidable (AffineLt s sc) := inferInstanceAs (Decidable (_ ∧ _))

/-- `Interval.Compare` being zero. -/
def Overlaps (start stop start' stop' : Bytes) : Prop :=
  ¬ (AffineLt start start' ∧ ¬ AffineLt start' stop) ∧ AffineLt start stop'

instance (start stop start' stop' : Bytes) : Decidable (Overlaps start stop start' stop') :=
  inferInstanceAs (Decidable (_ ∧ _))

/-- A watcher of the single key, or one with an interval that the key is in. -/
def Watcher.Matches (w : Watcher) (key : Bytes) : Prop :=
  match w.stop with
  | none => key = w.key
  | some stop => Overlaps key (key ++ [0]) w.key stop

instance (w : Watcher) (key : Bytes) : Decidable (w.Matches key) := by
  unfold Watcher.Matches
  cases w.stop <;> infer_instance

end Interval

section Batch

def watchBatchMaxRevs : ℤ := 1000

structure EventBatch where
  evs : List StorageEvent := []
  revs : ℤ := 0
  moreRev : ℤ := 0
deriving DecidableEq, Repr

def EventBatch.add (eb : EventBatch) (ev : StorageEvent) : EventBatch :=
  if eb.revs > watchBatchMaxRevs then eb
  else match eb.evs.getLast? with
    | none => { eb with revs := 1, evs := eb.evs ++ [ev] }
    | some last =>
      let ebRev := last.kv.modRevision
      let evRev := ev.kv.modRevision
      if evRev > ebRev then
        if eb.revs + 1 > watchBatchMaxRevs then { eb with revs := eb.revs + 1, moreRev := evRev }
        else { eb with revs := eb.revs + 1, evs := eb.evs ++ [ev] }
      else { eb with evs := eb.evs ++ [ev] }

abbrev WatcherGroup := OrdMap ℕ Watcher

namespace WatcherGroup

def add (wg : WatcherGroup) (id : ℕ) (wa : Watcher) : Except WatchPanic WatcherGroup :=
  if (wg.find id).isSome then .error .addTwice else .ok (wg.insert id wa)

def contains (wg : WatcherGroup) (key : Bytes) : Bool := wg.entries.any fun e => e.2.Matches key

end WatcherGroup

/-- `newWatcherBatch`, with the loop over the watchers outside of the one over the events. -/
def newWatcherBatch (wg : WatcherGroup) (evs : List StorageEvent) :
    List (ℕ × Watcher × EventBatch) :=
  wg.entries.filterMap fun e =>
    let evs := evs.filter fun ev => e.2.Matches ev.kv.key ∧ ev.kv.modRevision ≥ e.2.cur
    if evs = [] then none else some (e.1, e.2, evs.foldl EventBatch.add {})

/-- The event of a record in the key bucket. -/
def eventOf (e : RevKey × KeyValue) : StorageEvent :=
  if e.1.mark then ⟨.delete, { e.2 with modRevision := e.1.rev.main }⟩ else ⟨.put, e.2⟩

def kvsToEvents (wg : WatcherGroup) (kvs : List (RevKey × KeyValue)) : List StorageEvent :=
  (kvs.filter fun e => wg.contains e.2.key).map eventOf

end Batch

/-- Whether there is room for a response to a watcher, when it is to be told that it is behind a
compaction and when it is to be sent events. -/
structure Room where
  notice : ℕ → Bool
  events : ℕ → Bool

structure Watchers where
  unsynced : WatcherGroup := .empty
  synced : WatcherGroup := .empty
  sent : List WatchResponse := []

namespace Watchers

section Notify

/-- A watcher of `notify`. -/
def notifyOne (rev : ℤ) (room : ℕ → Bool) (ws : Watchers) (b : ℕ × Watcher × EventBatch) :
    Except WatchPanic Watchers :=
  let (id, w, eb) := b
  if eb.revs ≠ 1 then .error .multipleRevisions
  else if room id then
    .ok { ws with sent := ws.sent ++ [{ watchID := id, events := eb.evs, revision := rev }] }
  else do
    let unsynced ← ws.unsynced.add id { w with cur := rev }
    .ok { ws with unsynced, synced := ws.synced.erase id }

/-- `notify`, where the store is at the given revision. -/
def notify (ws : Watchers) (rev : ℤ) (evs : List StorageEvent) (room : ℕ → Bool) :
    Except WatchPanic Watchers :=
  (newWatcherBatch ws.synced evs).foldlM (notifyOne rev room) ws

end Notify

section Sync

def maxInt64 : ℤ := 9223372036854775807

/-- A watcher of `scanMinRev`. -/
def scanOne (curRev compactRev : ℤ) (room : ℕ → Bool) (acc : ℤ × Watchers) (e : ℕ × Watcher) :
    Except WatchPanic (ℤ × Watchers) :=
  let (minRev, ws) := acc
  let (id, w) := e
  if w.cur > curRev then .error .curExceedsCurrent
  else if w.cur < compactRev then
    -- one that cannot be told is tried again next time
    if room id then .ok (minRev, { ws with
      unsynced := ws.unsynced.erase id
      sent := ws.sent ++ [{ watchID := id, compactRevision := compactRev }] })
    else .ok (minRev, ws)
  else .ok (if minRev > w.cur then w.cur else minRev, ws)

def scanMinRev (ws : Watchers) (curRev compactRev : ℤ) (room : ℕ → Bool) :
    Except WatchPanic (ℤ × Watchers) :=
  ws.unsynced.entries.foldlM (scanOne curRev compactRev room) (maxInt64, ws)

/-- Brings a watcher to the synced ones. -/
def bring (curRev : ℤ) (ws : Watchers) (id : ℕ) (w : Watcher) : Except WatchPanic Watchers := do
  let synced ← ws.synced.add id { w with cur := curRev }
  .ok { ws with synced, unsynced := ws.unsynced.erase id }

/-- A watcher of `syncWatchers` that has events. -/
def syncOne (curRev : ℤ) (room : ℕ → Bool) (ws : Watchers) (b : ℕ × Watcher × EventBatch) :
    Except WatchPanic Watchers :=
  let (id, w, eb) := b
  if room id then
    let ws := { ws with
      sent := ws.sent ++ [{ watchID := id, events := eb.evs, revision := curRev }] }
    if eb.moreRev ≠ 0 then
      .ok { ws with unsynced := ws.unsynced.insert id { w with cur := eb.moreRev } }
    else bring curRev ws id w
  else .ok ws

def revRange (s : Store) (minRev curRev : ℤ) : List (RevKey × KeyValue) :=
  s.keyBucket.slice ⟨⟨minRev, 0⟩, false⟩ ⟨⟨curRev + 1, 0⟩, false⟩

def syncWatchers (s : Store) (room : Room) (ws : Watchers) : Except WatchPanic Watchers :=
  if ws.unsynced.entries = [] then .ok ws
  else do
    let curRev := s.currentRev.main
    let (minRev, ws) ← ws.scanMinRev curRev s.compactMainRev room.notice
    let evs := kvsToEvents ws.unsynced (revRange s minRev curRev)
    let wb := newWatcherBatch ws.unsynced evs
    let ws ← wb.foldlM (syncOne curRev room.events) ws
    -- bring all un-notified watchers to synced
    (ws.unsynced.entries.filter fun e => e.1 ∉ wb.map (·.1)).foldlM
      (fun ws e => bring curRev ws e.1 e.2) ws

end Sync

end Watchers

structure WatchableStore where
  store : Store := {}
  watchers : Watchers := {}
  nextID : ℕ := 0

namespace WatchableStore

/-- The event of a change of a transaction that ended at a revision. -/
def changeEvent (rev : ℤ) (change : KeyValue) : StorageEvent :=
  if change.createRevision = 0 then ⟨.delete, { change with modRevision := rev }⟩
  else ⟨.put, change⟩

def txn (s : WatchableStore) (ops : List Store.Op) (room : ℕ → Bool) :
    Except WatchPanic WatchableStore :=
  match s.store.txn ops with
  | .error f => .error (.store f)
  | .ok store =>
    -- `getChanges`
    let changes := store.changes
    let store := { store with changes := [] }
    if changes = [] then .ok { s with store }
    else do
      let rev := store.currentRev.main
      let watchers ← s.watchers.notify rev (changes.map (changeEvent rev)) room
      .ok { s with store, watchers }

def watch (s : WatchableStore) (key : Bytes) (stop : Option Bytes) (startRev : ℤ) :
    Except WatchPanic WatchableStore :=
  let currentRev := s.store.currentRev.main
  let ws := s.watchers
  if startRev > currentRev ∨ startRev = 0 then do
    let cur := if startRev > currentRev + 1 then startRev else currentRev + 1
    let synced ← ws.synced.add s.nextID ⟨key, stop, cur⟩
    .ok { s with watchers := { ws with synced }, nextID := s.nextID + 1 }
  else do
    let unsynced ← ws.unsynced.add s.nextID ⟨key, stop, startRev⟩
    .ok { s with watchers := { ws with unsynced }, nextID := s.nextID + 1 }

/-- The `cancelFunc` of a watcher. -/
def cancel (s : WatchableStore) (id : ℕ) : WatchableStore :=
  { s with watchers := { s.watchers with
      unsynced := s.watchers.unsynced.erase id, synced := s.watchers.synced.erase id } }

def progress (s : WatchableStore) (id : ℕ) (room : Bool) : WatchableStore :=
  if (s.watchers.synced.find id).isSome ∧ room then
    { s with watchers := { s.watchers with
        sent := s.watchers.sent ++ [{ watchID := id, revision := s.store.currentRev.main }] } }
  else s

inductive Event where
  | txn (ops : List Store.Op) (room : ℕ → Bool)
  -- a compaction, a batch of one, or a change of the lessor
  | compact (rev : ℤ)
  | batch
  | lessor (le : Lessor)
  | watch (key : Bytes) (stop : Option Bytes) (startRev : ℤ)
  | cancel (id : ℕ)
  | sync (room : Room)
  | progress (id : ℕ) (room : Bool)
  -- `Restore` from a backend
  | restore (keyBucket : OrdMap RevKey KeyValue) (scheduledCompact finishedCompact : Option ℤ)

/-- What an event does to the store alone. -/
def storeStep (s : WatchableStore) (ev : Store.Event) : Except WatchPanic WatchableStore :=
  match s.store.step ev with
  | .error f => .error (.store f)
  | .ok store => .ok { s with store }

def step (s : WatchableStore) : Event → Except WatchPanic WatchableStore
  | .txn ops room => s.txn ops room
  | .compact rev => s.storeStep (.compact rev)
  | .batch => s.storeStep .batch
  | .lessor le => s.storeStep (.lessor le)
  | .watch key stop startRev => s.watch key stop startRev
  | .cancel id => .ok (s.cancel id)
  | .sync room => do
    let watchers ← s.watchers.syncWatchers s.store room
    .ok { s with watchers }
  | .progress id room => .ok (s.progress id room)
  | .restore keyBucket scheduledCompact finishedCompact =>
    -- the watchers are left as they are
    match Store.newStore keyBucket scheduledCompact finishedCompact s.store.le with
    | .error f => .error (.store f)
    | .ok (store, _) => .ok { s with store }

def run (le : Option Lessor) (evs : List Event) : Except WatchPanic WatchableStore :=
  evs.foldlM step { store := { le } }

def sentTo (s : WatchableStore) (id : ℕ) : List WatchResponse :=
  s.watchers.sent.filter fun r => r.watchID = id

end WatchableStore

end EtcdCompat
