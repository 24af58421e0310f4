import EtcdCompat.Raft.Storage

/-!
# The log of a node

`Unstable` holds the entries and the snapshot not yet written to the storage, `RaftLog` is the log
the node sees: the storage up to `offset`, the unstable entries from there.
-/

namespace EtcdCompat

structure Unstable where
  snapshot : Option Snapshot := none
  entries : List Entry := []
  offset : ℕ := 0
deriving DecidableEq, Repr, Inhabited

namespace Unstable

def maybeFirstIndex (u : Unstable) : Option ℕ := u.snapshot.map (·.metadata.index + 1)

def maybeLastIndex (u : Unstable) : Option ℕ :=
  if u.entries.length ≠ 0 then some (u.offset + u.entries.length - 1)
  else u.snapshot.map (·.metadata.index)

def maybeTerm (u : Unstable) (i : ℕ) : Except Panic (Option ℕ) :=
  if i < u.offset then
    match u.snapshot with
    | none => .ok none
    | some s => .ok (if s.metadata.index = i then some s.metadata.term else none)
  else match u.maybeLastIndex with
    | none => .ok none
    | some last =>
      if i > last then .ok none
      else match u.entries[i - u.offset]? with
        | none => .error .indexOutOfRange
        | some e => .ok (some e.term)

def stableTo (u : Unstable) (i t : ℕ) : Except Panic Unstable := do
  match ← u.maybeTerm i with
  | none => return u
  | some gt =>
    if gt = t ∧ i ≥ u.offset then
      return { u with entries := u.entries.drop (i + 1 - u.offset), offset := i + 1 }
    else return u

def stableSnapTo (u : Unstable) (i : ℕ) : Unstable :=
  match u.snapshot with
  | none => u
  | some s => if s.metadata.index = i then { u with snapshot := none } else u

def restore (_ : Unstable) (s : Snapshot) : Unstable :=
  { offset := s.metadata.index + 1, entries := [], snapshot := some s }

def mustCheckOutOfBounds (u : Unstable) (lo hi : ℕ) : Except Panic Unit :=
  if lo > hi then .error (.invalidUnstableSlice lo hi)
  else if lo < u.offset ∨ hi > u.offset + u.entries.length then
    .error (.unstableSliceOutOfBound lo hi)
  else .ok ()

def slice (u : Unstable) (lo hi : ℕ) : Except Panic (List Entry) := do
  u.mustCheckOutOfBounds lo hi
  return (u.entries.drop (lo - u.offset)).take (hi - lo)

def truncateAndAppend (u : Unstable) (ents : List Entry) : Except Panic Unstable :=
  match ents with
  | [] => .error .indexOutOfRange
  | e :: _ =>
    -- `after` is `e.index - 1`, which wraps around for the index zero
    if e.index = 0 then .error (.invalidUnstableSlice u.offset 0)
    else if e.index = u.offset + u.entries.length then
      .ok { u with entries := u.entries ++ ents }
    else if e.index - 1 < u.offset then .ok { u with offset := e.index, entries := ents }
    else do
      let kept ← u.slice u.offset e.index
      return { u with entries := kept ++ ents }

end Unstable

structure RaftLog where
  storage : MemoryStorage := {}
  unstable : Unstable := {}
  committed : ℕ := 0
  applied : ℕ := 0
deriving DecidableEq, Repr, Inhabited

def newLog (storage : MemoryStorage) : RaftLog :=
  { storage := storage
    unstable := { offset := storage.lastIndex + 1 }
    committed := storage.firstIndex - 1
    applied := storage.firstIndex - 1 }

namespace RaftLog

def firstIndex (l : RaftLog) : ℕ := (l.unstable.maybeFirstIndex).getD l.storage.firstIndex

def lastIndex (l : RaftLog) : ℕ := (l.unstable.maybeLastIndex).getD l.storage.lastIndex

def term (l : RaftLog) (i : ℕ) : Except Panic (Except StorageErr ℕ) := do
  let dummyIndex := l.firstIndex - 1
  if i < dummyIndex ∨ i > l.lastIndex then return .ok 0
  match ← l.unstable.maybeTerm i with
  | some t => return .ok t
  | none =>
    match ← l.storage.term i with
    | .ok t => return .ok t
    | .error .compacted => return .error .compacted
    | .error e => throw (.storage e)

def zeroTermOnErrCompacted (r : Except StorageErr ℕ) : Except Panic ℕ :=
  match r with
  | .ok t => .ok t
  | .error .compacted => .ok 0
  | .error e => .error (.storage e)

def lastTerm (l : RaftLog) : Except Panic ℕ := do
  match ← l.term l.lastIndex with
  | .ok t => return t
  | .error _ => throw .lastTerm

def matchTerm (l : RaftLog) (i term : ℕ) : Except Panic Bool := do
  match ← l.term i with
  | .ok t => return t == term
  | .error _ => return false

def isUpToDate (l : RaftLog) (lasti term : ℕ) : Except Panic Bool := do
  let t ← l.lastTerm
  return decide (term > t) || (term == t && decide (lasti ≥ l.lastIndex))

def findConflict (l : RaftLog) : List Entry → Except Panic ℕ
  | [] => .ok 0
  | ne :: ents => do
    if ← l.matchTerm ne.index ne.term then l.findConflict ents else return ne.index

def append (l : RaftLog) (ents : List Entry) : Except Panic RaftLog :=
  match ents with
  | [] => .ok l
  | e :: _ =>
    if e.index ≠ 0 ∧ e.index - 1 < l.committed then
      .error (.afterOutOfRange (e.index - 1) l.committed)
    else do
      let u ← l.unstable.truncateAndAppend ents
      return { l with unstable := u }

def commitTo (l : RaftLog) (tocommit : ℕ) : Except Panic RaftLog :=
  if l.committed < tocommit then
    if l.lastIndex < tocommit then .error (.tocommitOutOfRange tocommit l.lastIndex)
    else .ok { l with committed := tocommit }
  else .ok l

def sliceFrom (ents : List Entry) (k : ℕ) : Except Panic (List Entry) :=
  if k > ents.length then .error .indexOutOfRange else .ok (ents.drop k)

/-- The part of `maybeAppend` that takes over the entries from the first conflict on. -/
def appendFrom (l : RaftLog) (index : ℕ) (ents : List Entry) : Except Panic RaftLog := do
  let ci ← l.findConflict ents
  if ci = 0 then return l
  else if ci ≤ l.committed then throw (.conflictWithCommitted ci l.committed)
  else if ci < index + 1 then throw .indexOutOfRange
  else l.append (← sliceFrom ents (ci - (index + 1)))

/-- `none` if the entries cannot be appended, otherwise the last index of the new entries. -/
def maybeAppend (l : RaftLog) (index logTerm committed : ℕ) (ents : List Entry) :
    Except Panic (Option (ℕ × RaftLog)) := do
  let lastnewi := index + ents.length
  if ← l.matchTerm index logTerm then
    let l ← l.appendFrom index ents
    let l ← l.commitTo (min committed lastnewi)
    return some (lastnewi, l)
  else return none

def unstableEntries (l : RaftLog) : List Entry := l.unstable.entries

def mustCheckOutOfBounds (l : RaftLog) (lo hi : ℕ) : Except Panic (Except StorageErr Unit) :=
  if lo > hi then .error (.invalidSlice lo hi)
  else if lo < l.firstIndex then .ok (.error .compacted)
  else if hi > l.firstIndex + (l.lastIndex + 1 - l.firstIndex) then
    .error (.sliceOutOfBound lo hi)
  else .ok (.ok ())

/-- The entries of a slice that lie in the storage. -/
def storedSlice (l : RaftLog) (lo hi maxSize : ℕ) :
    Except Panic (Except StorageErr (List Entry)) := do
  if lo < l.unstable.offset then
    match ← l.storage.entries lo (min hi l.unstable.offset) maxSize with
    | .ok ents => return .ok ents
    | .error .compacted => return .error .compacted
    | .error .unavailable => throw (.unavailable lo (min hi l.unstable.offset))
    | .error e => throw (.storage e)
  else return .ok []

def slice (l : RaftLog) (lo hi maxSize : ℕ) : Except Panic (Except StorageErr (List Entry)) := do
  match ← l.mustCheckOutOfBounds lo hi with
  | .error e => return .error e
  | .ok () =>
    if lo = hi then return .ok []
    match ← l.storedSlice lo hi maxSize with
    | .error e => return .error e
    | .ok ents =>
      -- the storage stopped at the size limit
      if lo < l.unstable.offset ∧ ents.length < min hi l.unstable.offset - lo then
        return .ok ents
      if hi > l.unstable.offset then
        let unstable ← l.unstable.slice (max lo l.unstable.offset) hi
        return .ok (limitSize (ents ++ unstable) maxSize)
      return .ok (limitSize ents maxSize)

def entries (l : RaftLog) (i maxsize : ℕ) : Except Panic (Except StorageErr (List Entry)) :=
  if i > l.lastIndex then .ok (.ok []) else l.slice i (l.lastIndex + 1) maxsize

def nextEnts (l : RaftLog) : Except Panic (List Entry) := do
  let off := max (l.applied + 1) l.firstIndex
  if l.committed + 1 > off then
    match ← l.slice off (l.committed + 1) noLimit with
    | .ok ents => return ents
    | .error _ => throw .nextEnts
  else return []

def snapshot (l : RaftLog) : Snapshot := l.unstable.snapshot.getD l.storage.snapshot

def appliedTo (l : RaftLog) (i : ℕ) : Except Panic RaftLog :=
  if i = 0 then .ok l
  else if l.committed < i ∨ i < l.applied then
    .error (.appliedOutOfRange i l.applied l.committed)
  else .ok { l with applied := i }

def stableTo (l : RaftLog) (i t : ℕ) : Except Panic RaftLog := do
  let u ← l.unstable.stableTo i t
  return { l with unstable := u }

def stableSnapTo (l : RaftLog) (i : ℕ) : RaftLog :=
  { l with unstable := l.unstable.stableSnapTo i }

def maybeCommit (l : RaftLog) (maxIndex term : ℕ) : Except Panic (Bool × RaftLog) := do
  if maxIndex > l.committed then
    let t ← zeroTermOnErrCompacted (← l.term maxIndex)
    if t = term then
      let l ← l.commitTo maxIndex
      return (true, l)
    else return (false, l)
  else return (false, l)

def restore (l : RaftLog) (s : Snapshot) : RaftLog :=
  { l with committed := s.metadata.index, unstable := l.unstable.restore s }

end RaftLog

end EtcdCompat
