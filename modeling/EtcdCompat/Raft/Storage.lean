import EtcdCompat.Raft.Types

/-!
# The storage in memory

`MemoryStorage` with its first entry apart: `ents0` is `ents[0]`, the dummy that keeps the index
and term the log was cut at, and `ents` is the rest.
-/

namespace EtcdCompat

structure MemoryStorage where
  hardState : HardState := {}
  snapshot : Snapshot := {}
  ents0 : Entry := {}
  ents : List Entry := []
deriving DecidableEq, Repr, Inhabited

namespace MemoryStorage

def initialState (ms : MemoryStorage) : HardState × ConfState :=
  (ms.hardState, ms.snapshot.metadata.confState)

def setHardState (ms : MemoryStorage) (st : HardState) : MemoryStorage :=
  { ms with hardState := st }

def lastIndex (ms : MemoryStorage) : ℕ := ms.ents0.index + ms.ents.length

def firstIndex (ms : MemoryStorage) : ℕ := ms.ents0.index + 1

def entries (ms : MemoryStorage) (lo hi maxSize : ℕ) :
    Except Panic (Except StorageErr (List Entry)) :=
  let offset := ms.ents0.index
  if lo ≤ offset then .ok (.error .compacted)
  else if hi > ms.lastIndex + 1 then .error (.entriesOutOfBound hi ms.lastIndex)
  else if ms.ents = [] then .ok (.error .unavailable)
  else if hi < lo then .error .indexOutOfRange
  else .ok (.ok (limitSize ((ms.ents.drop (lo - offset - 1)).take (hi - lo)) maxSize))

def term (ms : MemoryStorage) (i : ℕ) : Except Panic (Except StorageErr ℕ) :=
  let offset := ms.ents0.index
  if i < offset then .ok (.error .compacted)
  else match (ms.ents0 :: ms.ents)[i - offset]? with
    | none => .error .indexOutOfRange
    | some e => .ok (.ok e.term)

def applySnapshot (ms : MemoryStorage) (snap : Snapshot) : MemoryStorage :=
  { ms with
    snapshot := snap
    ents0 := { term := snap.metadata.term, index := snap.metadata.index }
    ents := [] }

def createSnapshot (ms : MemoryStorage) (i : ℕ) (cs : Option ConfState) (data : Option Bytes) :
    Except Panic (Except StorageErr MemoryStorage) :=
  if i ≤ ms.snapshot.metadata.index then .ok (.error .snapOutOfDate)
  else if i > ms.lastIndex then .error (.snapshotOutOfBound i ms.lastIndex)
  else if i < ms.ents0.index then .error .indexOutOfRange
  else match (ms.ents0 :: ms.ents)[i - ms.ents0.index]? with
    | none => .error .indexOutOfRange
    | some e => .ok (.ok { ms with
        snapshot := {
          data := data
          metadata := {
            confState := cs.getD ms.snapshot.metadata.confState
            index := i
            term := e.term } } })

def compact (ms : MemoryStorage) (compactIndex : ℕ) :
    Except Panic (Except StorageErr MemoryStorage) :=
  let offset := ms.ents0.index
  if compactIndex ≤ offset then .ok (.error .compacted)
  else if compactIndex > ms.lastIndex then .error (.compactOutOfBound compactIndex ms.lastIndex)
  else match ms.ents[compactIndex - offset - 1]? with
    | none => .error .indexOutOfRange
    | some e => .ok (.ok { ms with
        ents0 := { index := e.index, term := e.term }
        ents := ms.ents.drop (compactIndex - offset) })

def fresh (ms : MemoryStorage) (entries : List Entry) (index : ℕ) : List Entry :=
  if ms.firstIndex > index then entries.drop (ms.firstIndex - index) else entries

def append (ms : MemoryStorage) (entries : List Entry) : Except Panic MemoryStorage :=
  match entries with
  | [] => .ok ms
  | e :: _ =>
    if e.index + entries.length - 1 < ms.firstIndex then .ok ms
    else match ms.fresh entries e.index with
      | [] => .error .indexOutOfRange
      | f :: fs =>
        let offset := f.index - ms.ents0.index
        if f.index < ms.ents0.index ∨ ms.ents.length + 1 < offset then
          .error (.missingLogEntry ms.lastIndex f.index)
        else match (ms.ents0 :: ms.ents).take offset ++ f :: fs with
          | [] => .error .indexOutOfRange
          | ents0 :: ents => .ok { ms with ents0 := ents0, ents := ents }

end MemoryStorage

end EtcdCompat
