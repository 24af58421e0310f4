import EtcdCompat.Basic
import Mathlib.Order.Basic

/-!
# Entries, messages and what stops a node

The records of `raftpb`, with `0` for the absent node `None`. Terms, indices and node ids are
natural numbers. A node stops with a `Panic`, one constructor for each place the code panics.
-/

namespace EtcdCompat

inductive EntryType where
  | normal
  | confChange
deriving DecidableEq, Repr

structure Entry where
  type : EntryType := .normal
  term : ℕ := 0
  index : ℕ := 0
  /-- `none` is the nil slice. -/
  data : Option Bytes := none
deriving DecidableEq, Repr, Inhabited

inductive ConfChangeType where
  | addNode
  | removeNode
  | updateNode
deriving DecidableEq, Repr

structure ConfChange where
  type : ConfChangeType
  nodeID : ℕ
deriving DecidableEq, Repr

structure ConfState where
  nodes : List ℕ := []
deriving DecidableEq, Repr, Inhabited

structure SnapshotMetadata where
  confState : ConfState := {}
  index : ℕ := 0
  term : ℕ := 0
deriving DecidableEq, Repr, Inhabited

structure Snapshot where
  data : Option Bytes := none
  metadata : SnapshotMetadata := {}
deriving DecidableEq, Repr, Inhabited

structure HardState where
  term : ℕ := 0
  vote : ℕ := 0
  commit : ℕ := 0
deriving DecidableEq, Repr, Inhabited

inductive MessageType where
  | hup
  | beat
  | prop
  | app
  | appResp
  | vote
  | voteResp
  | snap
  | heartbeat
  | heartbeatResp
  | unreachable
  | snapStatus
  | checkQuorum
deriving DecidableEq, Repr

structure Message where
  type : MessageType
  to_ : ℕ := 0
  from_ : ℕ := 0
  term : ℕ := 0
  logTerm : ℕ := 0
  index : ℕ := 0
  entries : List Entry := []
  commit : ℕ := 0
  snapshot : Snapshot := {}
  reject : Bool := false
  rejectHint : ℕ := 0
deriving DecidableEq, Repr

inductive StorageErr where
  | compacted
  | snapOutOfDate
  | unavailable
deriving DecidableEq, Repr

inductive Panic where
  -- raftLog
  | conflictWithCommitted (ci committed : ℕ)
  | afterOutOfRange (after committed : ℕ)
  | tocommitOutOfRange (tocommit lastIndex : ℕ)
  | appliedOutOfRange (i prevApplied committed : ℕ)
  | invalidSlice (lo hi : ℕ)
  | sliceOutOfBound (lo hi : ℕ)
  | unavailable (lo hi : ℕ)
  | nextEnts
  | lastTerm
  | storage (e : StorageErr)
  -- unstable
  | invalidUnstableSlice (lo hi : ℕ)
  | unstableSliceOutOfBound (lo hi : ℕ)
  -- MemoryStorage
  | entriesOutOfBound (hi lastIndex : ℕ)
  | snapshotOutOfBound (i lastIndex : ℕ)
  | compactOutOfBound (i lastIndex : ℕ)
  | missingLogEntry (last index : ℕ)
  -- raft
  | invalidConfig
  | peersAndConfState
  | inflightsFull
  | needNonEmptySnapshot
  | unhandledState
  | leaderToCandidate
  | followerToLeader
  | uncommittedEntries
  | doubleConfEntry
  | emptyProp
  | stateOutOfRange (commit lo hi : ℕ)
  -- a failed check of the runtime
  | indexOutOfRange
  | nilDereference
deriving DecidableEq, Repr

def isEmptySnap (sp : Snapshot) : Bool := sp.metadata.index == 0

def isEmptyHardState (st : HardState) : Bool := st == {}

def isLocalMsg (m : Message) : Bool :=
  match m.type with
  | .hup | .beat | .unreachable | .snapStatus | .checkQuorum => true
  | _ => false

def isResponseMsg (m : Message) : Bool :=
  match m.type with
  | .appResp | .voteResp | .heartbeatResp | .unreachable => true
  | _ => false

/-- The bytes of a varint, seven bits each: ten of them hold a `uint64`. -/
def sovFrom : ℕ → ℕ → ℕ
  | 0, _ => 0
  | n + 1, x => if x >>> 7 = 0 then 1 else sovFrom n (x >>> 7) + 1

def sovRaft (x : ℕ) : ℕ := sovFrom 10 x

namespace Entry

/-- `Entry.Size`, of the encoded entry. -/
def size (e : Entry) : ℕ :=
  1 + sovRaft (match e.type with | .normal => 0 | .confChange => 1) + (1 + sovRaft e.term) +
    (1 + sovRaft e.index) +
    match e.data with
    | none => 0
    | some d => 1 + d.length + sovRaft d.length

end Entry

/-- `math.MaxUint64`. -/
def noLimit : ℕ := 18446744073709551615

/-- The sum of the sizes is an `int`, compared as a `uint64`. -/
def limitFrom (maxSize : ℕ) : List Entry → ℕ → List Entry
  | [], _ => []
  | e :: ents, size =>
    if (size + e.size) % (noLimit + 1) > maxSize then []
    else e :: limitFrom maxSize ents (size + e.size)

/-- `limitSize`: at least one entry, and as many as fit. -/
def limitSize (ents : List Entry) (maxSize : ℕ) : List Entry :=
  match ents with
  | [] => []
  | e :: rest => e :: limitFrom maxSize rest e.size

theorem limitFrom_isPrefix (maxSize : ℕ) :
    ∀ (ents : List Entry) (size : ℕ), limitFrom maxSize ents size <+: ents
  | [], _ => List.prefix_rfl
  | e :: ents, size => by
    rw [limitFrom]
    split
    · exact List.nil_prefix
    · exact List.cons_prefix_cons.2 ⟨rfl, limitFrom_isPrefix maxSize ents _⟩

theorem limitSize_isPrefix (ents : List Entry) (maxSize : ℕ) : limitSize ents maxSize <+: ents := by
  cases ents with
  | nil => exact List.prefix_rfl
  | cons e rest => exact List.cons_prefix_cons.2 ⟨rfl, limitFrom_isPrefix maxSize rest _⟩

theorem limitFrom_noLimit :
    ∀ (ents : List Entry) (size : ℕ), limitFrom noLimit ents size = ents
  | [], _ => rfl
  | e :: ents, size => by
    have : (size + e.size) % (noLimit + 1) < noLimit + 1 := Nat.mod_lt _ (Nat.succ_pos _)
    rw [limitFrom, if_neg (by omega), limitFrom_noLimit ents]

theorem limitSize_noLimit (ents : List Entry) : limitSize ents noLimit = ents := by
  cases ents with
  | nil => rfl
  | cons e rest => rw [limitSize, limitFrom_noLimit]

theorem limitSize_ne_nil {ents : List Entry} (h : ents ≠ []) (maxSize : ℕ) :
    limitSize ents maxSize ≠ [] := by
  cases ents with
  | nil => exact absurd rfl h
  | cons e rest => exact List.cons_ne_nil _ _

end EtcdCompat
