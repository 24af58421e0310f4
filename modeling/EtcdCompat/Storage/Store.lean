import EtcdCompat.Storage.Index

/-!
# The store

`store` over the two buckets of its backend: the key bucket maps revisions to key-value pairs, the
meta bucket holds the revisions of the last compaction scheduled and finished. Transactions and the
batches of compaction jobs exclude each other: a run of the store is a sequence of `Event`s.
-/

namespace EtcdCompat

structure KeyValue where
  key : Bytes := []
  createRevision : ℤ := 0
  modRevision : ℤ := 0
  version : ℤ := 0
  value : Bytes := []
  lease : ℤ := 0
deriving DecidableEq, Repr, Inhabited

/-- The leases a lessor knows, with the keys attached to each. -/
abbrev Lessor := OrdMap ℤ (List Bytes)

namespace Lessor

/-- `lessor.Attach` of one key, `none` for `ErrLeaseNotFound`. -/
def attach (le : Lessor) (id : ℤ) (key : Bytes) : Option Lessor :=
  (le.find id).map fun items => le.insert id (if key ∈ items then items else key :: items)

/-- `lessor.Detach` of one key, `none` for `ErrLeaseNotFound`. -/
def detach (le : Lessor) (id : ℤ) (key : Bytes) : Option Lessor :=
  (le.find id).map fun items => le.insert id (items.filter (· ≠ key))

end Lessor

def NoLease : ℤ := 0

inductive StoreError where
  | errCompacted
  | errFutureRev
deriving DecidableEq, Repr

/-- A compaction job: what `scheduleCompaction` was called with, and its `last`. -/
structure Job where
  compactMainRev : ℤ
  keep : List Revision
  last : RevKey := ⟨⟨0, 0⟩, false⟩
deriving DecidableEq, Repr

structure Store where
  keyBucket : OrdMap RevKey KeyValue := .empty
  scheduledCompact : Option ℤ := none
  finishedCompact : Option ℤ := none
  kvindex : TreeIndex := .empty
  le : Option Lessor := none
  currentRev : Revision := ⟨1, 0⟩
  compactMainRev : ℤ := -1
  changes : List KeyValue := []
  fifoSched : List Job := []
deriving DecidableEq

namespace Store

/-- `le.Detach` where the store panics without a lessor and on its errors. -/
def detachLease (le : Option Lessor) (id : ℤ) (key : Bytes) : Except Fatal (Option Lessor) :=
  if id = NoLease then .ok le
  else match le.bind fun le => le.detach id key with
    | none => .error .lease
    | some le => .ok (some le)

/-- `le.Attach` where the store panics without a lessor and on its errors. -/
def attachLease (le : Option Lessor) (id : ℤ) (key : Bytes) : Except Fatal (Option Lessor) :=
  if id = NoLease then .ok le
  else match le.bind fun le => le.attach id key with
    | none => .error .lease
    | some le => .ok (some le)

/-- What `store.put` takes from the key as it is before: when it was created, its version and the
lease it has. -/
def putBase (s : Store) (key : Bytes) : Except Fatal (ℤ × ℤ × ℤ) := do
  let rev := s.currentRev.main + 1
  match ← s.kvindex.get key rev with
  | none => .ok (rev, 0, NoLease)
  | some (grev, created, ver) => match s.keyBucket.find ⟨grev, false⟩ with
    | none => .error .indexOutOfRange
    | some kv => .ok (created.main, ver, kv.lease)

def put (s : Store) (key value : Bytes) (leaseID : ℤ) : Except Fatal Store := do
  let rev : Revision := ⟨s.currentRev.main + 1, s.currentRev.sub⟩
  let (c, ver, oldLease) ← s.putBase key
  let kv : KeyValue := ⟨key, c, rev.main, ver + 1, value, leaseID⟩
  let kvindex ← s.kvindex.put key rev
  let s := { s with
    keyBucket := s.keyBucket.insert ⟨rev, false⟩ kv
    kvindex := kvindex
    changes := s.changes ++ [kv]
    currentRev := ⟨s.currentRev.main, s.currentRev.sub + 1⟩ }
  let le ← detachLease s.le oldLease key
  let le ← attachLease le leaseID key
  .ok { s with le }

def delete (s : Store) (key : Bytes) (rev : Revision) : Except Fatal Store := do
  let mainrev : Revision := ⟨s.currentRev.main + 1, s.currentRev.sub⟩
  let kv : KeyValue := { key := key }
  match ← s.kvindex.tombstone key mainrev with
  | none => .error (.cannotTombstone key)
  | some kvindex =>
    let s := { s with
      keyBucket := s.keyBucket.insert ⟨mainrev, true⟩ kv
      kvindex := kvindex
      changes := s.changes ++ [kv]
      currentRev := ⟨s.currentRev.main, s.currentRev.sub + 1⟩ }
    match s.keyBucket.find ⟨rev, false⟩ with
    | none => .error .indexOutOfRange
    | some kv => do
      let le ← detachLease s.le kv.lease kv.key
      .ok { s with le }

def deleteRange (s : Store) (key : Bytes) (stop : Option Bytes) : Except Fatal Store := do
  let rrev := if s.currentRev.sub > 0 then s.currentRev.main + 1 else s.currentRev.main
  let keys ← s.kvindex.range key stop rrev
  keys.foldlM (fun s item => s.delete item.1 item.2) s

def revBytesRange (rev : Revision) : RevKey × RevKey :=
  (⟨rev, false⟩, ⟨⟨rev.main, rev.sub + 1⟩, false⟩)

/-- The loop of `rangeKeys` over the revisions found, with what it has appended so far. -/
def readKeys (bucket : OrdMap RevKey KeyValue) (limit : ℤ) :
    List KeyValue → List Revision → Except Fatal (List KeyValue)
  | kvs, [] => .ok kvs
  | kvs, rev :: revs =>
    match bucket.slice (revBytesRange rev).1 (revBytesRange rev).2 with
    | [(_, kv)] =>
      if limit > 0 ∧ (kvs ++ [kv]).length ≥ limit then .ok (kvs ++ [kv])
      else readKeys bucket limit (kvs ++ [kv]) revs
    | _ => .error (.cannotFindRev rev.main rev.sub)

structure RangeResult where
  kvs : List KeyValue
  rev : ℤ
  err : Option StoreError := none
deriving DecidableEq, Repr

def rangeKeys (s : Store) (key : Bytes) (stop : Option Bytes) (limit rangeRev : ℤ) :
    Except Fatal RangeResult :=
  let curRev := if s.currentRev.sub > 0 then s.currentRev.main + 1 else s.currentRev.main
  if rangeRev > curRev then .ok ⟨[], s.currentRev.main, some .errFutureRev⟩
  else
    let rev := if rangeRev ≤ 0 then curRev else rangeRev
    if rev ≤ s.compactMainRev then .ok ⟨[], 0, some .errCompacted⟩
    else do
      let keys ← s.kvindex.range key stop rev
      let kvs ← readKeys s.keyBucket limit [] (keys.map (·.2))
      .ok ⟨kvs, curRev, none⟩

def txnBegin (s : Store) : Store := { s with currentRev := ⟨s.currentRev.main, 0⟩ }

def txnEnd (s : Store) : Store :=
  { s with currentRev :=
      ⟨if s.currentRev.sub ≠ 0 then s.currentRev.main + 1 else s.currentRev.main, 0⟩ }

inductive Op where
  | put (key value : Bytes) (lease : ℤ)
  | deleteRange (key : Bytes) (stop : Option Bytes)
  | range (key : Bytes) (stop : Option Bytes) (limit rangeRev : ℤ)
deriving DecidableEq, Repr

/-- `TxnPut`, `TxnDeleteRange` and `TxnRange`. -/
def txnOp (s : Store) : Op → Except Fatal Store
  | .put key value lease => s.put key value lease
  | .deleteRange key stop => s.deleteRange key stop
  | .range key stop limit rangeRev => do
    let _ ← s.rangeKeys key stop limit rangeRev
    .ok s

/-- A transaction. `Put` and `DeleteRange` are those of one operation. -/
def txn (s : Store) (ops : List Op) : Except Fatal Store := do
  let s ← ops.foldlM txnOp s.txnBegin
  .ok s.txnEnd

/-- `store.Range`, a transaction of its own. -/
def range (s : Store) (key : Bytes) (stop : Option Bytes) (limit rangeRev : ℤ) :
    Except Fatal RangeResult :=
  s.txnBegin.rangeKeys key stop limit rangeRev

def compact (s : Store) (rev : ℤ) : Except Fatal (Store × Option StoreError) :=
  if rev ≤ s.compactMainRev then .ok (s, some .errCompacted)
  else if rev > s.currentRev.main then .ok (s, some .errFutureRev)
  else do
    let (kvindex, keep) ← s.kvindex.compact rev
    .ok ({ s with
      compactMainRev := rev
      scheduledCompact := some rev
      kvindex := kvindex
      fifoSched := s.fifoSched ++ [⟨rev, keep, ⟨⟨0, 0⟩, false⟩⟩] }, none)

/-- The `batchsize` of `scheduleCompaction`. -/
def batchsize : ℕ := 10000

/-- One batch of `scheduleCompaction`, for the job the scheduler runs. -/
def scheduleCompaction (s : Store) : Store :=
  match s.fifoSched with
  | [] => s
  | j :: js =>
    -- the end of the walk, the bytes of a main revision alone, is below its every key
    let stop : RevKey := ⟨⟨j.compactMainRev + 1, 0⟩, false⟩
    let keys := ((s.keyBucket.slice j.last stop).take batchsize).map (·.1)
    let bucket := keys.foldl (fun b key => if key.rev ∈ j.keep then b else b.erase key) s.keyBucket
    match keys.getLast? with
    | none => { s with
        keyBucket := bucket, finishedCompact := some j.compactMainRev, fifoSched := js }
    | some key =>
      if keys.length < batchsize then { s with
        keyBucket := bucket, finishedCompact := some j.compactMainRev, fifoSched := js }
      else { s with
        keyBucket := bucket
        fifoSched := { j with last := ⟨⟨key.rev.main, key.rev.sub + 1⟩, false⟩ } :: js }

inductive Event where
  | txn (ops : List Op)
  | compact (rev : ℤ)
  -- one batch of the running compaction job
  | batch
  -- a lease granted or revoked: any change of the lessor, for a store that has one
  | lessor (le : Lessor)
deriving DecidableEq

def step (s : Store) : Event → Except Fatal Store
  | .txn ops => s.txn ops
  | .compact rev => (s.compact rev).map (·.1)
  | .batch => .ok s.scheduleCompaction
  | .lessor le => .ok { s with le := s.le.map fun _ => le }

def run (le : Option Lessor) (evs : List Event) : Except Fatal Store := evs.foldlM step { le }

/-- The loop of `restore` over the entries of the key bucket. -/
def restoreItem (s : Store) (item : RevKey × KeyValue) : Except Fatal Store := do
  let (key, kv) := item
  let s ← if key.mark then do
      let kvindex ← s.kvindex.tombstone kv.key key.rev
      let s := { s with kvindex := kvindex.getD s.kvindex }
      -- an unknown lease is no error here
      if kv.lease = NoLease then .ok s
      else match s.le with
        | none => .error .lease
        | some le => .ok { s with le := some ((le.detach kv.lease kv.key).getD le) }
    else do
      let kvindex ← s.kvindex.restore kv.key ⟨kv.createRevision, 0⟩ key.rev kv.version
      let s := { s with kvindex := kvindex }
      if kv.lease = NoLease then .ok s
      else match s.le with
        | none => .error .lease
        | some le => .ok { s with le := some ((le.attach kv.lease kv.key).getD le) }
  .ok { s with currentRev := key.rev }

/-- `NewStore` on a backend with the given buckets, and the compaction it resumes if any. -/
def newStore (keyBucket : OrdMap RevKey KeyValue) (scheduledCompact finishedCompact : Option ℤ)
    (le : Option Lessor) : Except Fatal (Store × Option ℤ) := do
  let s : Store := { keyBucket, scheduledCompact, finishedCompact, le }
  let s := { s with compactMainRev := finishedCompact.getD s.compactMainRev }
  -- the upper end of the walk is above every revision
  let s ← (keyBucket.entries.filter fun e => (⟨⟨1, 0⟩, false⟩ : RevKey) ≤ e.1).foldlM restoreItem s
  .ok (s, scheduledCompact.filter fun rev => rev > s.compactMainRev)

end Store

end EtcdCompat
