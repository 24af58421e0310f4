import EtcdCompat.Server.Apply

/-!
# The replicated state machine

The v3 state of `EtcdServer` and what an entry does to it, with the range deleter its lessor was
given: the watchable store when the server starts, the consistent store once a snapshot was
installed. A restart and a snapshot rebuild store and lessor from a backend.
-/

namespace EtcdCompat

structure Backend where
  keyBucket : OrdMap RevKey KeyValue := .empty
  scheduledCompact : Option ℤ := none
  finishedCompact : Option ℤ := none
  consistentIndex : ℕ := 0
  lease : OrdMap Bytes LeasePB := .empty
deriving DecidableEq

/-- The store a lessor deletes the items of a revoked lease from. -/
inductive RangeDeleter where
  | watchable
  | consistent
deriving DecidableEq, Repr

inductive Response where
  | range (r : RangeResponse)
  | put (revision : ℤ)
  | deleteRange (r : DeleteRangeResponse)
  | txn (r : TxnResponse)
  | compaction (revision : ℤ)
  | leaseCreate (id ttl : ℤ)
  | leaseRevoke
deriving DecidableEq, Repr

/-- The item sets of the leases are in the store's `le`. -/
structure EtcdServer where
  kv : ConsistentStore := { store := { le := some .empty } }
  lessor : Lease.Lessor := {}
  rd : RangeDeleter := .watchable
deriving DecidableEq

/-- The item sets of recovered leases, still empty. -/
def Lease.Lessor.itemSets (le : Lease.Lessor) : OrdMap ℤ (List Bytes) :=
  le.leaseMap.mapVal fun _ _ => []

namespace EtcdServer

def itemSet (s : EtcdServer) (id : ℤ) : List Bytes := (s.kv.store.le.bind (·.find id)).getD []

def setItemSets (s : EtcdServer) (f : Lessor → Lessor) : EtcdServer :=
  { s with kv := { s.kv with store := { s.kv.store with le := s.kv.store.le.map f } } }

def applyLeaseCreate (rt : Runtime) (s : EtcdServer) (index : ℕ) (id ttl : ℤ) :
    EtcdServer × Except ApplyError Response :=
  match s.lessor.grant (rt.clock index) id ttl with
  | .error e => (s, .error (.lease e))
  | .ok (lessor, l) =>
    ({ s with lessor }.setItemSets (·.insert id []), .ok (.leaseCreate l.id l.ttl))

/-- `DeleteRange` of one item by the range deleter. -/
def deleteItem (rd : RangeDeleter) (index : ℕ) (kv : ConsistentStore) (key : Bytes) :
    Except Fatal ConsistentStore :=
  match rd with
  | .watchable => (kv.watchableDeleteRange key none).map (·.1)
  | .consistent => (kv.deleteRange index key none).map (·.1)

/-- `lessor.Revoke`: a deletion detaches the key it deletes, so the loop over the item set meets
every item it began with. -/
def applyLeaseRevoke (rt : Runtime) (s : EtcdServer) (index : ℕ) (id : ℤ) :
    Except Fatal (EtcdServer × Except ApplyError Response) :=
  match s.lessor.revoke id with
  | .error e => .ok (s, .error (.lease e))
  | .ok lessor => do
    let kv ← (rt.order index (s.itemSet id)).foldlM (deleteItem s.rd index) s.kv
    .ok ({ s with kv, lessor }.setItemSets (·.erase id), .ok .leaseRevoke)

def applyV3Request (rt : Runtime) (s : EtcdServer) (index : ℕ) :
    Request → Except Fatal (EtcdServer × Except ApplyError Response)
  | .range r => do
    let resp ← applyRange rt false s.kv r
    .ok (s, (resp.mapError .store).map .range)
  | .put p => do
    let (kv, resp) ← applyPut s.kv s.lessor index p
    .ok ({ s with kv }, resp.map .put)
  | .deleteRange dr => do
    let (kv, resp) ← applyDeleteRange s.kv index dr
    .ok ({ s with kv }, .ok (.deleteRange resp))
  | .txn txn => do
    let (kv, resp) ← applyTxn rt s.kv s.lessor index txn
    .ok ({ s with kv }, resp.map .txn)
  | .compaction revision => do
    let (kv, resp) ← applyCompaction s.kv revision
    .ok ({ s with kv }, resp.map .compaction)
  | .leaseCreate id ttl => .ok (applyLeaseCreate rt s index id ttl)
  | .leaseRevoke id => applyLeaseRevoke rt s index id

inductive Event where
  -- a committed entry and its index
  | entry (index : ℕ) (r : Request)
  -- one batch of the running compaction job
  | batch
  -- what reaches the lessor without the log
  | renew (now id : ℤ)
  | promote (clock : ℤ → ℤ) (extend : ℤ)
  | demote

def step (rt : Runtime) (s : EtcdServer) : Event → Except Fatal EtcdServer
  | .entry index r => (s.applyV3Request rt index r).map (·.1)
  | .batch => .ok { s with kv := { s.kv with store := s.kv.store.scheduleCompaction } }
  | .renew now id => .ok { s with lessor := s.lessor.step (.renew now id) }
  | .promote clock extend => .ok { s with lessor := s.lessor.step (.promote clock extend) }
  | .demote => .ok { s with lessor := s.lessor.step .demote }

def run (rt : Runtime) (evs : List Event) : Except Fatal EtcdServer := evs.foldlM (step rt) {}

def backend (s : EtcdServer) : Backend where
  keyBucket := s.kv.store.keyBucket
  scheduledCompact := s.kv.store.scheduledCompact
  finishedCompact := s.kv.store.finishedCompact
  consistentIndex := s.kv.consistentIndex
  lease := s.lessor.b

/-- `NewServer` on a backend: the lessor first, then the store, with the compaction it resumes. -/
def newServer (be : Backend) : Except Fatal (EtcdServer × Option ℤ) := do
  let lessor := Lease.Lessor.newLessor be.lease
  let (store, resume) ← Store.newStore be.keyBucket be.scheduledCompact be.finishedCompact
    (some lessor.itemSets)
  .ok ({ kv := { store, consistentIndex := be.consistentIndex }, lessor }, resume)

/-- The v3 part of `applySnapshot`: the store is restored over the lessor as it was, and only then
the lessor is recovered, with the consistent store as its range deleter. -/
def applySnapshot (s : EtcdServer) (be : Backend) : Except Fatal (EtcdServer × Option ℤ) := do
  let (store, resume) ← Store.newStore be.keyBucket be.scheduledCompact be.finishedCompact
    s.kv.store.le
  let lessor := s.lessor.recover be.lease
  let store := { store with le := some lessor.itemSets, changes := s.kv.store.changes }
  .ok ({ kv := { s.kv with store, consistentIndex := be.consistentIndex }, lessor
         rd := .consistent }, resume)

end EtcdServer

end EtcdCompat
