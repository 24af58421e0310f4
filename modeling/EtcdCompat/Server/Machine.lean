import EtcdCompat.Server.Server
import EtcdCompat.Storage.History

/-!
# What the server is for

The replicated state machine over the history of the store: the contents and every record, the last
compaction, the leases and their items, and what the watchers were told. An entry stops where the
server panics.
-/

namespace EtcdCompat

namespace History

def pending (h : History) : List KeyValue :=
  (h.log.entries.filter fun e => e.1.rev.main = h.main + 1).map (·.2)

/-- What the watchers are told at the end of the transaction under way, by what is made of its
changes. -/
def notice (f : ℤ → List KeyValue → List WatchEvent) (h : History) :
    List (ℤ × List WatchEvent) :=
  if h.pending = [] then [] else [(h.txnEnd.main, f h.txnEnd.main h.pending)]

def curRev (h : History) : ℤ := if h.sub > 0 then h.main + 1 else h.main

def readRev (h : History) (rangeRev : ℤ) : ℤ := if rangeRev ≤ 0 then h.curRev else rangeRev

/-- What a range returns, given the last compaction. -/
def served (h : History) (c : ℤ) (key : Bytes) (stop : Option Bytes) (limit rangeRev : ℤ) :
    Store.RangeResult :=
  if rangeRev > h.curRev then ⟨[], h.main, some .errFutureRev⟩
  else if h.readRev rangeRev ≤ c then ⟨[], 0, some .errCompacted⟩
  else ⟨Contents.cut limit (((contentsAt h.log (h.readRev rangeRev)).within key stop).map (·.2)),
    h.curRev, none⟩

/-- Why a range at a revision is refused, given the last compaction. -/
def refused (h : History) (c rangeRev : ℤ) : Option StoreError :=
  if rangeRev > h.curRev then some .errFutureRev
  else if (if rangeRev ≤ 0 then h.curRev else rangeRev) ≤ c then some .errCompacted
  else none

end History

/-- The order of a range asks for a sorter, and its target has none. -/
def RangeRequest.unsortable (r : RangeRequest) : Bool :=
  (r.sortOrder = sortAscend ∨ r.sortOrder = sortDescend) && (sorter r.sortTarget).isNone

/-- The events `watchableStore.DeleteRange` makes of its changes. -/
def deleteEvents (rev : ℤ) (changes : List KeyValue) : List WatchEvent :=
  match changes.getLast? with
  | none => []
  | some change => changes.map fun _ => .delete { change with modRevision := rev }

structure Machine where
  history : History := { le := some .empty }
  compactRev : ℤ := -1
  consistentIndex : ℕ := 0
  notified : List (ℤ × List WatchEvent) := []
  leases : OrdMap ℤ ℤ := .empty
  rd : RangeDeleter := .watchable

namespace Machine

def itemSet (m : Machine) (id : ℤ) : List Bytes := (m.history.le.bind (·.find id)).getD []

def setItemSets (m : Machine) (f : Lessor → Lessor) : Machine :=
  { m with history := { m.history with le := m.history.le.map f } }

def known (m : Machine) (lease : ℤ) : Bool := lease = NoLease || (m.leases.find lease).isSome

/-- A range, with the error it returns. -/
def range (c : ℤ) (skip : Bool) (h : History) (r : RangeRequest) :
    Except Fatal (Option StoreError) :=
  match if skip then none else h.refused c r.revision with
  | some e => .ok (some e)
  | none => if r.unsortable then .error .nilSorter else .ok none

/-- A request of a transaction, with nothing done where it is skipped. -/
def union (c : ℤ) (skip : Bool) (h : History) : RequestUnion → Except Fatal History
  | .requestRange (some r) => do
    match ← range c skip h r with
    | some _ => .error .unexpectedTxnError
    | none => .ok h
  | .requestPut (some p) => if skip then .ok h else h.put p.key p.value p.lease
  | .requestDeleteRange (some dr) =>
    if skip then .ok h else h.deleteRange dr.key (gteRange dr.rangeEnd)
  | _ => .ok h

def compareOk (m : Machine) (c : Compare) : Bool :=
  (m.history.refused m.compactRev 0).isNone && compareKV c (m.history.contents.find c.key)

def branch (m : Machine) (txn : TxnRequest) : List RequestUnion :=
  if txn.compare.all m.compareOk then txn.success else txn.failure

def leaseKnown (m : Machine) : RequestUnion → Bool
  | .requestPut (some p) => m.known p.lease
  | _ => true

def rangeAllowed (m : Machine) : RequestUnion → Bool
  | .requestRange (some r) =>
    r.revision = 0 || (r.revision ≤ m.history.main && m.compactRev ≤ r.revision)
  | _ => true

/-- A transaction of the consistent store, skipped where the entry is not above the index. -/
def transact (m : Machine) (index : ℕ) (f : Bool → History → Except Fatal History) :
    Except Fatal Machine :=
  if index ≤ m.consistentIndex then do
    let _ ← f true m.history
    .ok m
  else do
    let h ← f false m.history
    .ok { m with
      history := h.txnEnd
      consistentIndex := index
      notified := m.notified ++ h.notice fun rev => List.map (ConsistentStore.changeEvent rev) }

/-- The deletion of one item of a revoked lease. -/
def deleteItem (index : ℕ) (m : Machine) (key : Bytes) : Except Fatal Machine :=
  match m.rd with
  | .watchable => do
    let h ← m.history.deleteRange key none
    .ok { m with history := h.txnEnd, notified := m.notified ++ h.notice deleteEvents }
  | .consistent => m.transact index fun skip h => if skip then .ok h else h.deleteRange key none

def grant (m : Machine) (id ttl : ℤ) : Machine :=
  if id = NoLease ∨ (m.leases.find id).isSome then m
  else { m with leases :=
    m.leases.insert id (max ttl Lease.minLeaseTTL) }.setItemSets (·.insert id [])

def revoke (m : Machine) (order : List Bytes → List Bytes) (index : ℕ) (id : ℤ) :
    Except Fatal Machine :=
  if (m.leases.find id).isNone then .ok m
  else do
    let m ← (order (m.itemSet id)).foldlM (deleteItem index) m
    .ok ({ m with leases := m.leases.erase id }.setItemSets (·.erase id))

def apply (m : Machine) (order : List Bytes → List Bytes) (index : ℕ) :
    Request → Except Fatal Machine
  | .range r => do
    let _ ← range m.compactRev false m.history r
    .ok m
  | .put p =>
    if m.known p.lease then m.transact index fun skip h => union m.compactRev skip h (.requestPut p)
    else .ok m
  | .deleteRange dr =>
    m.transact index fun skip h => union m.compactRev skip h (.requestDeleteRange dr)
  | .txn txn =>
    if (m.branch txn).all m.leaseKnown ∧ (m.branch txn).all m.rangeAllowed then
      m.transact index fun skip h => (m.branch txn).foldlM (union m.compactRev skip) h
    else .ok m
  | .compaction rev =>
    .ok (if rev ≤ m.compactRev ∨ rev > m.history.main then m else { m with compactRev := rev })
  | .leaseCreate id ttl => .ok (m.grant id ttl)
  | .leaseRevoke id => m.revoke order index id

/-- Only entries act on the machine. -/
def step (order : ℕ → List Bytes → List Bytes) (m : Machine) :
    EtcdServer.Event → Except Fatal Machine
  | .entry index r => m.apply (order index) index r
  | _ => .ok m

def run (order : ℕ → List Bytes → List Bytes) (evs : List EtcdServer.Event) :
    Except Fatal Machine :=
  evs.foldlM (step order) {}

end Machine

end EtcdCompat
