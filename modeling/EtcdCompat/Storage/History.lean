import EtcdCompat.Storage.Store

/-!
# What the store is for

The contents of the store map live keys to their pairs, and a transaction that writes is given the
next main revision: `snapshotAt` replays the transactions up to a revision. `History` is the same
replay with every record ever written and the lessor, and `History.live` reads a key at a revision
off the records alone.
-/

namespace EtcdCompat

/-- The live keys with their key-value pairs. -/
abbrev Contents := OrdMap Bytes KeyValue

namespace Contents

/-- The pair a put at a main revision leaves, given the one the key has before it. -/
def putKV (main : ℤ) (key value : Bytes) (lease : ℤ) (old : Option KeyValue) : KeyValue :=
  ⟨key, (old.map (·.createRevision)).getD main, main, (old.map (·.version)).getD 0 + 1, value,
    lease⟩

/-- The keys live in a range, ascending, with their pairs. -/
def within (m : Contents) (key : Bytes) (stop : Option Bytes) : List (Bytes × KeyValue) :=
  m.entries.filter fun e => InRange key stop e.1

/-- The first `limit` of a list, all of it when there is no limit. -/
def cut {α : Type} (limit : ℤ) (l : List α) : List α := if limit > 0 then l.take limit.toNat else l

def put (m : Contents) (main : ℤ) (key value : Bytes) (lease : ℤ) : Contents :=
  m.insert key (putKV main key value lease (m.find key))

def deleteRange (m : Contents) (key : Bytes) (stop : Option Bytes) : Contents :=
  m.filter fun k => ¬ InRange key stop k

/-- One operation of a transaction with the given main revision, and whether anything was written
so far. -/
def replayOp (main : ℤ) (st : Contents × Bool) : Store.Op → Contents × Bool
  | .put key value lease => (st.1.put main key value lease, true)
  | .deleteRange key stop => (st.1.deleteRange key stop, st.2 || !(st.1.within key stop).isEmpty)
  | .range _ _ _ _ => st

/-- A transaction, if its main revision is at most `rev`. Only one that writes takes a revision. -/
def replayTxn (rev : ℤ) (st : ℤ × Contents) (ops : List Store.Op) : ℤ × Contents :=
  if st.1 + 1 ≤ rev then
    let out := ops.foldl (replayOp (st.1 + 1)) (st.2, false)
    (if out.2 then st.1 + 1 else st.1, out.1)
  else st

/-- The contents after all transactions with main revision at most `rev`. -/
def snapshotAt (txns : List (List Store.Op)) (rev : ℤ) : Contents :=
  (txns.foldl (replayTxn rev) (1, .empty)).2

end Contents

def Store.Event.txns : List Store.Event → List (List Store.Op)
  | [] => []
  | .txn ops :: evs => ops :: txns evs
  | _ :: evs => txns evs

/-- Every record ever written to the key bucket, with the contents and the lessor they leave. -/
structure History where
  main : ℤ := 1
  sub : ℤ := 0
  contents : Contents := .empty
  log : OrdMap RevKey KeyValue := .empty
  le : Option Lessor := none

namespace History

def newest (log : OrdMap RevKey KeyValue) (key : Bytes) (rev : ℤ) : Option (RevKey × KeyValue) :=
  log.last fun e => e.2.key = key ∧ e.1.rev.main ≤ rev

/-- What is read of a key at a main revision. -/
def live (log : OrdMap RevKey KeyValue) (key : Bytes) (rev : ℤ) : Option (Revision × KeyValue) :=
  match newest log key rev with
  | some (⟨rev, false⟩, kv) => some (rev, kv)
  | _ => none

/-- What a record does to the contents. -/
def replay (c : Contents) (e : RevKey × KeyValue) : Contents :=
  if e.1.mark then c.erase e.2.key else c.insert e.2.key e.2

/-- The contents at a main revision, from the records up to it. -/
def contentsAt (log : OrdMap RevKey KeyValue) (rev : ℤ) : Contents :=
  (log.entries.filter fun e => e.1.rev.main ≤ rev).foldl replay .empty

def next (h : History) : Revision := ⟨h.main + 1, h.sub⟩

/-- A record more: a pair put, or the tombstone of its key. -/
def write (h : History) (mark : Bool) (kv : KeyValue) (le : Option Lessor) : History :=
  { h with
    contents := if mark then h.contents.erase kv.key else h.contents.insert kv.key kv
    log := h.log.insert ⟨h.next, mark⟩ kv
    sub := h.sub + 1
    le := le }

def leaseOf (h : History) (key : Bytes) : ℤ := ((h.contents.find key).map (·.lease)).getD NoLease

def put (h : History) (key value : Bytes) (lease : ℤ) : Except Fatal History := do
  let le ← Store.detachLease h.le (h.leaseOf key) key
  let le ← Store.attachLease le lease key
  .ok (h.write false (Contents.putKV (h.main + 1) key value lease (h.contents.find key)) le)

def delete (h : History) (key : Bytes) : Except Fatal History := do
  let le ← Store.detachLease h.le (h.leaseOf key) key
  .ok (h.write true { key := key } le)

def deleteRange (h : History) (key : Bytes) (stop : Option Bytes) : Except Fatal History :=
  ((h.contents.within key stop).map (·.1)).foldlM delete h

def txnOp (h : History) : Store.Op → Except Fatal History
  | .put key value lease => h.put key value lease
  | .deleteRange key stop => h.deleteRange key stop
  | .range _ _ _ _ => .ok h

def txnEnd (h : History) : History :=
  { h with main := if h.sub ≠ 0 then h.main + 1 else h.main, sub := 0 }

def txn (h : History) (ops : List Store.Op) : Except Fatal History := do
  let h ← ops.foldlM txnOp h
  .ok h.txnEnd

/-- What an event does to the history: compactions do nothing. -/
def step (h : History) : Store.Event → Except Fatal History
  | .txn ops => h.txn ops
  | .compact _ => .ok h
  | .batch => .ok h
  | .lessor le => .ok { h with le := h.le.map fun _ => le }

def run (le : Option Lessor) (evs : List Store.Event) : Except Fatal History :=
  evs.foldlM step { le }

end History

end EtcdCompat
