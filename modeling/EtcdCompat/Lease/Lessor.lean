import EtcdCompat.Lib.Endian
import EtcdCompat.Storage.Store

/-!
# The lessor

`lessor` over the lease bucket of its backend. The item sets of the leases are the `Lessor` that a
store reaches through `Attach` and `Detach`. Times are nanoseconds since the Unix epoch. A call is
given the clock it reads.
-/

namespace EtcdCompat

def minInt64 : ℤ := -9223372036854775808

def maxInt64 : ℤ := 9223372036854775807

def IsInt64 (n : ℤ) : Prop := minInt64 ≤ n ∧ n ≤ maxInt64

instance (n : ℤ) : Decidable (IsInt64 n) := inferInstanceAs (Decidable (_ ∧ _))

/-- What `int64` arithmetic leaves of a result. -/
def wrapInt64 (n : ℤ) : ℤ := (n - minInt64) % 18446744073709551616 + minInt64

def second : ℤ := 1000000000

/-- `time.Time.Sub`, which saturates. -/
def timeSub (t u : ℤ) : ℤ := max minInt64 (min maxInt64 (t - u))

/-- `binary.BigEndian.PutUint64` of the `uint64` with the same bits. -/
def int64ToBytes (n : ℤ) : Bytes := BigEndian.encode 8 (n % 18446744073709551616).toNat

/-- `lease.Lease`, its item set apart. -/
structure Lease where
  id : ℤ
  ttl : ℤ
  expiry : ℤ
deriving DecidableEq, Repr

/-- `leasepb.Lease`. -/
structure LeasePB where
  id : ℤ
  ttl : ℤ
deriving DecidableEq, Repr

inductive LeaseError where
  | errNotPrimary
  | errLeaseNotFound
  | errLeaseExists
deriving DecidableEq, Repr

namespace Lease

def minLeaseTTL : ℤ := 5

/-- `forever`, the Unix time of half the largest `int64` of seconds. -/
def foreverTime : ℤ := 4611686018427387903 * second

def refresh (l : Lease) (now : ℤ) (extend : ℤ) : Lease :=
  let ttl := if l.ttl < minLeaseTTL then minLeaseTTL else l.ttl
  { l with ttl, expiry := now + wrapInt64 (extend + wrapInt64 (second * ttl)) }

def forever (l : Lease) : Lease :=
  let ttl := if l.ttl < minLeaseTTL then minLeaseTTL else l.ttl
  { l with ttl, expiry := foreverTime }

def persistTo (l : Lease) (b : OrdMap Bytes LeasePB) : OrdMap Bytes LeasePB :=
  b.insert (int64ToBytes l.id) ⟨l.id, l.ttl⟩

def removeFrom (l : Lease) (b : OrdMap Bytes LeasePB) : OrdMap Bytes LeasePB :=
  b.erase (int64ToBytes l.id)

/-- `lessor`, with the lease bucket of its backend. -/
structure Lessor where
  primary : Bool := false
  leaseMap : OrdMap ℤ Lease := .empty
  b : OrdMap Bytes LeasePB := .empty
deriving DecidableEq

namespace Lessor

def lookup (le : Lessor) (id : ℤ) : Option Lease := le.leaseMap.find id

def grant (le : Lessor) (now : ℤ) (id ttl : ℤ) : Except LeaseError (Lessor × Lease) :=
  if id = NoLease then .error .errLeaseNotFound
  else if (le.leaseMap.find id).isSome then .error .errLeaseExists
  else
    let l : Lease := ⟨id, ttl, 0⟩
    let l := if le.primary then l.refresh now 0 else l.forever
    .ok ({ le with leaseMap := le.leaseMap.insert id l, b := l.persistTo le.b }, l)

/-- `lessor.Revoke` without the deletion of the items, which is that of the range deleter. -/
def revoke (le : Lessor) (id : ℤ) : Except LeaseError Lessor :=
  match le.leaseMap.find id with
  | none => .error .errLeaseNotFound
  | some l => .ok { le with leaseMap := le.leaseMap.erase l.id, b := l.removeFrom le.b }

def renew (le : Lessor) (now : ℤ) (id : ℤ) : Except LeaseError (Lessor × ℤ) :=
  if !le.primary then .error .errNotPrimary
  else match le.leaseMap.find id with
    | none => .error .errLeaseNotFound
    | some l =>
      let l := l.refresh now 0
      .ok ({ le with leaseMap := le.leaseMap.insert id l }, l.ttl)

def promote (le : Lessor) (clock : ℤ → ℤ) (extend : ℤ) : Lessor :=
  { le with
    primary := true
    leaseMap := le.leaseMap.mapVal fun id l => l.refresh (clock id) extend }

def demote (le : Lessor) : Lessor :=
  { le with primary := false, leaseMap := le.leaseMap.mapVal fun _ l => l.forever }

def initAndRecover (le : Lessor) : Lessor :=
  let vs := (le.b.slice (int64ToBytes 0) (int64ToBytes maxInt64)).map (·.2)
  { le with leaseMap := vs.foldl (fun m v => m.insert v.id ⟨v.id, v.ttl, foreverTime⟩) le.leaseMap }

def newLessor (b : OrdMap Bytes LeasePB) : Lessor := initAndRecover { b }

def recover (le : Lessor) (b : OrdMap Bytes LeasePB) : Lessor :=
  initAndRecover { le with b, leaseMap := .empty }

def findExpiredLeases (le : Lessor) (now : ℤ) : List Lease :=
  (le.leaseMap.entries.map (·.2)).filter fun l => timeSub l.expiry now ≤ 0

inductive Call where
  | grant (now : ℤ) (id ttl : ℤ)
  | revoke (id : ℤ)
  | renew (now : ℤ) (id : ℤ)
  | promote (clock : ℤ → ℤ) (extend : ℤ)
  | demote

/-- A call that fails changes nothing. -/
def step (le : Lessor) : Call → Lessor
  | .grant now id ttl => ((le.grant now id ttl).toOption.map (·.1)).getD le
  | .revoke id => (le.revoke id).toOption.getD le
  | .renew now id => ((le.renew now id).toOption.map (·.1)).getD le
  | .promote clock extend => le.promote clock extend
  | .demote => le.demote

end Lessor

end Lease

end EtcdCompat
