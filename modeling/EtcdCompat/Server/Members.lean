import EtcdCompat.Basic
import EtcdCompat.Lib.OrdMap

/-!
# The members of a cluster to join

A server that joins a cluster gives the members of its configuration the ids they have in the
cluster: both are sorted by the first peer URL of each member and compared place by place.
-/

namespace EtcdCompat.Members

/-- `PeerURLs` of a member. -/
abbrev URLs := { urls : List Bytes // urls ≠ [] }

def URLs.first (urls : URLs) : Bytes := urls.1.head urls.2

abbrev Cluster := OrdMap ℕ URLs

/-- `sort.Sort` of `MembersByPeerURLs`, which may put members with one first URL in any order. -/
structure Sorter where
  sort : List (ℕ × URLs) → List (ℕ × URLs)
  perm : ∀ ms, (sort ms).Perm ms
  sorted : ∀ ms, (sort ms).Pairwise fun a b => ¬ b.2.first < a.2.first

inductive Mismatch where
  /-- `member count is unequal` -/
  | unequalCount
  /-- `unmatched member while checking PeerURLs` -/
  | unmatchedMember
deriving DecidableEq

/-- The loop over the members of both, with the ids assigned. -/
def assignIDs (equal : List Bytes → List Bytes → Bool) :
    List (ℕ × URLs) → List (ℕ × URLs) → Except Mismatch (List (ℕ × URLs))
  | e :: ems, l :: lms =>
    if equal e.2.1 l.2.1 then do return (e.1, l.2) :: (← assignIDs equal ems lms)
    else .error .unmatchedMember
  | _, _ => .ok []

/-- `ValidateClusterAndAssignIDs`, with `URLStringsEqual` as it is resolved. -/
def validateClusterAndAssignIDs (s : Sorter) (equal : List Bytes → List Bytes → Bool)
    (loc existing : Cluster) : Except Mismatch Cluster :=
  if existing.entries.length ≠ loc.entries.length then .error .unequalCount
  else do
    let lms ← assignIDs equal (s.sort existing.entries) (s.sort loc.entries)
    return lms.foldl (fun ms m => ms.insert m.1 m.2) .empty

end EtcdCompat.Members
