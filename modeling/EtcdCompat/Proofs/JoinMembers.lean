import EtcdCompat.Lib.Sort
import EtcdCompat.Server.Members

/-!
# Pairing the members of a cluster to join

What is assigned follows a pairing of the members with equal peer URLs. One is missed where the
first URLs of the partners do not come in the same order, as when one of them is a host name.
-/

namespace EtcdCompat.Members

open List

variable (s : Sorter) (equal : List Bytes → List Bytes → Bool) (loc existing : Cluster)

/-- Each member of the one cluster with one of the other, their URLs equal. -/
structure Pairing (ps : List ((ℕ × URLs) × (ℕ × URLs))) : Prop where
  existing : (ps.map Prod.fst).Perm existing.entries
  loc : (ps.map Prod.snd).Perm loc.entries
  equal : ∀ p ∈ ps, equal p.1.2.1 p.2.2.1 = true

/-- Each local member has the id of its partner. -/
def Assigned (c : Cluster) (ps : List ((ℕ × URLs) × (ℕ × URLs))) : Prop :=
  ∀ id urls, c.find id = some urls ↔ ∃ p ∈ ps, p.1.1 = id ∧ p.2.2 = urls

/-- The members of both in the order of their first URLs. -/
def inOrder : List ((ℕ × URLs) × (ℕ × URLs)) :=
  (s.sort existing.entries).zip (s.sort loc.entries)

theorem assignIDs_eq : ∀ {ems lms : List (ℕ × URLs)}, ems.length = lms.length →
    assignIDs equal ems lms =
      if ∀ p ∈ ems.zip lms, equal p.1.2.1 p.2.2.1 = true
      then .ok ((ems.zip lms).map fun p => (p.1.1, p.2.2)) else .error .unmatchedMember
  | [], [], _ => by simp [assignIDs]
  | e :: ems, l :: lms, h => by
    have ih := assignIDs_eq (Nat.succ.inj h)
    simp only [zip_cons_cons, forall_mem_cons, map_cons, assignIDs, ih]
    split_ifs with he hall hboth hboth
    · rfl
    · exact absurd ⟨he, hall⟩ hboth
    · exact absurd hboth.2 hall
    · rfl
    · tauto
    · rfl

variable {s equal loc existing}

theorem pairing_inOrder (hlen : existing.entries.length = loc.entries.length)
    (h : ∀ p ∈ inOrder s loc existing, equal p.1.2.1 p.2.2.1 = true) :
    Pairing equal loc existing (inOrder s loc existing) := by
  have hsort : (s.sort existing.entries).length = (s.sort loc.entries).length := by
    rw [(s.perm _).length_eq, (s.perm _).length_eq, hlen]
  refine ⟨?_, ?_, h⟩
  · rw [inOrder, map_fst_zip hsort.le]
    exact s.perm _
  · rw [inOrder, map_snd_zip hsort.ge]
    exact s.perm _

theorem Pairing.assigned {ps : List ((ℕ × URLs) × (ℕ × URLs))} (h : Pairing equal loc existing ps) :
    Assigned ((ps.map fun p => (p.1.1, p.2.2)).foldl (fun ms m => ms.insert m.1 m.2) .empty)
      ps := by
  have hnodup : (ps.map fun p => p.1.1).Nodup := by
    have hids : (existing.entries.map Prod.fst).Nodup :=
      (pairwise_map.2 existing.sorted).imp ne_of_lt
    have h' := (h.existing.map Prod.fst).nodup_iff.2 hids
    rwa [map_map] at h'
  intro id urls
  rw [foldl_map]
  refine (OrdMap.find_foldl_insert (fun p => p.1.1) (fun p => p.2.2) ps .empty ?_ id urls).trans ?_
  · intro p hp q hq hid
    rw [inj_on_of_nodup_map hnodup hp hq hid]
  · simp

theorem validate_eq : validateClusterAndAssignIDs s equal loc existing =
    if existing.entries.length ≠ loc.entries.length then .error .unequalCount
    else if ∀ p ∈ inOrder s loc existing, equal p.1.2.1 p.2.2.1 = true
    then .ok (((inOrder s loc existing).map fun p => (p.1.1, p.2.2)).foldl
      (fun ms m => ms.insert m.1 m.2) .empty)
    else .error .unmatchedMember := by
  unfold validateClusterAndAssignIDs inOrder
  split_ifs with hlen hall
  · rfl
  all_goals
    rw [assignIDs_eq equal (by rw [(s.perm _).length_eq, (s.perm _).length_eq, not_not.1 hlen])]
  · rw [if_pos hall]
    rfl
  · rw [if_neg hall]
    rfl

def stable : Sorter where
  sort ms := ms.insertionSort fun a b => ¬ b.2.first < a.2.first
  perm ms := List.perm_insertionSort _ ms
  sorted _ := List.pairwise_insertionSort_of_mem
    (fun _ _ _ _ _ _ h h' => not_lt.2 ((not_lt.1 h).trans (not_lt.1 h')))
    fun _ _ _ _ => (le_total _ _).imp not_lt.2 not_lt.2

/-- `URLStringsEqual` with the host names resolved. -/
def urlStringsEqual (resolve : Bytes → Bytes) (a b : List Bytes) : Bool :=
  decide ((a.map resolve).Perm (b.map resolve))

end EtcdCompat.Members
