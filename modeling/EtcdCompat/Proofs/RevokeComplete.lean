import EtcdCompat.Proofs.Lifetimes

/-!
# The keys a revoke leaves

The loop of a revoke deletes item by item. With the consistent store as its range deleter the first
deletion writes the index of the entry, which is then not above it any more, and all others are
skipped. A key of the lease goes only if it is attached to it, too.
-/

namespace EtcdCompat

open List Machine

/-- The items a revoke gets to. -/
def RangeDeleter.reach : RangeDeleter → List Bytes → List Bytes
  | .watchable, items => items
  | .consistent, items => items.take 1

namespace Machine

variable {m : Machine} {index : ℕ}

/-- The deletions of the items `ks` were made. -/
structure Deleted (m : Machine) (ks : List Bytes) (m' : Machine) : Prop where
  detachable : ∀ k ∈ ks, m.history.Detachable m.holds k
  listed : m'.Listed
  leases : m'.leases = m.leases
  rd : m'.rd = m.rd
  contents : m'.history.contents = ks.foldl OrdMap.erase m.history.contents

theorem Deleted.detachable_iff {m' : Machine} {key : Bytes} (hd : m.Deleted [key] m') (k : Bytes) :
    m'.history.Detachable m'.holds k ↔ m.history.Detachable m.holds k := by
  unfold History.Detachable History.leaseOf holds
  rw [hd.leases, hd.contents, foldl_cons, foldl_nil, OrdMap.find_erase]
  split_ifs with hk
  · rw [hk]
    exact iff_of_true (.inl rfl) (hd.detachable key (by simp))
  · rfl

/-- The deletions of items, or a panic at one that cannot be detached. -/
def Deletes (m : Machine) (ks : List Bytes) : Except Fatal Machine → Prop :=
  Yields (fun _ => ¬ ∀ k ∈ ks, m.history.Detachable m.holds k) (m.Deleted ks)

theorem Listed.deletes_one (hl : m.Listed) (key : Bytes) {g : History → Machine}
    (hg : ∀ h, ∃ consistentIndex notified,
      g h = { m with history := h.txnEnd, consistentIndex, notified }) :
    m.Deletes [key] (m.history.deleteRange key none >>= fun h => .ok (g h)) := by
  have hone := hl.history.deleteOne key
  rcases hdel : m.history.deleteRange key none with e | h <;> rw [hdel] at hone
  · simpa [Deletes, Yields, bind, Except.bind] using hone
  · obtain ⟨hkey, hlisted, hc⟩ := hone
    obtain ⟨i, n, heq⟩ := hg h
    simp only [bind, Except.bind, heq]
    exact ⟨by simpa using hkey, ⟨hlisted, hl.noLease⟩, rfl, rfl, hc⟩

theorem deleteItems_watchable_deletes (index : ℕ) : ∀ (ks : List Bytes) {m : Machine}, m.Listed →
    m.rd = .watchable → m.Deletes ks (ks.foldlM (deleteItem index) m)
  | [], m, hl, _ => ⟨by simp, hl, rfl, rfl, rfl⟩
  | k :: ks, m, hl, hrd => by
    have hone : m.Deletes [k] (m.deleteItem index k) := by
      simp only [deleteItem, hrd]
      exact hl.deletes_one k fun h =>
        ⟨m.consistentIndex, m.notified ++ h.notice deleteEvents, by rw [hrd]⟩
    rw [foldlM_cons]
    rcases hm : m.deleteItem index k with e | m₁ <;> rw [hm] at hone
    · exact fun hall => hone fun k' hk' => hall k' (by simp_all)
    · have hone : m.Deleted [k] m₁ := hone
      refine (deleteItems_watchable_deletes index ks hone.listed (hone.rd.trans hrd)).imp ?_ ?_
      · rintro _ hn hall
        exact hn fun k' hk' => (hone.detachable_iff k').2 (hall k' (mem_cons_of_mem _ hk'))
      · rintro m₂ hd
        refine ⟨?_, hd.listed, hd.leases.trans hone.leases, hd.rd.trans hone.rd, ?_⟩
        · rintro k' hk'
          rcases mem_cons.1 hk' with rfl | hk'
          · exact hone.detachable k' (by simp)
          · exact (hone.detachable_iff k').1 (hd.detachable k' hk')
        · rw [hd.contents, hone.contents]
          rfl

theorem index_le_transact (m : Machine) (index : ℕ) (f : Bool → History → Except Fatal History) :
    Yields (fun _ => True) (index ≤ ·.consistentIndex) (m.transact index f) := by
  unfold transact
  split_ifs with hle
  · exact (Yields.trivial _).bind fun _ _ => hle
  · exact (Yields.trivial _).bind fun _ _ => le_rfl

theorem deleteItems_skipped (hrd : m.rd = .consistent) (hindex : index ≤ m.consistentIndex) :
    ∀ ks : List Bytes, ks.foldlM (deleteItem index) m = .ok m
  | [] => rfl
  | k :: ks => by
    have hskip : m.deleteItem index k = .ok m := by
      simp [deleteItem, hrd, transact, hindex]
      rfl
    rw [foldlM_cons, hskip]
    exact deleteItems_skipped hrd hindex ks

theorem Listed.deleteItems (hl : m.Listed) (hindex : m.consistentIndex < index) (ks : List Bytes) :
    m.Deletes (m.rd.reach ks) (ks.foldlM (deleteItem index) m) := by
  rcases hrd : m.rd with _ | _
  · exact deleteItems_watchable_deletes index ks hl hrd
  · rcases ks with _ | ⟨k, ks⟩
    · exact ⟨by simp [RangeDeleter.reach], hl, rfl, rfl, rfl⟩
    · have hone : m.Deletes [k] (m.deleteItem index k) := by
        simp [deleteItem, hrd, transact, if_neg (not_le.2 hindex)]
        exact hl.deletes_one k fun h => ⟨index, m.notified
          ++ h.notice fun rev => map (ConsistentStore.changeEvent rev), by rw [hrd]⟩
      have hwritten := m.index_le_transact index
        fun skip h => if skip then .ok h else h.deleteRange k none
      rw [foldlM_cons]
      rcases hm : m.deleteItem index k with e | m₁ <;> rw [hm] at hone
      · exact hone
      · have hone : m.Deleted [k] m₁ := hone
        simp only [deleteItem, hrd] at hm
        have hskip := deleteItems_skipped (hone.rd.trans hrd) (hwritten.of_ok hm) ks
        simp only [bind, Except.bind, hskip]
        exact hone

end Machine

variable {fresh : Prop} {s : EtcdServer} {m : Machine} {id : ℤ}

theorem Refines.detachable_iff (hr : Refines fresh s m) (key : Bytes) :
    m.history.Detachable m.holds key ↔ ∀ kv, s.kv.store.current key = some kv →
      kv.lease = NoLease ∨ (s.lessor.lookup kv.lease).isSome := by
  rw [hr.current]
  unfold History.Detachable History.leaseOf
  rcases m.history.contents.find key with _ | kv
  · simp
  · simp [hr.lookup]

/-- A key has no lease after a revoke of it, exactly if the loop got to it. -/
theorem Machine.Deleted.leaseOf_iff {m' : Machine} {ks : List Bytes} (hd : m.Deleted ks m')
    (hid : id ≠ NoLease) (key : Bytes) :
    m'.history.leaseOf key = id ↔ m.history.leaseOf key = id ∧ key ∉ ks := by
  unfold History.leaseOf
  rw [hd.contents, OrdMap.find_foldl_erase]
  split_ifs with hk
  · simp [hk, hid.symm]
  · simp [hk]

theorem revoke_complete_iff (hs : s.Reached) (rt : Runtime) {index : ℕ}
    (hindex : s.kv.consistentIndex < index) (hheld : (s.lessor.lookup id).isSome) :
    (∃ s', s.applyV3Request rt index (.leaseRevoke id) = .ok (s', .ok .leaseRevoke)
        ∧ s'.lessor.lookup id = none ∧ ∀ key, ¬ s'.HasLease key id)
      ↔ (∀ key ∈ s.rd.reach (rt.order index (s.itemSet id)), ∀ kv,
          s.kv.store.current key = some kv →
          kv.lease = NoLease ∨ (s.lessor.lookup kv.lease).isSome)
        ∧ ∀ key, s.HasLease key id → key ∈ s.rd.reach (rt.order index (s.itemSet id)) := by
  obtain ⟨m, hr, hl⟩ := hs.refines
  have hholds : m.holds id = true := by rw [← hr.lookup, hheld]
  have hid : id ≠ NoLease := fun h => by
    rw [h, hl.noLease] at hholds
    cases hholds
  have hloop := hl.deleteItems (hr.serves.index ▸ hindex) (rt.order index (m.itemSet id))
  have hagree := hr.applyLeaseRevoke rt index id
  have hdet : (∀ key ∈ s.rd.reach (rt.order index (s.itemSet id)), ∀ kv,
      s.kv.store.current key = some kv → kv.lease = NoLease ∨ (s.lessor.lookup kv.lease).isSome)
      ↔ ∀ key ∈ m.rd.reach (rt.order index (m.itemSet id)),
        m.history.Detachable m.holds key := by
    simp only [hr.detachable_iff, hr.rd, hr.itemSet]
  obtain ⟨lessor, hrev⟩ : ∃ lessor, s.lessor.revoke id = .ok lessor := by
    obtain ⟨l, hl⟩ := Option.isSome_iff_exists.1 hheld
    exact ⟨_, by rw [Lease.Lessor.revoke, show s.lessor.leaseMap.find id = some l from hl]⟩
  have hnone : ¬ (m.leases.find id).isNone := by
    rw [Option.isNone_iff_eq_none, ← ne_eq, ← Option.isSome_iff_ne_none]
    exact hholds
  rw [hdet]
  simp only [EtcdServer.applyV3Request]
  simp only [EtcdServer.applyLeaseRevoke, hrev, Machine.revoke, if_neg hnone, hr.itemSet, hr.rd]
    at hagree ⊢
  rcases hx : (rt.order index (m.itemSet id)).foldlM (EtcdServer.deleteItem m.rd index) s.kv
    with e | kv <;> rcases hy : (rt.order index (m.itemSet id)).foldlM (Machine.deleteItem index) m
    with e' | m' <;> rw [hx, hy] at hagree <;> rw [hy] at hloop
  · refine iff_of_false ?_ fun h => hloop h.1
    rintro ⟨s', heq, -⟩
    cases heq
  · exact hagree.elim
  · exact hagree.elim
  · have hd : m.Deleted (m.rd.reach (rt.order index (m.itemSet id))) m' := hloop
    have hagree : Refines False _ _ := hagree
    have hkeys : ∀ key, EtcdServer.HasLease _ key id ↔ _ :=
      fun key => (hagree.hasLease_iff hid key).trans (hd.leaseOf_iff hid key)
    constructor
    · rintro ⟨s', heq, -, hleft⟩
      obtain ⟨rfl, -⟩ := Prod.mk.inj (Except.ok.inj heq)
      refine ⟨hd.detachable, fun key hk => ?_⟩
      by_contra hnot
      exact hleft key ((hkeys key).2 ⟨(hr.hasLease_iff hid key).1 hk, hnot⟩)
    · rintro ⟨-, hall⟩
      refine ⟨_, rfl, ?_, fun key hk => ?_⟩
      · have hgone := hagree.lookup id
        simp [Machine.holds, Machine.setItemSets, OrdMap.find_erase] at hgone
        exact Option.not_isSome_iff_eq_none.1 (by rw [hgone]; simp)
      · obtain ⟨hlease, hnot⟩ := (hkeys key).1 hk
        exact hnot (hall key ((hr.hasLease_iff hid key).2 hlease))

/-- The one key of a lease. -/
theorem revoke_complete_one : ∃ s s', EtcdServer.run .stable
      [.entry 1 (.leaseCreate 1 10), .entry 2 (.put { key := [97], lease := 1 })] = .ok s
    ∧ s.applyV3Request .stable 3 (.leaseRevoke 1) = .ok (s', .ok .leaseRevoke)
    ∧ s'.lessor.lookup 1 = none ∧ ∀ key, ¬ s'.HasLease key 1 := by
  obtain ⟨s, hrun, hindex, hheld, hreach, hlease, hkeys⟩ : ∃ s, EtcdServer.run .stable
      [.entry 1 (.leaseCreate 1 10), .entry 2 (.put { key := [97], lease := 1 })] = .ok s
      ∧ s.kv.consistentIndex < 3 ∧ (s.lessor.lookup 1).isSome
      ∧ s.rd.reach (Runtime.stable.order 3 (s.itemSet 1)) = [[97]]
      ∧ (s.kv.store.current [97]).map (·.lease) = some 1
      ∧ s.kv.store.keyBucket.entries.map (·.2.key) = [[97]] := by decide +kernel
  have hdet : ∀ key ∈ [[97]], ∀ kv, s.kv.store.current key = some kv →
      kv.lease = NoLease ∨ (s.lessor.lookup kv.lease).isSome := by
    intro key hkey kv hkv
    rw [List.mem_singleton.1 hkey] at hkv
    rw [hkv, Option.map_some, Option.some.injEq] at hlease
    rw [hlease]
    exact .inr hheld
  have hall : ∀ key, s.HasLease key 1 → key ∈ [[97]] := by
    intro key hkey
    obtain ⟨m, hr, -⟩ := (EtcdServer.Reached.run hrun).refines
    obtain ⟨rev, kv, hf, -, rfl⟩ := hr.record_of_hasLease hkey
    rw [← hkeys]
    exact List.mem_map.2 ⟨_, OrdMap.mem_entries.2 hf, rfl⟩
  obtain ⟨s', hs'⟩ := (revoke_complete_iff (EtcdServer.Reached.run hrun) .stable hindex hheld).2
    (by rw [hreach]; exact ⟨hdet, hall⟩)
  exact ⟨s, s', hrun, hs'⟩

/-- A member that was given a snapshot, and a lease with two keys: one of them stays. -/
theorem revoke_leaves_key : ∃ s₀ s s' resume,
    EtcdServer.applySnapshot {} ({} : EtcdServer).backend = .ok (s₀, resume)
    ∧ [EtcdServer.Event.entry 1 (.leaseCreate 1 10), .entry 2 (.put { key := [97], lease := 1 }),
        .entry 3 (.put { key := [98], lease := 1 })].foldlM (EtcdServer.step .stable) s₀ = .ok s
    ∧ s.kv.consistentIndex < 4 ∧ (s.lessor.lookup 1).isSome
    ∧ s.applyV3Request .stable 4 (.leaseRevoke 1) = .ok (s', .ok .leaseRevoke)
    ∧ s'.lessor.lookup 1 = none ∧ s'.HasLease [97] 1 := by
  obtain ⟨⟨s₀, resume⟩, hsnap, s, hrun, hindex, hheld, ⟨s', _⟩, hrev, rfl, hgone, hlease⟩ :
      ∃ x, EtcdServer.applySnapshot {} ({} : EtcdServer).backend = .ok x
      ∧ ∃ s, [EtcdServer.Event.entry 1 (.leaseCreate 1 10),
        .entry 2 (.put { key := [97], lease := 1 }),
        .entry 3 (.put { key := [98], lease := 1 })].foldlM (EtcdServer.step .stable) x.1 = .ok s
      ∧ s.kv.consistentIndex < 4 ∧ (s.lessor.lookup 1).isSome
      ∧ ∃ y, s.applyV3Request .stable 4 (.leaseRevoke 1) = .ok y ∧ y.2 = .ok .leaseRevoke
      ∧ y.1.lessor.lookup 1 = none ∧ (y.1.kv.store.current [97]).map (·.lease) = some 1 := by
    decide +kernel
  exact ⟨s₀, s, s', resume, hsnap, hrun, hindex, hheld, hrev, hgone,
    Option.map_eq_some_iff.1 hlease⟩

end EtcdCompat
