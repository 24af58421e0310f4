import EtcdCompat.Proofs.LeaseAttach
import EtcdCompat.Proofs.StoreReplay

/-!
# Leases across a restart and a snapshot

A restart recovers the leases first and then restores the store, which attaches the key of every put
record left to the lease the record has: keys whose lease has changed since come back to the old
one. A snapshot restores the store first, so whatever was attached is dropped.
-/

namespace EtcdCompat

open OrdMap History

namespace Store

variable {s s' : Store} {h : History} {le : Lessor} {id : ℤ}

theorem find_attachItem (hid : id ≠ NoLease) {items : List Bytes} (hf : le.find id = some items)
    (e : RevKey × KeyValue) : ∃ items', (attachItem le e).find id = some items'
      ∧ ∀ key, key ∈ items' ↔ key ∈ items ∨ e.2.lease = id ∧ e.2.key = key := by
  unfold attachItem
  by_cases hlease : e.2.lease = id
  · rw [if_neg (hlease ▸ hid), hlease]
    simp only [Lessor.attach, hf, Option.map_some, Option.getD_some, find_insert_self]
    refine ⟨_, rfl, fun key => ?_⟩
    split_ifs with hmem
    · refine ⟨.inl, ?_⟩
      rintro (hk | ⟨-, rfl⟩)
      · exact hk
      · exact hmem
    · rw [List.mem_cons]
      tauto
  · refine ⟨items, ?_, fun key => by simp [hlease]⟩
    split_ifs
    · exact hf
    · unfold Lessor.attach
      rcases le.find e.2.lease with _ | items'
      · exact hf
      · exact (find_insert_ne hlease).trans hf

theorem find_foldl_attachItem (hid : id ≠ NoLease) : ∀ (es : List (RevKey × KeyValue))
    {le : Lessor} {items : List Bytes}, le.find id = some items →
    ∃ items', (es.foldl attachItem le).find id = some items'
      ∧ ∀ key, key ∈ items' ↔ key ∈ items ∨ ∃ e ∈ es, e.2.lease = id ∧ e.2.key = key
  | [], _, items, hf => ⟨items, hf, fun key => by simp⟩
  | e :: es, le, items, hf => by
    obtain ⟨items₁, hf₁, hmem₁⟩ := find_attachItem hid hf e
    obtain ⟨items₂, hf₂, hmem₂⟩ := find_foldl_attachItem hid es hf₁
    refine ⟨items₂, hf₂, fun key => ?_⟩
    simp only [hmem₂, hmem₁, List.exists_mem_cons_iff, or_assoc]

theorem Restored.current {le : Option Lessor} {scheduled finished : Option ℤ}
    (hr : Restored s.keyBucket.entries (unrestored s.keyBucket scheduled finished le) s')
    (hs : Sim s h) (key : Bytes) : s'.current key = h.contents.find key := by
  have hbucket : s'.keyBucket = s.keyBucket := by
    rw [hr.frame]
    rfl
  have hcur : s'.currentRev = lastRev s.keyBucket := by
    rw [hr.frame]
    rfl
  have htop : live s.keyBucket key (s'.currentRev.main + 1)
      = live h.log key (h.main + 1) := by
    rw [← hs.live_bucket (by have := hs.compacted; omega), hcur]
    refine live_congr fun rk kv hf _ => ?_
    have h1 := Revision.main_le (le_lastRev hf)
    have h2 := hs.wf.main_le (hs.bucket _ _ hf)
    exact ⟨fun _ => h2, fun _ => by omega⟩
  have hreads := hr.look key (s'.currentRev.main + 1)
  rw [← live_eq_liveIn, htop] at hreads
  rw [hs.wf.contents]
  refine current_of_reads hreads fun rev kv hl => ?_
  rw [hbucket]
  exact hs.reads key _ rev kv (by have := hs.compacted; omega) hl

end Store

namespace EtcdServer

def HasLease (s : EtcdServer) (key : Bytes) (id : ℤ) : Prop :=
  ∃ kv, s.kv.store.current key = some kv ∧ kv.lease = id

end EtcdServer

variable {fresh : Prop} {s : EtcdServer} {m : Machine} {id : ℤ}

open EtcdServer

theorem Refines.hasLease_iff (hr : Refines fresh s m) (hid : id ≠ NoLease) (key : Bytes) :
    s.HasLease key id ↔ m.history.leaseOf key = id := by
  rw [leaseOf_eq_iff hid, HasLease, hr.current]

theorem Refines.mem_itemSet (hr : Refines fresh s m) (ho : m.Owned) (hid : id ≠ NoLease)
    (key : Bytes) :
    key ∈ s.itemSet id ↔ s.HasLease key id := by
  rw [hr.hasLease_iff hid, hr.itemSet]
  by_cases hheld : m.holds id
  · exact ho.mem_itemSet hheld key
  · obtain ⟨le, hle, hd, ha⟩ := ho
    have hnone : le.find id = none := by
      rw [← Option.not_isSome_iff_eq_none, hd]
      exact hheld
    refine ⟨fun hk => ?_, fun hk => ?_⟩
    · simp [Machine.itemSet, hle, hnone] at hk
    · have := ha.known key (hk ▸ hid)
      simp [hk, hnone] at this

theorem Refines.record_of_hasLease (hr : Refines fresh s m) {key : Bytes} (hk : s.HasLease key id) :
    ∃ rev kv, s.kv.store.keyBucket.find ⟨rev, false⟩ = some kv ∧ kv.lease = id ∧ kv.key = key := by
  obtain ⟨c₀, -, finished, -, hs⟩ := hr.serves.follows.sim
  obtain ⟨kv, hkv, hlease⟩ := hk
  rw [hr.current, hs.wf.contents] at hkv
  obtain ⟨⟨rev, kv'⟩, hl, rfl⟩ := Option.map_eq_some_iff.1 hkv
  have hc := hs.compacted
  exact ⟨rev, kv', hs.reads key _ rev kv' (by omega) hl, hlease, (find_of_live hl).2.1⟩

section Restart

variable {le : Option Lessor} {store : Store}

/-- A store restored from what a server has written. -/
def EtcdServer.Restores (s : EtcdServer) (le : Option Lessor) (store : Store) : Prop :=
  Store.Restored s.kv.store.keyBucket.entries (Store.unrestored s.kv.store.keyBucket
    s.kv.store.scheduledCompact s.kv.store.finishedCompact le) store

def EtcdServer.resume (s : EtcdServer) : Option ℤ :=
  s.kv.store.scheduledCompact.filter fun rev => rev > s.kv.store.finishedCompact.getD (-1)

section

variable (hr : Refines fresh s m)
include hr

theorem Refines.newStore (hle : le.isSome) : ∃ store,
    Store.newStore s.kv.store.keyBucket s.kv.store.scheduledCompact s.kv.store.finishedCompact le
      = .ok (store, s.resume) ∧ s.Restores le store := by
  obtain ⟨c₀, -, finished, -, hs⟩ := hr.serves.follows.sim
  exact hs.newStore _ _ fun _ => hle

theorem Refines.restored_current (hres : s.Restores le store) (key : Bytes) :
    store.current key = s.kv.store.current key := by
  obtain ⟨c₀, -, finished, -, hs⟩ := hr.serves.follows.sim
  rw [hr.current]
  exact Store.Restored.current (s := s.kv.store.txnBegin.seen c₀ finished) hres hs key

theorem Refines.newServer : ∃ store,
    newServer s.backend = .ok ({
      kv := { store, consistentIndex := s.kv.consistentIndex }
      lessor := Lease.Lessor.newLessor s.lessor.b }, s.resume)
    ∧ s.Restores (some (Lease.Lessor.newLessor s.lessor.b).itemSets) store := by
  obtain ⟨store, hnew, hres⟩ :=
    hr.newStore (show (some (Lease.Lessor.newLessor s.lessor.b).itemSets).isSome from rfl)
  refine ⟨store, ?_, hres⟩
  unfold EtcdServer.newServer EtcdServer.backend
  simp only [hnew]
  rfl

theorem Refines.mem_itemSet_restored {lessor : Lease.Lessor}
    (hres : s.Restores (some lessor.itemSets) store) (hid : id ≠ NoLease)
    (hheld : (lessor.lookup id).isSome) (s' : EtcdServer) (hs' : s'.kv.store = store)
    (key : Bytes) : key ∈ s'.itemSet id ↔
      ∃ rev kv, s.kv.store.keyBucket.find ⟨rev, false⟩ = some kv ∧ kv.lease = id
        ∧ kv.key = key := by
  obtain ⟨c₀, -, finished, -, hs⟩ := hr.serves.follows.sim
  have hempty : lessor.itemSets.find id = some [] := by
    obtain ⟨l, hl⟩ := Option.isSome_iff_exists.1 hheld
    rw [Lease.Lessor.itemSets, find_mapVal, show lessor.leaseMap.find id = some l from hl]
    rfl
  obtain ⟨items, hitems, hmem⟩ :=
    Store.find_foldl_attachItem hid s.kv.store.keyBucket.entries hempty
  have hset : s'.itemSet id = items := by
    unfold EtcdServer.itemSet
    rw [hs', Store.Restored.frame hres]
    simp [Store.unrestored, hitems]
  rw [hset, hmem]
  constructor
  · rintro (hk | ⟨⟨⟨rev, mark⟩, kv⟩, he, hlease, hkey⟩)
    · cases hk
    · have hf := find_of_mem he
      rcases mark with _ | _
      · exact ⟨rev, kv, hf, hlease, hkey⟩
      · exact absurd ((hs.wf.tombs rev kv (hs.bucket _ _ hf)).symm.trans hlease) hid.symm
  · rintro ⟨rev, kv, hf, hlease, hkey⟩
    exact .inr ⟨_, mem_entries.2 hf, hlease, hkey⟩

end

theorem restart_itemSet_iff {rt : Runtime} {evs : List EtcdServer.Event} {s : EtcdServer}
    (hrun : EtcdServer.run rt evs = .ok s) : ∃ s' resume, newServer s.backend = .ok (s', resume)
      ∧ (∀ key, s'.kv.store.current key = s.kv.store.current key)
      ∧ ∀ id, id ≠ NoLease → (s'.lessor.lookup id).isSome →
        (∀ key, key ∈ s.itemSet id ↔ s.HasLease key id)
        ∧ ((∀ key, key ∈ s'.itemSet id ↔ s'.HasLease key id) ↔ ∀ rev kv,
            s.kv.store.keyBucket.find ⟨rev, false⟩ = some kv → kv.lease = id →
            s.HasLease kv.key id) := by
  obtain ⟨m, -, hr, ho, -⟩ := run_reaches hrun
  obtain ⟨store, hnew, hres⟩ := hr.newServer
  have hcur := hr.restored_current hres
  refine ⟨_, _, hnew, hcur, fun id hid hheld => ⟨hr.mem_itemSet ho hid, ?_⟩⟩
  have hmem := fun key => hr.mem_itemSet_restored hres hid hheld {
    kv := { store, consistentIndex := s.kv.consistentIndex }
    lessor := Lease.Lessor.newLessor s.lessor.b } rfl key
  simp only [hmem, HasLease, hcur]
  constructor
  · intro hall rev kv hf hlease
    exact (hall kv.key).1 ⟨rev, kv, hf, hlease, rfl⟩
  · intro hall key
    constructor
    · rintro ⟨rev, kv, hf, hlease, rfl⟩
      exact hall rev kv hf hlease
    · exact hr.record_of_hasLease

/-- A key with a lease. -/
theorem restart_itemSet_one : ∃ s s' resume, EtcdServer.run .stable
      [.entry 1 (.leaseCreate 1 10), .entry 2 (.put { key := [97], lease := 1 })] = .ok s
    ∧ newServer s.backend = .ok (s', resume) ∧ (s'.lessor.lookup 1).isSome
    ∧ ∀ key, key ∈ s'.itemSet 1 ↔ s'.HasLease key 1 := by
  obtain ⟨s, hrun, ⟨s', resume⟩, hnew, hkeys, hcur, hheld⟩ : ∃ s, EtcdServer.run .stable
      [.entry 1 (.leaseCreate 1 10), .entry 2 (.put { key := [97], lease := 1 })] = .ok s
      ∧ ∃ x, newServer s.backend = .ok x ∧ s.kv.store.keyBucket.entries.map (·.2.key) = [[97]]
      ∧ (s.kv.store.current [97]).map (·.lease) = some 1 ∧ (x.1.lessor.lookup 1).isSome := by
    decide +kernel
  obtain ⟨s₁, resume₁, hnew₁, -, hitems⟩ := restart_itemSet_iff hrun
  obtain ⟨rfl, rfl⟩ := Prod.mk.inj (Except.ok.inj (hnew.symm.trans hnew₁))
  refine ⟨s, s', resume, hrun, hnew, hheld, (hitems 1 (by decide) hheld).2.2 ?_⟩
  intro rev kv hf _
  have hkey : kv.key ∈ s.kv.store.keyBucket.entries.map (·.2.key) :=
    List.mem_map.2 ⟨_, OrdMap.mem_entries.2 hf, rfl⟩
  rw [hkeys, List.mem_singleton] at hkey
  rw [hkey]
  exact Option.map_eq_some_iff.1 hcur

/-- A key put with a lease and put again without it: the first record attaches it again, and a
revoke of the lease then deletes it. -/
theorem restart_reattaches : ∃ s s' resume s₁ s₁' resp resp', EtcdServer.run .stable
      [.entry 1 (.leaseCreate 1 10), .entry 2 (.put { key := [97], lease := 1 }),
        .entry 3 (.put { key := [97] })] = .ok s
    ∧ newServer s.backend = .ok (s', resume)
    ∧ s.itemSet 1 = [] ∧ s'.itemSet 1 = [[97]] ∧ ¬ s'.HasLease [97] 1
    ∧ s.applyLeaseRevoke .stable 4 1 = .ok (s₁, resp) ∧ (s₁.kv.store.current [97]).isSome
    ∧ s'.applyLeaseRevoke .stable 4 1 = .ok (s₁', resp') ∧ s₁'.kv.store.current [97] = none := by
  obtain ⟨s, hrun, ⟨s', resume⟩, hnew, hitems, hitems', hlease, ⟨s₁, resp⟩, hrev, hcur,
      ⟨s₁', resp'⟩, hrev', hcur'⟩ : ∃ s, EtcdServer.run .stable
      [.entry 1 (.leaseCreate 1 10), .entry 2 (.put { key := [97], lease := 1 }),
        .entry 3 (.put { key := [97] })] = .ok s
      ∧ ∃ x, newServer s.backend = .ok x ∧ s.itemSet 1 = [] ∧ x.1.itemSet 1 = [[97]]
      ∧ (x.1.kv.store.current [97]).map (·.lease) = some 0
      ∧ ∃ y, s.applyLeaseRevoke .stable 4 1 = .ok y ∧ (y.1.kv.store.current [97]).isSome
      ∧ ∃ y, x.1.applyLeaseRevoke .stable 4 1 = .ok y ∧ y.1.kv.store.current [97] = none := by
    decide +kernel
  refine ⟨s, s', resume, s₁, s₁', resp, resp', hrun, hnew, hitems, hitems', ?_, hrev, hcur, hrev',
    hcur'⟩
  rintro ⟨kv, hkv, hl⟩
  rw [hkv, Option.map_some, hl] at hlease
  simp at hlease

end Restart

section Bucket

open Lease.Lessor

variable {held : OrdMap ℤ ℤ}

def Request.Int64Id : Request → Prop
  | .leaseCreate id _ => IsInt64 id
  | _ => True

def EtcdServer.Event.Int64Id : EtcdServer.Event → Prop
  | .entry _ r => r.Int64Id
  | _ => True

theorem applyV3Request_lessor (rt : Runtime) (s : EtcdServer) (index : ℕ) (r : Request) :
    Yields (fun _ => True) (fun x => x.1.lessor = s.lessor
      ∨ ∃ c : Call, (r.Int64Id → c.Int64Id) ∧ x.1.lessor = s.lessor.step c)
      (s.applyV3Request rt index r) := by
  rcases r with r | p | dr | txn | rev | ⟨id, ttl⟩ | id
  · exact (Yields.trivial _).bind fun _ _ => .inl rfl
  · exact (Yields.trivial _).bind fun _ _ => .inl rfl
  · exact (Yields.trivial _).bind fun _ _ => .inl rfl
  · exact (Yields.trivial _).bind fun _ _ => .inl rfl
  · exact (Yields.trivial _).bind fun _ _ => .inl rfl
  · refine .inr ⟨.grant (rt.clock index) id ttl, fun h => h, ?_⟩
    simp only [applyLeaseCreate, Lease.Lessor.step]
    rcases s.lessor.grant (rt.clock index) id ttl with e | x <;> rfl
  · have hstep : s.lessor.step (.revoke id) = (s.lessor.revoke id).toOption.getD s.lessor := rfl
    simp only [applyV3Request, applyLeaseRevoke]
    rcases hrev : s.lessor.revoke id with e | lessor
    · exact .inl rfl
    · rw [hrev] at hstep
      exact (Yields.trivial _).bind fun _ _ => .inr ⟨.revoke id, fun _ => trivial, hstep.symm⟩

theorem run_persisted (rt : Runtime) {evs : List EtcdServer.Event}
    (hids : ∀ ev ∈ evs, ev.Int64Id) : Yields (fun _ => True)
      (fun s => ∃ held, Persisted s.lessor held) (EtcdServer.run rt evs) := by
  refine Yields.foldlM (fun ev hev s hs => ?_) ⟨.empty, .empty⟩
  obtain ⟨held, hp⟩ := hs
  have hid := hids ev hev
  rcases ev with ⟨index, r⟩ | _ | ⟨now, id⟩ | ⟨clock, extend⟩ | _
  · have hlessor := applyV3Request_lessor rt s index r
    simp only [EtcdServer.step]
    rcases hx : s.applyV3Request rt index r with e | x
    · exact True.intro
    · rw [hx] at hlessor
      rcases hlessor with heq | ⟨c, hc, heq⟩
      · exact ⟨held, heq ▸ hp⟩
      · exact ⟨_, heq ▸ hp.step (hc hid)⟩
  · exact ⟨held, hp⟩
  · exact ⟨_, hp.step (c := .renew now id) trivial⟩
  · exact ⟨_, hp.step (c := .promote clock extend) trivial⟩
  · exact ⟨_, hp.step (c := .demote) trivial⟩

theorem Refines.persisted (hr : Refines fresh s m) (hp : Persisted s.lessor held) :
    Persisted s.lessor m.leases := by
  rwa [show m.leases = held from ext_find fun id => by rw [← hr.leases, hp.map]]

theorem Lease.Lessor.Persisted.mem_bucket {le : Lease.Lessor} (hp : Persisted le held)
    (id ttl : ℤ) : (∃ k, le.b.find k = some ⟨id, ttl⟩) ↔ held.find id = some ttl := by
  simp only [hp.bucket]
  constructor
  · rintro ⟨_, -, hf⟩
    exact hf
  · exact fun hf => ⟨_, rfl, hf⟩

end Bucket

section Snapshot

variable {s₀ : EtcdServer}

/-- A member with a store restored from a snapshot and the leases of its bucket. -/
def EtcdServer.installed (s : EtcdServer) (be : Backend) (store : Store) : EtcdServer where
  kv := { s.kv with
    store := { store with
      le := some (s.lessor.recover be.lease).itemSets
      changes := s.kv.store.changes }
    consistentIndex := be.consistentIndex }
  lessor := s.lessor.recover be.lease
  rd := .consistent

theorem EtcdServer.itemSet_installed (s : EtcdServer) (be : Backend) (store : Store) (id : ℤ) :
    (s.installed be store).itemSet id = [] := by
  simp [itemSet, installed, Lease.Lessor.itemSets, find_mapVal]
  rcases (s.lessor.recover be.lease).leaseMap.find id with _ | l <;> rfl

theorem Refines.applySnapshot (hr : Refines fresh s₀ m) (s : EtcdServer)
    (hle : s.kv.store.le.isSome) :
    ∃ store, s.applySnapshot s₀.backend = .ok (s.installed s₀.backend store, s₀.resume)
      ∧ s₀.Restores s.kv.store.le store := by
  obtain ⟨store, hnew, hres⟩ := hr.newStore hle
  refine ⟨store, ?_, hres⟩
  unfold EtcdServer.applySnapshot EtcdServer.backend
  simp only [hnew]
  rfl

end Snapshot

end EtcdCompat
