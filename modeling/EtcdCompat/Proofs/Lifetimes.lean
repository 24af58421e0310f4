import EtcdCompat.Proofs.LeaseRestore

/-!
# Servers over their lifetimes

A restart or a snapshot rebuilds the store from the records that are left and the lessor from its
bucket, and the server refines a machine again. The item sets need not be those of the keys' leases
any more. What every entry keeps is `Listed`: there is one for each lease held.
-/

namespace EtcdCompat

open OrdMap Store

variable {d : ℤ → Bool} {le : Lessor} {key : Bytes} {id : ℤ}

theorem Lessor.Holds.detachLease (hd : le.Holds d) (id : ℤ) (key : Bytes) :
    Yields (fun _ => ¬ (id = NoLease ∨ d id)) (fun o => (id = NoLease ∨ d id)
      ∧ ∃ le', o = some le' ∧ le'.Holds d) (Store.detachLease (some le) id key) := by
  unfold Store.detachLease
  split_ifs with hid
  · exact ⟨.inl hid, le, rfl, hd⟩
  · simp [Lessor.detach]
    rcases hf : le.find id with _ | items
    · have := hd id
      simp [hf] at this
      simp [Yields, hid, ← this]
    · have hheld : d id = true := by rw [← hd, hf]; rfl
      exact ⟨.inr hheld, _, rfl, hd.insert hheld _⟩

theorem Lessor.Holds.attachLease (hd : le.Holds d) (id : ℤ) (key : Bytes) :
    Yields (fun _ => True) (fun o => ∃ le', o = some le' ∧ le'.Holds d)
      (Store.attachLease (some le) id key) := by
  unfold Store.attachLease
  split_ifs with hid
  · exact ⟨le, rfl, hd⟩
  · simp [Lessor.attach]
    rcases hf : le.find id with _ | items
    · trivial
    · exact ⟨_, rfl, hd.insert (by rw [← hd, hf]; rfl) _⟩

theorem Lessor.Holds.attachItems (hd : le.Holds d) (es : List (RevKey × KeyValue)) :
    Lessor.Holds (es.foldl attachItem le) d := by
  refine List.foldlRecOn (motive := fun le : Lessor => le.Holds d) es _ hd fun le hd e _ => ?_
  unfold attachItem Lessor.attach
  split_ifs
  · exact hd
  · rcases hf : le.find e.2.lease with _ | items
    · exact hd
    · exact hd.insert (by rw [← hd, hf]; rfl) _

namespace History

variable {h : History}

/-- The lessor holds the leases `d`, whatever is attached to them. -/
def Listed (d : ℤ → Bool) (h : History) : Prop := ∃ le, h.le = some le ∧ le.Holds d

/-- The lease of the key, if it has one, can be detached. -/
def Detachable (d : ℤ → Bool) (h : History) (key : Bytes) : Prop :=
  h.leaseOf key = NoLease ∨ d (h.leaseOf key)

variable (hl : h.Listed d)
include hl

theorem Listed.put (key value : Bytes) (lease : ℤ) :
    Yields (fun _ => True) (Listed d) (h.put key value lease) := by
  obtain ⟨le, hle, hd⟩ := hl
  unfold History.put
  rw [hle]
  rcases hdet : detachLease (some le) (h.leaseOf key) key with e | o
  · trivial
  · obtain ⟨-, le₁, rfl, hd₁⟩ := (hd.detachLease _ key).of_ok hdet
    refine (hd₁.attachLease lease key).bind fun o ho => ?_
    obtain ⟨le₂, rfl, hd₂⟩ := ho
    exact ⟨le₂, rfl, hd₂⟩

theorem Listed.delete (key : Bytes) : Yields (fun _ => ¬ h.Detachable d key)
    (fun h' => h.Detachable d key ∧ h'.Listed d ∧ h'.contents = h.contents.erase key)
    (h.delete key) := by
  obtain ⟨le, hle, hd⟩ := hl
  unfold History.delete
  rw [hle]
  refine (hd.detachLease (h.leaseOf key) key).bind fun o ho => ?_
  obtain ⟨hkey, le', rfl, hd'⟩ := ho
  exact ⟨hkey, ⟨le', rfl, hd'⟩, rfl⟩

theorem Listed.deleteKeys (ks : List Bytes) :
    Yields (fun _ => True) (Listed d) (ks.foldlM History.delete h) :=
  Yields.foldlM (fun k _ _ hl' => (hl'.delete k).imp (fun _ _ => trivial) fun _ hh => hh.2.1) hl

theorem Listed.deleteRange (key : Bytes) (stop : Option Bytes) :
    Yields (fun _ => True) (Listed d) (h.deleteRange key stop) := hl.deleteKeys _

theorem Listed.deleteOne (key : Bytes) : Yields (fun _ => ¬ h.Detachable d key)
    (fun h' => h.Detachable d key ∧ h'.Listed d ∧ h'.contents = h.contents.erase key)
    (h.deleteRange key none) := by
  unfold History.deleteRange
  rw [Contents.within_none]
  rcases hf : h.contents.find key with _ | kv
  · refine ⟨.inl (by simp [leaseOf, hf]), hl, ext_find fun k => ?_⟩
    rw [find_erase]
    split_ifs with hk
    · rw [hk, hf]
    · rfl
  · exact (hl.delete key).bind fun _ hh => hh

end History

namespace Machine

variable {m : Machine}

/-- There is an item set for each lease held. -/
structure Listed (m : Machine) : Prop where
  history : m.history.Listed m.holds
  noLease : m.holds NoLease = false

variable (hl : m.Listed)
include hl

theorem Listed.grant (id ttl : ℤ) : (m.grant id ttl).Listed := by
  unfold Machine.grant
  split_ifs with hid
  · exact hl
  · obtain ⟨⟨le, hle, hd⟩, hno⟩ := hl
    refine ⟨⟨le.insert id [], ?_, fun id' => ?_⟩, ?_⟩
    · simp [setItemSets, hle]
    · simp only [holds, setItemSets, find_insert]
      split_ifs
      · rfl
      · exact hd id'
    · simp only [holds, setItemSets, find_insert, if_neg fun h => hid (.inl h)]
      exact hno

theorem Listed.erase (id : ℤ) :
    ({ m with leases := m.leases.erase id }.setItemSets (·.erase id)).Listed := by
  obtain ⟨⟨le, hle, hd⟩, hno⟩ := hl
  refine ⟨⟨le.erase id, ?_, fun id' => ?_⟩, ?_⟩
  · simp [setItemSets, hle]
  · simp only [holds, setItemSets, find_erase]
    split_ifs
    · rfl
    · exact hd id'
  · simp only [holds, setItemSets, find_erase]
    split_ifs
    · rfl
    · exact hno

omit hl in
theorem kept_listed : Kept (fun _ => True) False fun d h => h.Listed d ∧ d NoLease = false where
  range _ _ := trivial
  put _ hl := (hl.1.put _ _ _).mono fun _ hh => ⟨hh, hl.2⟩
  deleteRange key stop hl := (hl.1.deleteRange key stop).mono fun _ hh => ⟨hh, hl.2⟩
  txnEnd hl := hl
  grant id ttl hl := ⟨(Listed.grant ⟨hl.1, hl.2⟩ id ttl).1, (Listed.grant ⟨hl.1, hl.2⟩ id ttl).2⟩

theorem Listed.step (order : ℕ → List Bytes → List Bytes) (ev : EtcdServer.Event) :
    Yields (fun _ => True) Listed (m.step order ev) := by
  rcases ev with ⟨index, r⟩ | _ | _ | _ | _
  · have hm : m.Has (fun d h => h.Listed d ∧ d NoLease = false) m.rd := ⟨⟨hl.1, hl.2⟩, rfl⟩
    refine (kept_listed.apply hm r fun id => kept_listed.revoke hm fun hl => ?_).mono
      fun m' hm' => ⟨hm'.1.1, hm'.1.2⟩
    have herase := Listed.erase ⟨hl.1, hl.2⟩ id
    exact ⟨⟨herase.1, herase.2⟩, rfl⟩
  · exact hl
  · exact hl
  · exact hl
  · exact hl

end Machine

section Reopened

theorem Lease.Lessor.find_initAndRecover {le : Lease.Lessor} (hempty : le.leaseMap = .empty)
    {l : Lease} (hf : le.initAndRecover.leaseMap.find id = some l) :
    ∃ k pb, le.b.find k = some pb ∧ l.id = id ∧ pb.id = id ∧ l.ttl = pb.ttl := by
  have hinv : ∀ (vs : List LeasePB) (lm : OrdMap ℤ Lease),
      (vs.foldl (fun lm v => lm.insert v.id ⟨v.id, v.ttl, foreverTime⟩) lm).find id = some l →
      lm.find id = some l ∨ ∃ pb ∈ vs, l.id = id ∧ pb.id = id ∧ l.ttl = pb.ttl := by
    intro vs
    induction vs with
    | nil => exact fun _ h => .inl h
    | cons v vs ih =>
      intro lm h
      rcases ih _ h with h | ⟨pb, hpb, hl⟩
      · rw [find_insert] at h
        split_ifs at h with hv
        · cases h
          exact .inr ⟨v, by simp, hv, hv, rfl⟩
        · exact .inl h
      · exact .inr ⟨pb, by simp [hpb], hl⟩
  rcases hinv _ _ hf with h | ⟨pb, hpb, hl⟩
  · simp [hempty] at h
  · obtain ⟨⟨k, pb'⟩, he, rfl⟩ := List.mem_map.1 hpb
    exact ⟨k, pb', (mem_slice.1 he).1, hl⟩

variable {fresh : Prop} {s s' s₀ : EtcdServer} {m : Machine} {le₀ le₁ : Option Lessor}
  {store : Store}

theorem Refines.follows_restored (hr : Refines fresh s m) (hres : s.Restores le₀ store)
    (hle₀ : le₀.isSome) (hle₁ : le₁.isSome) :
    Follows False ({ store with le := le₁, changes := [] } : Store).txnBegin
      store.compactMainRev (reopened s.kv.store.keyBucket le₁) := by
  obtain ⟨c₀, -, finished, -, hs⟩ := hr.serves.follows.sim
  have hle : store.le = none → (s.kv.store.txnBegin.seen c₀ finished).le = none := fun hn => by
    rw [Restored.frame hres] at hn
    simp [unrestored] at hn
    simp [hn] at hle₀
  have hmain : 1 ≤ (lastRev s.kv.store.keyBucket).main := (hs.reopened_wf hle).main_pos
  have hs' := hs.reopen_seen hres hle
    (c := min (-1) store.compactMainRev) (f := some (min (-1) store.compactMainRev)) rfl
    ((min_le_left _ _).trans (le_trans (by decide) hmain)) fun rk kv hf hrk => by
      have := (hs.wf.bound _ _ (hs.bucket _ _ hf)).2.1
      omega
  replace hs' := (hs'.setChanges []).setLessor
    (show le₁ = none → _ from fun hn => by simp [hn] at hle₁)
  exact ⟨⟨_, min_le_right _ _, _, False.elim, hs'⟩, rfl, (hs'.wf.pending_eq_nil_iff.2 rfl).symm⟩

def EtcdServer.reopened (s : EtcdServer) : Machine where
  history := Store.reopened s.kv.store.keyBucket s.kv.store.le
  compactRev := s.kv.store.compactMainRev
  consistentIndex := s.kv.consistentIndex
  notified := s.kv.notified
  leases := s.lessor.leaseMap.mapVal fun _ l => l.ttl
  rd := s.rd

theorem EtcdServer.holds_reopened (s : EtcdServer) (id : ℤ) :
    s.reopened.holds id = (s.lessor.lookup id).isSome := by
  simp [Machine.holds, EtcdServer.reopened, Lease.Lessor.lookup, find_mapVal]

/-- The leases of a server are those recovered from the bucket of another. -/
def EtcdServer.Recovers (s₀ s : EtcdServer) : Prop := ∃ lessor : Lease.Lessor,
  lessor.leaseMap = .empty ∧ lessor.b = s₀.lessor.b ∧ s.lessor = lessor.initAndRecover

theorem Refines.reopened (hr : Refines fresh s₀ m) (hres : s₀.Restores le₀ store)
    (hle₀ : le₀.isSome) (hstore : s.kv.store = { store with le := le₁, changes := [] })
    (hle₁ : le₁.isSome) (hlessor : s₀.Recovers s) : Refines False s s.reopened := by
  obtain ⟨lessor, hempty, hb, hlessor⟩ := hlessor
  have hlease : ∀ id l, s.lessor.leaseMap.find id = some l → ∃ k pb, s₀.lessor.b.find k = some pb
      ∧ l.id = id ∧ pb.id = id ∧ l.ttl = pb.ttl := fun id l hf => by
    rw [hlessor] at hf
    rw [← hb]
    exact Lease.Lessor.find_initAndRecover hempty hf
  have hbucket : s.kv.store.keyBucket = s₀.kv.store.keyBucket := by
    rw [hstore, Restored.frame hres]
    rfl
  refine ⟨⟨?_, False.elim, rfl, rfl, rfl⟩, fun id => ?_, fun id l hf => ?_, fun k pb hf => ?_, rfl⟩
  · have hf := hr.follows_restored hres hle₀ hle₁
    have hle : s.kv.store.le = le₁ := by rw [hstore]
    have hrev : s.kv.store.compactMainRev = store.compactMainRev := by rw [hstore]
    rw [← hstore, ← hbucket, ← hle, ← hrev] at hf
    exact hf
  · simp [EtcdServer.reopened, find_mapVal]
  · obtain ⟨k, pb, hk, hid, -, httl⟩ := hlease id l hf
    exact ⟨hid, httl ▸ (hr.bank k pb hk).2⟩
  · rw [hlessor] at hf
    exact hr.bank k pb (hb ▸ hf)

theorem EtcdServer.listed_reopened (hr : Refines fresh s₀ m) (hlessor : s₀.Recovers s)
    (es : List (RevKey × KeyValue))
    (hle : s.kv.store.le = some (es.foldl attachItem s.lessor.itemSets)) :
    s.reopened.Listed := by
  obtain ⟨lessor, hempty, hb, hlessor⟩ := hlessor
  refine ⟨⟨_, hle, Lessor.Holds.attachItems (fun id => ?_) es⟩, ?_⟩
  · rw [s.holds_reopened, Lease.Lessor.itemSets, find_mapVal, Option.isSome_map]
    rfl
  · rw [s.holds_reopened, ← Bool.not_eq_true, Option.isSome_iff_exists]
    rintro ⟨l, hl⟩
    rw [hlessor] at hl
    obtain ⟨k, pb, hk, -, hid, -⟩ := Lease.Lessor.find_initAndRecover hempty hl
    exact (hr.bank k pb (hb ▸ hk)).1 hid

end Reopened

namespace EtcdServer

variable {s : EtcdServer} {rt : Runtime}

/-- The servers of a cluster's members, over the lifetimes of their data directories. -/
inductive Reached : EtcdServer → Prop
  | start : Reached {}
  | step {s s' : EtcdServer} (rt : Runtime) (ev : Event) : Reached s → s.step rt ev = .ok s' →
      Reached s'
  | restart {s s' : EtcdServer} {resume : Option ℤ} : Reached s →
      newServer s.backend = .ok (s', resume) → Reached s'
  -- the compaction a restart or a snapshot resumes
  | compact {s : EtcdServer} {store : Store} {err : Option StoreError} (rev : ℤ) : Reached s →
      s.kv.store.compact rev = .ok (store, err) → Reached { s with kv := { s.kv with store } }
  | snapshot {s s₀ s' : EtcdServer} {resume : Option ℤ} : Reached s → Reached s₀ →
      s.applySnapshot s₀.backend = .ok (s', resume) → Reached s'

theorem Reached.steps : ∀ {evs : List Event} {s s' : EtcdServer}, s.Reached →
    evs.foldlM (EtcdServer.step rt) s = .ok s' → s'.Reached
  | [], s, s', hs, hrun => Except.ok.inj hrun ▸ hs
  | ev :: evs, s, s', hs, hrun => by
    rw [List.foldlM_cons] at hrun
    obtain ⟨s₁, hstep, hrun⟩ := exists_ok_of_bind hrun
    exact (hs.step rt ev hstep).steps hrun

theorem Reached.run {evs : List Event} (hrun : EtcdServer.run rt evs = .ok s) :
    s.Reached := Reached.start.steps hrun

/-- A server refines a machine all its life. -/
theorem Reached.refines (h : s.Reached) : ∃ m, Refines False s m ∧ m.Listed := by
  induction h with
  | start => exact ⟨{}, .empty, ⟨_, rfl, fun _ => rfl⟩, rfl⟩
  | step rt ev _ hstep ih =>
    obtain ⟨m, hr, hl⟩ := ih
    obtain ⟨m', hm', hr'⟩ := (hr.step rt ev).exists_ok hstep
    exact ⟨m', hr', (hl.step rt.order ev).of_ok hm'⟩
  | @restart s s' resume _ hnew ih =>
    obtain ⟨m, hr, -⟩ := ih
    obtain ⟨store, hnew', hres⟩ := hr.newServer
    obtain ⟨rfl, -⟩ := Prod.mk.inj (Except.ok.inj (hnew.symm.trans hnew'))
    have hch : store.changes = [] := by
      rw [Restored.frame hres]
      rfl
    have hle : store.le = some (s.kv.store.keyBucket.entries.foldl attachItem
        (Lease.Lessor.newLessor s.lessor.b).itemSets) := by
      rw [Restored.frame hres]
      rfl
    have hstore : store = { store with le := store.le, changes := [] } := by rw [← hch]
    have hrec : s.Recovers { kv := { store, consistentIndex := s.kv.consistentIndex }
                             lessor := Lease.Lessor.newLessor s.lessor.b } :=
      ⟨{ b := s.lessor.b }, rfl, rfl, rfl⟩
    exact ⟨_, hr.reopened hres rfl hstore (by rw [hle]; rfl) hrec, listed_reopened hr hrec _ hle⟩
  | compact rev _ heq ih =>
    obtain ⟨m, hr, hl⟩ := ih
    obtain ⟨store', err', heq', -, hr'⟩ := hr.compact rev
    obtain ⟨rfl, rfl⟩ := Prod.mk.inj (Except.ok.inj (heq.symm.trans heq'))
    refine ⟨_, hr', ?_⟩
    split_ifs
    · exact hl
    · exact ⟨hl.history, hl.noLease⟩
  | @snapshot s s₀ s' resume _ _ hsnap ih ih₀ =>
    obtain ⟨m, hr, hl⟩ := ih
    obtain ⟨m₀, hr₀, -⟩ := ih₀
    obtain ⟨le, hle, -⟩ := hl.history
    have hle : s.kv.store.le = some le := hr.serves.follows.lessor.trans hle
    obtain ⟨store, hsnap', hres⟩ := hr₀.applySnapshot s (by rw [hle]; rfl)
    obtain ⟨rfl, -⟩ := Prod.mk.inj (Except.ok.inj (hsnap.symm.trans hsnap'))
    have hch : s.kv.store.changes = [] := hr.serves.follows.changes.trans
      (hr.serves.follows.wf.pending_eq_nil_iff.2 hr.serves.sub)
    have hstore : (s.installed s₀.backend store).kv.store
        = { store with le := some (s.lessor.recover s₀.lessor.b).itemSets, changes := [] } := by
      rw [← hch]
      rfl
    have hrec : s₀.Recovers (s.installed s₀.backend store) :=
      ⟨{ s.lessor with b := s₀.lessor.b, leaseMap := .empty }, rfl, rfl, rfl⟩
    exact ⟨_, hr₀.reopened hres (by rw [hle]; rfl) hstore rfl hrec,
      listed_reopened hr₀ hrec [] rfl⟩

end EtcdServer

end EtcdCompat
