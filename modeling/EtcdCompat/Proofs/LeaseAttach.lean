import EtcdCompat.Proofs.ServerRun

/-!
# Leases and the keys attached to them

The item sets are the inverse of a function, the lease of each key: a put detaches the key from the
lease it had and attaches it to the one it gets. The deletions of a revoke empty the item set it
loops over, so the lease goes with no key left.
-/

namespace EtcdCompat

open OrdMap Option Function List Contents

variable {d : ℤ → Bool}

/-- The item sets are those of the keys' leases. -/
structure Attached (owner : Bytes → ℤ) (le : Lessor) : Prop where
  noLease : le.find NoLease = none
  nodup : ∀ id items, le.find id = some items → items.Nodup
  items : ∀ id items, le.find id = some items → ∀ k, k ∈ items ↔ owner k = id
  known : ∀ k, owner k ≠ NoLease → (le.find (owner k)).isSome

variable {owner : Bytes → ℤ} {le : Lessor} {key : Bytes} {id : ℤ}

theorem Attached.empty : Attached (fun _ => NoLease) .empty where
  noLease := rfl
  nodup _ _ hf := by simp at hf
  items _ _ hf := by simp at hf
  known _ hk := absurd rfl hk

theorem Attached.replace (ha : Attached owner le) {old : ℤ} {items items' : List Bytes}
    (hf : le.find id = some items) (hnodup : items'.Nodup)
    (hitems : ∀ k, k ∈ items' ↔ update owner key old k = id)
    (hkey : ∀ id', id' ≠ id → id' ≠ NoLease → (owner key = id' ↔ old = id'))
    (hold : old = NoLease ∨ old = id) : Attached (update owner key old)
      (le.insert id items') := by
  have hid : id ≠ NoLease := fun h => by
    rw [h, ha.noLease] at hf
    cases hf
  refine ⟨?_, fun id' is hf' => ?_, fun id' is hf' k => ?_, fun k hk => ?_⟩
  · rw [find_insert_ne hid]
    exact ha.noLease
  · rw [find_insert] at hf'
    split_ifs at hf' with heq
    · cases hf'
      exact hnodup
    · exact ha.nodup _ _ hf'
  · rw [find_insert] at hf'
    split_ifs at hf' with heq
    · cases hf'
      rw [← heq]
      exact hitems k
    · have hid' : id' ≠ NoLease := fun h => by
        rw [h, ha.noLease] at hf'
        cases hf'
      rw [ha.items _ _ hf' k, update_apply]
      split_ifs with hkk
      · rw [hkk]
        exact hkey id' (Ne.symm heq) hid'
      · rfl
  · rw [find_insert]
    split_ifs with heq
    · rfl
    · rw [update_apply] at hk heq ⊢
      split_ifs at hk heq ⊢ with hkk
      · rcases hold with h | h
        · exact absurd h hk
        · exact absurd h.symm heq
      · exact ha.known k hk

theorem Attached.grant (ha : Attached owner le) (hid : id ≠ NoLease) (hnew : le.find id = none) :
    Attached owner (le.insert id []) := by
  have hne : ∀ k, owner k ≠ id := fun k hk => by
    have := ha.known k (by rw [hk]; exact hid)
    rw [hk, hnew] at this
    cases this
  refine ⟨by rw [find_insert_ne hid, ha.noLease], fun id' items hf => ?_,
    fun id' items hf k => ?_, fun k hk => ?_⟩
  · rw [find_insert] at hf
    split_ifs at hf with heq
    · cases hf
      exact nodup_nil
    · exact ha.nodup _ _ hf
  · rw [find_insert] at hf
    split_ifs at hf with heq
    · cases hf
      simpa [← heq] using hne k
    · exact ha.items _ _ hf k
  · rw [find_insert_ne (Ne.symm (hne k))]
    exact ha.known k hk

theorem Attached.erase (ha : Attached owner le) (hne : ∀ k, owner k ≠ id) :
    Attached owner (le.erase id) := by
  have hfind : ∀ {id' items}, (le.erase id).find id' = some items → le.find id' = some items := by
    intro id' items hf
    rw [find_erase] at hf
    split_ifs at hf
    exact hf
  refine ⟨by rw [find_erase, ha.noLease, ite_self],
    fun id' items hf => ha.nodup _ _ (hfind hf),
    fun id' items hf => ha.items _ _ (hfind hf), fun k hk => ?_⟩
  rw [find_erase, if_neg (hne k)]
  exact ha.known k hk

def Lessor.Holds (le : Lessor) (d : ℤ → Bool) : Prop := ∀ id, (le.find id).isSome = d id

theorem Lessor.Holds.insert (hd : le.Holds d) (hid : d id = true) (items : List Bytes) :
    Lessor.Holds (le.insert id items) d := by
  intro id'
  rw [find_insert]
  split_ifs with heq
  · rw [← heq, hid]
    rfl
  · exact hd id'

theorem Attached.detachLease (ha : Attached owner le) (hd : le.Holds d) (key : Bytes) :
    ∃ le', Store.detachLease (some le) (owner key) key = .ok (some le')
      ∧ le'.Holds d ∧ Attached (update owner key NoLease) le' := by
  unfold Store.detachLease
  split_ifs with hid
  · refine ⟨le, rfl, hd, ?_⟩
    rw [← hid, update_eq_self]
    exact ha
  · have hknown := ha.known key hid
    obtain ⟨items, hf⟩ := isSome_iff_exists.1 hknown
    simp only [bind_some, Lessor.detach, hf, map_some]
    refine ⟨_, rfl, hd.insert (by rw [← hd, hknown]) _, ?_⟩
    refine ha.replace hf ((ha.nodup _ _ hf).filter _) (fun k => ?_) (fun id' hne hno =>
      ?_) (.inl rfl)
    · rw [mem_filter, ha.items _ _ hf, update_apply, decide_eq_true_eq]
      split_ifs with hkk
      · exact ⟨fun h => absurd hkk h.2, fun h => absurd h.symm hid⟩
      · exact ⟨And.left, fun h => ⟨h, hkk⟩⟩
    · exact ⟨fun h => absurd h.symm hne, fun h => absurd h.symm hno⟩

theorem Attached.attachLease (ha : Attached owner le) (hd : le.Holds d)
    (howner : owner key = NoLease) (hid : id = NoLease ∨ d id = true) :
    ∃ le', Store.attachLease (some le) id key = .ok (some le')
      ∧ le'.Holds d ∧ Attached (update owner key id) le' := by
  unfold Store.attachLease
  split_ifs with hno
  · refine ⟨le, rfl, hd, ?_⟩
    rw [hno, ← howner, update_eq_self]
    exact ha
  · have hknown := hid.resolve_left hno
    obtain ⟨items, hf⟩ := isSome_iff_exists.1 ((hd id).trans hknown)
    have hnot : key ∉ items := fun hmem =>
      hno (((ha.items _ _ hf key).1 hmem).symm.trans howner)
    simp only [bind_some, Lessor.attach, hf, map_some, if_neg hnot]
    refine ⟨_, rfl, hd.insert hknown _, ?_⟩
    refine ha.replace hf (nodup_cons.2 ⟨hnot, ha.nodup _ _ hf⟩) (fun k => ?_)
      (fun id' hne hno' => ?_) (.inr rfl)
    · rw [mem_cons, ha.items _ _ hf, update_apply]
      split_ifs with hkk
      · exact ⟨fun _ => rfl, fun _ => .inl hkk⟩
      · exact ⟨fun h => h.resolve_left hkk, .inr⟩
    · rw [howner]
      exact ⟨fun h => absurd h.symm hno', fun h => absurd h.symm hne⟩

namespace History

variable {h : History} {d : ℤ → Bool}

/-- The lessor holds the leases `d`, with the live keys that have them attached. -/
def Owned (d : ℤ → Bool) (h : History) : Prop :=
  ∃ le, h.le = some le ∧ le.Holds d ∧ Attached h.leaseOf le

theorem leaseOf_write (h : History) (mark : Bool) (kv : KeyValue) (le : Option Lessor) :
    (h.write mark kv le).leaseOf
      = update h.leaseOf kv.key (if mark then NoLease else kv.lease) := by
  funext k
  rw [update_apply]
  unfold leaseOf History.write
  rcases mark with _ | _
  · simp [find_insert, eq_comm (a := kv.key)]
    split_ifs <;> rfl
  · simp [find_erase]
    split_ifs <;> rfl

theorem Owned.put (ho : h.Owned d) (key value : Bytes) {lease : ℤ}
    (hlease : lease = NoLease ∨ d lease = true) : ∃ le, h.put key value lease = .ok (h.write false
      (putKV (h.main + 1) key value lease (h.contents.find key)) le)
      ∧ (h.write false (putKV (h.main + 1) key value lease (h.contents.find key)) le).Owned
        d := by
  obtain ⟨le, hle, hd, ha⟩ := ho
  obtain ⟨le₁, hdet, hd₁, ha₁⟩ := ha.detachLease hd key
  obtain ⟨le₂, hatt, hd₂, ha₂⟩ := ha₁.attachLease hd₁ (update_self ..) hlease
  refine ⟨some le₂, ?_, le₂, rfl, hd₂, ?_⟩
  · unfold History.put
    rw [hle, hdet]
    simp only [bind, Except.bind]
    rw [hatt]
  · rw [leaseOf_write]
    rw [update_idem] at ha₂
    exact ha₂

theorem Owned.delete (ho : h.Owned d) (key : Bytes) : ∃ h', h.delete key = .ok h' ∧ h'.Owned d
    ∧ h'.contents = h.contents.erase key := by
  obtain ⟨le, hle, hd, ha⟩ := ho
  obtain ⟨le₁, hdet, hd₁, ha₁⟩ := ha.detachLease hd key
  refine ⟨h.write true { key := key } (some le₁), ?_, ⟨le₁, rfl, hd₁, ?_⟩, rfl⟩
  · unfold History.delete
    rw [hle, hdet]
    rfl
  · rw [leaseOf_write]
    exact ha₁

theorem Owned.deleteKeys : ∀ (ks : List Bytes) {h : History}, h.Owned d →
    ∃ h', ks.foldlM History.delete h = .ok h' ∧ h'.Owned d
      ∧ h'.contents = ks.foldl erase h.contents
  | [], h, ho => ⟨h, rfl, ho, rfl⟩
  | k :: ks, h, ho => by
    obtain ⟨h₁, hdel, ho₁, hc₁⟩ := ho.delete k
    obtain ⟨h₂, hdels, ho₂, hc₂⟩ := Owned.deleteKeys ks ho₁
    refine ⟨h₂, ?_, ho₂, ?_⟩
    · rw [foldlM_cons, hdel]
      exact hdels
    · rw [hc₂, hc₁, foldl_cons]

theorem Owned.deleteRange (ho : h.Owned d) (key : Bytes) (stop : Option Bytes) :
    ∃ h', h.deleteRange key stop = .ok h' ∧ h'.Owned d
      ∧ h'.contents = h.contents.deleteRange key stop := by
  obtain ⟨h', hdel, ho', hc⟩ := ho.deleteKeys ((h.contents.within key stop).map (·.1))
  exact ⟨h', hdel, ho', hc.trans (foldl_erase_within _ _ _)⟩

theorem Owned.txnEnd (ho : h.Owned d) : h.txnEnd.Owned d := ho

end History

theorem Contents.deleteRange_none (c : Contents) (key : Bytes) :
    c.deleteRange key none = c.erase key := by
  refine ext_find fun k => ?_
  rw [deleteRange, find_filter, find_erase]
  by_cases hk : k = key <;> simp [InRange, hk]

/-- Where a range of a request stops the server. -/
def RangeFatal (e : Fatal) : Prop := e = .nilSorter ∨ e = .unexpectedTxnError

namespace Machine

variable {m : Machine} {h : History} {d : ℤ → Bool} {index : ℕ} {order : List Bytes → List Bytes}
  {id : ℤ}

def holds (m : Machine) (id : ℤ) : Bool := (m.leases.find id).isSome

/-- Every lease has the keys attached that have it. -/
def Owned (m : Machine) : Prop := m.history.Owned m.holds

theorem range_yields (c : ℤ) (skip : Bool) (h : History) (r : RangeRequest) :
    Yields RangeFatal (fun _ => True) (range c skip h r) := by
  unfold range
  split
  · trivial
  · split_ifs
    · exact .inl rfl
    · trivial

theorem known_iff {lease : ℤ} : m.known lease ↔ lease = NoLease ∨ m.holds lease = true := by
  simp [known, holds]

section Kept

/-- The property holds of the history with the leases held, and the range deleter is `rd`. -/
def Has (P : (ℤ → Bool) → History → Prop) (rd : RangeDeleter) (m : Machine) : Prop :=
  P m.holds m.history ∧ m.rd = rd

/-- The writes of a request keep the property, and stop only as `F` says; that the lease of a put is
known is used if `checked`. -/
structure Kept (F : Fatal → Prop) (checked : Prop) (P : (ℤ → Bool) → History → Prop) : Prop where
  range : ∀ e, RangeFatal e → F e
  put : ∀ {m : Machine} {h : History} {p : PutRequest}, (checked → m.known p.lease) →
    P m.holds h → Yields F (P m.holds) (h.put p.key p.value p.lease)
  deleteRange : ∀ {d : ℤ → Bool} {h : History} (key : Bytes) (stop : Option Bytes), P d h →
    Yields F (P d) (h.deleteRange key stop)
  txnEnd : ∀ {d : ℤ → Bool} {h : History}, P d h → P d h.txnEnd
  grant : ∀ {m : Machine} (id ttl : ℤ), P m.holds m.history →
    P (m.grant id ttl).holds (m.grant id ttl).history

namespace Kept

variable {F : Fatal → Prop} {checked : Prop} {P : (ℤ → Bool) → History → Prop}
  {rd : RangeDeleter} (hk : Kept F checked P)
include hk

theorem union (hh : P m.holds h) (c : ℤ) (skip : Bool) {req : RequestUnion}
    (hreq : checked → m.leaseKnown req) : Yields F (P m.holds) (union c skip h req) := by
  rcases req with (_ | r) | (_ | p) | (_ | dr) | _
  · exact hh
  · refine ((range_yields c skip h r).imp hk.range fun _ h => h).bind fun e _ => ?_
    rcases e with _ | e
    · exact hh
    · exact hk.range _ (.inr rfl)
  · exact hh
  · simp only [Machine.union]
    split_ifs
    · exact hh
    · exact hk.put hreq hh
  · exact hh
  · simp only [Machine.union]
    split_ifs
    · exact hh
    · exact hk.deleteRange _ _ hh
  · exact hh

variable (hm : m.Has P rd)
include hm

theorem transact {f : Bool → History → Except Fatal History}
    (hf : ∀ skip, Yields F (P m.holds) (f skip m.history)) :
    Yields F (Has P rd) (m.transact index f) := by
  unfold Machine.transact
  split_ifs
  · exact (hf true).bind fun _ _ => hm
  · exact (hf false).bind fun h hh => ⟨hk.txnEnd hh, hm.2⟩

theorem apply (r : Request) (hrevoke : ∀ id, Yields F (Has P rd) (m.revoke order index id)) :
    Yields F (Has P rd) (m.apply order index r) := by
  rcases r with r | p | dr | txn | rev | ⟨id, ttl⟩ | id
  · exact ((range_yields _ _ _ _).imp hk.range fun _ h => h).bind fun _ _ => hm
  · simp only [Machine.apply]
    split_ifs with hp
    · exact hk.transact hm fun skip => hk.union hm.1 _ skip fun _ => hp
    · exact hm
  · simp only [Machine.apply]
    exact hk.transact hm fun skip => hk.union hm.1 _ skip fun _ => rfl
  · simp only [Machine.apply]
    split_ifs with hp
    · refine hk.transact hm fun skip => Yields.foldlM (fun req hreq h hh => ?_) hm.1
      exact hk.union hh _ skip fun _ => all_eq_true.1 hp.1 req hreq
    · exact hm
  · simp only [Machine.apply]
    split_ifs
    · exact hm
    · exact hm
  · refine ⟨hk.grant id ttl hm.1, ?_⟩
    unfold Machine.grant
    split_ifs
    · exact hm.2
    · exact hm.2
  · exact hrevoke id

theorem deleteItem (key : Bytes) : Yields F (Has P rd) (m.deleteItem index key) := by
  unfold Machine.deleteItem
  split
  · exact (hk.deleteRange key none hm.1).bind fun h hh => ⟨hk.txnEnd hh, hm.2⟩
  · refine hk.transact hm fun skip => ?_
    split_ifs
    · exact hm.1
    · exact hk.deleteRange key none hm.1

theorem revoke (herase : ∀ {m : Machine}, P m.holds m.history →
      Has P m.rd ({ m with leases := m.leases.erase id }.setItemSets (·.erase id))) :
    Yields F (Has P rd) (m.revoke order index id) := by
  unfold Machine.revoke
  split_ifs
  · exact hm
  · refine (Yields.foldlM (fun key _ _ hm => hk.deleteItem hm key) hm).bind fun m' hm' => ?_
    exact hm'.2 ▸ herase hm'.1

end Kept

end Kept

theorem deleteItem_watchable (ho : m.Owned) (hrd : m.rd = .watchable) (index : ℕ) (key : Bytes) :
    ∃ m', deleteItem index m key = .ok m' ∧ m'.Owned ∧ m'.leases = m.leases ∧ m'.rd = .watchable
      ∧ m'.history.contents = m.history.contents.erase key := by
  obtain ⟨h', hdel, ho', hc⟩ := ho.deleteRange key none
  refine ⟨{ m with history := h'.txnEnd, notified := m.notified ++ h'.notice deleteEvents }, ?_,
    ho', rfl, hrd, hc.trans (deleteRange_none _ _)⟩
  simp only [deleteItem, hrd, hdel]
  rfl

theorem deleteItems_watchable (index : ℕ) : ∀ (ks : List Bytes) {m : Machine},
    m.Owned → m.rd = .watchable →
    ∃ m', ks.foldlM (deleteItem index) m = .ok m' ∧ m'.Owned ∧ m'.leases = m.leases
      ∧ m'.rd = .watchable ∧ m'.history.contents = ks.foldl erase m.history.contents
  | [], m, ho, hrd => ⟨m, rfl, ho, rfl, hrd, rfl⟩
  | k :: ks, m, ho, hrd => by
    obtain ⟨m₁, hdel, ho₁, hl₁, hrd₁, hc₁⟩ := deleteItem_watchable ho hrd index k
    obtain ⟨m₂, hdels, ho₂, hl₂, hrd₂, hc₂⟩ := deleteItems_watchable index ks ho₁ hrd₁
    refine ⟨m₂, ?_, ho₂, hl₂.trans hl₁, hrd₂, ?_⟩
    · rw [foldlM_cons, hdel]
      exact hdels
    · rw [hc₂, hc₁, foldl_cons]

section

variable (ho : m.Owned)
include ho

theorem Owned.grant (id ttl : ℤ) : (m.grant id ttl).Owned := by
  unfold Machine.grant
  split_ifs with hid
  · exact ho
  · obtain ⟨le, hle, hd, ha⟩ := ho
    have hne : id ≠ NoLease := fun h => hid (.inl h)
    have hnew : le.find id = none := by
      rw [← not_isSome_iff_eq_none, hd]
      exact fun h => hid (.inr h)
    refine ⟨le.insert id [], ?_, fun id' => ?_, ha.grant hne hnew⟩
    · simp [setItemSets, hle]
    · simp only [holds, setItemSets, find_insert]
      split_ifs
      · rfl
      · exact hd id'

omit ho in
theorem kept_owned : Kept RangeFatal True fun d h => h.Owned d where
  range _ h := h
  put hp ho := by
    obtain ⟨le, hput, ho'⟩ := ho.put _ _ (known_iff.1 (hp trivial))
    rw [hput]
    exact ho'
  deleteRange key stop ho := by
    obtain ⟨h', hdel, ho', -⟩ := ho.deleteRange key stop
    rw [hdel]
    exact ho'
  txnEnd ho := ho.txnEnd
  grant id ttl ho := Owned.grant ho id ttl

theorem Owned.erase (hne : ∀ k, m.history.leaseOf k ≠ id) :
    ({ m with leases := m.leases.erase id }.setItemSets (·.erase id)).Owned := by
  obtain ⟨le, hle, hd, ha⟩ := ho
  refine ⟨le.erase id, ?_, fun id' => ?_, ha.erase hne⟩
  · simp [setItemSets, hle]
  · simp only [holds, setItemSets, find_erase]
    split_ifs
    · rfl
    · exact hd id'

theorem Owned.mem_itemSet (hid : m.holds id) (key : Bytes) :
    key ∈ m.itemSet id ↔ m.history.leaseOf key = id := by
  obtain ⟨le, hle, hd, ha⟩ := ho
  obtain ⟨items, hf⟩ := isSome_iff_exists.1 ((hd id).trans hid)
  unfold itemSet
  rw [hle, bind_some, hf, getD_some]
  exact ha.items _ _ hf key

theorem Owned.revoke (hrd : m.rd = .watchable) (hord : ∀ ks, (order ks).Perm ks) (index : ℕ)
    (id : ℤ) : ∃ m', m.revoke order index id = .ok m' ∧ m'.Owned ∧ m'.rd = .watchable := by
  unfold Machine.revoke
  split_ifs with hid
  · exact ⟨m, rfl, ho, hrd⟩
  · have hid : m.holds id := by
      rw [holds, isSome_iff_ne_none]
      simpa using hid
    obtain ⟨m', hdel, ho', hl, hrd', hc⟩ :=
      deleteItems_watchable index (order (m.itemSet id)) ho hrd
    rw [hdel]
    refine ⟨_, rfl, ho'.erase fun k hk => ?_, hrd'⟩
    -- a key that still has the lease had it before the loop, which then deleted it
    have hmem : k ∉ order (m.itemSet id) := fun hmem => by
      rw [History.leaseOf, hc, find_foldl_erase, if_pos hmem] at hk
      obtain ⟨le, -, hd, ha⟩ := ho
      have := (hd id).trans hid
      rw [← hk] at this
      simp [ha.noLease] at this
    rw [History.leaseOf, hc, find_foldl_erase, if_neg hmem] at hk
    exact hmem ((hord _).mem_iff.2 ((ho.mem_itemSet hid k).2 hk))

theorem Owned.apply (hrd : m.rd = .watchable) (hord : ∀ ks, (order ks).Perm ks) (index : ℕ)
    (r : Request) :
    Yields RangeFatal (fun m' => m'.Owned ∧ m'.rd = .watchable) (m.apply order index r) := by
  refine kept_owned.apply ⟨ho, hrd⟩ r fun id => ?_
  obtain ⟨m', hrev, hm'⟩ := ho.revoke hrd hord index id
  rw [hrev]
  exact hm'

end

theorem run_owned {order : ℕ → List Bytes → List Bytes}
    (hord : ∀ index ks, (order index ks).Perm ks) (evs : List EtcdServer.Event) :
    Yields RangeFatal (fun m => m.Owned ∧ m.rd = .watchable) (run order evs) := by
  refine Yields.foldlM (fun ev _ m hm => ?_) ⟨⟨.empty, rfl, fun _ => rfl, .empty⟩, rfl⟩
  rcases ev with ⟨index, r⟩ | _ | _ | _ | _
  · exact hm.1.apply hm.2 (hord index) index r
  · exact hm
  · exact hm
  · exact hm
  · exact hm

end Machine

variable {s : Store}

/-- The pair of a live key, read as a put reads the one it replaces. -/
def Store.current (s : Store) (key : Bytes) : Option KeyValue :=
  (s.kvindex.look key (s.currentRev.main + 1)).bind fun x => s.keyBucket.find ⟨x.1, false⟩

theorem Store.current_of_reads {key : Bytes} {l : Option (Revision × KeyValue)}
    (hreads : Reads (s.kvindex.look key (s.currentRev.main + 1)) l)
    (hbucket : ∀ rev kv, l = some (rev, kv) → s.keyBucket.find ⟨rev, false⟩ = some kv) :
    s.current key = l.map (·.2) := by
  unfold Store.current
  rcases l with _ | ⟨rev, kv⟩
  · simp [Reads] at hreads
    rw [hreads]
    rfl
  · rcases hx : s.kvindex.look key (s.currentRev.main + 1) with _ | x
    · rw [hx] at hreads
      cases hreads
    · rw [hx] at hreads
      have hrev := hreads.fst
      simp at hrev
      rw [bind_some, hrev, map_some]
      exact hbucket rev kv rfl

theorem Store.Sim.current_eq {h : History} (hs : s.Sim h) (key : Bytes) :
    s.current key = h.contents.find key := by
  have hle : s.compactMainRev ≤ h.main + 1 := hs.compacted.trans (by omega)
  rw [hs.wf.contents key]
  refine Store.current_of_reads ?_ fun rev kv hl => hs.reads key _ rev kv hle hl
  rw [hs.cur]
  exact hs.look key (h.main + 1) hle

namespace History

variable {h : History} {id : ℤ}

theorem leaseOf_eq_iff (hid : id ≠ NoLease) (key : Bytes) :
    h.leaseOf key = id ↔ ∃ kv, h.contents.find key = some kv ∧ kv.lease = id := by
  unfold leaseOf
  rcases h.contents.find key with _ | kv
  · simpa using hid.symm
  · simp

end History

variable {fresh : Prop} {s : EtcdServer} {m : Machine}

theorem Refines.lookup (hr : Refines fresh s m) (id : ℤ) :
    (s.lessor.lookup id).isSome = m.holds id := by
  unfold Machine.holds Lease.Lessor.lookup
  rw [← hr.leases, isSome_map]

theorem Refines.current (hr : Refines fresh s m) (key : Bytes) :
    s.kv.store.current key = m.history.contents.find key := by
  obtain ⟨c₀, -, finished, -, hs⟩ := hr.serves.follows.sim
  exact hs.current_eq key

theorem run_reaches {rt : Runtime} {evs : List EtcdServer.Event}
    (hrun : EtcdServer.run rt evs = .ok s) :
    ∃ m, Machine.run rt.order evs = .ok m ∧ Refines True s m ∧ m.Owned ∧ m.rd = .watchable := by
  obtain ⟨m, hm, hr⟩ := (run_refines rt evs).exists_ok hrun
  exact ⟨m, hm, hr, (Machine.run_owned rt.order_perm evs).of_ok hm⟩

/-- A run stops at no lease, and the item set of every lease has exactly the keys with it. -/
theorem leases_attached (rt : Runtime) (evs : List EtcdServer.Event) :
    Yields RangeFatal (fun s =>
      (∀ id, (s.lessor.lookup id).isSome → (s.itemSet id).Nodup
        ∧ ∀ key, key ∈ s.itemSet id ↔ ∃ kv, s.kv.store.current key = some kv ∧ kv.lease = id)
      ∧ ∀ key kv, s.kv.store.current key = some kv → kv.lease ≠ NoLease →
        (s.lessor.lookup kv.lease).isSome) (EtcdServer.run rt evs) := by
  refine ((run_refines rt evs).yields (Machine.run_owned rt.order_perm evs)).mono ?_
  rintro s ⟨m, hr, ho, -⟩
  have hown := ho
  obtain ⟨le, hle, hd, ha⟩ := hown
  refine ⟨fun id hid => ?_, fun key kv hkv hlease => ?_⟩
  · rw [hr.lookup] at hid
    have hne : id ≠ NoLease := fun h => by
      rw [← hd, h, ha.noLease] at hid
      cases hid
    obtain ⟨items, hf⟩ := Option.isSome_iff_exists.1 ((hd id).trans hid)
    refine ⟨?_, fun key => ?_⟩
    · rw [hr.itemSet, Machine.itemSet, hle, Option.bind_some, hf, Option.getD_some]
      exact ha.nodup _ _ hf
    · rw [hr.itemSet, ho.mem_itemSet hid, hr.current, History.leaseOf_eq_iff hne]
  · rw [hr.current] at hkv
    rw [hr.lookup, ← hd, ← (History.leaseOf_eq_iff hlease key).2 ⟨kv, hkv, rfl⟩]
    refine ha.known key ?_
    rw [(History.leaseOf_eq_iff hlease key).2 ⟨kv, hkv, rfl⟩]
    exact hlease

end EtcdCompat
