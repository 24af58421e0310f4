import EtcdCompat.Proofs.ServerSim

/-!
# Runs of the server

Every request does to the server what it does to the machine, whatever order the loop of a revoke
takes, and what else happens to the server, the batches of compaction jobs and the lessor's own
calls, the machine does not see.
-/

namespace EtcdCompat

variable {fresh : Prop} {s : EtcdServer} {m : Machine}

structure Refines (fresh : Prop) (s : EtcdServer) (m : Machine) : Prop where
  serves : s.kv.Serves fresh m
  leases : ∀ id, (s.lessor.leaseMap.find id).map (·.ttl) = m.leases.find id
  lease : ∀ id l, s.lessor.leaseMap.find id = some l → l.id = id ∧ Lease.minLeaseTTL ≤ l.ttl
  bank : ∀ k pb, s.lessor.b.find k = some pb → pb.id ≠ NoLease ∧ Lease.minLeaseTTL ≤ pb.ttl
  rd : s.rd = m.rd

theorem Refines.empty : Refines fresh {} {} where
  serves := .of_follows (.of_sim (Store.Sim.empty _) rfl) rfl rfl rfl
  leases _ := rfl
  lease _ _ h := by simp at h
  bank _ _ h := by simp at h
  rd := rfl

theorem Refines.sim (hr : Refines True s m) :
    ∃ finished, Store.Sim { s.kv.store with finishedCompact := finished } m.history := by
  have hf := hr.serves.follows
  obtain ⟨c₀, -, finished, hfresh, hs⟩ := hf.sim
  rw [Store.txnBegin_of_sub (hr.serves.begun trivial)] at hs
  refine ⟨finished, ?_⟩
  rw [hfresh trivial, ← hf.compactRev] at hs
  exact hs

theorem Refines.known (hr : Refines fresh s m) (lease : ℤ) :
    (lease ≠ NoLease ∧ s.lessor.lookup lease = none) ↔ m.known lease = false := by
  unfold Machine.known Lease.Lessor.lookup
  rw [← hr.leases]
  by_cases hl : lease = NoLease <;> simp [hl]

namespace Machine

theorem transact_frame (m : Machine) (index : ℕ) (f : Bool → History → Except Fatal History) :
    Yields (fun _ => True) (fun m' => m'.leases = m.leases ∧ m'.rd = m.rd
      ∧ m'.compactRev = m.compactRev) (m.transact index f) := by
  unfold transact
  split_ifs
  · exact (Yields.trivial _).bind fun _ _ => ⟨rfl, rfl, rfl⟩
  · exact (Yields.trivial _).bind fun _ _ => ⟨rfl, rfl, rfl⟩

end Machine

theorem Refines.transact {α : Type} (hr : Refines fresh s m) (index : ℕ)
    {x : Except Fatal (ConsistentStore × α)} {f : Bool → History → Except Fatal History}
    (hg : Agree (fun x h' =>
      ConsistentStore.Inside fresh (s.kv.txnBegin index) m.compactRev x.1 h') x
      (f (s.kv.txnBegin index).skip m.history))
    (hskip : ∀ h, f true m.history = .ok h → h = m.history) :
    Agree (fun x m' => Refines fresh { s with kv := x.1.txnEnd } m') x (m.transact index f) := by
  refine ((hr.serves.transact index hg hskip).and_right (m.transact_frame index f)).mono
    fun x m' hx => ?_
  obtain ⟨hs, hl, hrd, -⟩ := hx
  exact ⟨hs, fun id => by rw [hl]; exact hr.leases id, hr.lease, hr.bank,
    by rw [hrd]; exact hr.rd⟩

section Txn

namespace Machine

def comparedRev (m : Machine) : ℤ := if m.history.main ≤ m.compactRev then 0 else m.history.main

theorem refused_zero (hw : m.history.WF) (hsub : m.history.sub = 0) :
    m.history.refused m.compactRev 0
      = if m.history.main ≤ m.compactRev then some .errCompacted else none := by
  have hpos := hw.main_pos
  have hcur : m.history.curRev = m.history.main := by
    unfold History.curRev
    rw [hsub]
    rfl
  rw [History.refused, if_pos le_rfl, hcur, if_neg (by omega : ¬ (0 : ℤ) > m.history.main)]

end Machine

variable {kv : ConsistentStore}

theorem ConsistentStore.Serves.applyCompare (hc : kv.Serves fresh m) (c : Compare) :
    applyCompare kv c = .ok (m.comparedRev, m.compareOk c) := by
  unfold EtcdCompat.applyCompare Machine.compareOk Machine.comparedRev
  rw [show kv.store.range c.key none 1 0 = kv.store.txnBegin.range c.key none 1 0 from rfl,
    hc.follows.range_current hc.sub, Machine.refused_zero hc.follows.wf hc.sub]
  split_ifs
  · rfl
  · rcases m.history.contents.find c.key with _ | kv <;> rfl

theorem ConsistentStore.Serves.applyCompares (hc : kv.Serves fresh m) :
    ∀ (cs : List Compare) (revision : ℤ), applyCompares kv revision cs
      = .ok (if cs = [] then revision else m.comparedRev, cs.all m.compareOk)
  | [], revision => rfl
  | c :: cs, _ => by
    unfold EtcdCompat.applyCompares
    rw [hc.applyCompare c]
    simp [bind, Except.bind]
    rcases m.compareOk c with _ | _
    · rfl
    · rw [if_pos rfl, hc.applyCompares cs]
      simp

theorem Refines.checkRequestLeases (hr : Refines fresh s m) : ∀ reqs : List RequestUnion,
    (checkRequestLeases s.lessor reqs).toOption.isSome = reqs.all m.leaseKnown
  | [] => rfl
  | req :: reqs => by
    have ih := hr.checkRequestLeases reqs
    rcases req with r | (_ | p) | dr | _
    · exact ih
    · exact ih
    · unfold EtcdCompat.checkRequestLeases
      simp [hr.known, Machine.leaseKnown]
      rcases hk : m.known p.lease with _ | _
      · rfl
      · exact ih
    · exact ih
    · exact ih

theorem Refines.checkRequestRange (hr : Refines fresh s m) : ∀ reqs : List RequestUnion,
    (checkRequestRange s.kv reqs).toOption.isSome = reqs.all m.rangeAllowed
  | [] => rfl
  | req :: reqs => by
    have ih := hr.checkRequestRange reqs
    have hrev : s.kv.store.rev = m.history.main := by
      rw [Store.rev, show s.kv.store.currentRev.main = s.kv.store.txnBegin.currentRev.main from rfl,
        hr.serves.follows.cur]
    have hfirst : s.kv.store.firstRev = m.compactRev := hr.serves.follows.compactRev
    rcases req with (_ | r) | p | dr | _
    · exact ih
    · unfold EtcdCompat.checkRequestRange
      simp [hrev, hfirst, Machine.rangeAllowed]
      by_cases h0 : r.revision = 0
      · simp [h0, ih]
      · by_cases h1 : r.revision ≤ m.history.main
        · by_cases h2 : m.compactRev ≤ r.revision
          · simp [h0, h1, h2, not_lt.2 h1, not_lt.2 h2, ih]
          · simp [h0, h1, h2, not_lt.2 h1, not_le.1 h2, Except.toOption]
        · simp [h0, h1, not_le.1 h1, Except.toOption]
    · exact ih
    · exact ih
    · exact ih

theorem Refines.applyTxn (hr : Refines fresh s m) (rt : Runtime) (index : ℕ) (txn : TxnRequest) :
    Agree (fun x m' => Refines fresh { s with kv := x.1 } m')
      (applyTxn rt s.kv s.lessor index txn)
      (if (m.branch txn).all m.leaseKnown ∧ (m.branch txn).all m.rangeAllowed then
        m.transact index fun skip h => (m.branch txn).foldlM (Machine.union m.compactRev skip) h
      else .ok m) := by
  unfold EtcdCompat.applyTxn
  rw [hr.serves.applyCompares txn.compare 0]
  generalize (if txn.compare = [] then (0 : ℤ) else m.comparedRev) = revision
  simp only [bind, Except.bind]
  rw [show (if txn.compare.all m.compareOk then txn.success else txn.failure)
    = m.branch txn from rfl]
  have hleases := hr.checkRequestLeases (m.branch txn)
  have hranges := hr.checkRequestRange (m.branch txn)
  rcases hcl : EtcdCompat.checkRequestLeases s.lessor (m.branch txn) with e | _
  · rw [hcl] at hleases
    rw [if_neg fun hall => by rw [hall.1] at hleases; cases hleases]
    exact hr
  rcases hcr : EtcdCompat.checkRequestRange s.kv (m.branch txn) with e | _
  · rw [hcr] at hranges
    rw [if_neg fun hall => by rw [hall.2] at hranges; cases hranges]
    exact hr
  rw [hcl] at hleases
  rw [hcr] at hranges
  rw [if_pos ⟨hleases.symm, hranges.symm⟩]
  have htxn := hr.transact index
    (f := fun skip h => (m.branch txn).foldlM (Machine.union m.compactRev skip) h)
    ((hr.serves.begin index).unions rt (m.branch txn))
    fun h hh => ConsistentStore.unions_skip _ hh
  exact htxn.bind_left fun x m' hx => ⟨_, rfl, hx⟩

end Txn

section Requests

variable {c : ConsistentStore}

section

variable (hr : Refines fresh s m)
include hr

theorem Refines.applyRange (rt : Runtime) (r : RangeRequest) :
    Agree (fun _ _ => True) (applyRange rt false s.kv r)
      (Machine.range m.compactRev false m.history r) := by
  have hread : ∀ stop limit, ∃ res, kvRange false s.kv r.key stop limit r.revision = .ok res
      ∧ res.err = m.history.refused m.compactRev r.revision := fun stop limit => by
    exact hr.serves.follows.rangeKeys_err r.key stop limit r.revision
  exact (applyRange_agree rt hread).mono fun _ _ _ => trivial

theorem Refines.applyPut (index : ℕ) (p : PutRequest) :
    Agree (fun x m' => Refines fresh { s with kv := x.1 } m') (applyPut s.kv s.lessor index p)
      (if m.known p.lease then
        m.transact index fun skip h => Machine.union m.compactRev skip h (.requestPut p)
      else .ok m) := by
  unfold EtcdCompat.applyPut
  rw [if_congr (hr.known p.lease) rfl rfl]
  rcases m.known p.lease with _ | _
  · exact hr
  · have hput := hr.transact index
      (f := fun skip h => Machine.union m.compactRev skip h (.requestPut p))
      ((hr.serves.begin index).txnPut p) fun h hh => ConsistentStore.union_skip hh
    rw [if_neg (by decide), if_pos rfl]
    refine Agree.bind_left (R := fun (x : ConsistentStore × ℤ) m' => Refines fresh { s with kv :=
      x.1 } m')
      (hput.bind_left fun x m' hx => ⟨_, rfl, hx⟩) fun x m' hx => ⟨_, rfl, hx⟩

theorem Refines.applyDeleteRange (index : ℕ) (dr : DeleteRangeRequest) :
    Agree (fun x m' => Refines fresh { s with kv := x.1 } m') (applyDeleteRange s.kv index dr)
      (m.transact index fun skip h =>
        Machine.union m.compactRev skip h (.requestDeleteRange dr)) := by
  have hdel := hr.transact index
    (f := fun skip h => Machine.union m.compactRev skip h (.requestDeleteRange dr))
    ((hr.serves.begin index).txnDeleteRange dr) fun h hh => ConsistentStore.union_skip hh
  refine Agree.bind_left
    (R := fun (x : ConsistentStore × ℤ × ℤ) m' => Refines fresh { s with kv := x.1 } m')
    (hdel.bind_left fun x m' hx => ⟨_, rfl, hx⟩) fun x m' hx => ⟨_, rfl, hx⟩

theorem Refines.compact (revision : ℤ) : ∃ store err, s.kv.store.compact revision = .ok (store, err)
      ∧ (err ≠ none → store = s.kv.store)
      ∧ Refines fresh { s with kv := { s.kv with store } }
        (if revision ≤ m.compactRev ∨ revision > m.history.main then m
          else { m with compactRev := revision }) := by
  obtain ⟨s', err, heq, hcase⟩ := hr.serves.follows.compact revision
  obtain ⟨s₁, heq₁, rfl⟩ := s.kv.store.compact_of_txnBegin heq
  refine ⟨s₁, err, heq₁, (Store.compact_frame heq₁).1, ?_⟩
  split_ifs at hcase ⊢ with hrefused
  · obtain rfl := (Store.compact_frame heq₁).1 hcase.2
    exact hr
  · refine ⟨⟨hcase.1, fun hfresh => ?_, hr.serves.sub, hr.serves.index, hr.serves.notified⟩,
      hr.leases, hr.lease, hr.bank, hr.rd⟩
    rw [(Store.compact_frame heq₁).2]
    exact hr.serves.begun hfresh

theorem Refines.applyCompaction (revision : ℤ) :
    Agree (fun x m' => Refines fresh { s with kv := x.1 } m') (applyCompaction s.kv revision)
      (.ok (if revision ≤ m.compactRev ∨ revision > m.history.main then m
        else { m with compactRev := revision })) := by
  obtain ⟨store, err, heq, herr, hr'⟩ := hr.compact revision
  have hres := hr'.serves.follows.range_current hr'.serves.sub compactionKey
  unfold EtcdCompat.applyCompaction
  rw [heq]
  rcases err with _ | e
  · simp only [bind, Except.bind, show store.range compactionKey none 1 0 = _ from hres]
    exact hr'
  · obtain rfl := herr (by simp)
    exact hr'

end

theorem ConsistentStore.Serves.setItemSets (hc : c.Serves fresh m) (f : Lessor → Lessor) :
    ConsistentStore.Serves fresh
      { c with store := { c.store with le := c.store.le.map f } } (m.setItemSets f) := by
  have hle : c.store.le = m.history.le := hc.follows.lessor
  refine { hc with follows := ?_ }
  simp only [hle]
  exact hc.follows.setLessor (by simp)

theorem Refines.applyLeaseCreate (hr : Refines fresh s m) (rt : Runtime) (index : ℕ) (id ttl : ℤ) :
    Refines fresh (s.applyLeaseCreate rt index id ttl).1 (m.grant id ttl) := by
  have hleases := hr.leases id
  unfold EtcdServer.applyLeaseCreate Machine.grant
  rcases hg : s.lessor.grant (rt.clock index) id ttl with e | ⟨le', l⟩
  · have hno : id = NoLease ∨ (m.leases.find id).isSome := by
      unfold Lease.Lessor.grant at hg
      split_ifs at hg with h1 h2
      · exact .inl h1
      · rw [← hleases]
        exact .inr (by simpa using h2)
    rw [if_pos hno]
    exact hr
  · obtain ⟨hne, hnew, hid, httl, -, rfl⟩ := Lease.Lessor.grant_ok hg
    rw [hnew] at hleases
    have hyes : ¬ (id = NoLease ∨ (m.leases.find id).isSome) := by
      rw [← hleases]
      simp [hne]
    rw [if_neg hyes]
    refine ⟨?_, fun id' => ?_, fun id' l' hl' => ?_, fun k pb hf => ?_, hr.rd⟩
    · have hs := ConsistentStore.Serves.setItemSets (m := { m with
        leases := m.leases.insert id (max ttl Lease.minLeaseTTL) })
        ⟨hr.serves.follows, hr.serves.begun, hr.serves.sub, hr.serves.index,
          hr.serves.notified⟩ (·.insert id [])
      exact hs
    · simp only [EtcdServer.setItemSets, Machine.setItemSets, OrdMap.find_insert, ← hr.leases]
      split_ifs
      · rw [Option.map_some, httl]
      · rfl
    · simp only [EtcdServer.setItemSets, OrdMap.find_insert] at hl'
      split_ifs at hl' with heq
      · rw [← Option.some.inj hl', httl, hid]
        exact ⟨heq, le_max_right _ _⟩
      · exact hr.lease id' l' hl'
    · simp only [EtcdServer.setItemSets, Lease.persistTo, OrdMap.find_insert] at hf
      split_ifs at hf
      · rw [← Option.some.inj hf, httl, hid]
        exact ⟨hne, le_max_right _ _⟩
      · exact hr.bank k pb hf

theorem ConsistentStore.Serves.deleteItem (hc : c.Serves fresh m) (index : ℕ) (key : Bytes) :
    Agree (fun c' m' => c'.Serves fresh m' ∧ m'.leases = m.leases ∧ m'.rd = m.rd)
      (EtcdServer.deleteItem m.rd index c key) (m.deleteItem index key) := by
  unfold EtcdServer.deleteItem Machine.deleteItem
  rcases hrd : m.rd with _ | _
  · have hdel := hc.watchableDeleteRange key none
    rcases hx : c.watchableDeleteRange key none with e | x <;>
      rcases hy : m.history.deleteRange key none with e' | h <;> rw [hx, hy] at hdel
    · exact hdel
    · exact hdel
    · exact hdel.elim
    · have hdel : ConsistentStore.Serves fresh x.1 _ := hdel
      exact ⟨{ hdel with }, rfl, rfl⟩
  · have hdel := (hc.transact index
      (f := fun skip h => if skip then .ok h else h.deleteRange key none)
      ((hc.begin index).txnDeleteRange ⟨key, none⟩)
      fun h hh => (Except.ok.inj hh).symm).and_right (m.transact_frame index _)
    have hmap : (c.deleteRange index key none).map (·.1)
        = (c.txnBegin index).txnDeleteRange key none >>= fun x => .ok x.1.txnEnd := by
      unfold ConsistentStore.deleteRange
      rcases (c.txnBegin index).txnDeleteRange key none with e | x <;> rfl
    simp only [hmap]
    exact hdel.bind_left fun x m' hx => ⟨_, rfl, hx.1, hx.2.1, hx.2.2.1.trans hrd⟩

theorem Refines.itemSet (hr : Refines fresh s m) (id : ℤ) : s.itemSet id = m.itemSet id := by
  unfold EtcdServer.itemSet Machine.itemSet
  rw [show s.kv.store.le = m.history.le from hr.serves.follows.lessor]

theorem Refines.applyLeaseRevoke (hr : Refines fresh s m) (rt : Runtime) (index : ℕ) (id : ℤ) :
    Agree (fun x m' => Refines fresh x.1 m') (s.applyLeaseRevoke rt index id)
      (m.revoke (rt.order index) index id) := by
  have hleases := hr.leases id
  have hitems := hr.itemSet id
  unfold EtcdServer.applyLeaseRevoke Machine.revoke
  rcases hrev : s.lessor.revoke id with e | le'
  · have hnone : (m.leases.find id).isNone := by
      unfold Lease.Lessor.revoke at hrev
      rcases hl : s.lessor.leaseMap.find id with _ | l
      · rw [← hleases, hl]
        rfl
      · simp [hl] at hrev
    rw [if_pos hnone]
    exact hr
  · obtain ⟨l, hl, rfl⟩ := Lease.Lessor.revoke_ok hrev
    have hid := (hr.lease id l hl).1
    rw [hl] at hleases
    rw [if_neg (by rw [← hleases]; simp), hitems]
    have hloop : Agree (fun c m' => c.Serves fresh m' ∧ m'.leases = m.leases ∧ m'.rd = m.rd)
        ((rt.order index (m.itemSet id)).foldlM (EtcdServer.deleteItem s.rd index) s.kv)
        ((rt.order index (m.itemSet id)).foldlM (Machine.deleteItem index) m) := by
      refine Agree.foldlM (fun key _ c m' hc => ?_) ⟨hr.serves, rfl, rfl⟩
      obtain ⟨hc, h1, h2⟩ := hc
      have hdel := hc.deleteItem index key
      rw [h2] at hdel
      rw [hr.rd]
      exact hdel.mono fun c' m'' hd => ⟨hd.1, hd.2.1.trans h1, hd.2.2⟩
    refine hloop.bind fun c m' hc => ?_
    obtain ⟨hc, h1, h2⟩ := hc
    refine ⟨?_, fun id' => ?_, fun id' l' hl' => ?_, fun k pb hf => ?_, hr.rd.trans h2.symm⟩
    · have hs := ConsistentStore.Serves.setItemSets (m := { m' with leases := m'.leases.erase id })
        { hc with } (·.erase id)
      exact hs
    · simp only [EtcdServer.setItemSets, Machine.setItemSets, OrdMap.find_erase, h1, ← hr.leases,
        hid]
      split_ifs <;> rfl
    · simp only [EtcdServer.setItemSets, OrdMap.find_erase] at hl'
      split_ifs at hl'
      exact hr.lease id' l' hl'
    · simp only [EtcdServer.setItemSets, Lease.removeFrom, OrdMap.find_erase] at hf
      split_ifs at hf
      exact hr.bank k pb hf

end Requests

theorem Refines.applyV3Request (hr : Refines fresh s m) (rt : Runtime) (index : ℕ) (r : Request) :
    Agree (fun x m' => Refines fresh x.1 m') (s.applyV3Request rt index r)
      (m.apply (rt.order index) index r) := by
  rcases r with r | p | dr | txn | rev | ⟨id, ttl⟩ | id
  · exact (hr.applyRange rt r).bind fun x e _ => hr
  · exact (hr.applyPut index p).bind_left fun x m' hx => ⟨_, rfl, hx⟩
  · exact (hr.applyDeleteRange index dr).bind_left fun x m' hx => ⟨_, rfl, hx⟩
  · exact (hr.applyTxn rt index txn).bind_left fun x m' hx => ⟨_, rfl, hx⟩
  · exact (hr.applyCompaction rev).bind_left fun x m' hx => ⟨_, rfl, hx⟩
  · exact hr.applyLeaseCreate rt index id ttl
  · exact hr.applyLeaseRevoke rt index id

theorem Refines.setLessor (hr : Refines fresh s m) {le : Lease.Lessor} (hb : le.b = s.lessor.b)
    (hmap : ∀ id, (le.leaseMap.find id).map (fun l => (l.id, l.ttl))
      = (s.lessor.leaseMap.find id).map fun l => (l.id, l.ttl)) :
    Refines fresh { s with lessor := le } m := by
  refine ⟨hr.serves, fun id => ?_, fun id l hl => ?_, by rw [hb]; exact hr.bank, hr.rd⟩
  · have := congrArg (Option.map Prod.snd) (hmap id)
    simp [Function.comp_def] at this
    rw [this, hr.leases]
  · have := hmap id
    rw [hl, Option.map_some, eq_comm, Option.map_eq_some_iff] at this
    obtain ⟨l', hl', heq⟩ := this
    simp at heq
    rw [← heq.1, ← heq.2]
    exact hr.lease id l' hl'

theorem Refines.step (hr : Refines fresh s m) (rt : Runtime) (ev : EtcdServer.Event) :
    Agree (Refines fresh) (s.step rt ev) (m.step rt.order ev) := by
  have hexp : ∀ c : Lease.Lessor.Call, c.expiryOnly →
      Refines fresh { s with lessor := s.lessor.step c } m := fun c hc =>
    have hkept := Lease.Lessor.step_expiryOnly (fun id l hl => (hr.lease id l hl).2) hc
    hr.setLessor hkept.1 hkept.2
  rcases ev with ⟨index, r⟩ | _ | ⟨now, id⟩ | ⟨clock, extend⟩ | _
  · have hreq := hr.applyV3Request rt index r
    simp only [EtcdServer.step, Machine.step]
    rcases hx : s.applyV3Request rt index r with e | x <;>
      rcases hy : m.apply (rt.order index) index r with e' | m' <;> rw [hx, hy] at hreq
    · exact hreq
    · exact hreq
    · exact hreq.elim
    · exact hreq
  · have hbatch := s.kv.store.txnBegin_scheduleCompaction
    obtain ⟨bucket, finished, jobs, hframe⟩ := s.kv.store.scheduleCompaction_frame
    refine ⟨⟨?_, fun hfresh => ?_, hr.serves.sub, hr.serves.index, hr.serves.notified⟩, hr.leases,
      hr.lease, hr.bank, hr.rd⟩
    · rw [← hbatch]
      exact hr.serves.follows.scheduleCompaction
    · rw [hframe]
      exact hr.serves.begun hfresh
  · exact hexp _ rfl
  · exact hexp _ rfl
  · exact hexp _ rfl

theorem run_refines (rt : Runtime) (evs : List EtcdServer.Event) :
    Agree (Refines True) (EtcdServer.run rt evs) (Machine.run rt.order evs) :=
  Agree.foldlM (fun ev _ _ _ hr => hr.step rt ev) Refines.empty

end EtcdCompat
