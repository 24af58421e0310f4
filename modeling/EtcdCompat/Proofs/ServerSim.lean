import EtcdCompat.Proofs.LeasePersist
import EtcdCompat.Proofs.ServerStore

/-!
# The server refines its machine

`Refines fresh s m`: the store of the server follows the history of the machine, and the lessor
holds its leases. Every event keeps it: the server and the machine both go on, or stop with the same
panic.
-/

namespace EtcdCompat

open List History Machine

section Range

variable {r : RangeRequest}

theorem sortKVs_unsortable (rt : Runtime) (h : r.unsortable) (kvs : List KeyValue) :
    sortKVs rt r kvs = .error .nilSorter := by
  unfold RangeRequest.unsortable at h
  simp at h
  unfold sortKVs
  rcases h with ⟨ho | ho, hs⟩
  · rw [if_pos ho, hs]
  · rw [if_neg (by rw [ho]; decide), if_pos ho, hs]

theorem sortKVs_ok (rt : Runtime) (h : ¬ r.unsortable) (kvs : List KeyValue) :
    ∃ kvs', sortKVs rt r kvs = .ok kvs' ∧ kvs'.Perm kvs := by
  unfold RangeRequest.unsortable at h
  simp only [Bool.and_eq_true, decide_eq_true_eq, Option.isNone_iff_eq_none] at h
  unfold sortKVs
  split_ifs with h1 h2
  · rcases hs : sorter r.sortTarget with _ | less
    · exact absurd ⟨.inl h1, hs⟩ h
    · exact ⟨_, rfl, rt.sort_perm _ _⟩
  · rcases hs : sorter r.sortTarget with _ | less
    · exact absurd ⟨.inr h2, hs⟩ h
    · exact ⟨_, rfl, rt.sort_perm _ _⟩
  · exact ⟨kvs, rfl, .refl _⟩

theorem applyRange_agree (rt : Runtime) {inTxn : Bool} {kv : ConsistentStore}
    {err : Option StoreError} (hread : ∀ stop limit, ∃ res,
      kvRange inTxn kv r.key stop limit r.revision = .ok res ∧ res.err = err) :
    Agree (fun x e => e = match x with
        | .error e => some e
        | .ok _ => none)
      (applyRange rt inTxn kv r) (match err with
        | some e => .ok (some e)
        | none => if r.unsortable then .error .nilSorter else .ok none) := by
  obtain ⟨res, hres, rfl⟩ := hread (gteRange r.rangeEnd) (fetchLimit r)
  unfold applyRange
  rw [hres]
  simp only [bind, Except.bind]
  rcases res.err with _ | e
  · split_ifs with hu
    · rw [sortKVs_unsortable rt hu]
      rfl
    · obtain ⟨kvs, hkvs, -⟩ := sortKVs_ok rt hu res.kvs
      rw [hkvs]
      simp only []
      split_ifs <;> rfl
  · rfl

end Range

theorem History.pending_deleteKeys : ∀ (ks : List Bytes) {h : History}, h.WF →
    Yields LeaseOnly (fun h' => h'.pending.length = h.pending.length + ks.length)
      (ks.foldlM delete h)
  | [], _, _ => rfl
  | k :: ks, h, hw => by
    rw [foldlM_cons]
    refine (hw.extends_delete k).bind fun h₁ hh => ?_
    obtain ⟨hext, le, rfl⟩ := hh
    refine (pending_deleteKeys ks hext.wf).mono fun h₂ hlen => ?_
    rw [hlen, hw.pending_write, length_append, length_cons, length_cons, length_nil]
    omega

theorem History.WF.pending_deleteRange {h : History} (hw : h.WF) (key : Bytes)
    (stop : Option Bytes) : Yields LeaseOnly
      (fun h' => h'.pending.length = h.pending.length + (h.contents.within key stop).length)
      (h.deleteRange key stop) :=
  (pending_deleteKeys _ hw).mono fun h' hlen => by rw [hlen, length_map]

theorem History.txnEnd_of_sub (h : History) (hsub : h.sub = 0) : h.txnEnd = h := by
  unfold txnEnd
  rw [if_neg (not_not.2 hsub), ← hsub]

namespace ConsistentStore

variable {fresh : Prop} {c c₀ : ConsistentStore} {cm : ℤ} {h : History} {m : Machine}

/-- Within the transaction begun with `c₀`. -/
structure Inside (fresh : Prop) (c₀ : ConsistentStore) (cm : ℤ) (c : ConsistentStore)
    (h : History) : Prop where
  follows : c.store.Follows fresh cm h
  frame : c = { c₀ with store := c.store }

section

variable (hi : Inside fresh c₀ cm c h)
include hi

theorem Inside.index : c.consistentIndex = c₀.consistentIndex := by
  rw [hi.frame]

theorem Inside.notified : c.notified = c₀.notified := by
  rw [hi.frame]

theorem Inside.skip : c.skip = c₀.skip := by
  rw [hi.frame]

theorem Inside.txnPut (p : PutRequest) :
    Agree (fun x h' => Inside fresh c₀ cm x.1 h') (c.txnPut p.key p.value p.lease)
      (union cm c₀.skip h (.requestPut p)) := by
  unfold union ConsistentStore.txnPut
  simp only [hi.skip]
  split_ifs
  · exact hi
  · have hput := hi.follows.put p.key p.value p.lease
    rcases hp : c.store.put p.key p.value p.lease with e | s <;>
      rcases hq : h.put p.key p.value p.lease with e' | h' <;> rw [hp, hq] at hput
    · exact hput
    · exact hput
    · exact hput
    · exact ⟨hput, by rw [hi.frame]⟩

theorem Inside.txnDeleteRange (dr : DeleteRangeRequest) :
    Agree (fun x h' => Inside fresh c₀ cm x.1 h') (c.txnDeleteRange dr.key (gteRange dr.rangeEnd))
      (union cm c₀.skip h (.requestDeleteRange dr)) := by
  unfold union ConsistentStore.txnDeleteRange
  simp only [hi.skip]
  split_ifs
  · exact hi
  · have hdel := hi.follows.deleteRangeCount dr.key (gteRange dr.rangeEnd)
    rcases hp : c.store.deleteRangeCount dr.key (gteRange dr.rangeEnd) with e | ⟨s, n⟩ <;>
      rcases hq : h.deleteRange dr.key (gteRange dr.rangeEnd) with e' | h' <;> rw [hp, hq] at hdel
    · exact hdel
    · exact hdel
    · exact hdel
    · exact ⟨hdel.1, by rw [hi.frame]⟩

theorem Inside.union (rt : Runtime) (req : RequestUnion) :
    Agree (fun x h' => Inside fresh c₀ cm x.1 h') (applyUnion rt c req)
      (union cm c₀.skip h req) := by
  rcases req with (_ | r) | (_ | p) | (_ | dr) | _
  · exact hi
  · have hread : ∀ stop limit, ∃ res, kvRange true c r.key stop limit r.revision = .ok res
        ∧ res.err = if c₀.skip then none else h.refused cm r.revision := fun stop limit => by
      unfold kvRange txnRange
      rw [if_pos rfl, hi.skip]
      split_ifs
      · exact ⟨_, rfl, rfl⟩
      · exact hi.follows.rangeKeys_err r.key stop limit r.revision
    refine (applyRange_agree rt hread).bind fun x e hx => ?_
    rcases x with e' | resp
    · rw [hx]
      rfl
    · rw [hx]
      exact hi
  · exact hi
  · exact (hi.txnPut p).bind_left fun x h' hi' => ⟨_, rfl, hi'⟩
  · exact hi
  · exact (hi.txnDeleteRange dr).bind_left fun x h' hi' => ⟨_, rfl, hi'⟩
  · exact hi

end

theorem Inside.unions (rt : Runtime) : ∀ (reqs : List RequestUnion) {c : ConsistentStore}
    {h : History}, Inside fresh c₀ cm c h →
      Agree (fun x h' => Inside fresh c₀ cm x.1 h') (applyUnions rt c reqs)
      (reqs.foldlM (Machine.union cm c₀.skip) h)
  | [], _, _, hi => hi
  | req :: reqs, c, h, hi => by
    rw [foldlM_cons]
    refine (hi.union rt req).bind fun x h' hi' => ?_
    exact (Inside.unions rt reqs hi').bind_left fun y h'' hi'' => ⟨_, rfl, hi''⟩

/-- The store of the machine, between transactions. Only of a fresh one it is known that no sub
revision is left over. -/
structure Serves (fresh : Prop) (c : ConsistentStore) (m : Machine) : Prop where
  follows : c.store.txnBegin.Follows fresh m.compactRev m.history
  begun : fresh → c.store.currentRev.sub = 0
  sub : m.history.sub = 0
  index : c.consistentIndex = m.consistentIndex
  notified : c.notified = m.notified

theorem Serves.of_follows (hf : c.store.Follows fresh m.compactRev m.history)
    (hsub : m.history.sub = 0) (hindex : c.consistentIndex = m.consistentIndex)
    (hnotified : c.notified = m.notified) : Serves fresh c m :=
  ⟨by rw [hf.txnBegin hsub]; exact hf, fun _ => by rw [hf.cur]; exact hsub, hsub, hindex,
    hnotified⟩

theorem txnBegin_store (c : ConsistentStore) (index : ℕ) :
    (c.txnBegin index).store = c.store.txnBegin := by
  unfold txnBegin
  simp only []
  split_ifs <;> rfl

theorem txnBegin_skip (c : ConsistentStore) (index : ℕ) :
    (c.txnBegin index).skip = decide (index ≤ c.consistentIndex) := by
  unfold txnBegin
  simp only []
  split_ifs with hle <;> simp [hle]

theorem Serves.begin (hc : Serves fresh c m) (index : ℕ) :
    Inside fresh (c.txnBegin index) m.compactRev (c.txnBegin index) m.history :=
  ⟨by rw [txnBegin_store]; exact hc.follows, rfl⟩

theorem txnEnd_eq (hf : c.store.Follows fresh cm h) :
    c.txnEnd.store.Follows fresh cm h.txnEnd ∧ c.txnEnd.consistentIndex = c.consistentIndex
    ∧ c.txnEnd.notified = c.notified ++ h.notice fun rev => map (changeEvent rev) := by
  obtain ⟨hfollows, hch, hrev⟩ := hf.txnEnd
  have hrev' : ({ c.store.txnEnd with changes := [] } : Store).rev = h.txnEnd.main := hrev
  unfold txnEnd watchableTxnEnd notice
  simp only [Store.getChanges, hch, hrev']
  split_ifs
  · exact ⟨hfollows, rfl, by simp⟩
  · exact ⟨hfollows, rfl, rfl⟩

theorem Serves.transact {α : Type} (hc : Serves fresh c m) (index : ℕ)
    {x : Except Fatal (ConsistentStore × α)} {f : Bool → History → Except Fatal History}
    (hg : Agree (fun x h' => Inside fresh (c.txnBegin index) m.compactRev x.1 h') x
      (f (c.txnBegin index).skip m.history))
    (hskip : ∀ h, f true m.history = .ok h → h = m.history) :
    Agree (fun x m' => Serves fresh x.1.txnEnd m') x (m.transact index f) := by
  unfold Machine.transact
  by_cases hle : index ≤ m.consistentIndex
  · have hb : (c.txnBegin index).skip = true
        ∧ (c.txnBegin index).consistentIndex = c.consistentIndex
        ∧ (c.txnBegin index).notified = c.notified := by
      simp [txnBegin, hc.index, hle]
    rw [hb.1] at hg
    rw [if_pos hle]
    rcases x with e | x <;> rcases hy : f true m.history with e' | h <;> rw [hy] at hg
    · exact hg
    · exact hg
    · exact hg
    · obtain rfl := hskip h hy
      obtain ⟨h1, h2, h3⟩ := txnEnd_eq hg.follows
      rw [m.history.txnEnd_of_sub hc.sub] at h1
      rw [notice, if_pos (hc.follows.wf.pending_eq_nil_iff.2 hc.sub), append_nil] at h3
      exact .of_follows h1 hc.sub (h2.trans (hg.index.trans (hb.2.1.trans hc.index)))
        (h3.trans (hg.notified.trans (hb.2.2.trans hc.notified)))
  · have hb : (c.txnBegin index).skip = false ∧ (c.txnBegin index).consistentIndex = index
        ∧ (c.txnBegin index).notified = c.notified := by
      simp [txnBegin, hc.index, hle]
    rw [hb.1] at hg
    rw [if_neg hle]
    rcases x with e | x <;> rcases hy : f false m.history with e' | h <;> rw [hy] at hg
    · exact hg
    · exact hg
    · exact hg
    · obtain ⟨h1, h2, h3⟩ := txnEnd_eq hg.follows
      refine .of_follows h1 rfl (h2.trans (hg.index.trans hb.2.1)) (h3.trans ?_)
      simp only [hg.notified, hb.2.2, hc.notified]

theorem union_skip {req : RequestUnion} {h' : History}
    (hu : Machine.union cm true h req = .ok h') : h' = h := by
  rcases req with (_ | r) | (_ | p) | (_ | dr) | _
  · exact (Except.ok.inj hu).symm
  · unfold Machine.union Machine.range at hu
    simp [bind, Except.bind] at hu
    split_ifs at hu
    exact (Except.ok.inj hu).symm
  all_goals exact (Except.ok.inj hu).symm

theorem unions_skip : ∀ (reqs : List RequestUnion) {h h' : History},
    reqs.foldlM (union cm true) h = .ok h' → h' = h
  | [], _, _, hu => (Except.ok.inj hu).symm
  | req :: reqs, h, h', hu => by
    rw [foldlM_cons] at hu
    rcases hr : union cm true h req with e | h₁
    · rw [hr] at hu
      cases hu
    · rw [hr] at hu
      obtain rfl := union_skip hr
      exact unions_skip reqs hu

theorem Serves.watchableDeleteRange (hc : Serves fresh c m) (key : Bytes) (stop : Option Bytes) :
    Agree (fun x h => Serves fresh x.1 { m with
        history := h.txnEnd
        notified := m.notified ++ h.notice deleteEvents })
      (c.watchableDeleteRange key stop) (m.history.deleteRange key stop) := by
  have hdel := (hc.follows.deleteRangeCount key stop).and_right
    (hc.follows.wf.pending_deleteRange key stop)
  unfold ConsistentStore.watchableDeleteRange
  rcases hx : c.store.txnBegin.deleteRangeCount key stop with e | ⟨s, n⟩ <;>
    rcases hy : m.history.deleteRange key stop with e' | h <;> rw [hx, hy] at hdel
  · exact hdel
  · exact hdel.elim
  · exact hdel.elim
  obtain ⟨⟨hf, hn⟩, hlen⟩ := hdel
  simp only [] at hf hn
  obtain ⟨hfollows, hch, hrev⟩ := hf.txnEnd
  have hlen : (h.pending.length : ℤ) = n := by
    rw [hlen, hn, hc.follows.wf.pending_eq_nil_iff.2 hc.sub]
    simp
  simp only [bind, Except.bind, Store.getChanges, hch, hrev, hlen, ne_eq, not_true_eq_false,
    if_false]
  rcases hlast : h.pending.getLast? with _ | change
  · have hnotice : h.notice deleteEvents = [] := if_pos (getLast?_eq_none_iff.1 hlast)
    refine .of_follows hfollows rfl hc.index ?_
    rw [hnotice, append_nil, hc.notified]
  · have hnotice : h.notice deleteEvents = [(h.txnEnd.main,
        h.pending.map fun _ => .delete { change with modRevision := h.txnEnd.main })] := by
      unfold notice deleteEvents
      rw [if_neg fun hnil => by simp [hnil] at hlast, hlast]
    refine .of_follows hfollows rfl hc.index ?_
    show c.notified ++ _ = m.notified ++ h.notice deleteEvents
    rw [hnotice, hc.notified]

end ConsistentStore

end EtcdCompat
