import EtcdCompat.Proofs.LeaseAttach
import EtcdCompat.Proofs.Sorters

/-!
# Ranges with an order and a limit

`applyRange` pushes a limit into the store only where no order is asked for, with one more for the
flag, and otherwise sorts all it matches and then cuts. Either way the answer is the front of one
arrangement of all pairs that match, as versions and revisions are positive int64s.
-/

namespace EtcdCompat

open History

section Counted

/-- Every pair put counts its versions from 1, and was created at a positive revision. -/
structure History.Counted (h : History) : Prop where
  wf : h.WF
  pair : ∀ rev kv, h.log.find ⟨rev, false⟩ = some kv → 1 ≤ kv.version ∧ 1 ≤ kv.createRevision

variable {h : History} {m : Machine}

section

variable (hc : h.Counted)
include hc

theorem History.Counted.putKV (key value : Bytes) (lease : ℤ) :
    1 ≤ (Contents.putKV (h.main + 1) key value lease (h.contents.find key)).version
      ∧ 1 ≤ (Contents.putKV (h.main + 1) key value lease (h.contents.find key)).createRevision := by
  have hpos := hc.wf.main_pos
  unfold Contents.putKV
  rcases hf : h.contents.find key with _ | old
  · simp
    omega
  · rw [hc.wf.contents, Option.map_eq_some_iff] at hf
    obtain ⟨⟨rev, kv⟩, hlive, rfl⟩ := hf
    obtain ⟨hver, hcreate⟩ := hc.pair rev kv (find_of_live hlive).1
    simp
    omega

theorem History.Counted.put (key value : Bytes) (lease : ℤ) :
    Yields (fun _ => True) Counted (h.put key value lease) := by
  refine ((hc.wf.extends_put key value lease).imp (fun _ _ => trivial)) fun h' hh => ?_
  obtain ⟨hext, le, rfl⟩ := hh
  refine ⟨hext.wf, fun rev kv hf => ?_⟩
  rw [find_write] at hf
  split_ifs at hf
  · rw [← Option.some.inj hf]
    exact hc.putKV key value lease
  · exact hc.pair rev kv hf

theorem History.Counted.delete (key : Bytes) :
    Yields (fun _ => True) Counted (h.delete key) := by
  refine ((hc.wf.extends_delete key).imp (fun _ _ => trivial)) fun h' hh => ?_
  obtain ⟨hext, le, rfl⟩ := hh
  refine ⟨hext.wf, fun rev kv hf => ?_⟩
  rw [find_write, if_neg fun hk => by cases hk] at hf
  exact hc.pair rev kv hf

theorem History.Counted.deleteRange (key : Bytes) (stop : Option Bytes) :
    Yields (fun _ => True) Counted (h.deleteRange key stop) :=
  Yields.foldlM (fun key _ _ hc => hc.delete key) hc

theorem History.Counted.txnEnd : h.txnEnd.Counted := ⟨hc.wf.txnEnd.1, hc.pair⟩

end

namespace Machine

theorem counted_setItemSets (hc : m.history.Counted) (f : Lessor → Lessor) :
    (m.setItemSets f).history.Counted :=
  ⟨hc.wf.setLessor (by simp), hc.pair⟩

theorem kept_counted : Kept (fun _ => True) False fun _ h => h.Counted where
  range _ _ := trivial
  put _ hc := hc.put _ _ _
  deleteRange key stop hc := hc.deleteRange key stop
  txnEnd hc := hc.txnEnd
  grant id ttl hc := by
    unfold grant
    split_ifs
    · exact hc
    · exact counted_setItemSets hc _

theorem run_counted (order : ℕ → List Bytes → List Bytes) (evs : List EtcdServer.Event) :
    Yields (fun _ => True) (·.history.Counted) (run order evs) := by
  refine Yields.foldlM (P := fun m : Machine => m.history.Counted) (fun ev _ m hc => ?_)
    ⟨.empty _, fun _ _ hf => by simp at hf⟩
  rcases ev with ⟨index, r⟩ | _ | _ | _ | _
  · have hm : m.Has (fun _ h => h.Counted) m.rd := ⟨hc, rfl⟩
    refine (kept_counted.apply hm r fun id => ?_).mono fun _ hm => hm.1
    exact kept_counted.revoke hm fun hc => ⟨counted_setItemSets hc _, rfl⟩
  all_goals exact hc

end Machine

end Counted

section Range

variable {fresh : Prop} {rt : Runtime} {inTxn : Bool} {m : Machine} {kv : ConsistentStore}
  {h : History} {r : RangeRequest} {resp : RangeResponse}
  {cm : ℤ}

/-- The pairs a request matches at its revision, by key. -/
def History.matching (h : History) (r : RangeRequest) : List KeyValue :=
  ((contentsAt h.log (h.readRev r.revision)).within r.key (gteRange r.rangeEnd)).map (·.2)

theorem ConsistentStore.Inside.kvRange_eq {c₀ : ConsistentStore} (hi : Inside fresh c₀ cm kv h)
    (hskip : c₀.skip = false) (key : Bytes) (stop : Option Bytes) (limit rangeRev : ℤ) :
    kvRange true kv key stop limit rangeRev = .ok (h.served cm key stop limit rangeRev) := by
  unfold kvRange txnRange
  rw [if_pos rfl, hi.skip, hskip]
  exact hi.follows.rangeKeys_eq key stop limit rangeRev

theorem applyRange_eq (hread : ∀ key stop limit rangeRev,
      kvRange inTxn kv key stop limit rangeRev = .ok (h.served cm key stop limit rangeRev))
    (r : RangeRequest) :
    applyRange rt inTxn kv r = if r.revision > h.curRev then .ok (.error .errFutureRev)
      else if h.readRev r.revision ≤ cm then .ok (.error .errCompacted)
      else (sortKVs rt r (Contents.cut (fetchLimit r) (h.matching r))).bind fun kvs =>
        .ok (.ok (Kv.answer h.curRev r.limit kvs)) := by
  unfold applyRange
  rw [hread, served]
  simp only [bind, Except.bind]
  by_cases hfuture : r.revision > h.curRev
  · rw [if_pos hfuture, if_pos hfuture]
  by_cases hcompacted : h.readRev r.revision ≤ cm
  · rw [if_neg hfuture, if_pos hcompacted, if_neg hfuture, if_pos hcompacted]
  rw [if_neg hfuture, if_neg hcompacted, if_neg hfuture, if_neg hcompacted]
  unfold matching Kv.answer
  rcases sortKVs rt r (Contents.cut (fetchLimit r) _) with e | kvs
  · rfl
  · simp only []
    split_ifs <;> rfl

/-- The states a range is served in, with the history it reads: between transactions, or within
one that is executed, after some of its requests. -/
inductive Reading (fresh : Prop) (rt : Runtime) (m : Machine) :
    Bool → ConsistentStore → History → Prop
  | idle {kv : ConsistentStore} (hc : kv.Serves fresh m) : Reading fresh rt m false kv m.history
  | within {kv kv' : ConsistentStore} {index : ℕ} {reqs : List RequestUnion} {h : History}
      {resps : List (Option ResponseUnion)} (hc : kv.Serves fresh m)
      (hindex : m.consistentIndex < index)
      (happly : applyUnions rt (kv.txnBegin index) reqs = .ok (kv', resps))
      (hreqs : reqs.foldlM (Machine.union m.compactRev false) m.history = .ok h) :
      Reading fresh rt m true kv' h

theorem Reading.kvRange_eq (hr : Reading fresh rt m inTxn kv h) (key : Bytes)
    (stop : Option Bytes) (limit rangeRev : ℤ) : kvRange inTxn kv key stop limit rangeRev
      = .ok (h.served m.compactRev key stop limit rangeRev) := by
  rcases hr with hc | ⟨hc, hindex, happly, hreqs⟩
  · exact hc.follows.rangeKeys_eq key stop limit rangeRev
  · rename_i kv₀ index reqs resps
    have hskip : (kv₀.txnBegin index).skip = false := by
      rw [kv₀.txnBegin_skip, hc.index, decide_eq_false (not_le.2 hindex)]
    obtain ⟨h', hh', hin⟩ := ((hc.begin index).unions rt reqs).exists_ok happly
    rw [hskip] at hh'
    obtain rfl : h' = h := Except.ok.inj (hh'.symm.trans hreqs)
    exact hin.kvRange_eq hskip key stop limit rangeRev

theorem Reading.counted (hr : Reading fresh rt m inTxn kv h) (hm : m.history.Counted) :
    h.Counted := by
  rcases hr with hc | ⟨hc, hindex, happly, hreqs⟩
  · exact hm
  · exact (Yields.foldlM (fun req _ _ hh =>
      Machine.kept_counted.union (m := m) hh _ false False.elim) hm).of_ok hreqs

def History.Int64s (h : History) : Prop := ∀ rev kv, h.log.find ⟨rev, false⟩ = some kv →
  IsInt64 kv.version ∧ IsInt64 kv.createRevision ∧ IsInt64 kv.modRevision

theorem History.Counted.matching (hc : h.Counted) (hint : h.Int64s) (r : RangeRequest) :
    (∀ kv ∈ h.matching r, kv.Positive) ∧ (h.matching r).Pairwise (·.key < ·.key) := by
  have hpair : ∀ e ∈ (contentsAt h.log (h.readRev r.revision)).within r.key (gteRange r.rangeEnd),
      e.2.Positive ∧ e.2.key = e.1 := by
    intro e he
    have hfind := OrdMap.find_of_mem (List.mem_of_mem_filter he)
    rw [find_contentsAt, Option.map_eq_some_iff] at hfind
    obtain ⟨⟨rev, kv⟩, hlive, hkv⟩ := hfind
    obtain ⟨hlog, hkey, -⟩ := find_of_live hlive
    have hkv : kv = e.2 := hkv
    rw [hkv] at hlog hkey
    obtain ⟨hver, hcreate⟩ := hc.pair rev e.2 hlog
    obtain ⟨⟨-, hver'⟩, ⟨-, hcreate'⟩, -, hmod'⟩ := hint rev e.2 hlog
    have hmod := hc.wf.modified rev e.2 hlog
    have htwo := (hc.wf.bound _ _ hlog).2.1
    exact ⟨⟨⟨hver, hver'⟩, ⟨hcreate, hcreate'⟩, ⟨by rw [hmod]; simp only [] at htwo; omega, hmod'⟩⟩,
      hkey⟩
  refine ⟨fun kv hkv => ?_, List.pairwise_map.2 ?_⟩
  · obtain ⟨e, he, rfl⟩ := List.mem_map.1 hkv
    exact (hpair e he).1
  · refine ((contentsAt h.log (h.readRev r.revision)).sorted.filter _).imp_of_mem
      fun {a b} ha hb hab => ?_
    rw [(hpair a ha).2, (hpair b hb).2]
    exact hab

theorem applyRange_arranged {order : ℕ → List Bytes → List Bytes} {evs : List EtcdServer.Event}
    (hm : Machine.run order evs = .ok m) (hr : Reading fresh rt m inTxn kv h) (hint : h.Int64s)
    (hvalid : r.Valid) (hlimit : IsInt64 r.limit)
    (hresp : applyRange rt inTxn kv r = .ok (.ok resp)) : ∃ kvs : List KeyValue,
      kvs.Perm (h.matching r) ∧ kvs.Pairwise r.Precedes
      ∧ resp.kvs = (if 0 < r.limit then kvs.take r.limit.toNat else kvs)
      ∧ (resp.more = true ↔ 0 < r.limit ∧ r.limit < (h.matching r).length) := by
  obtain ⟨hpos, hkeys⟩ := (hr.counted ((Machine.run_counted order evs).of_ok hm)).matching hint r
  rw [applyRange_eq hr.kvRange_eq] at hresp
  split_ifs at hresp with hfuture hcompacted
  · cases hresp
  · cases hresp
  obtain ⟨kvs, hsorted, hperm, harranged⟩ := sortKVs_arranged rt hvalid hpos hkeys
  -- what is fetched is what matches, or is not sorted
  have hanswer : resp = Kv.answer h.curRev r.limit kvs := by
    by_cases hnone : r.sortOrder = sortNone
    · have hplain : ∀ l, sortKVs rt r l = .ok l := fun l => by
        unfold sortKVs
        rw [if_neg (by rw [hnone]; decide), if_neg (by rw [hnone]; decide)]
      rw [hplain] at hresp hsorted
      rw [← Except.ok.inj (Except.ok.inj hresp), Kv.answer_fetched hlimit, Except.ok.inj hsorted]
    · have hall : fetchLimit r = 0 := by
        unfold fetchLimit
        rw [if_pos hnone]
        rfl
      rw [hall, show Contents.cut 0 (h.matching r) = h.matching r from rfl, hsorted] at hresp
      exact (Except.ok.inj (Except.ok.inj hresp)).symm
  refine ⟨kvs, hperm, harranged, ?_, ?_⟩
  · rw [hanswer, Kv.answer_kvs]
  · rw [hanswer, Kv.answer_more, hperm.length_eq]

def lastKey : RangeRequest := ⟨[97], some [0], 1, 0, sortDescend, sortByKey⟩

theorem applyRange_arranged_last : ∃ (m : Machine) (s : EtcdServer) (resp : RangeResponse),
    Machine.run Runtime.stable.order
        [.entry 1 (.put { key := [97] }), .entry 2 (.put { key := [98] })] = .ok m
      ∧ applyRange .stable false s.kv lastKey = .ok (.ok resp)
      ∧ ∃ kvs : List KeyValue,
        kvs.Perm (m.history.matching lastKey)
        ∧ kvs.Pairwise lastKey.Precedes
        ∧ resp.kvs = kvs.take 1 ∧ resp.more = true := by
  obtain ⟨m, hm, hints, hlen⟩ : ∃ m, Machine.run Runtime.stable.order
      [.entry 1 (.put { key := [97] }), .entry 2 (.put { key := [98] })] = .ok m
      ∧ (∀ e ∈ m.history.log.entries, IsInt64 e.2.version ∧ IsInt64 e.2.createRevision
        ∧ IsInt64 e.2.modRevision) ∧ (1 : ℤ) < (m.history.matching lastKey).length := by
    decide +kernel
  obtain ⟨s, hs, _, happly, resp, rfl, -⟩ : ∃ s, EtcdServer.run .stable
      [.entry 1 (.put { key := [97] }), .entry 2 (.put { key := [98] })] = .ok s
      ∧ ∃ x, applyRange .stable false s.kv lastKey = .ok x ∧ ∃ resp, x = .ok resp ∧ True := by
    decide +kernel
  obtain ⟨m', hm', hr⟩ := (run_refines .stable _).exists_ok hs
  cases hm.symm.trans hm'
  obtain ⟨kvs, hperm, hpairwise, hkvs, hmore⟩ := applyRange_arranged (r := lastKey) hm
    (.idle hr.serves) (fun rev kv hf => hints _ (OrdMap.mem_entries.2 hf)) (by decide) (by decide)
    happly
  exact ⟨m, s, resp, hm, happly, kvs, hperm, hpairwise, hkvs, hmore.2 ⟨by decide, hlen⟩⟩

end Range

end EtcdCompat
