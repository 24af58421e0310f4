import EtcdCompat.Proofs.StoreSim

/-!
# Ranges and transactions

What a range finds in the index it finds in the key bucket, one record for each revision, so above
the last compaction it is what the history says at its revision. With it every operation of a
transaction keeps `Sim`, and so does the transaction.
-/

namespace EtcdCompat.Store

open List

open History (live)
open Contents (cut)

section ReadKeys

variable {bucket : OrdMap RevKey KeyValue} {rev : Revision} {kv : KeyValue}

theorem slice_revBytesRange (hf : bucket.find ⟨rev, false⟩ = some kv)
    (ht : bucket.find ⟨rev, true⟩ = none) :
    bucket.slice (revBytesRange rev).1 (revBytesRange rev).2 = [(⟨rev, false⟩, kv)] := by
  refine OrdMap.entries_ext (bucket.slice_sorted _ _) (pairwise_singleton _ _) fun e => ?_
  rw [show e = (e.1, e.2) from rfl, OrdMap.mem_slice, revBytesRange, RevKey.plain_le_iff,
    RevKey.lt_plain_iff, mem_singleton, Prod.mk.injEq]
  constructor
  · rintro ⟨he, hle, hlt⟩
    have hrev : e.1.rev = rev := by
      rw [Revision.le_iff] at hle
      rw [Revision.lt_iff] at hlt
      rcases hr : e.1.rev with ⟨m, n⟩
      rcases rev with ⟨m', n'⟩
      simp only [hr] at hle hlt
      rw [Revision.mk.injEq]
      omega
    rcases hk : e.1 with ⟨r, _ | _⟩
    · rw [hk] at hrev he
      subst hrev
      exact ⟨rfl, Option.some.inj (he.symm.trans hf)⟩
    · rw [hk] at hrev he
      subst hrev
      rw [ht] at he
      simp at he
  · rintro ⟨he, hkv⟩
    rw [he, hkv]
    exact ⟨hf, le_rfl, Revision.lt_iff.2 (.inr ⟨rfl, Int.lt_succ _⟩)⟩

def recordOf (bucket : OrdMap RevKey KeyValue) (rev : Revision) : KeyValue :=
  (bucket.find ⟨rev, false⟩).getD {}

theorem readKeys_eq {limit : ℤ} : ∀ {revs : List Revision} {kvs : List KeyValue},
    (∀ rev ∈ revs, ∃ kv, bucket.find ⟨rev, false⟩ = some kv ∧ bucket.find ⟨rev, true⟩ = none) →
    (limit > 0 → kvs.length < limit) →
    readKeys bucket limit kvs revs = .ok (cut limit (kvs ++ revs.map (recordOf bucket)))
  | [], kvs, _, hlen => by
    simp only [readKeys, map_nil, append_nil, cut]
    split_ifs with hpos
    · rw [take_of_length_le]
      omega
    · rfl
  | rev :: revs, kvs, hrevs, hlen => by
    obtain ⟨kv, hf, ht⟩ := hrevs rev mem_cons_self
    have hrec : recordOf bucket rev = kv := by simp [recordOf, hf]
    have happ : kvs ++ (rev :: revs).map (recordOf bucket)
        = (kvs ++ [kv]) ++ revs.map (recordOf bucket) := by simp [hrec]
    simp only [readKeys, slice_revBytesRange hf ht]
    rw [happ]
    by_cases hfull : limit > 0 ∧ ((kvs ++ [kv]).length : ℤ) ≥ limit
    · have hl : (kvs ++ [kv]).length = limit.toNat := by
        have h2 := hfull.2
        rw [length_append, length_singleton] at h2 ⊢
        omega
      rw [if_pos hfull, cut, if_pos hfull.1, take_left' hl]
    · rw [if_neg hfull, readKeys_eq (fun r hr => hrevs r (mem_cons_of_mem _ hr))]
      intro hpos
      exact not_le.1 fun h => hfull ⟨hpos, h⟩

end ReadKeys

variable {s : Store} {h : History} {stop : Option Bytes} {r : ℤ} {l : List (Bytes × Revision)}
  {key : Bytes} {m : Contents}

theorem Sim.find_mark (hs : Sim s h) {rev : Revision} {kv : KeyValue}
    (hf : s.keyBucket.find ⟨rev, false⟩ = some kv) : s.keyBucket.find ⟨rev, true⟩ = none := by
  rcases ht : s.keyBucket.find ⟨rev, true⟩ with _ | kv'
  · rfl
  · exact absurd (hs.bucket _ _ ht) (hs.wf.unique rev kv kv' (hs.bucket _ _ hf))

theorem Sim.answers (hs : Sim s h) (hr : s.compactMainRev ≤ r)
    (hl : TreeIndex.Answers s.kvindex key stop r l) {e : Bytes × Revision} :
    e ∈ l ↔ InRange key stop e.1 ∧ ∃ kv, live h.log e.1 r = some (e.2, kv) := by
  rw [show e = (e.1, e.2) from rfl, hl.mem, (hs.look e.1 r hr).fst]
  simp

theorem Sim.within_eq (hs : Sim s h) (hr : s.compactMainRev ≤ r)
    (hl : TreeIndex.Answers s.kvindex key stop r l)
    (hm : ∀ k, m.find k = (live h.log k r).map (·.2)) :
    m.within key stop = l.map fun e => (e.1, recordOf s.keyBucket e.2) := by
  have hrec : ∀ k rev kv, live h.log k r = some (rev, kv) → recordOf s.keyBucket rev = kv :=
    fun k rev kv hlive => by rw [recordOf, hs.reads k r rev kv hr hlive, Option.getD_some]
  refine OrdMap.entries_ext (m.sorted.filter _) (pairwise_map.2 hl.sorted) fun e => ?_
  rw [show e = (e.1, e.2) from rfl]
  unfold Contents.within
  rw [mem_filter, OrdMap.mem_entries, hm, mem_map]
  simp only [decide_eq_true_eq, Prod.mk.injEq]
  constructor
  · rintro ⟨hlive, hin⟩
    rcases hkv : live h.log e.1 r with _ | ⟨rev, kv⟩
    · simp [hkv] at hlive
    · rw [hkv, Option.map_some, Option.some.injEq] at hlive
      exact ⟨(e.1, rev), (hs.answers hr hl).2 ⟨hin, kv, hkv⟩, rfl,
        (hrec _ _ _ hkv).trans hlive⟩
  · rintro ⟨d, hd, h1, h2⟩
    obtain ⟨hin, kv, hkv⟩ := (hs.answers hr hl).1 hd
    rw [h1] at hkv hin
    rw [hkv, ← h2, hrec _ _ _ hkv]
    exact ⟨rfl, hin⟩

def curRev (s : Store) : ℤ :=
  if s.currentRev.sub > 0 then s.currentRev.main + 1 else s.currentRev.main

def readRev (s : Store) (rangeRev : ℤ) : ℤ := if rangeRev ≤ 0 then s.curRev else rangeRev

theorem rangeKeys_def (s : Store) (key : Bytes) (stop : Option Bytes) (limit rangeRev : ℤ) :
    s.rangeKeys key stop limit rangeRev
      = if rangeRev > s.curRev then .ok ⟨[], s.currentRev.main, some .errFutureRev⟩
        else if s.readRev rangeRev ≤ s.compactMainRev then .ok ⟨[], 0, some .errCompacted⟩
        else s.kvindex.range key stop (s.readRev rangeRev) >>= fun keys =>
          readKeys s.keyBucket limit [] (keys.map (·.2)) >>= fun kvs =>
            .ok ⟨kvs, s.curRev, none⟩ :=
  rfl

theorem Sim.rangeKeys_answers (hs : Sim s h) (key : Bytes) (stop : Option Bytes) (limit : ℤ)
    (hr : s.compactMainRev ≤ r) : ∃ l,
    s.kvindex.range key stop r = .ok l ∧ TreeIndex.Answers s.kvindex key stop r l
      ∧ readKeys s.keyBucket limit [] (l.map (·.2))
        = .ok (cut limit ((l.map (·.2)).map (recordOf s.keyBucket))) := by
  obtain ⟨l, hl, hans⟩ := hs.index.range key stop r
  refine ⟨l, hl, hans, readKeys_eq (fun rev hrev => ?_) fun hpos => by simpa using hpos⟩
  obtain ⟨e, he, rfl⟩ := mem_map.1 hrev
  obtain ⟨-, kv, hkv⟩ := (hs.answers hr hans).1 he
  have hf := hs.reads _ _ _ _ hr hkv
  exact ⟨kv, hf, hs.find_mark hf⟩

theorem Sim.rangeKeys_eq (hs : Sim s h) (key : Bytes) (stop : Option Bytes) (limit : ℤ)
    {rangeRev : ℤ} (hcur : rangeRev ≤ s.curRev) (hr : s.compactMainRev < s.readRev rangeRev)
    (hm : ∀ k, m.find k = (live h.log k (s.readRev rangeRev)).map (·.2)) :
    s.rangeKeys key stop limit rangeRev
      = .ok ⟨cut limit ((m.within key stop).map (·.2)), s.curRev, none⟩ := by
  obtain ⟨l, hl, hans, hread⟩ := hs.rangeKeys_answers key stop limit hr.le
  rw [rangeKeys_def, if_neg (not_lt.2 hcur), if_neg (not_le.2 hr), hl]
  simp only [bind, Except.bind, hread]
  rw [hs.within_eq hr.le hans hm, map_map, map_map]
  rfl

theorem Sim.rangeKeys_ok (hs : Sim s h) (key : Bytes) (stop : Option Bytes) (limit rangeRev : ℤ) :
    ∃ res, s.rangeKeys key stop limit rangeRev = .ok res := by
  rw [rangeKeys_def]
  split_ifs with h1 h2
  · exact ⟨_, rfl⟩
  · exact ⟨_, rfl⟩
  · obtain ⟨l, hl, -, hread⟩ := hs.rangeKeys_answers key stop limit (not_le.1 h2).le
    rw [hl]
    simp only [bind, Except.bind, hread]
    exact ⟨_, rfl⟩

theorem Sim.rangeKeys_contentsAt (hs : Sim s h) (key : Bytes) (stop : Option Bytes)
    (limit rangeRev : ℤ) : s.rangeKeys key stop limit rangeRev
      = .ok (if rangeRev > s.curRev then ⟨[], s.currentRev.main, some .errFutureRev⟩
        else if s.readRev rangeRev ≤ s.compactMainRev then ⟨[], 0, some .errCompacted⟩
        else ⟨cut limit (((History.contentsAt h.log (s.readRev rangeRev)).within key stop).map
          (·.2)), s.curRev, none⟩) := by
  by_cases hfuture : rangeRev > s.curRev
  · rw [rangeKeys_def, if_pos hfuture, if_pos hfuture]
  by_cases hcompacted : s.readRev rangeRev ≤ s.compactMainRev
  · rw [rangeKeys_def, if_neg hfuture, if_neg hfuture, if_pos hcompacted, if_pos hcompacted]
  · rw [if_neg hfuture, if_neg hcompacted]
    exact hs.rangeKeys_eq key stop limit (not_lt.1 hfuture) (not_le.1 hcompacted)
      fun k => History.find_contentsAt _ _ _

section Writes

/-- The store once the transaction under way has written a record. -/
def written (s : Store) (mark : Bool) (kv : KeyValue) (ti : TreeIndex) (le : Option Lessor) :
    Store :=
  { s with
    keyBucket := s.keyBucket.insert ⟨⟨s.currentRev.main + 1, s.currentRev.sub⟩, mark⟩ kv
    kvindex := ti
    changes := s.changes ++ [kv]
    currentRev := ⟨s.currentRev.main, s.currentRev.sub + 1⟩
    le := le }

theorem put_writes (s : Store) (key value : Bytes) (lease : ℤ) : Yields (fun _ => True)
    (fun s' => ∃ kv ti le, s' = s.written false kv ti le) (s.put key value lease) := by
  refine (Yields.trivial _).bind fun base _ => ?_
  refine (Yields.trivial _).bind fun ti _ => ?_
  refine (Yields.trivial _).bind fun le _ => ?_
  exact (Yields.trivial _).bind fun le' _ => ⟨_, _, _, rfl⟩

theorem delete_writes (s : Store) (key : Bytes) (rev : Revision) : Yields (fun _ => True)
    (fun s' => ∃ ti le, s' = s.written true { key := key } ti le) (s.delete key rev) := by
  refine (Yields.trivial _).bind fun ti _ => ?_
  rcases ti with _ | ti
  · exact True.intro
  · simp only []
    split
    · exact True.intro
    · exact (Yields.trivial _).bind fun le _ => ⟨_, _, rfl⟩

theorem txnOp_writes {P : Store → Prop}
    (hw : ∀ {s : Store} (mark kv ti le), P s → P (s.written mark kv ti le)) (hs : P s) (op : Op) :
    Yields (fun _ => True) P (s.txnOp op) := by
  rcases op with ⟨key, value, lease⟩ | ⟨key, stop⟩ | ⟨key, stop, limit, rangeRev⟩
  · refine (s.put_writes key value lease).mono fun s' h => ?_
    obtain ⟨kv, ti, le, rfl⟩ := h
    exact hw _ _ _ _ hs
  · refine (Yields.trivial _).bind fun keys _ => Yields.foldlM (fun e _ a ha => ?_) hs
    refine (a.delete_writes e.1 e.2).mono fun s' h => ?_
    obtain ⟨ti, le, rfl⟩ := h
    exact hw _ _ _ _ ha
  · exact (Yields.trivial _).bind fun _ _ => hs

end Writes

section Txn

variable (hs : Sim s h)
include hs

theorem Sim.curRev_eq : s.curRev = if h.sub > 0 then h.main + 1 else h.main := by
  unfold curRev
  rw [hs.cur]

theorem Sim.live_curRev (k : Bytes) : live h.log k s.curRev = live h.log k (h.main + 1) := by
  rw [hs.curRev_eq]
  split_ifs with hsub
  · rfl
  · exact hs.wf.live_main (le_antisymm (not_lt.1 hsub) hs.wf.sub_nonneg)

theorem Sim.compacted_le_curRev : s.compactMainRev ≤ s.curRev := by
  have hc := hs.compacted
  rw [hs.curRev_eq]
  split_ifs <;> omega

theorem Sim.deleteRange (key : Bytes) (stop : Option Bytes) :
    Agree Sim (s.deleteRange key stop) (h.deleteRange key stop) := by
  obtain ⟨l, hl, hans⟩ := hs.index.range key stop s.curRev
  have hc := hs.compacted_le_curRev
  have hkeys : (h.contents.within key stop).map (·.1) = l.map (·.1) := by
    rw [hs.within_eq hc hans fun k => by rw [hs.wf.contents, hs.live_curRev], map_map]
    rfl
  unfold Store.deleteRange History.deleteRange
  rw [hkeys]
  simp only [bind, Except.bind]
  rw [show s.kvindex.range key stop (if s.currentRev.sub > 0 then s.currentRev.main + 1
    else s.currentRev.main) = .ok l from hl]
  refine deleteKeys_agree Sim.wf Sim.delete hs hans.sorted fun e he => ?_
  obtain ⟨-, kv, hkv⟩ := (hs.answers hc hans).1 he
  exact ⟨kv, by rw [← hs.live_curRev]; exact hkv⟩

theorem Sim.txnOp (op : Op) : Agree Sim (s.txnOp op) (h.txnOp op) := by
  rcases op with ⟨key, value, lease⟩ | ⟨key, stop⟩ | ⟨key, stop, limit, rangeRev⟩
  · exact hs.put key value lease
  · exact hs.deleteRange key stop
  · obtain ⟨res, hres⟩ := hs.rangeKeys_ok key stop limit rangeRev
    simp only [Store.txnOp, hres]
    exact hs

theorem Sim.ops (ops : List Op) :
    Agree Sim (ops.foldlM Store.txnOp s) (ops.foldlM History.txnOp h) :=
  Agree.foldlM (fun op _ _ _ hs => hs.txnOp op) hs

theorem Sim.txnBegin (hsub : h.sub = 0) : s.txnBegin = s := by
  have hcur : (⟨s.currentRev.main, 0⟩ : Revision) = s.currentRev := by rw [hs.cur, hsub]
  unfold Store.txnBegin
  rw [hcur]

theorem Sim.txnEnd : Sim s.txnEnd h.txnEnd := by
  have hwf := hs.wf.txnEnd
  have hmain : h.main ≤ h.txnEnd.main := by
    simp only [History.txnEnd]
    split_ifs <;> omega
  have hcur : s.txnEnd.currentRev = ⟨h.txnEnd.main, h.txnEnd.sub⟩ := by
    simp only [Store.txnEnd, History.txnEnd, hs.cur]
  refine { hs with
    wf := hwf.1
    cur := hcur
    compacted := hs.compacted.trans hmain
    index := hs.index.mono ?_ }
  rw [Revision.le_iff]
  have hsub := hs.wf.sub_nonneg
  simp only [History.next, History.txnEnd]
  split_ifs <;> omega

end Txn

end EtcdCompat.Store
