import EtcdCompat.Proofs.StoreCompact

/-!
# Rebuilding a store from its key bucket

`restore` walks over the records that compactions have left. Of each key these are the newest ones,
so a record is restored right after the one it was written after, or as the first of its key, and
the surviving records are a history of their own.
-/

namespace EtcdCompat

open List OrdMap KeyIndex

namespace TreeIndex

variable {ti : TreeIndex} {rev : Revision}

theorem find_of_insert {key k : Bytes} {ki : KeyIndex}
    (hk : find (insert ti key ki) k ≠ none) : k = key ∨ ti.find k ≠ none := by
  rw [find_insert] at hk
  split_ifs at hk with heq
  · exact .inl heq.symm
  · exact .inr hk

theorem WF.restore (h : ti.WF rev) (key : Bytes) (created : Revision) (ver : ℤ) :
    ∃ ti', ti.restore key created rev ver = .ok ti' ∧ (∀ next, rev < next → ti'.WF next)
      ∧ (∀ k, ti'.find k ≠ none → k = key ∨ ti.find k ≠ none)
      ∧ ∀ k r, ti'.look k r = if k = key ∧ rev.main ≤ r then
          some (if ti.find key = none then (rev, created, ver)
            else KeyIndex.afterPut rev (ti.look key rev.main)) else ti.look k r := by
  unfold TreeIndex.restore
  rcases hf : ti.find key with _ | ki
  · have hs : KeyIndex.Split ⟨key, rev, [⟨ver, created, [rev]⟩]⟩ [] ⟨ver, created, [rev]⟩ :=
      ⟨rfl, by simp, by simp, by simp, by simp⟩
    refine ⟨_, rfl, fun _ hn => h.insert ⟨[], _, hs⟩ hn hn.le, fun k => find_of_insert, ?_⟩
    simp
    refine look_insert_from fun r => ?_
    split_ifs with hlt
    · rw [hs.lookup_eq, KeyIndex.find_of_later (by simpa using hlt)]
      simp [look, hf, KeyIndex.findGenerationIn]
    · exact (hs.lookup_top (not_lt.1 hlt)).2 [] rev rfl
  · obtain ⟨hwf, hm⟩ := h key ki hf
    simp only [KeyIndex.put, if_pos (Revision.greaterThan_iff.2 hm)]
    refine ⟨_, rfl, fun _ hn => h.insert (hwf.putTo hm) hn hn.le,
      fun k => find_of_insert, ?_⟩
    have hki : ∀ r, ti.look key r = ki.lookup r := fun r => by simp [look, hf]
    simp
    refine look_insert_from fun r => ?_
    rw [hwf.lookup_putTo hm, hki, hki]

theorem WF.tombstone_ok (h : ti.WF rev) (key : Bytes) :
    ∃ o, ti.tombstone key rev = .ok o ∧ (∀ next, rev < next → (o.getD ti).WF next)
      ∧ (∀ k, (o.getD ti).find k ≠ none → ti.find k ≠ none)
      ∧ ∀ k r, (o.getD ti).look k r
        = if k = key ∧ rev.main ≤ r then none else ti.look k r := by
  unfold TreeIndex.tombstone
  rcases hf : ti.find key with _ | ki
  · refine ⟨none, rfl, fun _ hn => h.mono hn.le, fun _ hk => hk, fun k r => ?_⟩
    split_ifs with hk
    · rw [hk.1]
      simp [look, hf]
    · rfl
  · obtain ⟨⟨old, last, hs⟩, hm⟩ := h key ki hf
    have hki : ∀ r, ti.look key r = ki.lookup r := fun r => by simp [look, hf]
    simp only [hs.tombstone_eq hm]
    split_ifs with hl
    · refine ⟨none, rfl, fun _ hn => h.mono hn.le, fun _ hk => hk, fun k r => ?_⟩
      split_ifs with hk
      · rw [hk.1, Option.getD_none, hki]
        exact (hs.lookup_top ((Revision.main_le hm.le).trans hk.2)).1 hl
      · rfl
    · refine ⟨_, rfl, fun _ hn => h.insert ⟨_, _, tombTo_split hs hm hl⟩ hn hn.le,
        fun k hk => ?_, look_insert_from fun r => by rw [hs.lookup_tombTo hm hl, hki]⟩
      rcases find_of_insert hk with rfl | hk
      · rw [hf]
        simp
      · exact hk

end TreeIndex

namespace History

/-- What is read of a key in a list of records. -/
def liveIn (es : List (RevKey × KeyValue)) (k : Bytes) (r : ℤ) : Option (Revision × KeyValue) :=
  match (es.filter fun e => e.2.key = k ∧ e.1.rev.main ≤ r).getLast? with
  | some (⟨rev, false⟩, kv) => some (rev, kv)
  | _ => none

theorem live_eq_liveIn (log : OrdMap RevKey KeyValue) (k : Bytes) (r : ℤ) :
    live log k r = liveIn log.entries k r := rfl

theorem liveIn_append (es : List (RevKey × KeyValue)) (e : RevKey × KeyValue) (k : Bytes) (r : ℤ) :
    liveIn (es ++ [e]) k r = if k = e.2.key ∧ e.1.rev.main ≤ r then
      (if e.1.mark then none else some (e.1.rev, e.2)) else liveIn es k r := by
  unfold liveIn
  rw [filter_append]
  by_cases hk : k = e.2.key ∧ e.1.rev.main ≤ r
  · obtain ⟨rfl, hr⟩ := hk
    obtain ⟨⟨rev, _ | _⟩, kv⟩ := e
    · simp [hr]
    · simp [hr]
  · have hnil : [e].filter (fun e => e.2.key = k ∧ e.1.rev.main ≤ r) = [] := by
      refine filter_eq_nil_iff.2 fun d hd hp => hk ?_
      rw [mem_singleton.1 hd, decide_eq_true_eq] at hp
      exact ⟨hp.1.symm, hp.2⟩
    rw [if_neg hk, hnil, append_nil]

/-- Records in the order they were written, each key's from some record of it on. -/
structure Restorable (es : List (RevKey × KeyValue)) : Prop where
  sorted : es.Pairwise fun a b => a.1.rev < b.1.rev
  tombs : ∀ e ∈ es, e.1.mark → e.2.lease = NoLease
  chain : ∀ pre e post d, es = pre ++ e :: post → e.1.mark = false →
    (pre.filter fun x => x.2.key = e.2.key).getLast? = some d →
    e.2.createRevision = (if d.1.mark then e.1.rev.main else d.2.createRevision)
      ∧ e.2.version = if d.1.mark then 1 else d.2.version + 1

theorem Restorable.init {es : List (RevKey × KeyValue)} {e : RevKey × KeyValue}
    (h : Restorable (es ++ [e])) : Restorable es where
  sorted := (pairwise_append.1 h.sorted).1
  tombs d hd := h.tombs d (mem_append_left _ hd)
  chain pre d post x heq := h.chain pre d (post ++ [e]) x (by rw [heq]; simp)

end History

namespace Store

open History

variable {s : Store} {e : RevKey × KeyValue} {s₀ : Store}

/-- What a restored record does to the item sets. -/
def attachItem (le : Lessor) (e : RevKey × KeyValue) : Lessor :=
  if e.2.lease = NoLease then le else (le.attach e.2.lease e.2.key).getD le

theorem restoreItem_ok (hwf : s.kvindex.WF e.1.rev) (hle : s.le = none → e.2.lease = NoLease)
    (htomb : e.1.mark → e.2.lease = NoLease) : ∃ ti, s.restoreItem e = .ok { s with
        kvindex := ti, le := s.le.map (attachItem · e), currentRev := e.1.rev }
      ∧ (∀ next, e.1.rev < next → ti.WF next)
      ∧ (∀ k, ti.find k ≠ none → k = e.2.key ∨ s.kvindex.find k ≠ none)
      ∧ ∀ k r, ti.look k r = if k = e.2.key ∧ e.1.rev.main ≤ r then (if e.1.mark then none else
          some (if s.kvindex.find e.2.key = none then (e.1.rev, ⟨e.2.createRevision, 0⟩,
            e.2.version)
            else afterPut e.1.rev (s.kvindex.look e.2.key e.1.rev.main)))
          else s.kvindex.look k r := by
  obtain ⟨⟨rev, mark⟩, kv⟩ := e
  have hnone : kv.lease = NoLease → s.le.map (attachItem · (⟨rev, mark⟩, kv)) = s.le := fun hl => by
    have : (attachItem · (⟨rev, mark⟩, kv)) = id := funext fun le => by simp [attachItem, hl]
    rw [this, Option.map_id, id]
  rcases mark with _ | _
  · obtain ⟨ti, hti, hwf', hfind, hlook⟩ := hwf.restore kv.key ⟨kv.createRevision, 0⟩ kv.version
    refine ⟨ti, ?_, hwf', hfind, hlook⟩
    simp [restoreItem, hti, bind, Except.bind]
    by_cases hl : kv.lease = NoLease
    · simp [hl]
      rw [hnone hl]
    · rcases hs : s.le with _ | le
      · exact absurd (hle hs) hl
      · simp [attachItem, hl]
  · obtain ⟨o, ho, hwf', hfind, hlook⟩ := hwf.tombstone_ok kv.key
    have hl : kv.lease = NoLease := htomb rfl
    refine ⟨o.getD s.kvindex, ?_, hwf', fun k hk => .inr (hfind k hk), hlook⟩
    simp [restoreItem, ho, bind, Except.bind, hl]
    rw [hnone hl]

/-- The walk of `restore` over some records: the index answers as they read. -/
structure Restored (es : List (RevKey × KeyValue)) (s₀ s : Store) : Prop where
  frame : s = { s₀ with
    kvindex := s.kvindex
    le := s₀.le.map fun le => es.foldl attachItem le
    currentRev := (es.getLast?.map (·.1.rev)).getD s₀.currentRev }
  index : ∀ next, (∀ e ∈ es, e.1.rev < next) → s.kvindex.WF next
  look : ∀ k r, Reads (s.kvindex.look k r) (liveIn es k r)
  present : ∀ k, s.kvindex.find k ≠ none → ∃ e ∈ es, e.2.key = k

theorem Restored.reads_put {es : List (RevKey × KeyValue)} (h : Restored es s₀ s)
    (hr : Restorable (es ++ [e])) (hmark : e.1.mark = false) :
    Reads (some (if s.kvindex.find e.2.key = none then
        (e.1.rev, ⟨e.2.createRevision, 0⟩, e.2.version)
      else afterPut e.1.rev (s.kvindex.look e.2.key e.1.rev.main)))
      (some (e.1.rev, e.2)) := by
  split_ifs with hf
  · rfl
  · obtain ⟨x, hx, hxk⟩ := h.present _ hf
    have hlt : ∀ y ∈ es, y.1.rev < e.1.rev := fun y hy =>
      (pairwise_append.1 hr.sorted).2.2 y hy e (by simp)
    have hfilter : (es.filter fun y => y.2.key = e.2.key ∧ y.1.rev.main ≤ e.1.rev.main)
        = es.filter fun y => y.2.key = e.2.key := by
      refine filter_congr fun y hy => ?_
      simp [Revision.main_le (hlt y hy).le]
    obtain ⟨d, hd⟩ : ∃ d, (es.filter fun y => y.2.key = e.2.key).getLast? = some d := by
      rw [← Option.isSome_iff_exists, getLast?_isSome]
      exact ne_nil_of_mem (mem_filter.2 ⟨hx, by simpa using hxk⟩)
    obtain ⟨hcreate, hver⟩ := hr.chain es e [] d rfl hmark hd
    have hlook := h.look e.2.key e.1.rev.main
    unfold liveIn at hlook
    rw [hfilter, hd] at hlook
    obtain ⟨⟨rev, _ | _⟩, kv⟩ := d
    · simp [Reads] at hlook
      rcases hl : s.kvindex.look e.2.key e.1.rev.main with _ | ⟨grev, created, ver⟩
      · simp [hl] at hlook
      · simp [hl] at hlook
        simp [Reads, afterPut, hcreate, hver, hlook]
    · simp [Reads] at hlook
      simp [Reads, afterPut, hlook, hcreate, hver]

theorem restore_restored (hempty : s₀.kvindex = .empty) (es : List (RevKey × KeyValue))
    (hr : Restorable es) (hle : s₀.le = none → ∀ e ∈ es, e.2.lease = NoLease) :
    ∃ s, es.foldlM restoreItem s₀ = .ok s ∧ Restored es s₀ s := by
  induction es using reverseRecOn with
  | nil =>
    refine ⟨s₀, rfl, ?_, fun _ _ _ _ hf => ?_, fun k r => ?_, fun k hk => ?_⟩
    · simp
    · simp [hempty] at hf
    · simp [hempty, TreeIndex.look, liveIn, Reads]
    · simp [hempty] at hk
  | append_singleton es e ih =>
    obtain ⟨s, hs, h⟩ := ih hr.init fun hn d hd => hle hn d (mem_append_left _ hd)
    have hlt : ∀ y ∈ es, y.1.rev < e.1.rev := fun y hy =>
      (pairwise_append.1 hr.sorted).2.2 y hy e (by simp)
    have hlenone : s.le = none → s₀.le = none := fun hn => by
      rw [h.frame] at hn
      simpa using hn
    obtain ⟨ti, hti, hwf, hfind, hlook⟩ := restoreItem_ok (h.index _ hlt)
      (fun hn => hle (hlenone hn) e (by simp)) (hr.tombs e (by simp))
    have hwalk : (es ++ [e]).foldlM restoreItem s₀ = s.restoreItem e := by
      rw [foldlM_append, hs]
      simp [bind, Except.bind]
      rcases s.restoreItem e with _ | _ <;> rfl
    refine ⟨_, hwalk.trans hti, ?_, fun next hn => hwf next (hn e (by simp)), fun k r => ?_,
      fun k hk => ?_⟩
    · rw [h.frame]
      simp [Option.map_map, Function.comp_def]
    · rw [hlook, liveIn_append]
      by_cases hk : k = e.2.key ∧ e.1.rev.main ≤ r
      · rw [if_pos hk, if_pos hk]
        rcases hmark : e.1.mark with _ | _
        · exact h.reads_put hr hmark
        · rfl
      · rw [if_neg hk, if_neg hk]
        exact h.look k r
    · rcases hfind k hk with rfl | hk
      · exact ⟨e, by simp, rfl⟩
      · obtain ⟨d, hd, hdk⟩ := h.present k hk
        exact ⟨d, mem_append_left _ hd, hdk⟩

section Bucket

variable {h : History} {s' : Store} {k : Bytes} {r : ℤ} {kv : KeyValue}

theorem Sim.entries_sorted (hs : Sim s h) :
    s.keyBucket.entries.Pairwise fun a b => a.1.rev < b.1.rev := by
  refine s.keyBucket.sorted.imp_of_mem fun {a b} ha hb hab => ?_
  rcases RevKey.lt_iff.1 hab with hlt | ⟨heq, hmark⟩
  · exact hlt
  · have hfa := hs.bucket _ _ (find_of_mem ha)
    have hfb := hs.bucket _ _ (find_of_mem hb)
    obtain ⟨⟨ra, ma⟩, kva⟩ := a
    obtain ⟨⟨rb, mb⟩, kvb⟩ := b
    obtain ⟨rfl, rfl⟩ := Bool.lt_iff.1 hmark
    subst heq
    exact absurd hfb (hs.wf.unique _ _ _ hfa)

theorem Sim.precedes (hs : Sim s h) {d e : RevKey × KeyValue}
    (hp : Precedes s.keyBucket d e) : Precedes h.log d e := by
  obtain ⟨hf, hk, hlt, hmax⟩ := hp
  refine ⟨hs.bucket _ _ hf, hk, hlt, fun rk kv hf' hk' hlt' => not_lt.1 fun hd => ?_⟩
  have hf'' := hs.upper _ _ rk kv hf hf' (hk'.trans hk.symm) hd
  exact absurd hd (not_lt.2 (hmax rk kv hf'' hk' hlt'))

theorem Sim.restorable (hs : Sim s h) : Restorable s.keyBucket.entries where
  sorted := hs.entries_sorted
  tombs := by
    rintro ⟨⟨rev, mark⟩, kv⟩ he hmark
    obtain rfl : mark = true := hmark
    exact hs.wf.tombs rev kv (hs.bucket _ _ (find_of_mem he))
  chain pre e post d heq hmark hd := by
    have hmem : ∀ x, x ∈ pre ∨ x = e ∨ x ∈ post ↔ s.keyBucket.find x.1 = some x.2 := fun x => by
      rw [← mem_entries, heq]
      simp
    have hsorted := s.keyBucket.sorted
    rw [heq] at hsorted
    obtain ⟨hpre, hpost, hcross⟩ := pairwise_append.1 hsorted
    obtain ⟨hdpre, hdk⟩ := mem_filter.1 (mem_of_getLast? hd)
    have hdk : d.2.key = e.2.key := of_decide_eq_true hdk
    obtain ⟨⟨rev, mark⟩, kv⟩ := e
    obtain rfl : mark = false := hmark
    refine hs.wf.chain d rev kv (hs.bucket _ _ ((hmem _).1 (.inr (.inl rfl)))) (hs.precedes
      ⟨(hmem d).1 (.inl hdpre), hdk, hcross d hdpre _ mem_cons_self,
        fun rk kv' hf hk hlt => ?_⟩)
    -- below the record are the ones before it in the list, of which `d` is the last of its key
    have hin : (rk, kv') ∈ pre := by
      rcases (hmem (rk, kv')).2 hf with hx | hx | hx
      · exact hx
      · rw [← hx] at hlt
        exact absurd hlt (lt_irrefl _)
      · exact absurd hlt (not_lt.2 ((pairwise_cons.1 hpost).1 _ hx).le)
    exact le_of_getLast? (hpre.filter _) hd (mem_filter.2 ⟨hin, decide_eq_true hk⟩)

def lastRev (bucket : OrdMap RevKey KeyValue) : Revision :=
  (bucket.entries.getLast?.map (·.1.rev)).getD ⟨1, 0⟩

/-- The store on some buckets as `newStore` begins with it, before the records are walked over. -/
def unrestored (keyBucket : OrdMap RevKey KeyValue) (scheduledCompact finishedCompact : Option ℤ)
    (le : Option Lessor) : Store where
  keyBucket := keyBucket
  scheduledCompact := scheduledCompact
  finishedCompact := finishedCompact
  le := le
  compactMainRev := finishedCompact.getD (-1)

variable {le : Option Lessor} {scheduled finished : Option ℤ}

/-- Reopening a store: no panic is reached, and the index answers as the records left do. -/
theorem Sim.newStore (hs : Sim s h) (scheduled finished : Option ℤ)
    (hle : s.le.isSome → le.isSome) : ∃ s', newStore s.keyBucket scheduled finished le
      = .ok (s', scheduled.filter fun rev => rev > finished.getD (-1))
      ∧ Restored s.keyBucket.entries (unrestored s.keyBucket scheduled finished le) s' := by
  have hall : (s.keyBucket.entries.filter fun e => (⟨⟨1, 0⟩, false⟩ : RevKey) ≤ e.1)
      = s.keyBucket.entries := by
    refine filter_eq_self.2 fun e he => ?_
    obtain ⟨-, h2, -⟩ := hs.wf.bound _ _ (hs.bucket _ _ (find_of_mem he))
    rw [decide_eq_true_iff, RevKey.plain_le_iff, Revision.le_iff]
    exact .inl (by simp only []; omega)
  obtain ⟨s', hs', hr⟩ := restore_restored
    (rfl : (unrestored s.keyBucket scheduled finished le).kvindex = .empty) _ hs.restorable
    fun hn e he => by
    refine hs.wf.leases ?_ _ _ (hs.bucket _ _ (find_of_mem he))
    rw [← hs.lessor]
    rcases hl : s.le with _ | l
    · rfl
    · rw [hl] at hle
      simp only [unrestored] at hn
      simp [hn] at hle
  refine ⟨s', ?_, hr⟩
  have hc : s'.compactMainRev = finished.getD (-1) := by rw [hr.frame]; rfl
  unfold unrestored at hs'
  unfold Store.newStore
  simp only [hall, hs', bind, Except.bind, hc]

theorem Restored.lessor {es : List (RevKey × KeyValue)}
    (hr : Restored es (unrestored s.keyBucket scheduled finished le) s')
    (hle : s.le.isSome → le.isSome) (hn : s'.le = none) : s.le = none := by
  rw [hr.frame] at hn
  simp [unrestored] at hn
  simpa [hn] using hle

theorem Sim.newest_of_bucket (hs : Sim s h) {e : RevKey × KeyValue}
    (he : newest s.keyBucket k r = some e) : newest h.log k r = some e := by
  obtain ⟨hf, hk, hle, hmax⟩ := newest_eq_some_iff.1 he
  refine newest_eq_some_iff.2 ⟨hs.bucket _ _ hf, hk, hle, fun rk kv hf' hk' hle' => ?_⟩
  refine not_lt.1 fun hlt => absurd hlt (not_lt.2 ?_)
  exact hmax rk kv (hs.upper _ _ rk kv hf hf' (hk'.trans hk.symm) hlt) hk' hle'

theorem Sim.live_bucket_iff (hs : Sim s h) {rev : Revision} : live s.keyBucket k r = some (rev, kv)
      ↔ live h.log k r = some (rev, kv) ∧ s.keyBucket.find ⟨rev, false⟩ = some kv := by
  constructor
  · intro hl
    refine ⟨?_, (find_of_live hl).1⟩
    exact live_eq_some_iff.2 (hs.newest_of_bucket (live_eq_some_iff.1 hl))
  · rintro ⟨hl, hf⟩
    obtain ⟨-, hk, hle, hmax⟩ := newest_eq_some_iff.1 (live_eq_some_iff.1 hl)
    refine live_eq_some_iff.2 (newest_eq_some_iff.2 ⟨hf, hk, hle, ?_⟩)
    exact fun rk kv' hf' => hmax rk kv' (hs.bucket _ _ hf')

theorem Sim.live_bucket_of (hs : Sim s h) (hleft : ∀ rev kv,
    live h.log k r = some (rev, kv) → s.keyBucket.find ⟨rev, false⟩ = some kv) :
    live s.keyBucket k r = live h.log k r := by
  rcases hl : live h.log k r with _ | ⟨rev, kv⟩
  · rcases hb : live s.keyBucket k r with _ | ⟨rev, kv⟩
    · rfl
    · rw [(hs.live_bucket_iff.1 hb).1] at hl
      cases hl
  · exact hs.live_bucket_iff.2 ⟨hl, hleft rev kv hl⟩

theorem Sim.live_bucket (hs : Sim s h) (hr : s.compactMainRev ≤ r) :
    live s.keyBucket k r = live h.log k r :=
  hs.live_bucket_of fun rev kv hl => hs.reads k r rev kv hr hl

theorem le_lastRev {bucket : OrdMap RevKey KeyValue} {rk : RevKey} (hf : bucket.find rk = some kv) :
    rk.rev ≤ lastRev bucket := by
  have hmem := mem_entries.2 hf
  obtain ⟨e, he⟩ : ∃ e, bucket.entries.getLast? = some e := by
    rw [← Option.isSome_iff_exists, getLast?_isSome]
    exact ne_nil_of_mem hmem
  rw [lastRev, he]
  exact RevKey.rev_le (le_of_getLast? bucket.sorted he hmem)

def reopened (bucket : OrdMap RevKey KeyValue) (le : Option Lessor) : History where
  main := (lastRev bucket).main
  contents := History.contentsAt bucket ((lastRev bucket).main + 1)
  log := bucket
  le := le

theorem Sim.reopened_wf (hs : Sim s h) {le : Option Lessor} (hle : le = none → s.le = none) :
    (reopened s.keyBucket le).WF := by
  have hlast : lastRev s.keyBucket = ⟨1, 0⟩ ∨ ∃ rk kv, s.keyBucket.find rk = some kv
      ∧ rk.rev = lastRev s.keyBucket := by
    unfold lastRev
    rcases hl : s.keyBucket.entries.getLast? with _ | e
    · exact .inl rfl
    · exact .inr ⟨e.1, e.2, find_of_mem (mem_of_getLast? hl), rfl⟩
  refine ⟨?_, le_rfl, fun rk kv hf => ?_, fun rev kv kv' hf hf' => ?_, fun k => ?_,
    fun rev kv hf => hs.wf.modified rev kv (hs.bucket _ _ hf), ?_, .inl rfl, fun hn rk kv hf => ?_,
    fun rev kv hf => hs.wf.tombs rev kv (hs.bucket _ _ hf),
    fun e rev kv hf hp => hs.wf.chain e rev kv (hs.bucket _ _ hf) (hs.precedes hp)⟩
  · show 1 ≤ (lastRev s.keyBucket).main
    rcases hlast with h1 | ⟨rk, kv, hf, hrev⟩
    · rw [h1]
    · have := (hs.wf.bound _ _ (hs.bucket _ _ hf)).2.1
      rw [hrev] at this
      omega
  · have hf : s.keyBucket.find rk = some kv := hf
    have hle := Revision.main_le (le_lastRev hf)
    refine ⟨Revision.lt_iff.2 (.inl ?_), (hs.wf.bound _ _ (hs.bucket _ _ hf)).2⟩
    simp only [History.next, reopened]
    omega
  · exact hs.wf.unique rev kv kv' (hs.bucket _ _ hf) (hs.bucket _ _ hf')
  · exact find_contentsAt _ _ _
  · rcases hlast with h1 | ⟨rk, kv, hf, hrev⟩
    · exact .inl (by simp only [reopened, h1])
    · exact .inr ⟨rk, kv, hf, by simp only [reopened, hrev]⟩
  · refine hs.wf.leases ?_ rk kv (hs.bucket _ _ hf)
    rw [← hs.lessor]
    exact hle hn

/-- A reopened store has the history of the records left, with its last compaction taken to be any
that those below it are live at. -/
theorem Sim.reopen_seen (hs : Sim s h)
    (hr : Restored s.keyBucket.entries (unrestored s.keyBucket scheduled finished le) s')
    (hle : s'.le = none → s.le = none) {c : ℤ} {f : Option ℤ} (hf : f.getD (-1) = c)
    (hc : c ≤ (lastRev s.keyBucket).main)
    (hlive : ∀ rk kv, s.keyBucket.find rk = some kv → rk.rev.main ≤ c →
      ∃ k kv', live s.keyBucket k c = some (rk.rev, kv')) :
    Sim (s'.txnBegin.seen c f) (reopened s.keyBucket s'.le) := by
  have hframe := hr.frame
  have hbucket : s'.keyBucket = s.keyBucket := by rw [hframe]; rfl
  have hjobs : s'.fifoSched = [] := by rw [hframe]; rfl
  have hcur : s'.currentRev = lastRev s.keyBucket := by rw [hframe]; rfl
  refine ⟨hs.reopened_wf hle, ?_, hc, ?_, fun k r _ => hr.look k r, fun rk kv hf => ?_,
    fun rk kv hf _ => ?_, fun k r rev kv _ hl => ?_, rfl, fun j hj => ?_, fun j hj => ?_,
    fun j hj => ?_, ⟨hf.le, fun rk kv hf' hle => ?_⟩, fun _ => hf,
    fun rk kv rk' kv' _ hf' _ _ => ?_⟩
  · simp only [Store.txnBegin, seen, hcur]
    rfl
  · refine hr.index _ fun e he => Revision.lt_iff.2 (.inl ?_)
    have := Revision.main_le (le_lastRev (find_of_mem he))
    simp only [History.next, reopened]
    omega
  · exact hbucket ▸ hf
  · exact hbucket.symm ▸ hf
  · exact hbucket.symm ▸ (find_of_live hl).1
  · simp [Store.txnBegin, seen, hjobs] at hj
  · simp [Store.txnBegin, seen, hjobs] at hj
  · simp [Store.txnBegin, seen, hjobs] at hj
  · simp only [Store.txnBegin, seen, hf, hbucket] at hf' hle ⊢
    exact hlive rk kv hf' hle
  · exact hbucket.symm ▸ hf'

/-- The last compaction finished can be the one, unless the current revision was lost with its
records. -/
theorem Sim.reopen (hs : Sim s h)
    (hr : Restored s.keyBucket.entries
      (unrestored s.keyBucket scheduled s.finishedCompact le) s')
    (hle : s'.le = none → s.le = none)
    (hc : s.finishedCompact.getD (-1) ≤ (lastRev s.keyBucket).main) :
    Sim s'.txnBegin (reopened s.keyBucket s'.le) := by
  have hseen : s'.txnBegin.seen (s.finishedCompact.getD (-1)) s.finishedCompact = s'.txnBegin := by
    rw [hr.frame]
    rfl
  rw [← hseen]
  refine hs.reopen_seen hr hle rfl hc fun rk kv hf hle => ?_
  obtain ⟨k, kv', hl⟩ := hs.finished.2 rk kv hf hle
  refine ⟨k, kv', hs.live_bucket_iff.2 ⟨hl, ?_⟩⟩
  have hlog := (find_of_live hl).1
  rcases rk with ⟨rev, _ | _⟩
  · rw [← hlog]
    exact hf.trans (hs.bucket _ _ hf).symm
  · exact absurd (hs.bucket _ _ hf) (hs.wf.unique rev kv' kv hlog)

end Bucket

end Store

end EtcdCompat
