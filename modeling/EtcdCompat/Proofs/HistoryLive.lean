import EtcdCompat.Lib.Outcome
import EtcdCompat.Storage.History
import Mathlib.Data.List.Induction

/-!
# Reading a history

A history is well formed when its records are below the next revision, no revision has two of them,
and its contents are what the records say. A record more changes what is read of its key from its
main revision on, and nothing else.
-/

namespace EtcdCompat

open List OrdMap Contents

/-- The only error a run of a store may stop with. -/
def LeaseOnly (e : Fatal) : Prop := e = .lease

namespace History

variable {log : OrdMap RevKey KeyValue} {h h' : History} {key k : Bytes} {r : ℤ}
  {rev : Revision} {kv : KeyValue}
  {rk : RevKey}

theorem newest_eq_some_iff {e : RevKey × KeyValue} : newest log k r = some e ↔
    log.find e.1 = some e.2 ∧ e.2.key = k ∧ e.1.rev.main ≤ r
      ∧ ∀ rk kv, log.find rk = some kv → kv.key = k → rk.rev.main ≤ r → rk ≤ e.1 := by
  unfold newest
  rw [last_eq_some_iff]
  simp only [decide_eq_true_eq, and_imp, Prod.forall, mem_entries, and_assoc]
  exact and_congr_left fun _ => mem_entries

theorem live_eq_some_iff :
    live log k r = some (rev, kv) ↔ newest log k r = some (⟨rev, false⟩, kv) := by
  unfold live
  split
  · rename_i rev' kv' hn
    simp [hn]
  · rename_i hn
    simp
    exact fun h => hn _ _ h

theorem find_of_live (hl : live log k r = some (rev, kv)) :
    log.find ⟨rev, false⟩ = some kv ∧ kv.key = k ∧ rev.main ≤ r := by
  obtain ⟨h1, h2, h3, -⟩ := newest_eq_some_iff.1 (live_eq_some_iff.1 hl)
  exact ⟨h1, h2, h3⟩

theorem live_of_le {j : ℤ} (hl : live log k r = some (rev, kv)) (hrev : rev.main ≤ j) (hj : j ≤ r) :
    live log k j = some (rev, kv) := by
  rw [live_eq_some_iff] at hl ⊢
  obtain ⟨h1, h2, h3, h4⟩ := newest_eq_some_iff.1 hl
  exact newest_eq_some_iff.2 ⟨h1, h2, hrev, fun rk kv' hf hk hle => h4 rk kv' hf hk (hle.trans hj)⟩

theorem live_congr {r' : ℤ} (hrec : ∀ rk kv, log.find rk = some kv → kv.key = k →
    (rk.rev.main ≤ r ↔ rk.rev.main ≤ r')) : live log k r = live log k r' := by
  have : newest log k r = newest log k r' := by
    refine Option.ext fun e => ?_
    rw [newest_eq_some_iff, newest_eq_some_iff]
    constructor
    · rintro ⟨h1, h2, h3, h4⟩
      exact ⟨h1, h2, (hrec _ _ h1 h2).1 h3, fun rk kv hf hk hle =>
        h4 rk kv hf hk ((hrec rk kv hf hk).2 hle)⟩
    · rintro ⟨h1, h2, h3, h4⟩
      exact ⟨h1, h2, (hrec _ _ h1 h2).2 h3, fun rk kv hf hk hle =>
        h4 rk kv hf hk ((hrec rk kv hf hk).1 hle)⟩
  unfold live
  rw [this]

theorem find_replay (k : Bytes) (c : Contents) (e : RevKey × KeyValue) :
    (replay c e).find k
      = if e.2.key = k then (if e.1.mark then none else some e.2) else c.find k := by
  unfold replay
  split_ifs with hmark hk hk
  · rw [find_erase, if_pos hk.symm]
  · rw [find_erase, if_neg (Ne.symm hk)]
  · rw [hk, find_insert_self]
  · rw [find_insert_ne hk]

theorem find_foldl_replay (k : Bytes) (es : List (RevKey × KeyValue)) :
    (es.foldl replay .empty).find k = (es.filter fun e => e.2.key = k).getLast?.bind
      fun e => if e.1.mark then none else some e.2 := by
  induction es using reverseRecOn with
  | nil => rfl
  | append_singleton es e ih =>
    rw [foldl_append, foldl_cons, foldl_nil, find_replay, ih, filter_append]
    by_cases hk : e.2.key = k
    · simp [hk]
    · simp [hk]

theorem find_contentsAt (log : OrdMap RevKey KeyValue) (k : Bytes) (r : ℤ) :
    (contentsAt log r).find k = (live log k r).map (·.2) := by
  unfold contentsAt live newest last
  rw [find_foldl_replay, filter_filter]
  simp only [Bool.decide_and]
  rcases (log.entries.filter _).getLast? with _ | ⟨⟨rev, _ | _⟩, kv⟩ <;> rfl

def Precedes (log : OrdMap RevKey KeyValue) (e e' : RevKey × KeyValue) : Prop :=
  log.find e.1 = some e.2 ∧ e.2.key = e'.2.key ∧ e.1 < e'.1
    ∧ ∀ rk kv, log.find rk = some kv → kv.key = e'.2.key → rk < e'.1 → rk ≤ e.1

structure WF (h : History) : Prop where
  main_pos : 1 ≤ h.main
  sub_nonneg : 0 ≤ h.sub
  bound : ∀ rk kv, h.log.find rk = some kv → rk.rev < h.next ∧ 2 ≤ rk.rev.main ∧ 0 ≤ rk.rev.sub
  unique : ∀ rev kv kv', h.log.find ⟨rev, false⟩ = some kv → h.log.find ⟨rev, true⟩ ≠ some kv'
  contents : ∀ k, h.contents.find k = (live h.log k (h.main + 1)).map (·.2)
  modified : ∀ rev kv, h.log.find ⟨rev, false⟩ = some kv → kv.modRevision = rev.main
  written : h.main = 1 ∨ ∃ rk kv, h.log.find rk = some kv ∧ rk.rev.main = h.main
  writing : h.sub = 0 ∨ ∃ rk kv, h.log.find rk = some kv ∧ rk.rev.main = h.main + 1
  leases : h.le = none → ∀ rk kv, h.log.find rk = some kv → kv.lease = NoLease
  tombs : ∀ rev kv, h.log.find ⟨rev, true⟩ = some kv → kv.lease = NoLease
  chain : ∀ e rev kv, h.log.find ⟨rev, false⟩ = some kv → Precedes h.log e (⟨rev, false⟩, kv) →
    kv.createRevision = (if e.1.mark then rev.main else e.2.createRevision)
      ∧ kv.version = if e.1.mark then 1 else e.2.version + 1

theorem WF.empty (le : Option Lessor) : ({ le } : History).WF where
  main_pos := le_rfl
  sub_nonneg := le_rfl
  bound _ _ hf := by simp at hf
  unique _ _ _ hf := by simp at hf
  contents _ := rfl
  modified _ _ hf := by simp at hf
  written := .inl rfl
  writing := .inl rfl
  leases _ _ _ hf := by simp at hf
  tombs _ _ hf := by simp at hf
  chain _ _ _ hf := by simp at hf

theorem WF.main_le (hw : h.WF) (hf : h.log.find rk = some kv) : rk.rev.main ≤ h.main + 1 :=
  Revision.main_le (hw.bound rk kv hf).1.le

theorem WF.main_le_of_sub (hw : h.WF) (hsub : h.sub = 0) (hf : h.log.find rk = some kv) :
    rk.rev.main ≤ h.main := by
  obtain ⟨hlt, -, hnn⟩ := hw.bound rk kv hf
  rw [Revision.lt_iff] at hlt
  simp only [next, hsub] at hlt
  omega

theorem WF.live_top (hw : h.WF) (hr : h.main + 1 ≤ r) :
    live h.log k r = live h.log k (h.main + 1) :=
  live_congr fun rk kv hf _ => by
    have := hw.main_le hf
    constructor <;> intro <;> omega

theorem WF.live_main (hw : h.WF) (hsub : h.sub = 0) :
    live h.log k h.main = live h.log k (h.main + 1) :=
  live_congr fun rk kv hf _ => by
    have := hw.main_le_of_sub hsub hf
    constructor <;> intro <;> omega

section Write

variable {mark : Bool} {kv : KeyValue} {le : Option Lessor}

theorem WF.lt_next (hw : h.WF) (mark : Bool) : ∀ e ∈ h.log.entries, e.1 < ⟨h.next, mark⟩ :=
  fun e he => RevKey.lt_iff.2 (.inl (hw.bound e.1 e.2 (find_of_mem he)).1)

theorem WF.live_write (hw : h.WF) (mark : Bool) (kv : KeyValue) (le : Option Lessor) (k : Bytes)
    (r : ℤ) : live (h.write mark kv le).log k r
      = if kv.key = k ∧ h.main + 1 ≤ r then (if mark then none else some (h.next, kv))
        else live h.log k r := by
  unfold live newest write
  rw [last_insert (hw.lt_next mark)]
  by_cases hk : kv.key = k ∧ h.main + 1 ≤ r
  · rw [if_pos (decide_eq_true (p := kv.key = k ∧ h.next.main ≤ r) hk), if_pos hk]
    cases mark <;> rfl
  · rw [if_neg fun hd => hk (of_decide_eq_true (p := kv.key = k ∧ h.next.main ≤ r) hd), if_neg hk]

theorem WF.find_next (hw : h.WF) (m : Bool) : h.log.find ⟨h.next, m⟩ = none := by
  rcases hf : h.log.find ⟨h.next, m⟩ with _ | kv
  · rfl
  · exact absurd (hw.bound _ _ hf).1 (lt_irrefl _)

theorem find_write (rk : RevKey) : (h.write mark kv le).log.find rk
    = if (⟨h.next, mark⟩ : RevKey) = rk then some kv else h.log.find rk := by
  simp only [write, find_insert]
  split_ifs <;> rfl

theorem find_of_write {kv' : KeyValue} (hf : (h.write mark kv le).log.find rk = some kv') :
    rk = ⟨h.next, mark⟩ ∧ kv' = kv ∨ h.log.find rk = some kv' := by
  rw [find_write] at hf
  split_ifs at hf with heq
  · exact .inl ⟨heq.symm, (Option.some.inj hf).symm⟩
  · exact .inr hf

theorem WF.find_write_of_find (hw : h.WF) {kv' : KeyValue} (hf : h.log.find rk = some kv') :
    (h.write mark kv le).log.find rk = some kv' := by
  rw [find_write, if_neg, hf]
  rintro rfl
  rw [hw.find_next] at hf
  cases hf

/-- What the next record may be: a tombstone, which has no lease, or a pair put over the
contents. -/
def Writable (h : History) : Bool → KeyValue → Prop
  | true, kv => kv.lease = NoLease
  | false, kv =>
    kv = Contents.putKV (h.main + 1) kv.key kv.value kv.lease (h.contents.find kv.key)

theorem WF.chain_next (hw : h.WF) (hkv : h.Writable false kv) {e : RevKey × KeyValue}
    (hp : Precedes h.log e (⟨h.next, false⟩, kv)) :
    kv.createRevision = (if e.1.mark then h.main + 1 else e.2.createRevision)
      ∧ kv.version = if e.1.mark then 1 else e.2.version + 1 := by
  obtain ⟨hf, hk, -, hmax⟩ := hp
  have hnew : newest h.log kv.key (h.main + 1) = some e := by
    refine newest_eq_some_iff.2 ⟨hf, hk, hw.main_le hf, fun rk kv' hf' hk' _ => ?_⟩
    exact hmax rk kv' hf' hk' (RevKey.lt_iff.2 (.inl (hw.bound rk kv' hf').1))
  have hc := hw.contents kv.key
  unfold live at hc
  rw [hnew] at hc
  obtain ⟨⟨rev, mark⟩, kv'⟩ := e
  have hkv : kv = putKV (h.main + 1) kv.key kv.value kv.lease
    (h.contents.find kv.key) := hkv
  rcases mark with _ | _
  · rw [hkv, hc]
    simp [putKV]
  · rw [hkv, hc]
    simp [putKV]

theorem WF.write (hw : h.WF) (hkv : h.Writable mark kv)
    (hle : le = none → h.le = none ∧ kv.lease = NoLease) : (h.write mark kv le).WF where
  main_pos := hw.main_pos
  sub_nonneg := Int.add_nonneg hw.sub_nonneg (by decide)
  bound rk kv' hf := by
    have hlt : h.next < (h.write mark kv le).next := Revision.lt_iff.2 (.inr ⟨rfl, Int.lt_succ _⟩)
    rcases find_of_write hf with ⟨rfl, -⟩ | hf
    · have := hw.main_pos
      have := hw.sub_nonneg
      exact ⟨hlt, by simp only [next]; omega, by simp only [next]; omega⟩
    · obtain ⟨h1, h2⟩ := hw.bound rk kv' hf
      exact ⟨h1.trans hlt, h2⟩
  unique rev kv' kv'' hf hf' := by
    rcases find_of_write hf with ⟨heq, -⟩ | h1 <;> rcases find_of_write hf' with ⟨heq', -⟩ | h2
    · cases heq.trans heq'.symm
    · cases heq
      cases (hw.find_next _).symm.trans h2
    · cases heq'
      cases (hw.find_next _).symm.trans h1
    · exact hw.unique rev kv' kv'' h1 h2
  contents k := by
    have hmain : (h.write mark kv le).main = h.main := rfl
    rw [hw.live_write, hmain]
    have hc := hw.contents k
    rcases mark with _ | _
    · show (h.contents.insert kv.key kv).find k = _
      rw [find_insert]
      by_cases hk : kv.key = k <;> simp [hk, hc]
    · show (h.contents.erase kv.key).find k = _
      rw [find_erase]
      by_cases hk : kv.key = k
      · simp [hk]
      · rw [if_neg (Ne.symm hk), if_neg (by simp [hk]), hc]
  modified rev kv' hf := by
    rcases find_of_write hf with ⟨heq, rfl⟩ | hf
    · cases heq
      rw [show kv' = _ from hkv]
      rfl
    · exact hw.modified rev kv' hf
  written := by
    refine hw.written.imp_right ?_
    rintro ⟨rk, kv', hf, hm⟩
    exact ⟨rk, kv', hw.find_write_of_find hf, hm⟩
  writing := .inr ⟨⟨h.next, mark⟩, kv, by rw [find_write, if_pos rfl], rfl⟩
  leases hn rk kv' hf := by
    rcases find_of_write hf with ⟨-, rfl⟩ | hf
    · exact (hle hn).2
    · exact hw.leases (hle hn).1 rk kv' hf
  tombs rev kv' hf := by
    rcases find_of_write hf with ⟨heq, rfl⟩ | hf
    · cases heq
      exact hkv
    · exact hw.tombs rev kv' hf
  chain e rev kv' hf hp := by
    -- below a record only older ones are looked at
    have hlt : ∀ {rk kv''}, (h.write mark kv le).log.find rk = some kv'' →
        rk < ⟨rev, false⟩ → h.log.find rk = some kv'' := fun {rk kv''} hf' hlt => by
      rcases find_of_write hf' with ⟨rfl, -⟩ | hf'
      · rcases find_of_write hf with ⟨heq, -⟩ | hf
        · exact absurd hlt (heq ▸ lt_irrefl _)
        · exact absurd (RevKey.lt_iff.2 (.inl (hw.bound _ _ hf).1)) (not_lt.2 hlt.le)
      · exact hf'
    have hp' : Precedes h.log e (⟨rev, false⟩, kv') :=
      ⟨hlt hp.1 hp.2.2.1, hp.2.1, hp.2.2.1, fun rk kv'' hf'' =>
        hp.2.2.2 rk kv'' (hw.find_write_of_find hf'')⟩
    rcases find_of_write hf with ⟨heq, rfl⟩ | hf
    · cases heq
      exact hw.chain_next hkv hp'
    · exact hw.chain e rev kv' hf hp'

end Write

/-- What the operations of a transaction may do to the history it began with. -/
structure Extends (h h' : History) : Prop where
  wf : h'.WF
  main : h'.main = h.main
  sub : h.sub ≤ h'.sub
  same : h'.sub = h.sub → h' = h
  live : ∀ k r, r ≤ h.main → live h'.log k r = live h.log k r

theorem WF.extends_self (hw : h.WF) : Extends h h :=
  ⟨hw, rfl, le_rfl, fun _ => rfl, fun _ _ _ => rfl⟩

theorem Extends.trans {h'' : History} (h1 : Extends h h') (h2 : Extends h' h'') :
    Extends h h'' where
  wf := h2.wf
  main := h2.main.trans h1.main
  sub := h1.sub.trans h2.sub
  same heq := by
    have h1s := h1.sub
    have h2s := h2.sub
    rw [h2.same (by omega), h1.same (by omega)]
  live k r hr := (h2.live k r (h1.main ▸ hr)).trans (h1.live k r hr)

theorem WF.extends_write (hw : h.WF) {mark : Bool} {kv : KeyValue} {le : Option Lessor}
    (hkv : h.Writable mark kv)
    (hle : le = none → h.le = none ∧ kv.lease = NoLease) : Extends h (h.write mark kv le) where
  wf := hw.write hkv hle
  main := rfl
  sub := (Int.lt_succ _).le
  same heq := absurd heq (ne_of_gt (Int.lt_succ _))
  live k r hr := by rw [hw.live_write, if_neg fun hk => by omega]

section Leases

theorem detachLease_yields (le : Option Lessor) (id : ℤ) (key : Bytes) :
    Yields LeaseOnly (fun le' => le' = none → le = none) (Store.detachLease le id key) := by
  unfold Store.detachLease
  split_ifs
  · exact fun hn => hn
  · split
    · exact rfl
    · simp [Yields]

theorem attachLease_yields (le : Option Lessor) (id : ℤ) (key : Bytes) :
    Yields LeaseOnly (fun le' => le' = none → le = none ∧ id = NoLease)
      (Store.attachLease le id key) := by
  unfold Store.attachLease
  split_ifs with hid
  · exact fun hn => ⟨hn, hid⟩
  · split
    · exact rfl
    · simp [Yields]

end Leases

theorem WF.extends_put (hw : h.WF) (key value : Bytes) (lease : ℤ) :
    Yields LeaseOnly (fun h' => Extends h h' ∧ ∃ le, h' = h.write false
      (putKV (h.main + 1) key value lease (h.contents.find key)) le)
      (h.put key value lease) := by
  refine (detachLease_yields _ _ _).bind fun le hle => ?_
  refine (attachLease_yields _ _ _).bind fun le' hle' => ?_
  exact ⟨hw.extends_write rfl fun hn => ⟨hle (hle' hn).1, (hle' hn).2⟩, le', rfl⟩

theorem WF.extends_delete (hw : h.WF) (key : Bytes) :
    Yields LeaseOnly (fun h' => Extends h h' ∧ ∃ le, h' = h.write true { key := key } le)
      (h.delete key) := by
  refine (detachLease_yields _ _ _).bind fun le hle => ?_
  exact ⟨hw.extends_write rfl fun hn => ⟨hle hn, rfl⟩, le, rfl⟩

theorem extends_deleteKeys : ∀ (ks : List Bytes) {h : History}, h.WF →
    Yields LeaseOnly (fun h' => Extends h h' ∧ h'.contents = ks.foldl erase h.contents
      ∧ h'.sub = h.sub + ks.length) (ks.foldlM delete h)
  | [], h, hw => ⟨hw.extends_self, rfl, by simp⟩
  | k :: ks, h, hw => by
    rw [foldlM_cons]
    refine (hw.extends_delete k).bind fun h1 hh1 => ?_
    obtain ⟨hext, le, heq⟩ := hh1
    refine (extends_deleteKeys ks hext.wf).mono fun h2 hh2 => ?_
    obtain ⟨hext', h3, h4⟩ := hh2
    refine ⟨hext.trans hext', ?_, ?_⟩
    · rw [h3, heq]
      rfl
    · rw [h4, heq, length_cons]
      simp only [History.write]
      omega

theorem WF.txnEnd (hw : h.WF) : h.txnEnd.WF ∧ h.txnEnd.sub = 0 := by
  refine ⟨?_, rfl⟩
  have hpos := hw.main_pos
  have hsub := hw.sub_nonneg
  have hmain : h.txnEnd.main = if h.sub ≠ 0 then h.main + 1 else h.main := rfl
  refine ⟨?_, le_rfl, fun rk kv hf => ?_, hw.unique, fun k => ?_, hw.modified, ?_, .inl rfl,
    hw.leases, hw.tombs, hw.chain⟩
  · rw [hmain]
    split_ifs <;> omega
  · obtain ⟨hlt, h2⟩ := hw.bound rk kv hf
    refine ⟨?_, h2⟩
    rw [Revision.lt_iff] at hlt ⊢
    simp only [next, hmain] at hlt ⊢
    split_ifs <;> simp only [History.txnEnd] <;> omega
  · show h.contents.find k = _
    rw [hw.contents, hmain]
    split_ifs
    · exact congrArg _ (hw.live_top (by omega)).symm
    · rfl
  · rw [hmain]
    split_ifs with h0
    · exact .inr (hw.writing.resolve_left h0)
    · exact hw.written

section Replay

theorem foldl_erase_within (m : Contents) (key : Bytes) (stop : Option Bytes) :
    ((m.within key stop).map (·.1)).foldl erase m = m.deleteRange key stop := by
  have hmem : ∀ k, k ∈ (m.within key stop).map (·.1) ↔
      InRange key stop k ∧ ∃ kv, m.find k = some kv := fun k => by
    simp [Contents.within, mem_entries, and_comm]
  refine ext_find fun k => ?_
  rw [find_foldl_erase, Contents.deleteRange, find_filter]
  have hp : (decide ¬ InRange key stop k) = true ↔ ¬ InRange key stop k := decide_eq_true_iff
  by_cases hk : InRange key stop k
  · rw [if_neg fun h => hp.1 h hk]
    rcases hf : m.find k with _ | kv
    · exact ite_self none
    · exact if_pos ((hmem k).2 ⟨hk, kv, hf⟩)
  · rw [if_pos (hp.2 hk), if_neg fun h => hk ((hmem k).1 h).1]

/-- An operation does to the contents what its replay does, and it writes when its replay does. -/
theorem WF.txnOp (hw : h.WF) (op : Store.Op) :
    Yields LeaseOnly (fun h' => Extends h h'
      ∧ Contents.replayOp (h.main + 1) (h.contents, decide (h.sub ≠ 0)) op
        = (h'.contents, decide (h'.sub ≠ 0))) (h.txnOp op) := by
  have hsub := hw.sub_nonneg
  rcases op with ⟨key, value, lease⟩ | ⟨key, stop⟩ | ⟨key, stop, limit, rangeRev⟩
  · refine (hw.extends_put key value lease).mono fun h' hh => ⟨hh.1, ?_⟩
    obtain ⟨-, le, rfl⟩ := hh
    have : h.sub + 1 ≠ 0 := by omega
    simp [Contents.replayOp, History.write, Contents.put, Contents.putKV, this]
  · refine (extends_deleteKeys _ hw).mono fun h' hh => ⟨hh.1, ?_⟩
    obtain ⟨-, hc, hs⟩ := hh
    rw [foldl_erase_within] at hc
    rw [length_map] at hs
    simp [Contents.replayOp, hc, hs]
    rcases h.contents.within key stop with _ | ⟨e, l⟩
    · simp
    · simp
      omega
  · exact ⟨hw.extends_self, rfl⟩

theorem WF.ops : ∀ (ops : List Store.Op) {h : History}, h.WF →
    Yields LeaseOnly (fun h' => Extends h h'
      ∧ ops.foldl (replayOp (h.main + 1)) (h.contents, decide (h.sub ≠ 0))
        = (h'.contents, decide (h'.sub ≠ 0))) (ops.foldlM History.txnOp h)
  | [], _, hw => ⟨hw.extends_self, rfl⟩
  | op :: ops, h, hw => by
    rw [foldlM_cons]
    refine (hw.txnOp op).bind fun h1 hh1 => ?_
    refine (WF.ops ops hh1.1.wf).mono fun h2 hh2 => ⟨hh1.1.trans hh2.1, ?_⟩
    rw [foldl_cons, hh1.2, ← hh1.1.main]
    exact hh2.2

/-- Where the replay up to `r` stands after the transactions of a history. -/
structure Replayed (h : History) (r : ℤ) (st : ℤ × Contents) : Prop where
  whole : h.main ≤ r → st = (h.main, h.contents)
  stopped : r < h.main → r ≤ st.1
  find : ∀ k, st.2.find k = (live h.log k r).map (·.2)

theorem Replayed.txnEnd (hw : h.WF) (hsub : h.sub = 0) {r : ℤ} {st : ℤ × Contents}
    (hr : Replayed h r st) {ops : List Store.Op} (hext : Extends h h')
    (hops : ops.foldl (replayOp (h.main + 1)) (h.contents, false)
      = (h'.contents, decide (h'.sub ≠ 0))) :
    Replayed h'.txnEnd r (replayTxn r st ops) := by
  have hmain : h'.txnEnd.main = if h'.sub ≠ 0 then h.main + 1 else h.main := by
    rw [← hext.main]
    rfl
  unfold replayTxn
  by_cases hle : h.main + 1 ≤ r
  · obtain rfl := hr.whole (by omega)
    simp only [hle, if_true, hops, decide_eq_true_eq]
    refine ⟨fun _ => ?_, fun hlt => ?_, fun k => ?_⟩
    · rw [hmain]
      rfl
    · rw [hmain] at hlt
      split_ifs at hlt <;> omega
    · show h'.contents.find k = (live h'.log k r).map (·.2)
      rw [hext.wf.contents, hext.wf.live_top (r := r) (by rw [hext.main]; exact hle)]
  · have hskip : ¬ st.1 + 1 ≤ r := by
      by_cases hlt : r < h.main
      · have := hr.stopped hlt
        omega
      · rw [hr.whole (by omega)]
        omega
    rw [if_neg hskip]
    refine ⟨fun hle' => ?_, fun _ => by omega, fun k => ?_⟩
    · rw [hmain] at hle'
      split_ifs at hle' with h0
      · omega
      · obtain rfl : h' = h := hext.same (by omega)
        rw [hr.whole hle', History.txnEnd, if_neg (by omega)]
    · show st.2.find k = (live h'.log k r).map (·.2)
      rw [hr.find, hext.live k r (by omega)]

/-- Between transactions, with the replay up to each revision of a set. -/
structure Traced (revs : Set ℤ) (h : History) (st : ℤ → ℤ × Contents) : Prop where
  wf : h.WF
  sub : h.sub = 0
  replayed : ∀ r ∈ revs, Replayed h r (st r)

variable {revs : Set ℤ}

theorem Traced.txn {st : ℤ → ℤ × Contents} (ht : Traced revs h st) (ops : List Store.Op) :
    Yields LeaseOnly (Traced revs · fun r => replayTxn r (st r) ops) (h.txn ops) := by
  refine (WF.ops ops ht.wf).bind fun h' hh => ?_
  obtain ⟨hext, hops⟩ := hh
  rw [ht.sub] at hops
  exact ⟨hext.wf.txnEnd.1, rfl, fun r hr => (ht.replayed r hr).txnEnd ht.wf ht.sub hext hops⟩

theorem WF.setLessor (hw : h.WF) {le : Option Lessor} (hle : le = none → h.le = none) :
    ({ h with le := le } : History).WF :=
  { hw with leases := fun hn => hw.leases (hle hn) }

theorem Traced.run : ∀ (evs : List Store.Event) {h : History} {st : ℤ → ℤ × Contents},
    Traced revs h st → Yields LeaseOnly
      (Traced revs · fun r => (Store.Event.txns evs).foldl (replayTxn r) (st r))
      (evs.foldlM step h)
  | [], _, _, ht => ht
  | ev :: evs, h, st, ht => by
    rw [foldlM_cons]
    rcases ev with ops | rev | _ | le
    · exact (ht.txn ops).bind fun h' ht' => Traced.run evs ht'
    · exact Traced.run evs ht
    · exact Traced.run evs ht
    · refine Traced.run evs (h := { h with le := h.le.map fun _ => le })
        ⟨?_, ht.sub, fun r hr => ?_⟩
      · exact ht.wf.setLessor (by simp)
      · exact ⟨(ht.replayed r hr).whole, (ht.replayed r hr).stopped, (ht.replayed r hr).find⟩

theorem WF.main_le_run (hw : h.WF) (evs : List Store.Event) :
    Yields LeaseOnly (fun h' => h.main ≤ h'.main) (evs.foldlM step h) := by
  refine (Yields.foldlM (P := fun h' => h'.WF ∧ h.main ≤ h'.main) (fun ev _ a ha => ?_)
    ⟨hw, le_rfl⟩).mono fun _ hh => hh.2
  rcases ev with ops | rev | _ | le
  · refine (WF.ops ops ha.1).bind fun h' hh => ⟨hh.1.wf.txnEnd.1, ha.2.trans ?_⟩
    simp only [History.txnEnd, hh.1.main]
    split_ifs <;> omega
  · exact ha
  · exact ha
  · exact ⟨ha.1.setLessor (by simp), ha.2⟩

/-- A run's history is well formed, and its records say at each revision what the transactions up
to it leave. -/
theorem run_traced (le : Option Lessor) (evs : List Store.Event) : Yields LeaseOnly
    (Traced .univ · fun r => (Store.Event.txns evs).foldl (replayTxn r) (1, .empty))
    (run le evs) :=
  Traced.run evs ⟨WF.empty le, rfl, fun _ _ => ⟨fun _ => rfl, fun h => h.le, fun _ => rfl⟩⟩

theorem Traced.snapshotAt {h : History} {txns : List (List Store.Op)}
    (ht : Traced .univ h fun r => txns.foldl (replayTxn r) (1,
      .empty)) (r : ℤ) (k : Bytes) :
    (snapshotAt txns r).find k = (live h.log k r).map (·.2) :=
  (ht.replayed r trivial).find k

end Replay

end History

end EtcdCompat
