import EtcdCompat.Proofs.HistoryLive
import EtcdCompat.Proofs.IndexSpec

/-!
# The store follows its history

`Sim s h`: at and above the last compaction the index answers as the records of `h` say, the key
bucket holds every record above the compaction and every one that can still be read, and the
compaction jobs keep what was live at their revisions.
-/

namespace EtcdCompat.Store

variable {l : Option (Revision × KeyValue)} {kv : KeyValue}

/-- An answer of the index is the record read. -/
def Reads (o : Option (Revision × Revision × ℤ)) (l : Option (Revision × KeyValue)) : Prop :=
  o.map (fun x => (x.1, x.2.1.main, x.2.2)) = l.map fun y => (y.1, y.2.createRevision, y.2.version)

theorem Reads.fst {o : Option (Revision × Revision × ℤ)} (h : Reads o l) :
    o.map (·.1) = l.map (·.1) := by
  have := congrArg (Option.map (·.1)) h
  simpa [Option.map_map, Function.comp_def] using this

theorem Reads.some_of_left {x : Revision × Revision × ℤ} (h : Reads (some x) l) :
    ∃ kv, l = some (x.1, kv) ∧ kv.createRevision = x.2.1.main ∧ kv.version = x.2.2 := by
  rcases l with _ | ⟨rev, kv⟩
  · simp [Reads] at h
  · simp [Reads] at h
    exact ⟨kv, by rw [h.1], h.2.1.symm, h.2.2.symm⟩

open History (live)

structure Sim (s : Store) (h : History) : Prop where
  wf : h.WF
  cur : s.currentRev = ⟨h.main, h.sub⟩
  compacted : s.compactMainRev ≤ h.main
  index : s.kvindex.WF h.next
  look : ∀ k r, s.compactMainRev ≤ r → Reads (s.kvindex.look k r) (live h.log k r)
  bucket : ∀ rk kv, s.keyBucket.find rk = some kv → h.log.find rk = some kv
  above : ∀ rk kv, h.log.find rk = some kv → s.compactMainRev < rk.rev.main →
    s.keyBucket.find rk = some kv
  reads : ∀ k r rev kv, s.compactMainRev ≤ r → live h.log k r = some (rev, kv) →
    s.keyBucket.find ⟨rev, false⟩ = some kv
  lessor : s.le = h.le
  jobs : ∀ j ∈ s.fifoSched, j.compactMainRev ≤ s.compactMainRev
    ∧ ∀ rev, rev ∈ j.keep ↔ ∃ k kv, live h.log k j.compactMainRev = some (rev, kv)
  swept : ∀ j ∈ s.fifoSched, ∀ rk kv, s.keyBucket.find rk = some kv → rk < j.last →
    rk.rev.main ≤ j.compactMainRev → rk.rev ∈ j.keep
  lastJob : ∀ j, s.fifoSched.getLast? = some j → j.compactMainRev = s.compactMainRev
  finished : s.finishedCompact.getD (-1) ≤ s.compactMainRev
    ∧ ∀ rk kv, s.keyBucket.find rk = some kv → rk.rev.main ≤ s.finishedCompact.getD (-1) →
      ∃ k kv', live h.log k (s.finishedCompact.getD (-1)) = some (rk.rev, kv')
  done : s.fifoSched = [] → s.finishedCompact.getD (-1) = s.compactMainRev
  upper : ∀ rk kv rk' kv', s.keyBucket.find rk = some kv → h.log.find rk' = some kv' →
    kv'.key = kv.key → rk < rk' → s.keyBucket.find rk' = some kv'

variable {s : Store} {h : History}

theorem Sim.empty (le : Option Lessor) : Sim { le } { le } where
  wf := .empty le
  cur := rfl
  compacted := show (-1 : ℤ) ≤ 1 by decide
  index _ _ hf := by simp at hf
  look _ _ _ := rfl
  bucket _ _ hf := by simp at hf
  above _ _ hf := by simp at hf
  reads _ _ _ _ _ hl := by simp [live, History.newest, OrdMap.last, OrdMap.empty] at hl
  lessor := rfl
  jobs _ hj := by simp at hj
  swept _ hj := by simp at hj
  lastJob _ hj := by simp at hj
  finished := ⟨le_rfl, fun _ _ hf => by simp at hf⟩
  done _ := rfl
  upper _ _ _ _ hf := by simp at hf

theorem Sim.write (hs : Sim s h) {mark : Bool} {ti : TreeIndex}
    {le : Option Lessor} (changes : List KeyValue)
    (hkv : h.Writable mark kv)
    (hle : le = none → h.le = none ∧ kv.lease = NoLease) (hti : ti.WF (h.write mark kv le).next)
    (hlook : ∀ k r, s.compactMainRev ≤ r →
      Reads (ti.look k r) (live (h.write mark kv le).log k r)) :
    Sim { s with
      keyBucket := s.keyBucket.insert ⟨h.next, mark⟩ kv
      kvindex := ti
      changes := changes
      currentRev := ⟨h.main, h.sub + 1⟩
      le := le } (h.write mark kv le) := by
  have hext := hs.wf.extends_write hkv hle
  have hold : ∀ k r, r ≤ s.compactMainRev →
      live (h.write mark kv le).log k r = live h.log k r := fun k r hr =>
    hext.live k r (hr.trans hs.compacted)
  have hfind : ∀ rk, (s.keyBucket.insert ⟨h.next, mark⟩ kv).find rk
      = if (⟨h.next, mark⟩ : RevKey) = rk then some kv else s.keyBucket.find rk := fun rk => by
    rw [OrdMap.find_insert]
    split_ifs <;> rfl
  have hlow : ∀ rk kv', (s.keyBucket.insert ⟨h.next, mark⟩ kv).find rk = some kv' →
      rk.rev.main ≤ s.compactMainRev → s.keyBucket.find rk = some kv' := fun rk kv' hf hle => by
    rw [hfind] at hf
    split_ifs at hf with heq
    · have hc := hs.compacted
      rw [← heq] at hle
      simp only [History.next] at hle
      omega
    · exact hf
  refine ⟨hext.wf, rfl, hs.compacted, hti, hlook, fun rk kv' hf => ?_, fun rk kv' hf hlt => ?_,
    fun k r rev kv' hr hl => ?_, rfl, fun j hj => ?_, fun j hj rk kv' hf hlt hle => ?_,
    hs.lastJob, ⟨hs.finished.1, fun rk kv' hf hle => ?_⟩, hs.done,
    fun rk kv' rk' kv'' hf hf' hk hlt => ?_⟩
  · rw [hfind] at hf
    rw [History.find_write]
    split_ifs at hf ⊢
    · exact hf
    · exact hs.bucket rk kv' hf
  · rw [History.find_write] at hf
    rw [hfind]
    split_ifs at hf ⊢
    · exact hf
    · exact hs.above rk kv' hf hlt
  · rw [hfind]
    obtain ⟨hlog, -, -⟩ := History.find_of_live hl
    rw [History.find_write] at hlog
    split_ifs at hlog ⊢ with heq
    · exact hlog
    · rw [hs.wf.live_write] at hl
      split_ifs at hl with hk hm
      · rw [Option.some.injEq, Prod.mk.injEq] at hl
        exact absurd (by rw [hl.1, Bool.eq_false_iff.2 hm]) heq
      · exact hs.reads k r rev kv' hr hl
  · obtain ⟨h1, h2⟩ := hs.jobs j hj
    refine ⟨h1, fun rev => ?_⟩
    simp only [hold _ _ h1]
    exact h2 rev
  · exact hs.swept j hj rk kv' (hlow rk kv' hf (hle.trans (hs.jobs j hj).1)) hlt hle
  · simp only [hold _ _ hs.finished.1]
    exact hs.finished.2 rk kv' (hlow rk kv' hf (hle.trans hs.finished.1)) hle
  · -- nothing is above the new record, and what is below it was there
    rw [History.find_write] at hf'
    rw [hfind]
    split_ifs at hf' ⊢ with heq
    · exact hf'
    · rw [hfind] at hf
      split_ifs at hf with heq'
      · have hb := (hs.wf.bound _ _ hf').1
        rw [← heq'] at hlt
        exact absurd (RevKey.lt_iff.2 (.inl hb)) (not_lt.2 hlt.le)
      · exact hs.upper rk kv' rk' kv'' hf hf' hk hlt

theorem Sim.done_live (hs : Sim s h) (hdone : s.fifoSched = []) {rk : RevKey}
    (hf : s.keyBucket.find rk = some kv) (hle : rk.rev.main ≤ s.compactMainRev) :
    ∃ k kv', live h.log k s.compactMainRev = some (rk.rev, kv') := by
  rw [← hs.done hdone] at hle ⊢
  exact hs.finished.2 rk kv hf hle

section Ops

section

variable (hs : Sim s h)
include hs

theorem Sim.putBase (key : Bytes) : s.putBase key
    = .ok (((h.contents.find key).map (·.createRevision)).getD (h.main + 1),
        ((h.contents.find key).map (·.version)).getD 0, h.leaseOf key) := by
  have hc : s.compactMainRev ≤ h.main + 1 := hs.compacted.trans (Int.lt_succ _).le
  have hmain : s.currentRev.main = h.main := by rw [hs.cur]
  have hlook := hs.look key (h.main + 1) hc
  unfold Store.putBase History.leaseOf
  simp only [hmain, hs.index.get, hs.wf.contents]
  rcases hl : s.kvindex.look key (h.main + 1) with _ | ⟨grev, created, ver⟩
  · rw [hl] at hlook
    have hnone : live h.log key (h.main + 1) = none := by
      simpa [Reads] using hlook.symm
    rw [hnone]
    rfl
  · rw [hl] at hlook
    obtain ⟨kv, hlive, hcreated, hver⟩ := hlook.some_of_left
    have hfind := hs.reads key _ _ _ hc hlive
    simp [bind, Except.bind, hfind, hlive, hcreated, hver]

theorem Sim.next_eq : (⟨s.currentRev.main + 1, s.currentRev.sub⟩ : Revision) = h.next := by
  rw [hs.cur]
  rfl

theorem Sim.reads_put {key value : Bytes} {lease : ℤ} {ti : TreeIndex}
    (le : Option Lessor) (hlook : ∀ k r, ti.look k r
      = if k = key ∧ h.next.main ≤ r
        then some (KeyIndex.afterPut h.next (s.kvindex.look key h.next.main))
        else s.kvindex.look k r) (k : Bytes) (r : ℤ) (hr : s.compactMainRev ≤ r) :
    Reads (ti.look k r) (live (h.write false
      (Contents.putKV (h.main + 1) key value lease (h.contents.find key)) le).log k r) := by
  have hc : s.compactMainRev ≤ h.main + 1 := hs.compacted.trans (Int.lt_succ _).le
  rw [hlook, hs.wf.live_write]
  by_cases hk : k = key ∧ h.next.main ≤ r
  · obtain ⟨rfl, hr⟩ := hk
    rw [if_pos ⟨rfl, hr⟩, if_pos ⟨rfl, hr⟩]
    have hold := hs.look k (h.main + 1) hc
    have hcont := hs.wf.contents k
    have hmain : h.next.main = h.main + 1 := rfl
    rcases hl : s.kvindex.look k (h.main + 1) with _ | ⟨grev, created, ver⟩
    · rw [hl] at hold
      have hnone : live h.log k (h.main + 1) = none := by
        simpa [Reads] using hold.symm
      rw [hnone] at hcont
      simp [Reads, hcont, hmain, hl, KeyIndex.afterPut, Contents.putKV]
    · rw [hl] at hold
      obtain ⟨kv, hlive, hcreated, hver⟩ := hold.some_of_left
      rw [hlive] at hcont
      simp [Reads, hcont, hmain, hl, KeyIndex.afterPut, Contents.putKV, hcreated, hver]
  · rw [if_neg hk, if_neg fun hk' => hk ⟨hk'.1.symm, hk'.2⟩]
    exact hs.look k r hr

theorem Sim.put (key value : Bytes) (lease : ℤ) :
    Agree Sim (s.put key value lease) (h.put key value lease) := by
  have hlt : h.next < ⟨h.main + 1, h.sub + 1⟩ := Revision.lt_iff.2 (.inr ⟨rfl, Int.lt_succ _⟩)
  have hpos : 0 < h.next.main := Int.lt_add_one_of_le (zero_le_one.trans hs.wf.main_pos)
  obtain ⟨ti, hput, hwf, hlook⟩ := hs.index.put hpos hlt key
  have hstate : s.currentRev = ⟨h.main, h.sub⟩ := hs.cur
  unfold Store.put History.put
  rw [hs.putBase key]
  simp only [bind, Except.bind, hs.next_eq, hput]
  simp only [hstate, hs.lessor]
  have hdetach := History.detachLease_yields h.le (h.leaseOf key) key
  rcases hd : Store.detachLease h.le (h.leaseOf key) key with e | le
  · rfl
  have hattach := History.attachLease_yields le lease key
  simp only []
  rcases ha : Store.attachLease le lease key with e | le'
  · rfl
  rw [hd] at hdetach
  rw [ha] at hattach
  exact hs.write _ rfl (fun hn => ⟨hdetach (hattach hn).1, (hattach hn).2⟩) hwf
    (hs.reads_put le' hlook)

theorem Sim.delete {key : Bytes} {rev : Revision} {kv : KeyValue}
    (hlive : live h.log key (h.main + 1) = some (rev, kv)) :
    Agree (fun s' h' => Sim s' h' ∧ ∃ le, h' = h.write true { key := key } le)
      (s.delete key rev) (h.delete key) := by
  have hlt : h.next < ⟨h.main + 1, h.sub + 1⟩ := Revision.lt_iff.2 (.inr ⟨rfl, Int.lt_succ _⟩)
  have hc : s.compactMainRev ≤ h.main + 1 := hs.compacted.trans (Int.lt_succ _).le
  have hne : s.kvindex.look key h.next.main ≠ none := fun hn => by
    have := hs.look key (h.main + 1) hc
    rw [show s.kvindex.look key (h.main + 1) = none from hn, hlive] at this
    simp [Reads] at this
  obtain ⟨ti, htomb, hwf, hlook⟩ := hs.index.tombstone hlt hne
  have hstate : s.currentRev = ⟨h.main, h.sub⟩ := hs.cur
  have hfind : (s.keyBucket.insert ⟨h.next, true⟩ { key := key }).find ⟨rev, false⟩ = some kv := by
    rw [OrdMap.find_insert_ne (by simp)]
    exact hs.reads key _ _ _ hc hlive
  have hlease : h.leaseOf key = kv.lease := by
    simp [History.leaseOf, hs.wf.contents, hlive]
  unfold Store.delete History.delete
  simp only [bind, Except.bind, hs.next_eq, htomb]
  simp only [hstate, hfind, hs.lessor, hlease, (History.find_of_live hlive).2.1]
  have hdetach := History.detachLease_yields h.le kv.lease key
  rcases hd : Store.detachLease h.le kv.lease key with e | le
  · rfl
  rw [hd] at hdetach
  refine ⟨hs.write _ rfl (fun hn => ⟨hdetach hn, rfl⟩) hwf fun k r hr => ?_, le, rfl⟩
  rw [hlook, hs.wf.live_write]
  by_cases hk : k = key ∧ h.next.main ≤ r
  · rw [if_pos hk, if_pos ⟨hk.1.symm, hk.2⟩]
    rfl
  · rw [if_neg hk, if_neg fun hk' => hk ⟨hk'.1.symm, hk'.2⟩]
    exact hs.look k r hr

end

/-- The walk of a range deletion over what it found, by what relates a store to its history: a
deletion changes no other key. -/
theorem deleteKeys_agree {R : Store → History → Prop} (hwf : ∀ {s h}, R s h → h.WF)
    (hdelete : ∀ {s h}, R s h → ∀ {key rev kv}, live h.log key (h.main + 1) = some (rev, kv) →
      Agree (fun s' h' => R s' h' ∧ ∃ le, h' = h.write true { key := key } le)
        (s.delete key rev) (h.delete key)) :
    ∀ {l : List (Bytes × Revision)} {s : Store} {h : History}, R s h →
    (l.Pairwise fun a b => a.1 < b.1) →
    (∀ e ∈ l, ∃ kv, live h.log e.1 (h.main + 1) = some (e.2, kv)) →
    Agree R (l.foldlM (fun s item => s.delete item.1 item.2) s)
      ((l.map (·.1)).foldlM History.delete h)
  | [], _, _, hs, _, _ => hs
  | (key, rev) :: l, s, h, hs, hsorted, hlive => by
    obtain ⟨hlt, hsorted⟩ := List.pairwise_cons.1 hsorted
    obtain ⟨kv, hkv⟩ := hlive _ List.mem_cons_self
    rw [List.map_cons, List.foldlM_cons, List.foldlM_cons]
    refine (hdelete hs hkv).bind fun s' h' hh => ?_
    obtain ⟨hs', le, rfl⟩ := hh
    refine deleteKeys_agree hwf hdelete hs' hsorted fun e he => ?_
    obtain ⟨kv', hkv'⟩ := hlive e (List.mem_cons_of_mem _ he)
    refine ⟨kv', ?_⟩
    rw [(hwf hs).live_write, if_neg fun hk => ne_of_lt (hlt e he) hk.1]
    exact hkv'

end Ops

end EtcdCompat.Store
