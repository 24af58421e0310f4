import EtcdCompat.Proofs.StoreCompact
import EtcdCompat.Proofs.WatchBatch

/-!
# What a transaction notes

A transaction adds its records to the end of the history, all of the next main revision, and the
changes a store has noted at its end are those records: `notify` is given their events.
-/

namespace EtcdCompat

open List OrdMap

/-- A record without a creation revision is a tombstone. -/
def Stamped (log : OrdMap RevKey KeyValue) : Prop :=
  ∀ rk kv, log.find rk = some kv → (kv.createRevision = 0 ↔ rk.mark = true)

theorem Stamped.changeEvent {log : OrdMap RevKey KeyValue} (hst : Stamped log)
    {e : RevKey × KeyValue} (he : e ∈ log.entries) :
    WatchableStore.changeEvent e.1.rev.main e.2 = eventOf e := by
  have hiff := hst e.1 e.2 (find_of_mem he)
  unfold WatchableStore.changeEvent eventOf
  by_cases hm : e.1.mark = true
  · rw [if_pos (hiff.2 hm), if_pos hm]
  · rw [if_neg fun h => hm (hiff.1 h), if_neg hm]

theorem Dated.mono {log log' : OrdMap RevKey KeyValue} (hd : Dated log)
    (hsub : ∀ rk kv, log'.find rk = some kv → log.find rk = some kv) : Dated log' :=
  ⟨fun rk kv hf => hd.sub rk kv (hsub rk kv hf), fun rk kv hf => hd.pos rk kv (hsub rk kv hf),
    fun rev kv hf => hd.put rev kv (hsub _ kv hf)⟩

namespace History

variable {h h₀ : History}

theorem WF.dated (hw : h.WF) : Dated h.log :=
  ⟨fun rk kv hf => (hw.bound rk kv hf).2.2,
    fun rk kv hf => Int.lt_of_lt_of_le (by decide) (hw.bound rk kv hf).2.1, hw.modified⟩

/-- What the operations of a transaction have done to the history it began with. -/
structure Grown (h₀ h : History) : Prop where
  wf : h.WF
  main : h.main = h₀.main
  stamped : Stamped h.log
  recs : ∃ recs, h.log.entries = h₀.log.entries ++ recs ∧ ∀ e ∈ recs, e.1.rev.main = h₀.main + 1

variable (hg : Grown h₀ h)
include hg

theorem Grown.write {mark : Bool} {kv : KeyValue} {le : Option Lessor}
    (hwf : (h.write mark kv le).WF) (hkv : kv.createRevision = 0 ↔ mark = true) :
    Grown h₀ (h.write mark kv le) := by
  obtain ⟨recs, hlog, hrecs⟩ := hg.recs
  refine ⟨hwf, hg.main, fun rk kv' hf => ?_, recs ++ [(⟨h.next, mark⟩, kv)], ?_, fun e he => ?_⟩
  · rw [find_write] at hf
    split_ifs at hf with heq
    · rw [← heq, ← Option.some.inj hf]
      exact hkv
    · exact hg.stamped rk kv' hf
  · show insertIn _ _ _ = _
    rw [insertIn_of_lt fun e he => RevKey.lt_iff.2 (.inl
      (hg.wf.bound e.1 e.2 (find_of_mem he)).1), hlog, append_assoc]
  · rcases mem_append.1 he with he | he
    · exact hrecs e he
    · rw [mem_singleton.1 he, ← hg.main]
      rfl

theorem Grown.put_stamp (key value : Bytes) (lease : ℤ) :
    (Contents.putKV (h.main + 1) key value lease (h.contents.find key)).createRevision ≠ 0 := by
  have hpos := hg.wf.main_pos
  rw [hg.wf.contents]
  rcases hl : live h.log key (h.main + 1) with _ | ⟨rev, kv⟩
  · show h.main + 1 ≠ 0
    omega
  · intro h0
    have hf := (find_of_live hl).1
    cases (hg.stamped _ _ hf).1 h0

theorem Grown.txnOp (op : Store.Op) : Yields (fun _ => True) (Grown h₀) (h.txnOp op) := by
  rcases op with ⟨key, value, lease⟩ | ⟨key, stop⟩ | ⟨key, stop, limit, rangeRev⟩
  · refine (hg.wf.extends_put key value lease).imp (fun _ _ => trivial) fun h' hh => ?_
    obtain ⟨hext, le, rfl⟩ := hh
    exact hg.write hext.wf (by simp [hg.put_stamp])
  · refine Yields.foldlM (fun key _ a ha => ?_) hg
    refine (ha.wf.extends_delete key).imp (fun _ _ => trivial) fun h' hh => ?_
    obtain ⟨hext, le, rfl⟩ := hh
    exact ha.write hext.wf (by simp)
  · exact hg

end History

namespace Store

variable {s : Store} {h : History} {main : ℤ}

/-- The changes noted are the records of the next main revision. -/
structure Noted (main : ℤ) (s : Store) : Prop where
  cur : s.currentRev.main = main
  below : ∀ e ∈ s.keyBucket.entries, e.1.rev < ⟨main + 1, s.currentRev.sub⟩
  changes : s.changes = (s.keyBucket.entries.filter fun e => e.1.rev.main = main + 1).map (·.2)

section

variable (hn : Noted main s)
include hn

theorem Noted.write (mark : Bool) (kv : KeyValue) (ti : TreeIndex) (le : Option Lessor) :
    Noted main (s.written mark kv ti le) := by
  have hentries : (s.written mark kv ti le).keyBucket.entries
      = s.keyBucket.entries ++ [(⟨⟨main + 1, s.currentRev.sub⟩, mark⟩, kv)] := by
    rw [written, hn.cur]
    exact insertIn_of_lt fun e he => RevKey.lt_iff.2 (.inl (hn.below e he))
  refine ⟨hn.cur, fun e he => ?_, ?_⟩
  · rw [hentries] at he
    have hlt : (⟨main + 1, s.currentRev.sub⟩ : Revision) < ⟨main + 1, s.currentRev.sub + 1⟩ :=
      Revision.lt_iff.2 (.inr ⟨rfl, Int.lt_succ _⟩)
    rcases mem_append.1 he with he | he
    · exact (hn.below e he).trans hlt
    · rw [mem_singleton.1 he]
      exact hlt
  · rw [hentries, filter_append, map_append, ← hn.changes]
    simp [written]

end

/-- What a transaction has done when it ends. -/
structure Wrote (h : History) (s' : Store) (h' : History) (recs : List (RevKey × KeyValue)) :
    Prop where
  idle : Idle s' h'
  stamped : Stamped h'.log
  log : h'.log.entries = h.log.entries ++ recs
  rev : ∀ e ∈ recs, e.1.rev.main = h.main + 1
  changes : s'.changes = recs.map (·.2)
  main : h'.main = if recs = [] then h.main else h.main + 1

theorem Noted.changes_eq (hn : Noted h.main s) {h' : History} (hs : Sim s h')
    (hmain : h'.main = h.main) : s.changes
      = (h'.log.entries.filter fun e => e.1.rev.main = h.main + 1).map (·.2) := by
  rw [hn.changes]
  congr 1
  refine entries_ext (s.keyBucket.sorted.filter _) (h'.log.sorted.filter _) fun e => ?_
  simp only [mem_filter, decide_eq_true_eq]
  refine and_congr_left fun he => ?_
  rw [show e = (e.1, e.2) from rfl, mem_entries, mem_entries]
  have hc := hs.compacted
  exact ⟨hs.bucket _ _, fun hf => hs.above _ _ hf (by omega)⟩

theorem Idle.noted (hs : Idle s h) (hch : s.changes = []) : Noted h.main s := by
  have hbound : ∀ e ∈ s.keyBucket.entries, h.log.find e.1 = some e.2 := fun e he =>
    hs.1.bucket _ _ (find_of_mem he)
  refine ⟨by rw [hs.1.cur], fun e he => ?_, ?_⟩
  · rw [hs.1.cur]
    exact (hs.1.wf.bound _ _ (hbound e he)).1
  · rw [hch, eq_comm, map_eq_nil_iff, filter_eq_nil_iff]
    intro e he
    have := hs.1.wf.main_le_of_sub hs.2 (hbound e he)
    simp
    omega

theorem Idle.txn_wrote (hs : Idle s h) (hst : Stamped h.log) (hch : s.changes = [])
    (ops : List Op) :
    Agree (fun s' h' => ∃ recs, Wrote h s' h' recs) (s.txn ops) (h.txn ops) := by
  unfold Store.txn History.txn
  rw [hs.1.txnBegin hs.2]
  have hgrown : Yields (fun _ => True) (History.Grown h) (ops.foldlM History.txnOp h) :=
    Yields.foldlM (fun op _ a ha => ha.txnOp op) ⟨hs.1.wf, rfl, hst, [], by simp, by simp⟩
  have hnoted : Yields (fun _ => True) (Noted h.main) (ops.foldlM Store.txnOp s) :=
    Yields.foldlM (fun op _ _ ha => txnOp_writes (fun _ _ _ _ h => h.write ..) ha op) (hs.noted hch)
  refine (((hs.1.ops ops).and_left hnoted).and_right hgrown).bind fun s' h' hh => ?_
  obtain ⟨⟨hs', hn⟩, hg⟩ := hh
  obtain ⟨recs, hlog, hrecs⟩ := hg.recs
  have hold : ∀ e ∈ h.log.entries, e.1.rev.main ≤ h.main := fun e he =>
    hs.1.wf.main_le_of_sub hs.2 (find_of_mem he)
  have hnew : (h'.log.entries.filter fun e => e.1.rev.main = h.main + 1) = recs := by
    have hnil : (h.log.entries.filter fun e => e.1.rev.main = h.main + 1) = [] := by
      rw [filter_eq_nil_iff]
      intro e he
      have := hold e he
      simp
      omega
    rw [hlog, filter_append, hnil, nil_append]
    exact filter_eq_self.2 fun e he => by simpa using hrecs e he
  refine ⟨recs, ⟨hs'.txnEnd, rfl⟩, hg.stamped, hlog, hrecs, ?_, ?_⟩
  · rw [← hnew]
    exact hn.changes_eq hs' hg.main
  · -- something was written just when the sub revision has risen
    show (if h'.sub ≠ 0 then h'.main + 1 else h'.main) = _
    rw [hg.main]
    have hiff : h'.sub = 0 ↔ recs = [] := by
      constructor
      · intro hsub
        refine eq_nil_iff_forall_not_mem.2 fun e he => ?_
        have hle := hg.wf.main_le_of_sub hsub
          (find_of_mem (show e ∈ h'.log.entries by rw [hlog]; simp [he]))
        rw [hrecs e he, hg.main] at hle
        omega
      · rintro rfl
        refine hg.wf.writing.resolve_right ?_
        rintro ⟨rk, kv, hf, hmain⟩
        rw [← mem_entries, hlog, append_nil] at hf
        have hle := hold _ hf
        rw [hmain, hg.main] at hle
        omega
    by_cases hnil : recs = []
    · rw [if_pos hnil, if_neg (not_not.2 (hiff.2 hnil))]
    · rw [if_neg hnil, if_pos fun h0 => hnil (hiff.1 h0)]

end Store

end EtcdCompat
