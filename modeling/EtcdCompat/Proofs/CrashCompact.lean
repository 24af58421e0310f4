import EtcdCompat.Proofs.StoreRestore

/-!
# A crash in the middle of a compaction

The backend a crash leaves has the records not removed so far and the revisions of the last
compaction scheduled and finished. A store reopened on it takes the finished one for the last: until
the scheduled one is resumed, a range between the two reads whatever is left.
-/

namespace EtcdCompat.Store

open List OrdMap

open History (live)
open Contents

variable {s s' : Store} {h : History} {txns : List (List Op)} {revs : Set ℤ}

/-- The main revision that transactions reach. -/
def lastMain (txns : List (List Op)) : ℤ :=
  (txns.foldl (replayTxn (txns.length + 1)) (1, .empty)).1

theorem foldl_replayTxn_le (r : ℤ) : ∀ (txns : List (List Op)) (st : ℤ × Contents),
    (txns.foldl (replayTxn r) st).1 ≤ st.1 + txns.length
  | [], st => by simp
  | ops :: txns, st => by
    have hrest := foldl_replayTxn_le r txns (replayTxn r st ops)
    have hone : (replayTxn r st ops).1 ≤ st.1 + 1 := by
      unfold replayTxn
      split_ifs
      · simp only []
        split_ifs <;> omega
      · omega
    rw [foldl_cons, length_cons]
    push_cast
    omega

theorem lastMain_eq (hrevs : ∀ r, h.main ≤ r → r ∈ revs)
    (ht : History.Traced revs h fun r => txns.foldl (replayTxn r) (1, .empty)) :
    lastMain txns = h.main := by
  have hmain := (ht.replayed _ (hrevs _ le_rfl)).whole le_rfl
  have hle := foldl_replayTxn_le h.main txns (1, .empty)
  rw [hmain] at hle
  have hlen : h.main ≤ txns.length + 1 := by
    omega
  rw [lastMain, (ht.replayed _ (hrevs _ hlen)).whole hlen]

/-- Every range says that its revision was compacted, or gives what the transactions up to it
leave. -/
def ReadsRight (txns : List (List Op)) (s : Store) : Prop :=
  ∀ key stop limit rev, rev ≤ lastMain txns → ∃ res, s.range key stop limit rev = .ok res
    ∧ (res.err = some .errCompacted ∨ res.err = none ∧ res.kvs = rangeOf
        (snapshotAt txns (if rev ≤ 0 then lastMain txns else rev)) key stop limit)

theorem Idle.range_compacted (hs : Idle s h) {rev : ℤ} (hcur : rev ≤ s.currentRev.main)
    (hpos : 1 ≤ rev) (hc : rev ≤ s.compactMainRev) (key : Bytes) (stop : Option Bytes)
    (limit : ℤ) : s.range key stop limit rev = .ok ⟨[], 0, some .errCompacted⟩ := by
  have hmain := hs.curRev_main
  have hread : s.readRev rev = rev := if_neg (by omega)
  rw [Store.range, hs.1.txnBegin hs.2, rangeKeys_def, if_neg (by omega), hread, if_pos hc]

theorem Idle.readsRight (hs : Idle s h) (hmain : ∀ r, h.main ≤ r → r ∈ revs)
    (hrevs : ∀ r, s.compactMainRev < r → r ∈ revs)
    (ht : History.Traced revs h fun r => txns.foldl (replayTxn r) (1, .empty)) :
    ReadsRight txns s := by
  have hcur : s.currentRev.main = h.main := by rw [hs.1.cur]
  have hpos := hs.1.wf.main_pos
  -- a range at a revision of the history
  have hread : ∀ key stop limit r, 1 ≤ r → r ≤ s.currentRev.main → ∃ res,
      s.range key stop limit r = .ok res ∧ (res.err = some .errCompacted ∨ res.err = none
        ∧ res.kvs = rangeOf (snapshotAt txns r) key stop limit) := by
    intro key stop limit r h1 hle
    by_cases hc : r ≤ s.compactMainRev
    · exact ⟨_, hs.range_compacted hle h1 hc key stop limit, .inl rfl⟩
    · have hr := (ht.replayed r (hrevs r (not_le.1 hc))).find
      exact ⟨_, hs.range_eq h1 hle (not_le.1 hc) hr key stop limit, .inr ⟨rfl, rfl⟩⟩
  intro key stop limit rev hrev
  rw [lastMain_eq hmain ht, ← hcur] at hrev ⊢
  split_ifs with h0
  · rw [hs.range_current h0]
    exact hread key stop limit _ (by omega) le_rfl
  · exact hread key stop limit rev (by omega) hrev

/-- What a crash has to leave: the last record of the history and, above the last compaction
finished, every pair that can be read below the last one scheduled. -/
structure Intact (txns : List (List Op)) (s : Store) : Prop where
  last : (lastRev s.keyBucket).main = s.currentRev.main
  records : ∀ rev k kv, s.finishedCompact.getD (-1) < rev → rev < s.compactMainRev →
    (snapshotAt txns rev).find k = some kv → ∃ r, s.keyBucket.find ⟨r, false⟩ = some kv

def readable (s : Store) : Set ℤ :=
  {r | s.finishedCompact.getD (-1) < r ∨ s.compactMainRev ≤ r}

theorem Intact.live_bucket (hi : Intact txns s) (hs : Sim s h)
    (hsnap : ∀ r k, (snapshotAt txns r).find k = (live h.log k r).map (·.2)) {r : ℤ}
    (hr : r ∈ s.readable) (k : Bytes) : live s.keyBucket k r = live h.log k r := by
  by_cases hc : s.compactMainRev ≤ r
  · exact hs.live_bucket hc
  refine hs.live_bucket_of fun rev kv hl => ?_
  obtain ⟨rev', hf⟩ := hi.records r k kv (hr.resolve_right hc) (not_le.1 hc) (by
    rw [hsnap, hl]
    rfl)
  -- an equal pair is older than the one read, and then that one is left too
  obtain ⟨hlog, hk, hle, hmax⟩ := History.newest_eq_some_iff.1 (History.live_eq_some_iff.1 hl)
  have hmain : rev'.main = rev.main :=
    (hs.wf.modified rev' kv (hs.bucket _ _ hf)).symm.trans (hs.wf.modified rev kv hlog)
  rcases (hmax _ kv (hs.bucket _ _ hf) hk (hmain.trans_le hle)).lt_or_eq with hlt | heq
  · exact hs.upper _ kv _ kv hf hlog rfl hlt
  · exact (congrArg s.keyBucket.find heq).symm.trans hf

theorem Intact.traced (hi : Intact txns s) (hs : Idle s h) {le : Option Lessor}
    (hle : le = none → s.le = none)
    (ht : History.Traced .univ h fun r => txns.foldl (replayTxn r) (1, .empty)) :
    History.Traced s.readable (reopened s.keyBucket le)
      fun r => txns.foldl (replayTxn r) (1, .empty) := by
  have hmain : (reopened s.keyBucket le).main = h.main := by
    rw [show h.main = s.currentRev.main by rw [hs.1.cur]]
    exact hi.last
  have hwf := hs.1.reopened_wf hle
  refine ⟨hwf, rfl, fun r hr => ⟨fun hle => ?_, fun hlt => ?_, fun k => ?_⟩⟩
  · have hcontents : (reopened s.keyBucket le).contents = h.contents := by
      refine ext_find fun k => ?_
      have hc := hs.1.compacted
      rw [hwf.contents, hs.1.wf.contents, hmain]
      exact congrArg _ (hs.1.live_bucket (by omega))
    rw [hcontents, hmain]
    exact (ht.replayed r trivial).whole (hmain ▸ hle)
  · exact (ht.replayed r trivial).stopped (hmain ▸ hlt)
  · rw [show (reopened s.keyBucket le).log = s.keyBucket from rfl,
      hi.live_bucket hs.1 ht.snapshotAt hr k]
    exact (ht.replayed r trivial).find k

theorem txns_append : ∀ evs evs' : List Event,
    Event.txns (evs ++ evs') = Event.txns evs ++ Event.txns evs'
  | [], _ => rfl
  | ev :: evs, evs' => by
    rcases ev with ops | rev | _ | le
    case txn => exact congrArg (ops :: ·) (txns_append evs evs')
    all_goals exact txns_append evs evs'

theorem run_compactMainRev (s : Store) (evs : List Event) : Yields (fun _ => True)
    (fun s' => s.compactMainRev ≤ s'.compactMainRev) (evs.foldlM step s) := by
  refine Yields.foldlM (fun ev _ a ha => ?_) le_rfl
  rcases ev with ops | rev | _ | le
  · exact (a.txn_keeps ops).mono fun s hs => hs.1 ▸ ha
  · simp only [step, compact]
    split_ifs with h1
    · exact ha
    · exact ha
    · rcases a.kvindex.compact rev with e | x
      · exact True.intro
      · exact ha.trans (not_le.1 h1).le
  · obtain ⟨bucket, finished, jobs, heq⟩ := a.scheduleCompaction_frame
    simp only [step, heq]
    exact ha
  · exact ha

theorem mem_rangeOf {m : Contents} {key : Bytes} {stop : Option Bytes} {kv : KeyValue} :
    kv ∈ rangeOf m key stop 0 ↔ ∃ k, InRange key stop k ∧ m.find k = some kv := by
  simp only [rangeOf, cut, lt_irrefl, if_false, within, mem_map, mem_filter, decide_eq_true_eq]
  constructor
  · rintro ⟨e, ⟨he, hin⟩, rfl⟩
    exact ⟨e.1, hin, mem_entries.1 he⟩
  · rintro ⟨k, hin, hf⟩
    exact ⟨(k, kv), ⟨mem_entries.2 hf, hin⟩, rfl⟩

section Reopen

variable {le : Option Lessor} (hs : Idle s h) (hle : s'.le = none → s.le = none)
  (ht : History.Traced .univ h fun r => txns.foldl (replayTxn r) (1, .empty))
  (hr : Restored s.keyBucket.entries (unrestored s.keyBucket s.scheduledCompact s.finishedCompact
    le) s')

include hr in
theorem reopened_range_future {rev : ℤ} (hlt : (lastRev s.keyBucket).main < rev) (key : Bytes)
    (stop : Option Bytes) (limit : ℤ) : s'.range key stop limit rev
      = .ok ⟨[], (lastRev s.keyBucket).main, some .errFutureRev⟩ := by
  have hcur : s'.txnBegin.curRev = (lastRev s.keyBucket).main := by
    rw [curRev, hr.frame]
    rfl
  have hmain : s'.txnBegin.currentRev.main = (lastRev s.keyBucket).main := by
    rw [hr.frame]
    rfl
  rw [Store.range, rangeKeys_def, if_pos (hcur ▸ hlt), hmain]

include hs hle ht hr

/-- With what a crash has to leave, the reopened store reads right ever after. -/
theorem Intact.reads (hi : Intact txns s) {evs : List Event} {s'' : Store}
    (hrun : evs.foldlM step s' = .ok s'') : ReadsRight (txns ++ Event.txns evs) s'' := by
  have hmain : s.currentRev.main = h.main := by rw [hs.1.cur]
  have hc := hs.1.compacted
  have hfin := hs.1.finished.1
  have hsim := hs.1.reopen hr hle (by rw [hi.last]; omega)
  have hrun' : evs.foldlM step s'.txnBegin = .ok s''.txnBegin := by
    rw [foldlM_txnBegin, hrun]
    rfl
  have hagree : Agree Idle (evs.foldlM step s'.txnBegin)
      (evs.foldlM History.step (reopened s.keyBucket s'.le)) :=
    Agree.foldlM (fun ev _ _ _ hs => hs.step ev) ⟨hsim, rfl⟩
  have htraced := hi.traced hs hle ht
  obtain ⟨h', ⟨hs', hrises⟩, ht'⟩ := ((hagree.and_right (htraced.wf.main_le_run evs)).yields
    (htraced.run evs)).of_ok hrun'
  have hfirst : (reopened s.keyBucket s'.le).main = h.main := hi.last.trans hmain
  have hrise : s'.compactMainRev ≤ s''.compactMainRev := (s'.run_compactMainRev evs).of_ok hrun
  have hold : s'.compactMainRev = s.finishedCompact.getD (-1) := by
    rw [hr.frame]
    rfl
  simp only [← foldl_append] at ht'
  refine Idle.readsRight (s := s''.txnBegin) hs' (fun r hle => .inr ?_) (fun r hlt => .inl ?_) ht'
  · omega
  · rw [← hold]
    exact hrise.trans_lt hlt

/-- If the reopened store reads right before anything else happens, the crash has left it all. -/
theorem Intact.of_reads (hreads : ReadsRight txns s') : Intact txns s := by
  have hmain : s.currentRev.main = h.main := by rw [hs.1.cur]
  have hlastMain := lastMain_eq (fun _ _ => trivial) ht
  have hc := hs.1.compacted
  have hfin := hs.1.finished.1
  have hlast : (lastRev s.keyBucket).main = h.main := by
    refine le_antisymm hs.lastRev_le (not_lt.1 fun hlt => ?_)
    obtain ⟨res, hres, herr⟩ := hreads [] none 0 h.main hlastMain.ge
    rw [reopened_range_future hr hlt, Except.ok.injEq] at hres
    subst hres
    simp at herr
  refine ⟨hlast.trans hmain.symm, fun rev k kv hlow hhigh hfind => ?_⟩
  have hsim := hs.1.reopen hr hle (by omega)
  have hpos : 1 ≤ rev := by
    rw [ht.snapshotAt] at hfind
    obtain ⟨⟨rev', kv'⟩, hl, -⟩ := Option.map_eq_some_iff.1 hfind
    obtain ⟨hf, -, hle⟩ := History.find_of_live hl
    have := (hs.1.wf.bound _ _ hf).2.1
    simp only [] at this
    omega
  have hrange := Idle.range_eq ⟨hsim, rfl⟩ hpos (by
      rw [hsim.cur]
      simp only [reopened]
      omega) (by
      rw [show s'.txnBegin.compactMainRev = s'.compactMainRev from rfl, hr.frame]
      exact hlow) (History.find_contentsAt s.keyBucket · rev) k none 0
  obtain ⟨res, hres, herr⟩ := hreads k none 0 rev (by omega)
  rw [show s'.range k none 0 rev = s'.txnBegin.range k none 0 rev from rfl, hrange,
    Except.ok.injEq] at hres
  subst hres
  rw [if_neg (by omega)] at herr
  have hmem : kv ∈ rangeOf (snapshotAt txns rev) k none 0 := mem_rangeOf.2 ⟨k, rfl, hfind⟩
  rw [← (herr.resolve_left (by simp)).2] at hmem
  obtain ⟨k', -, hf⟩ := mem_rangeOf.1 hmem
  rw [History.find_contentsAt] at hf
  obtain ⟨⟨r, kv'⟩, hl, rfl⟩ := Option.map_eq_some_iff.1 hf
  exact ⟨r, (History.find_of_live hl).1⟩

end Reopen

theorem reopen_reads_iff {le : Option Lessor} {evs : List Event} {s : Store}
    (hrun : run le evs = .ok s) (le' : Option Lessor) (hle : s.le.isSome → le'.isSome) :
    ∃ s' resumed, newStore s.keyBucket s.scheduledCompact s.finishedCompact le'
        = .ok (s', resumed)
      ∧ (Intact (Event.txns evs) s ↔ ∀ evs' s'', evs'.foldlM step s' = .ok s'' →
          ReadsRight (Event.txns (evs ++ evs')) s'') := by
  obtain ⟨h, hs, ht⟩ := ((run_sim le evs).yields (History.run_traced le evs)).of_ok hrun
  obtain ⟨s', hs', hr⟩ := hs.1.newStore s.scheduledCompact s.finishedCompact hle
  have hnone := hr.lessor hle
  refine ⟨s', _, hs', fun hi evs' s'' hrun' => ?_, fun hreads => ?_⟩
  · rw [txns_append]
    exact hi.reads hs hnone ht hr hrun'
  · refine Intact.of_reads hs hnone ht hr ?_
    simpa only [List.append_nil] using hreads [] s' rfl

/-- A crash before the first batch of a compaction of a new key. -/
theorem reopen_reads_put : ∃ s s' resumed, run none [.txn [.put [1] [2] 0], .compact 2] = .ok s
    ∧ s.fifoSched ≠ [] ∧ newStore s.keyBucket s.scheduledCompact s.finishedCompact none
        = .ok (s', resumed)
    ∧ ∀ evs' s'', evs'.foldlM step s' = .ok s'' →
      ReadsRight (Event.txns ([.txn [.put [1] [2] 0], .compact 2] ++ evs')) s'' := by
  obtain ⟨s, hrun, hjobs, hle, hlast, hc⟩ :
      ∃ s, run none [.txn [.put [1] [2] 0], .compact 2] = .ok s ∧ s.fifoSched ≠ [] ∧ s.le = none
        ∧ (lastRev s.keyBucket).main = s.currentRev.main ∧ s.compactMainRev = 2 :=
    ⟨_, rfl, by decide, rfl, rfl, rfl⟩
  obtain ⟨s', resumed, hs', hreads⟩ := reopen_reads_iff hrun none (by simp [hle])
  refine ⟨s, s', resumed, hrun, hjobs, hs', hreads.1 ⟨hlast, fun rev k kv _ hlt hf => ?_⟩⟩
  -- below the compaction nothing was there
  rw [hc] at hlt
  simp [Event.txns, snapshotAt, replayTxn, not_le.2 hlt] at hf

section HalfSwept

variable {k : Bytes} {n : ℕ} {kv : KeyValue}

/-- A history of one key without leases, with so many records. -/
structure Solo (k : Bytes) (n : ℕ) (h : History) : Prop where
  wf : h.WF
  le : h.le = none
  keys : ∀ rk kv, h.log.find rk = some kv → kv.key = k
  length : h.log.entries.length = n

theorem Solo.put (hh : Solo k n h) (v : Bytes) : ∃ h',
    h.txnOp (.put k v 0) = .ok h' ∧ Solo k (n + 1) h' ∧ h'.main = h.main ∧ h'.sub = h.sub + 1
      ∧ h'.contents.find k ≠ none := by
  have hlease : h.leaseOf k = NoLease := by
    unfold History.leaseOf
    rcases hf : h.contents.find k with _ | kv
    · rfl
    · rw [hh.wf.contents] at hf
      obtain ⟨⟨rev, kv'⟩, hl, rfl⟩ := Option.map_eq_some_iff.1 hf
      exact hh.wf.leases hh.le _ _ (History.find_of_live hl).1
  have hput : h.put k v 0 = .ok (h.write false
      (putKV (h.main + 1) k v 0 (h.contents.find k)) h.le) := by
    simp [History.put, hlease, detachLease, attachLease, NoLease, bind, Except.bind]
  refine ⟨_, hput, ⟨hh.wf.write rfl fun hn => ⟨hn, rfl⟩, hh.le, fun rk kv hf => ?_, ?_⟩, rfl, rfl,
    ?_⟩
  · rw [History.find_write] at hf
    split_ifs at hf
    · rw [← Option.some.inj hf]
      rfl
    · exact hh.keys rk kv hf
  · have hlt : ∀ e ∈ h.log.entries, e.1 < ⟨h.next, false⟩ := fun e he =>
      RevKey.lt_plain_iff.2 (hh.wf.bound _ _ (OrdMap.find_of_mem he)).1
    simp [History.write, OrdMap.insert, OrdMap.insertIn_of_lt hlt, hh.length]
  · simp [History.write, putKV]

theorem Solo.puts (v : Bytes) : ∀ (m : ℕ) {n : ℕ} {h : History}, Solo k n h →
    h.contents.find k ≠ none → ∃ h', (replicate m (.put k v 0)).foldlM History.txnOp h = .ok h'
      ∧ Solo k (n + m) h' ∧ h'.main = h.main ∧ h'.sub = h.sub + m ∧ h'.contents.find k ≠ none
  | 0, _, h, hh, hk => ⟨h, rfl, hh, rfl, by simp, hk⟩
  | m + 1, n, h, hh, _ => by
    obtain ⟨h1, hput, hh1, hmain, hsub, hk1⟩ := hh.put v
    obtain ⟨h2, hputs, hh2, hmain2, hsub2, hk2⟩ := Solo.puts v m hh1 hk1
    refine ⟨h2, ?_, ?_, hmain2.trans hmain, ?_, hk2⟩
    · rw [replicate_succ, foldlM_cons, hput]
      exact hputs
    · rwa [show n + (m + 1) = n + 1 + m by omega]
    · rw [hsub2, hsub]
      push_cast
      omega

theorem Solo.half_swept (hh : Solo k n h) (hn : batchsize ≤ n) (hs : Idle s h)
    (hc : s.compactMainRev = -1) (hjobs : s.fifoSched = []) {rk : RevKey}
    (hf : h.log.find rk = some kv) (hfirst : ∀ rk' kv', h.log.find rk' = some kv' → rk ≤ rk')
    (hlt : rk.rev.main < h.main) : ∃ s', [Event.compact h.main, .batch].foldlM step s = .ok s'
      ∧ Idle s' h ∧ s'.compactMainRev = h.main ∧ s'.finishedCompact = s.finishedCompact
      ∧ s'.keyBucket.find rk = none := by
  have hcur : s.currentRev.main = h.main := by rw [hs.1.cur]
  have hbucket : s.keyBucket = h.log := ext_find fun rk => by
    ext kv
    exact hs.1.bucket_eq hc rk kv
  obtain ⟨kvindex, keep, hcompact⟩ := hs.1.compact_eq
    (show s.compactMainRev < h.main by have := hs.1.wf.main_pos; omega) hcur.ge
  obtain ⟨s₁, err, heq, hs₁⟩ := hs.1.compact h.main
  obtain ⟨rfl, rfl⟩ := Prod.mk.inj (Except.ok.inj (hcompact.symm.trans heq))
  rw [hjobs, nil_append] at hcompact hs₁
  have hall : h.log.slice ⟨⟨0, 0⟩, false⟩ ⟨⟨h.main + 1, 0⟩, false⟩ = h.log.entries := by
    refine filter_eq_self.2 fun e he => decide_eq_true ?_
    obtain ⟨h1, h2, -⟩ := hs.1.wf.bound _ _ (find_of_mem he)
    rw [RevKey.plain_le_iff, RevKey.lt_plain_iff, Revision.le_iff]
    refine ⟨.inl (by simp only []; omega), ?_⟩
    rwa [History.next, hs.2] at h1
  have hlen : (batchKeys s.keyBucket ⟨h.main, keep, ⟨⟨0, 0⟩, false⟩⟩).length = batchsize := by
    rw [batchKeys, hbucket, hall, length_map, length_take, hh.length]
    omega
  obtain ⟨key, hkey⟩ : ∃ key,
      (batchKeys s.keyBucket ⟨h.main, keep, ⟨⟨0, 0⟩, false⟩⟩).getLast? = some key := by
    rw [← Option.isSome_iff_exists, getLast?_isSome, ← length_pos_iff, hlen]
    decide
  have hin : rk ∈ batchKeys s.keyBucket ⟨h.main, keep, ⟨⟨0, 0⟩, false⟩⟩ := by
    refine (mem_batchKeys_or (hbucket ▸ hf) ?_ hlt.le).resolve_right fun hfull => ?_
    · have := (hs.1.wf.bound _ _ hf).2.1
      rw [RevKey.plain_le_iff, Revision.le_iff]
      exact .inl (by simp only []; omega)
    · obtain ⟨kv', hf', -⟩ := mem_of_mem_batchKeys (mem_of_getLast? hkey)
      rw [hbucket] at hf'
      exact absurd (hfull.2 key (mem_of_getLast? hkey)) (not_lt.2 (hfirst key kv' hf'))
  have hkeep : rk.rev ∉ keep := fun hk => by
    obtain ⟨rk', kv', hf', hmain⟩ := hs.1.wf.written.resolve_left (by
      have := (hs.1.wf.bound _ _ hf).2.1
      omega)
    have hle := hs₁.le_of_keep mem_cons_self (hbucket ▸ hf) hk hf'
      ((hh.keys _ _ hf').trans (hh.keys _ _ hf).symm) hmain.le
    have := Revision.main_le (RevKey.rev_le hle)
    omega
  have hbatch := scheduleCompaction_cons
    (s := { s with
      compactMainRev := h.main
      scheduledCompact := some h.main
      kvindex := kvindex
      fifoSched := [⟨h.main, keep, ⟨⟨0, 0⟩, false⟩⟩] }) rfl
  simp [hkey, hlen] at hbatch
  refine ⟨_, ?_, ⟨hs₁.scheduleCompaction, hs.2⟩, ?_, ?_, ?_⟩
  · simp [step, hcompact]
    rfl
  · rw [hbatch]
  · rw [hbatch]
  · rw [hbatch]
    simp [find_batchBucket, hin, hkeep]

theorem Solo.reopen_range {evs : List Event} (hh : Solo k n h) (hn : batchsize ≤ n)
    (hhist : History.run none evs = .ok h) (hevs : ∀ ev ∈ evs, ¬ ev.compacts) {r : ℤ}
    (hr : r < h.main) (hlive : live h.log k r = some (⟨2, 0⟩, kv)) (hk : h.contents.find k ≠ none) :
    ∃ s s' resumed, run none (evs ++ [.compact h.main, .batch]) = .ok s
      ∧ newStore s.keyBucket s.scheduledCompact s.finishedCompact none = .ok (s', resumed)
      ∧ s'.range k none 0 r = .ok ⟨[], h.main, none⟩ := by
  obtain ⟨s₂, hrun, hs₂⟩ := (run_sim none evs).exists_ok_left hhist
  obtain ⟨hc, hjobs⟩ := (run_keeps none evs hevs).of_ok hrun
  obtain ⟨hfind, -, hle⟩ := History.find_of_live hlive
  simp only [] at hle
  have hfirst : ∀ rk' kv', h.log.find rk' = some kv' → (⟨⟨2, 0⟩, false⟩ : RevKey) ≤ rk' := by
    intro rk' kv' hf
    obtain ⟨-, h2, h3⟩ := hh.wf.bound _ _ hf
    rw [RevKey.plain_le_iff, Revision.le_iff]
    simp only []
    omega
  obtain ⟨s, hswept, hs, hcs, hfin, hgone⟩ := hh.half_swept hn hs₂ hc hjobs hfind hfirst
    (by simp only []; omega)
  have hle : s.le = none := hs.1.lessor.trans hh.le
  obtain ⟨s', hs', hres⟩ := hs.1.newStore s.scheduledCompact s.finishedCompact
    (show s.le.isSome → (none : Option Lessor).isSome by simp [hle])
  have hlast : (lastRev s.keyBucket).main = h.main := by
    -- the newest put is live, and so is its record
    rw [hh.wf.contents, ← hh.wf.live_main hs.2, Ne, Option.map_eq_none_iff] at hk
    obtain ⟨⟨rev, kv'⟩, hl⟩ := Option.ne_none_iff_exists'.1 hk
    obtain ⟨rk, kv₁, hf, hmain⟩ := hh.wf.written.resolve_left (by omega)
    obtain ⟨-, -, -, hmax⟩ := History.newest_eq_some_iff.1 (History.live_eq_some_iff.1 hl)
    have hnew := Revision.main_le (RevKey.rev_le (hmax rk kv₁ hf (hh.keys rk kv₁ hf) hmain.le))
    have hold := Revision.main_le (le_lastRev (hs.1.reads k _ rev kv' hcs.le hl))
    have := hs.lastRev_le
    simp only [] at hnew hold
    omega
  have hfin' : s.finishedCompact.getD (-1) ≤ -1 := by
    have := hs₂.1.finished.1
    rwa [hc, ← hfin] at this
  have hsim := hs.1.reopen hres (fun _ => hle) (by have := hh.wf.main_pos; omega)
  refine ⟨s, s', _, ?_, hs', ?_⟩
  · rw [run, foldlM_append, show evs.foldlM step { le := none } = .ok s₂ from hrun]
    exact hswept
  · have hnone : rangeOf (History.contentsAt s.keyBucket r) k none 0 = [] := by
      refine eq_nil_iff_forall_not_mem.2 fun kv' hmem => ?_
      obtain ⟨k', hin, hf⟩ := mem_rangeOf.1 hmem
      obtain rfl : k' = k := hin
      rw [History.find_contentsAt] at hf
      obtain ⟨⟨rev, kv''⟩, hl, -⟩ := Option.map_eq_some_iff.1 hf
      obtain ⟨hl', hb⟩ := hs.1.live_bucket_iff.1 hl
      obtain ⟨rfl, -⟩ := Prod.mk.inj (Option.some.inj (hlive.symm.trans hl'))
      rw [hgone] at hb
      cases hb
    have hrange := Idle.range_eq ⟨hsim, rfl⟩ (show 1 ≤ r by omega) (by
      rw [hsim.cur]
      simp only [reopened]
      omega) (by
      rw [show s'.txnBegin.compactMainRev = s'.compactMainRev from rfl, hres.frame]
      simp only [unrestored]
      omega) (History.find_contentsAt s.keyBucket · r) k none 0
    rw [hnone, hsim.cur] at hrange
    simp only [reopened, hlast] at hrange
    exact hrange

/-- A key put, and put again as often as a batch is long, in one transaction. The batch of the
compaction there removes the first put, and all the others but the last. -/
def halfSwept : List Event :=
  [.txn [.put [1] [2] 0], .txn (List.replicate batchsize (.put [1] [3] 0)), .compact 3, .batch]

theorem halfSwept_history : ∃ h kv, History.run none (halfSwept.take 2) = .ok h
    ∧ Solo [1] (1 + batchsize) h ∧ h.main = 3 ∧ live h.log [1] 2 = some (⟨2, 0⟩, kv)
    ∧ h.contents.find [1] ≠ none := by
  obtain ⟨h₁, kv, hrun₁, hmain₁, hsub₁, hle₁, hlog₁, hlive₁, hk₁⟩ : ∃ h₁ kv,
      History.run none [.txn [.put [1] [2] 0]] = .ok h₁ ∧ h₁.main = 2 ∧ h₁.sub = 0
        ∧ h₁.le = none ∧ h₁.log.entries = [(⟨⟨2, 0⟩, false⟩, kv)]
        ∧ live h₁.log [1] 2 = some (⟨2, 0⟩, kv) ∧ h₁.contents.find [1] ≠ none :=
    ⟨_, _, rfl, rfl, rfl, rfl, rfl, rfl, by decide⟩
  have hwf₁ := ((History.run_traced none _).of_ok hrun₁).wf
  have hkey : kv.key = [1] := (History.find_of_live hlive₁).2.1
  have hsolo : Solo [1] 1 h₁ := ⟨hwf₁, hle₁, fun rk kv' hf => by
    have hmem := mem_entries.2 hf
    rw [hlog₁, mem_singleton, Prod.mk.injEq] at hmem
    rw [hmem.2, hkey], by rw [hlog₁]; rfl⟩
  obtain ⟨h', hputs, hsolo', hmain', hsub', hk'⟩ := hsolo.puts [3] batchsize hk₁
  have hext := ((History.WF.ops _ hwf₁).of_ok hputs).1
  have hsub : h'.sub ≠ 0 := by
    rw [hsub', hsub₁]
    decide
  refine ⟨h'.txnEnd, kv, ?_, ⟨hsolo'.wf.txnEnd.1, hsolo'.le, hsolo'.keys, hsolo'.length⟩, ?_, ?_,
    hk'⟩
  · rw [show halfSwept.take 2 = [.txn [.put [1] [2] 0]]
      ++ [.txn (replicate batchsize (.put [1] [3] 0))] from rfl, History.run,
      foldlM_append, show [Event.txn [.put [1] [2] 0]].foldlM History.step { le := none }
        = .ok h₁ from hrun₁]
    simp [bind, Except.bind, History.step, History.txn, hputs]
    rfl
  · simp only [History.txnEnd, if_pos hsub]
    omega
  · rw [← hlive₁]
    exact hext.live [1] 2 (by omega)

theorem reopen_reads_nothing : ∃ s s' resumed, run none halfSwept = .ok s
    ∧ newStore s.keyBucket s.scheduledCompact s.finishedCompact none = .ok (s', resumed)
    ∧ s'.range [1] none 0 2 = .ok ⟨[], 3, none⟩
    ∧ rangeOf (snapshotAt (Event.txns halfSwept) 2) [1] none 0 = [⟨[1], 2, 2, 1, [2], 0⟩] := by
  obtain ⟨h, kv, hhist, hh, hmain, hlive, hk⟩ := halfSwept_history
  obtain ⟨s, s', resumed, hrun, hnew, hrange⟩ := hh.reopen_range (by omega) hhist
    (by simp [halfSwept, Event.compacts]) (by omega) hlive hk
  rw [hmain] at hrun hrange
  exact ⟨s, s', resumed, hrun, hnew, hrange, rfl⟩

end HalfSwept

end EtcdCompat.Store
