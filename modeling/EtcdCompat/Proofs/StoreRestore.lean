import EtcdCompat.Proofs.StoreMvcc
import EtcdCompat.Proofs.StoreReplay

/-!
# Reopening a store

A store is rebuilt from its key bucket alone, in ascending order, and the current revision becomes
that of the last record. After a finished compaction at the current revision the last record is
older, unless a key written at the current revision is still live.
-/

namespace EtcdCompat.Store

open History (live)
open Contents (snapshotAt)

variable {s : Store} {h : History}

theorem Idle.lastRev_le (hs : Idle s h) : (lastRev s.keyBucket).main ≤ h.main := by
  unfold lastRev
  rcases hl : s.keyBucket.entries.getLast? with _ | e
  · exact hs.1.wf.main_pos
  · have hf := OrdMap.find_of_mem (List.mem_of_getLast? hl)
    exact hs.1.wf.main_le_of_sub hs.2 (hs.1.bucket _ _ hf)

theorem Idle.lastRev_eq_iff (hs : Idle s h) : (lastRev s.keyBucket).main = h.main ↔
    h.main = 1 ∨ ∃ rk kv, s.keyBucket.find rk = some kv ∧ rk.rev.main = h.main := by
  have hle := hs.lastRev_le
  constructor
  · intro heq
    unfold lastRev at heq
    rcases hl : s.keyBucket.entries.getLast? with _ | e
    · rw [hl] at heq
      exact .inl heq.symm
    · rw [hl] at heq
      exact .inr ⟨e.1, e.2, OrdMap.find_of_mem (List.mem_of_getLast? hl), heq⟩
  · rintro (hone | ⟨rk, kv, hf, hmain⟩)
    · unfold lastRev at hle ⊢
      rcases hl : s.keyBucket.entries.getLast? with _ | e
      · exact hone.symm
      · rw [hl] at hle
        have hf := OrdMap.find_of_mem (List.mem_of_getLast? hl)
        have hpos := (hs.1.wf.bound _ _ (hs.1.bucket _ _ hf)).2.1
        simp at hle
        omega
    · have := Revision.main_le (le_lastRev hf)
      omega

/-- What keeps the current revision across a restart: there is none yet, the last compaction is
below it, or a key written at it is live. -/
def KeepsRev (txns : List (List Op)) (s : Store) : Prop :=
  s.currentRev.main = 1 ∨ s.compactMainRev < s.currentRev.main
    ∨ ∃ k kv, (snapshotAt txns s.currentRev.main).find k = some kv
      ∧ kv.modRevision = s.currentRev.main

theorem Idle.keepsRev_iff {txns : List (List Op)} (hs : Idle s h) (hdone : s.fifoSched = [])
    (hsnap : ∀ r k, (snapshotAt txns r).find k = (live h.log k r).map (·.2)) :
    KeepsRev txns s ↔ (lastRev s.keyBucket).main = h.main := by
  have hcur : s.currentRev.main = h.main := by rw [hs.1.cur]
  rw [hs.lastRev_eq_iff, KeepsRev, hcur]
  refine or_congr_right' fun hone => ⟨?_, ?_⟩
  · rintro (hlt | ⟨k, kv, hk, hmod⟩)
    · obtain ⟨rk, kv, hf, hmain⟩ := hs.1.wf.written.resolve_left hone
      exact ⟨rk, kv, hs.1.above rk kv hf (hmain ▸ hlt), hmain⟩
    · rw [hsnap] at hk
      rcases hl : live h.log k h.main with _ | ⟨rev, kv'⟩
      · simp [hl] at hk
      · rw [hl, Option.map_some, Option.some.injEq] at hk
        subst hk
        refine ⟨⟨rev, false⟩, kv', hs.1.reads k _ rev kv' hs.1.compacted hl, ?_⟩
        exact (hs.1.wf.modified rev kv' (History.find_of_live hl).1).symm.trans hmod
  · rintro ⟨rk, kv, hf, hmain⟩
    refine or_iff_not_imp_left.2 fun hge => ?_
    have hc : s.compactMainRev = h.main := le_antisymm hs.1.compacted (not_lt.1 hge)
    obtain ⟨k, kv', hl⟩ := hs.1.done_live hdone hf (by omega)
    refine ⟨k, kv', ?_, ?_⟩
    · rw [hsnap, ← hc, hl]
      rfl
    · rw [hs.1.wf.modified rk.rev kv' (History.find_of_live hl).1, hmain]

theorem run_scheduled (le : Option Lessor) (evs : List Event) : Yields (fun _ => True)
    (fun s => s.scheduledCompact.getD (-1) = s.compactMainRev) (run le evs) := by
  refine Yields.foldlM (fun ev _ a ha => ?_) rfl
  rcases ev with ops | rev | _ | le
  · refine (a.txn_keeps ops).mono fun s hs => ?_
    rw [hs.1, hs.2.1]
    exact ha
  · simp only [step, compact]
    split_ifs
    · exact ha
    · exact ha
    · rcases a.kvindex.compact rev with e | x
      · exact True.intro
      · exact rfl
  · obtain ⟨bucket, finished, jobs, heq⟩ := a.scheduleCompaction_frame
    simp only [step, heq]
    exact ha
  · exact ha

section Reopen

variable {le : Option Lessor} {evs : List Event} (hrun : run le evs = .ok s)
  (hdone : s.fifoSched = []) (le' : Option Lessor) (hle : s.le.isSome → le'.isSome)
include hrun hdone hle

theorem run_newStore : ∃ h s', Idle s h
    ∧ (∀ r k, (snapshotAt (Event.txns evs) r).find k = (live h.log k r).map (·.2))
    ∧ newStore s.keyBucket s.scheduledCompact s.finishedCompact le' = .ok (s', none)
    ∧ Restored s.keyBucket.entries
      (unrestored s.keyBucket s.scheduledCompact s.finishedCompact le') s' := by
  have hsim := (run_sim le evs).yields (History.run_traced le evs)
  rw [hrun] at hsim
  obtain ⟨h, hs, ht⟩ := hsim
  obtain ⟨s', hs', hr⟩ := hs.1.newStore s.scheduledCompact s.finishedCompact hle
  have hresume : s.scheduledCompact.filter (· > s.finishedCompact.getD (-1)) = none := by
    have hsched := run_scheduled le evs
    rw [hrun] at hsched
    rw [hs.1.done hdone]
    exact Option.filter_eq_none_iff.2 fun r hr => by
      simp [hr, Yields] at hsched
      simp [hsched]
  rw [hresume] at hs'
  exact ⟨h, s', hs, ht.snapshotAt, hs', hr⟩

theorem reopen_currentRev_iff :
    ∃ s', newStore s.keyBucket s.scheduledCompact s.finishedCompact le' = .ok (s', none)
      ∧ s'.compactMainRev = s.compactMainRev ∧ s'.currentRev.main ≤ s.currentRev.main
      ∧ (s'.currentRev.main = s.currentRev.main ↔ KeepsRev (Event.txns evs) s)
      ∧ (s'.compactMainRev ≤ s'.currentRev.main ↔ KeepsRev (Event.txns evs) s) := by
  obtain ⟨h, s', hs, hsnap, hs', hr⟩ := run_newStore hrun hdone le' hle
  have hc : s'.compactMainRev = s.compactMainRev := by
    rw [hr.frame]
    exact hs.1.done hdone
  have hcur : s'.currentRev = lastRev s.keyBucket := by
    rw [hr.frame]
    rfl
  have hkeeps := hs.keepsRev_iff hdone hsnap
  have hlast := hs.lastRev_le
  have hmain : s.currentRev.main = h.main := by rw [hs.1.cur]
  have hcomp := hs.1.compacted
  rw [← hcur] at hkeeps hlast
  refine ⟨s', hs', hc, by rw [hmain]; exact hlast, by rw [hmain, hkeeps], ?_⟩
  rw [hc]
  refine ⟨fun hge => ?_, fun hk => by rw [hkeeps.1 hk]; exact hcomp⟩
  by_cases hlt : s.compactMainRev < s.currentRev.main
  · exact .inr (.inl hlt)
  · exact hkeeps.2 (by omega)

/-- The index is rebuilt without a panic, and above the last compaction it gives each key the
revision, the main revision of its creation and the version it had, or none. -/
theorem rebuilt_index_get :
    ∃ s', newStore s.keyBucket s.scheduledCompact s.finishedCompact le' = .ok (s', none)
      ∧ ∀ k r, s.compactMainRev < r → ∃ o o', s.kvindex.get k r = .ok o
        ∧ s'.kvindex.get k r = .ok o' ∧ o'.map (fun x => (x.1, x.2.1.main, x.2.2))
          = o.map fun x => (x.1, x.2.1.main, x.2.2) := by
  obtain ⟨h, s', hs, -, hs', hr⟩ := run_newStore hrun hdone le' hle
  have hindex : s'.kvindex.WF h.next := hr.index _ fun e he =>
    (hs.1.wf.bound _ _ (hs.1.bucket _ _ (OrdMap.find_of_mem he))).1
  refine ⟨s', hs', fun k r hlt => ⟨_, _, hs.1.index.get k r, hindex.get k r, ?_⟩⟩
  have hlook := hr.look k r
  rw [← History.live_eq_liveIn, hs.1.live_bucket hlt.le] at hlook
  exact hlook.trans (hs.1.look k r hlt.le).symm

end Reopen

/-- A key put, and compacted at the revision of its put: it is live there. -/
theorem reopen_currentRev_put : ∃ s s', run none [.txn [.put [1] [2] 0], .compact 2, .batch]
      = .ok s ∧ s.currentRev.main = 2 ∧ s.compactMainRev = 2
    ∧ newStore s.keyBucket s.scheduledCompact s.finishedCompact none = .ok (s', none)
    ∧ s'.currentRev.main = 2 := by
  obtain ⟨s, hrun, hmain, hc, hjobs, hle⟩ :
      ∃ s, run none [.txn [.put [1] [2] 0], .compact 2, .batch] = .ok s ∧ s.currentRev.main = 2
        ∧ s.compactMainRev = 2 ∧ s.fifoSched = [] ∧ s.le = none := ⟨_, rfl, rfl, rfl, rfl, rfl⟩
  obtain ⟨s', hs', -, -, heq, -⟩ := reopen_currentRev_iff hrun hjobs none (by simp [hle])
  have hkeeps : KeepsRev (Event.txns [.txn [.put [1] [2] 0], .compact 2, .batch]) s := by
    refine .inr (.inr ⟨[1], ⟨[1], 2, 2, 1, [2], 0⟩, ?_, hmain.symm⟩)
    rw [hmain]
    rfl
  exact ⟨s, s', hrun, hmain, hc, hs', (heq.2 hkeeps).trans hmain⟩

/-- A key put, and compacted while it is put again: the version goes on. -/
theorem rebuilt_index_get_put : ∃ s s', run none [.txn [.put [1] [2] 0], .txn [.put [1] [3] 0],
      .compact 2, .batch] = .ok s
    ∧ newStore s.keyBucket s.scheduledCompact s.finishedCompact none = .ok (s', none)
    ∧ ∃ o o', s.kvindex.get [1] 3 = .ok o ∧ s'.kvindex.get [1] 3 = .ok o'
      ∧ o'.map (fun x => (x.1, x.2.1.main, x.2.2)) = o.map fun x => (x.1, x.2.1.main, x.2.2) := by
  obtain ⟨s, hrun, hc, hjobs, hle⟩ : ∃ s, run none [.txn [.put [1] [2] 0], .txn [.put [1] [3] 0],
      .compact 2, .batch] = .ok s ∧ s.compactMainRev = 2 ∧ s.fifoSched = [] ∧ s.le = none :=
    ⟨_, rfl, rfl, rfl, rfl⟩
  obtain ⟨s', hs', hget⟩ := rebuilt_index_get hrun hjobs none (by simp [hle])
  exact ⟨s, s', hrun, hs', hget [1] 3 (by simp [hc])⟩

/-- A key put, deleted and compacted away: the deletion's revision goes with its record. -/
def deletedAway : List Event :=
  [.txn [.put [1] [2] 0], .txn [.deleteRange [1] none], .compact 3, .batch]

theorem reopen_loses_revision : ∃ s s', run none deletedAway = .ok s ∧ s.fifoSched = []
    ∧ newStore s.keyBucket s.scheduledCompact s.finishedCompact none = .ok (s', none)
    ∧ s.currentRev.main = 3 ∧ s'.currentRev.main = 1 ∧ s'.compactMainRev = 3 :=
  ⟨_, _, rfl, rfl, rfl, rfl, rfl, rfl⟩

end EtcdCompat.Store
