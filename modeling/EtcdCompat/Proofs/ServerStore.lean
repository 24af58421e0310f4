import EtcdCompat.Proofs.StoreMvcc
import EtcdCompat.Server.Machine

/-!
# The server's store follows its history

`Follows s c h`: the store `s`, its last compaction at `c`, follows `h`, and the changes not yet
handed to the watchers are the records of the transaction under way. A store that is not `fresh`
follows its history as if the last compaction had been an earlier one.
-/

namespace EtcdCompat

theorem Contents.within_none (m : Contents) (key : Bytes) :
    m.within key none = ((m.find key).map fun kv => (key, kv)).toList := by
  refine OrdMap.entries_ext (m.sorted.filter _) ?_ fun e => ?_
  · rcases m.find key with _ | kv <;> simp
  · rw [show e = (e.1, e.2) from rfl]
    simp only [Contents.within, List.mem_filter, OrdMap.mem_entries, decide_eq_true_eq,
      Option.mem_toList, Option.map_eq_some_iff, Prod.mk.injEq]
    constructor
    · rintro ⟨hfind, hk⟩
      have hk : e.1 = key := hk
      exact ⟨e.2, hk ▸ hfind, hk.symm, rfl⟩
    · rintro ⟨kv, hfind, rfl, rfl⟩
      exact ⟨hfind, rfl⟩

namespace History

variable {h : History}

theorem WF.pending_write (hw : h.WF) (mark : Bool) (kv : KeyValue) (le : Option Lessor) :
    (h.write mark kv le).pending = h.pending ++ [kv] := by
  have habove := hw.lt_next mark
  unfold pending History.write OrdMap.insert
  simp [OrdMap.insertIn_of_lt habove]
  simp [next]

theorem WF.pending_eq_nil_iff (hw : h.WF) : h.pending = [] ↔ h.sub = 0 := by
  have hmem : h.pending = [] ↔ ∀ e ∈ h.log.entries, e.1.rev.main ≠ h.main + 1 := by
    simp [pending]
  rw [hmem]
  constructor
  · intro hall
    rcases hw.writing with hsub | ⟨rk, kv, hf, hmain⟩
    · exact hsub
    · exact absurd hmain (hall (rk, kv) (OrdMap.mem_entries.2 hf))
  · intro hsub e he
    have := hw.main_le_of_sub hsub (OrdMap.find_of_mem he)
    omega

end History

namespace Store

variable {s s' : Store} {h : History}

/-- The store follows the history, its last compaction at `c`, its changes the records of the
transaction under way. -/
structure Follows (fresh : Prop) (s : Store) (c : ℤ) (h : History) : Prop where
  sim : ∃ c₀ ≤ c, ∃ finished, (fresh → c₀ = c) ∧ Sim (s.seen c₀ finished) h
  compactRev : s.compactMainRev = c
  changes : s.changes = h.pending

variable {fresh : Prop} {c : ℤ}

theorem Follows.of_sim (hs : Sim s h) (hch : s.changes = h.pending) :
    Follows fresh s s.compactMainRev h :=
  ⟨⟨_, le_rfl, s.finishedCompact, fun _ => rfl, hs⟩, rfl, hch⟩

section

variable (hf : Follows fresh s c h)
include hf

theorem Follows.wf : h.WF := by
  obtain ⟨c₀, -, finished, -, hs⟩ := hf.sim
  exact hs.wf

theorem Follows.cur : s.currentRev = ⟨h.main, h.sub⟩ := by
  obtain ⟨c₀, -, finished, -, hs⟩ := hf.sim
  exact hs.cur

theorem Follows.lessor : s.le = h.le := by
  obtain ⟨c₀, -, finished, -, hs⟩ := hf.sim
  exact hs.lessor

theorem Follows.txnBegin (hsub : h.sub = 0) : s.txnBegin = s := by
  rw [Store.txnBegin, hf.cur, hsub, ← hsub, ← hf.cur]

theorem Follows.put (key value : Bytes) (lease : ℤ) :
    Agree (Follows fresh · c) (s.put key value lease) (h.put key value lease) := by
  obtain ⟨c₀, hc₀, finished, hfresh, hs⟩ := hf.sim
  have hsim := (hs.put key value lease).and_right (hs.wf.extends_put key value lease)
  rw [put_seen] at hsim
  refine (hsim.of_map.and_left (s.put_writes key value lease)).mono fun s' h' hh => ?_
  obtain ⟨⟨hs', -, le, rfl⟩, kv, ti, le', rfl⟩ := hh
  have hlog := hs'.bucket _ _ (OrdMap.find_insert_self ..)
  have hnext : (⟨s.currentRev.main + 1, s.currentRev.sub⟩ : Revision) = h.next := by
    rw [hf.cur]
    rfl
  rw [History.find_write, hnext, if_pos rfl, Option.some.injEq] at hlog
  refine ⟨⟨c₀, hc₀, finished, hfresh, hs'⟩, hf.compactRev, ?_⟩
  rw [written, hf.changes, hs.wf.pending_write, hlog]

theorem Follows.delete {key : Bytes} {rev : Revision} {kv : KeyValue}
    (hlive : History.live h.log key (h.main + 1) = some (rev, kv)) :
    Agree (fun s' h' => Follows fresh s' c h' ∧ ∃ le, h' = h.write true { key := key } le)
      (s.delete key rev) (h.delete key) := by
  obtain ⟨c₀, hc₀, finished, hfresh, hs⟩ := hf.sim
  have hsim := hs.delete hlive
  rw [delete_seen] at hsim
  refine (hsim.of_map.and_left (s.delete_writes key rev)).mono fun s' h' hh => ?_
  obtain ⟨⟨hs', le, rfl⟩, ti, le', rfl⟩ := hh
  refine ⟨⟨⟨c₀, hc₀, finished, hfresh, hs'⟩, hf.compactRev, ?_⟩, le, rfl⟩
  rw [written, hf.changes, hs.wf.pending_write]

theorem Follows.deleteRangeCount (key : Bytes) (stop : Option Bytes) :
    Agree (fun x h' => Follows fresh x.1 c h' ∧ x.2 = ((h.contents.within key stop).length : ℤ))
      (s.deleteRangeCount key stop) (h.deleteRange key stop) := by
  obtain ⟨c₀, hc₀, finished, hfresh, hs⟩ := hf.sim
  obtain ⟨l, hl, hans⟩ := hs.index.range key stop s.curRev
  have hc := hs.compacted_le_curRev
  have hwithin := hs.within_eq hc hans fun k => by rw [hs.wf.contents, hs.live_curRev]
  have hkeys : (h.contents.within key stop).map (·.1) = l.map (·.1) := by
    rw [hwithin, List.map_map]
    rfl
  have hfold := deleteKeys_agree Follows.wf Follows.delete hf hans.sorted fun e he => by
    obtain ⟨-, kv, hkv⟩ := (hs.answers hc hans).1 he
    exact ⟨kv, by rw [← hs.live_curRev]; exact hkv⟩
  unfold Store.deleteRangeCount History.deleteRange
  rw [hkeys, hwithin, List.length_map]
  simp only [bind, Except.bind]
  rw [show s.kvindex.range key stop (if s.currentRev.sub > 0 then s.currentRev.main + 1
    else s.currentRev.main) = .ok l from hl]
  exact hfold.bind_left fun _ _ h => ⟨_, rfl, h, rfl⟩

end

theorem Sim.setChanges (hs : Sim s h) (changes : List KeyValue) : Sim { s with changes } h :=
  { hs with }

variable (hf : Follows fresh s c h)
include hf

theorem Follows.txnEnd :
    Follows fresh { s.txnEnd with changes := [] } c h.txnEnd ∧ s.txnEnd.changes = h.pending
      ∧ s.txnEnd.rev = h.txnEnd.main := by
  obtain ⟨c₀, hc₀, finished, hfresh, hs⟩ := hf.sim
  have hsim : Sim (s.txnEnd.seen c₀ finished) h.txnEnd := hs.txnEnd
  refine ⟨⟨⟨c₀, hc₀, finished, hfresh, hsim.setChanges []⟩, hf.compactRev, ?_⟩, hf.changes, ?_⟩
  · rw [hsim.wf.pending_eq_nil_iff.2 rfl]
  · rw [Store.rev, show s.txnEnd.currentRev = ⟨h.txnEnd.main, h.txnEnd.sub⟩ from hsim.cur]

theorem Follows.curRev_eq : s.curRev = h.curRev := by
  obtain ⟨c₀, -, finished, -, hs⟩ := hf.sim
  exact hs.curRev_eq

theorem Follows.rangeKeys_eq (key : Bytes) (stop : Option Bytes) (limit rangeRev : ℤ) :
    s.rangeKeys key stop limit rangeRev
      = .ok (h.served c key stop limit rangeRev) := by
  unfold History.served
  obtain ⟨c₀, hc₀, finished, -, hs⟩ := hf.sim
  have hread : s.readRev rangeRev = h.readRev rangeRev := by
    unfold readRev History.readRev
    rw [hf.curRev_eq]
  by_cases hcompacted : h.readRev rangeRev ≤ c
  · rw [rangeKeys_def, hf.curRev_eq, hread, hf.compactRev, if_pos hcompacted, if_pos hcompacted,
      hf.cur]
    split_ifs <;> rfl
  · have hlt : s.compactMainRev < s.readRev rangeRev := by
      rw [hf.compactRev, hread]
      exact not_le.1 hcompacted
    have heq := hs.rangeKeys_contentsAt key stop limit rangeRev
    rw [rangeKeys_seen (hf.compactRev ▸ hc₀) finished key stop limit hlt] at heq
    have hlt₀ : ¬ (s.seen c₀ finished).readRev rangeRev ≤ (s.seen c₀ finished).compactMainRev :=
      not_le.2 ((hf.compactRev ▸ hc₀).trans_lt hlt)
    rw [heq, if_neg hlt₀, if_neg hcompacted, ← hread, ← hf.curRev_eq,
      show h.main = s.currentRev.main by rw [hf.cur]]
    rfl

theorem Follows.rangeKeys_err (key : Bytes) (stop : Option Bytes) (limit rangeRev : ℤ) :
    ∃ res, s.rangeKeys key stop limit rangeRev = .ok res ∧ res.err = h.refused c rangeRev := by
  refine ⟨_, hf.rangeKeys_eq key stop limit rangeRev, ?_⟩
  unfold History.served History.refused History.readRev
  split_ifs <;> rfl

theorem Follows.range_current (hsub : h.sub = 0) (key : Bytes) :
    s.range key none 1 0 = .ok (if h.main ≤ c then ⟨[], 0, some .errCompacted⟩
      else ⟨(h.contents.find key).toList, h.main, none⟩) := by
  have hcur : h.curRev = h.main := by
    unfold History.curRev
    rw [hsub]
    rfl
  have hread : h.readRev 0 = h.main := by
    rw [History.readRev, if_pos le_rfl, hcur]
  have hpos := hf.wf.main_pos
  rw [Store.range, hf.txnBegin hsub, hf.rangeKeys_eq, History.served, hcur, hread,
    if_neg (by omega : ¬ (0 : ℤ) > h.main), Contents.within_none, History.find_contentsAt,
    hf.wf.live_main hsub, ← hf.wf.contents]
  rcases h.contents.find key with _ | kv <;> rfl

theorem Follows.compact (rev : ℤ) : ∃ s' err,
    s.compact rev = .ok (s', err) ∧ if rev ≤ c ∨ rev > h.main then s' = s ∧ err ≠ none
      else Follows fresh s' rev h ∧ err = none := by
  obtain ⟨c₀, hc₀, finished, hfresh, hs⟩ := hf.sim
  have hmain : s.currentRev.main = h.main := by rw [hf.cur]
  unfold Store.compact
  rw [hf.compactRev, hmain]
  by_cases h1 : rev ≤ c
  · rw [if_pos h1]
    refine ⟨_, _, rfl, ?_⟩
    rw [if_pos (.inl h1)]
    exact ⟨rfl, by simp⟩
  by_cases h2 : rev > h.main
  · rw [if_neg h1, if_pos h2]
    refine ⟨_, _, rfl, ?_⟩
    rw [if_pos (.inr h2)]
    exact ⟨rfl, by simp⟩
  obtain ⟨ti, keep, hti, -⟩ := hs.index.compact rev
  obtain ⟨s', err, heq, hs'⟩ := hs.compact rev
  have h1' : ¬ rev ≤ (s.seen c₀ finished).compactMainRev := not_le.2 (hc₀.trans_lt (not_le.1 h1))
  have h2' : ¬ rev > (s.seen c₀ finished).currentRev.main := hmain.symm ▸ h2
  rw [Store.compact, if_neg h1', if_neg h2', hti] at heq
  have hti : s.kvindex.compact rev = .ok (ti, keep) := hti
  obtain ⟨rfl, rfl⟩ := heq
  simp only [h1, h2, if_false, hti, bind, Except.bind, or_self]
  exact ⟨_, _, rfl, ⟨⟨rev, le_rfl, finished, fun _ => rfl, hs'⟩, rfl, hf.changes⟩, rfl⟩

theorem Follows.scheduleCompaction : Follows fresh s.scheduleCompaction c h := by
  obtain ⟨c₀, hc₀, finished, hfresh, hs⟩ := hf.sim
  obtain ⟨finished', heq⟩ := s.scheduleCompaction_seen c₀ finished
  obtain ⟨bucket, fin, jobs, hframe⟩ := s.scheduleCompaction_frame
  refine ⟨⟨c₀, hc₀, finished', hfresh, heq ▸ hs.scheduleCompaction⟩, ?_, ?_⟩
  · rw [hframe]
    exact hf.compactRev
  · rw [hframe]
    exact hf.changes

theorem Follows.setLessor {le : Option Lessor} (hle : le = none → h.le = none) :
    Follows fresh { s with le := le } c { h with le := le } := by
  obtain ⟨c₀, hc₀, finished, hfresh, hs⟩ := hf.sim
  exact ⟨⟨c₀, hc₀, finished, hfresh, hs.setLessor hle⟩, hf.compactRev, hf.changes⟩

end Store

end EtcdCompat
