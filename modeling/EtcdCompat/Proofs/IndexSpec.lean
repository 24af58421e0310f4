import EtcdCompat.Storage.Index
import EtcdCompat.Proofs.KeyIndexCompact

/-!
# What is read from the tree index

`TreeIndex.look` is what the index answers for a key at a main revision: a put and a tombstone
change it for one key from their main revision on, a range lists the keys that answer, and a
compaction changes no answer at or above its revision.
-/

namespace EtcdCompat.TreeIndex

open List OrdMap

variable {ki : KeyIndex}

/-- What the index answers for a key at a main revision. -/
def look (ti : TreeIndex) (key : Bytes) (atRev : ℤ) : Option (Revision × Revision × ℤ) :=
  (ti.find key).bind (·.lookup atRev)

/-- Every key index is well formed, with no revision at or above `next`. -/
def WF (ti : TreeIndex) (next : Revision) : Prop :=
  ∀ key ki, ti.find key = some ki → ki.WF ∧ ki.modified < next

variable {ti : TreeIndex} {next rev : Revision} {key : Bytes}

theorem WF.mono (h : ti.WF next) (hn : next ≤ rev) : ti.WF rev := fun k ki hk =>
  ⟨(h k ki hk).1, (h k ki hk).2.trans_le hn⟩

theorem get_of_wf (h : ki.WF) (r : ℤ) : ki.get r = .ok (ki.lookup r) := by
  obtain ⟨old, last, h⟩ := h
  simp [KeyIndex.get, h.not_isEmpty]

theorem WF.get (h : ti.WF next) (key : Bytes) (r : ℤ) : ti.get key r = .ok (ti.look key r) := by
  unfold TreeIndex.get look
  rcases hk : ti.find key with _ | ki
  · rfl
  · exact get_of_wf (h key ki hk).1 r

theorem look_insert (ki : KeyIndex) (k : Bytes) (r : ℤ) :
    look (ti.insert key ki) k r = if key = k then ki.lookup r else ti.look k r := by
  unfold look
  rw [find_insert]
  split_ifs <;> rfl

theorem look_insert_from {o : Option (Revision × Revision × ℤ)} {m : ℤ}
    (hki : ∀ r, ki.lookup r = if r < m then ti.look key r else o) (k : Bytes) (r : ℤ) :
    look (ti.insert key ki) k r = if k = key ∧ m ≤ r then o else ti.look k r := by
  rw [look_insert, hki]
  by_cases hk : k = key
  · subst hk
    by_cases hr : m ≤ r
    · rw [if_pos rfl, if_neg (not_lt.2 hr), if_pos ⟨rfl, hr⟩]
    · rw [if_pos rfl, if_pos (not_le.1 hr), if_neg fun h => hr h.2]
  · rw [if_neg (Ne.symm hk), if_neg fun h => hk h.1]

theorem WF.insert (h : ti.WF next) (hki : ki.WF) (hm : ki.modified < rev) (hn : next ≤ rev) :
    WF (ti.insert key ki) rev := by
  intro k ki' hk
  rw [find_insert] at hk
  split_ifs at hk with hkk
  · rw [← Option.some.inj hk]
    exact ⟨hki, hm⟩
  · exact h.mono hn k ki' hk

theorem WF.put (h : ti.WF rev) (hpos : 0 < rev.main) (hn : rev < next) (key : Bytes) :
    ∃ ti', ti.put key rev = .ok ti' ∧ ti'.WF next ∧ ∀ k r, ti'.look k r
      = if k = key ∧ rev.main ≤ r then some (KeyIndex.afterPut rev (ti.look key rev.main))
        else ti.look k r := by
  obtain ⟨ki, hki⟩ : ∃ ki, ki = (ti.find key).getD { key := key } := ⟨_, rfl⟩
  have hput : ki.put rev = .ok (ki.putTo rev) ∧ (ki.putTo rev).WF ∧ ∀ r, (ki.putTo rev).lookup r
      = if r < rev.main then ti.look key r
        else some (KeyIndex.afterPut rev (ti.look key rev.main)) := by
    unfold KeyIndex.put look
    rcases hf : ti.find key with _ | ki'
    · rw [hf] at hki
      subst hki
      have hgt : rev.GreaterThan ⟨0, 0⟩ :=
        Revision.greaterThan_iff.2 (Revision.lt_iff.2 (.inl hpos))
      exact ⟨if_pos hgt, (KeyIndex.fresh_putTo key 0).1, fun r => (KeyIndex.fresh_putTo key r).2⟩
    · rw [hf] at hki
      subst hki
      obtain ⟨hwf, hm⟩ := h key ki hf
      exact ⟨if_pos (Revision.greaterThan_iff.2 hm), hwf.putTo hm, hwf.lookup_putTo hm⟩
  refine ⟨ti.insert key (ki.putTo rev), ?_, h.insert hput.2.1 hn hn.le,
    look_insert_from hput.2.2⟩
  unfold TreeIndex.put
  rw [← hki, hput.1]
  rfl

theorem WF.tombstone (h : ti.WF rev) (hn : rev < next) (hlive : ti.look key rev.main ≠ none) :
    ∃ ti', ti.tombstone key rev = .ok (some ti') ∧ ti'.WF next ∧ ∀ k r, ti'.look k r
      = if k = key ∧ rev.main ≤ r then none else ti.look k r := by
  rcases hf : ti.find key with _ | ki
  · simp [look, hf] at hlive
  obtain ⟨hwf, hm⟩ := h key ki hf
  have hl : ∀ r, ti.look key r = ki.lookup r := fun r => by simp [look, hf]
  obtain ⟨htomb, hwf', hlook⟩ := hwf.tombstone hm (by rwa [hl] at hlive)
  refine ⟨ti.insert key (ki.tombTo rev), ?_, h.insert hwf' hn hn.le,
    look_insert_from fun r => by rw [hlook, hl]⟩
  unfold TreeIndex.tombstone
  rw [hf]
  simp only [htomb]
  rfl

section Range

/-- The keys a range answers with, and their revisions, in order. -/
structure Answers (ti : TreeIndex) (key : Bytes) (stop : Option Bytes) (r : ℤ)
    (l : List (Bytes × Revision)) : Prop where
  sorted : l.Pairwise fun a b => a.1 < b.1
  mem : ∀ k rev, (k, rev) ∈ l ↔ InRange key stop k ∧ (ti.look k r).map (·.1) = some rev

theorem rangeIn_spec (stop : Bytes) (r : ℤ) : ∀ {items : List (Bytes × KeyIndex)},
    (items.Pairwise fun a b => a.1 < b.1) → (∀ e ∈ items, e.2.WF) →
    ∃ l, rangeIn stop r items = .ok l ∧ (l.Pairwise fun a b => a.1 < b.1)
      ∧ ∀ k rev, (k, rev) ∈ l ↔ ∃ ki, (k, ki) ∈ items ∧ (stop = [] ∨ k < stop)
          ∧ (ki.lookup r).map (·.1) = some rev
  | [], _, _ => ⟨[], rfl, .nil, by simp⟩
  | (key, keyi) :: items, hs, hwf => by
    obtain ⟨hlt, hs⟩ := pairwise_cons.1 hs
    simp only [rangeIn]
    by_cases hstop : stop ≠ [] ∧ ¬ key < stop
    · refine ⟨[], if_pos hstop, .nil, fun k rev => ?_⟩
      simp only [not_mem_nil, mem_cons, Prod.mk.injEq, false_iff]
      rintro ⟨ki, hmem, hk, -⟩
      rcases hmem with ⟨rfl, rfl⟩ | hmem
      · exact hk.elim hstop.1 hstop.2
      · exact hk.elim hstop.1 fun hk => hstop.2 ((hlt _ hmem).trans hk)
    rw [if_neg hstop, get_of_wf (hwf _ mem_cons_self)]
    obtain ⟨l, hl, hls, hmem⟩ :=
      rangeIn_spec stop r hs fun e he => hwf e (mem_cons_of_mem _ he)
    have hstop' : stop = [] ∨ key < stop := by
      by_cases h : stop = []
      · exact .inl h
      · exact .inr (not_not.1 fun h' => hstop ⟨h, h'⟩)
    rw [hl]
    rcases hlook : keyi.lookup r with _ | ⟨rev, created, ver⟩
    · refine ⟨l, rfl, hls, fun k rev => ?_⟩
      rw [hmem]
      constructor
      · rintro ⟨ki, h, h'⟩
        exact ⟨ki, mem_cons_of_mem _ h, h'⟩
      · rintro ⟨ki, h, h'⟩
        rcases mem_cons.1 h with h | h
        · simp only [Prod.mk.injEq] at h
          rw [h.2, hlook] at h'
          simp at h'
        · exact ⟨ki, h, h'⟩
    · refine ⟨(key, rev) :: l, rfl, pairwise_cons.2 ⟨fun e he => ?_, hls⟩, fun k rev' => ?_⟩
      · obtain ⟨ki, hki, -⟩ := (hmem e.1 e.2).1 he
        exact hlt _ hki
      · rw [mem_cons, hmem]
        constructor
        · rintro (h | ⟨ki, h, h'⟩)
          · obtain ⟨rfl, rfl⟩ := h
            exact ⟨keyi, mem_cons_self, hstop', by rw [hlook]; rfl⟩
          · exact ⟨ki, mem_cons_of_mem _ h, h'⟩
        · rintro ⟨ki, h, h', h''⟩
          rcases mem_cons.1 h with h | h
          · obtain ⟨rfl, rfl⟩ := h
            rw [hlook] at h''
            exact .inl (by rw [← Option.some.inj h''])
          · exact .inr ⟨ki, h, h', h''⟩

theorem WF.range (h : ti.WF next) (key : Bytes) (stop : Option Bytes) (r : ℤ) :
    ∃ l, ti.range key stop r = .ok l ∧ Answers ti key stop r l := by
  rcases stop with _ | stop
  · simp only [TreeIndex.range, h.get]
    rcases hl : ti.look key r with _ | ⟨rev, created, ver⟩
    · refine ⟨[], rfl, .nil, fun k rev => ?_⟩
      simp only [InRange, not_mem_nil, false_iff]
      rintro ⟨rfl, hk⟩
      rw [hl] at hk
      simp at hk
    · refine ⟨[(key, rev)], rfl, pairwise_singleton _ _, fun k rev' => ?_⟩
      simp only [InRange, mem_singleton, Prod.mk.injEq]
      constructor
      · rintro ⟨rfl, rfl⟩
        exact ⟨rfl, by rw [hl]; rfl⟩
      · rintro ⟨rfl, hk⟩
        rw [hl] at hk
        exact ⟨rfl, (Option.some.inj hk).symm⟩
  · obtain ⟨l, hl, hs, hmem⟩ := rangeIn_spec stop r
      (ti.sorted.filter fun item => key ≤ item.1)
      fun e he => (h e.1 e.2 (find_of_mem (mem_filter.1 he).1)).1
    refine ⟨l, hl, hs, fun k rev => ?_⟩
    rw [hmem]
    simp only [mem_filter, decide_eq_true_eq, mem_entries, InRange, look]
    constructor
    · rintro ⟨ki, ⟨hk, hle⟩, hlt, hki⟩
      exact ⟨⟨hle, hlt⟩, by rw [hk]; exact hki⟩
    · rintro ⟨⟨hle, hlt⟩, hk⟩
      rcases hf : ti.find k with _ | ki
      · rw [hf] at hk
        simp at hk
      · rw [hf] at hk
        exact ⟨ki, ⟨rfl, hle⟩, hlt, hk⟩

end Range

section Compact

variable {c : ℤ}

/-- The visitor's walk: every item is compacted in place, what each answers at `c` is kept, and the
keys listed are those left empty. -/
theorem compactItem_walk : ∀ {items : List (Bytes × KeyIndex)},
    (items.Pairwise fun a b => a.1 < b.1) → (∀ e ∈ items, e.2.WF) →
    ∀ st : TreeIndex × List Revision × List Bytes, ∃ tree available emptyki,
      items.foldlM (compactItem c) st = .ok (tree, available, st.2.2 ++ emptyki)
        ∧ (∀ k, (∀ ki, (k, ki) ∉ items) → tree.find k = st.1.find k)
        ∧ (∀ k ki, (k, ki) ∈ items → ∃ ki', tree.find k = some ki'
            ∧ KeyIndex.Compacted ki c ki' ∧ (k ∈ emptyki ↔ ki'.isEmpty))
        ∧ (∀ rev, rev ∈ available ↔ rev ∈ st.2.1
            ∨ ∃ k ki, (k, ki) ∈ items ∧ (ki.lookup c).map (·.1) = some rev)
        ∧ emptyki.Sublist (items.map (·.1))
  | [], _, _, st => ⟨st.1, st.2.1, [], by simp [pure, Except.pure], by simp⟩
  | (key, keyi) :: items, hs, hwf, st => by
    obtain ⟨hlt, hs⟩ := pairwise_cons.1 hs
    obtain ⟨ki', hc, hcompact⟩ := (hwf _ mem_cons_self).compact c
    have hnot : ∀ ki, (key, ki) ∉ items := fun ki hki => lt_irrefl key (hlt (key, ki) hki)
    obtain ⟨tree, available, emptyki, hfold, hframe, hmem, havail, hsub⟩ :=
      compactItem_walk hs (fun e he => hwf e (mem_cons_of_mem _ he))
        (st.1.insert key ki', ((keyi.lookup c).map (·.1)).toList ++ st.2.1,
          if ki'.isEmpty then st.2.2 ++ [key] else st.2.2)
    refine ⟨tree, available, (if ki'.isEmpty then [key] else []) ++ emptyki, ?_, ?_, ?_, ?_, ?_⟩
    · rw [foldlM_cons]
      have : compactItem c st (key, keyi) = .ok (st.1.insert key ki',
          ((keyi.lookup c).map (·.1)).toList ++ st.2.1,
          if ki'.isEmpty then st.2.2 ++ [key] else st.2.2) := by
        simp only [compactItem, hcompact]
        rfl
      rw [this]
      simp only [bind, Except.bind, hfold]
      split_ifs <;> simp
    · intro k hk
      have hne : key ≠ k := by
        rintro rfl
        exact hk keyi mem_cons_self
      rw [hframe k fun ki hki => hk ki (mem_cons_of_mem _ hki), find_insert_ne hne]
    · intro k ki hk
      rcases mem_cons.1 hk with hk | hk
      · simp at hk
        obtain ⟨rfl, rfl⟩ := hk
        refine ⟨ki', by rw [hframe _ hnot, find_insert_self], hc, ?_⟩
        have hk : k ∉ emptyki := fun h => by
          obtain ⟨e, he, rfl⟩ := mem_map.1 (hsub.subset h)
          exact hnot e.2 he
        split_ifs with hempty <;> simp [hk, hempty]
      · obtain ⟨ki'', h1, h2, h3⟩ := hmem k ki hk
        refine ⟨ki'', h1, h2, ?_⟩
        have hne : k ≠ key := fun h => hnot ki (h ▸ hk)
        rw [← h3]
        split_ifs <;> simp [hne]
    · intro rev
      rw [havail, mem_append, Option.mem_toList, or_assoc]
      simp
      constructor
      · rintro (h | h | ⟨k, ki, h, h'⟩)
        · exact .inr ⟨key, keyi, .inl ⟨rfl, rfl⟩, h⟩
        · exact .inl h
        · exact .inr ⟨k, ki, .inr h, h'⟩
      · rintro (h | ⟨k, ki, ⟨rfl, rfl⟩ | h, h'⟩)
        · exact .inr (.inl h)
        · exact .inl h'
        · exact .inr (.inr ⟨k, ki, h, h'⟩)
    · rw [map_cons]
      split_ifs
      · exact hsub.cons_cons key
      · exact hsub.cons key

theorem deleteItem_foldlM : ∀ {ks : List Bytes} {ti : TreeIndex}, ks.Nodup →
    (∀ k ∈ ks, ti.find k ≠ none) → ks.foldlM deleteItem ti = .ok (ks.foldl erase ti)
  | [], _, _, _ => rfl
  | k :: ks, ti, hnd, h => by
    obtain ⟨hk, hnd⟩ := nodup_cons.1 hnd
    have hdel : deleteItem ti k = .ok (ti.erase k) := if_neg (h k mem_cons_self)
    rw [foldlM_cons, hdel]
    refine deleteItem_foldlM hnd fun k' hk' => ?_
    have hne : k' ≠ k := fun heq => hk (heq ▸ hk')
    rw [find_erase, if_neg hne]
    exact h k' (mem_cons_of_mem _ hk')

theorem WF.compact (h : ti.WF next) (c : ℤ) : ∃ ti' keep, ti.compact c = .ok (ti', keep)
    ∧ ti'.WF next ∧ (∀ k r, c ≤ r → ti'.look k r = ti.look k r)
    ∧ ∀ rev, rev ∈ keep ↔ ∃ k, (ti.look k c).map (·.1) = some rev := by
  obtain ⟨tree, keep, emptyki, hfold, hframe, hmem, hkeep, hsub⟩ :=
    compactItem_walk (c := c) ti.sorted
      (fun e he => (h e.1 e.2 (find_of_mem he)).1) (ti, [], [])
  simp at hfold
  have hnd : emptyki.Nodup := by
    refine hsub.nodup ((pairwise_map.2 ti.sorted).imp fun hab => ne_of_lt hab)
  have hin : ∀ k ∈ emptyki, ∃ ki, ti.find k = some ki := fun k hk => by
    obtain ⟨e, he, rfl⟩ := mem_map.1 (hsub.subset hk)
    exact ⟨e.2, find_of_mem he⟩
  have hfind : ∀ k ki, ti.find k = some ki → ∃ ki', tree.find k = some ki'
      ∧ KeyIndex.Compacted ki c ki' ∧ (k ∈ emptyki ↔ ki'.isEmpty) := fun k ki hk =>
    hmem k ki (mem_entries.2 hk)
  have hnone : ∀ k, ti.find k = none → tree.find k = none := fun k hk => by
    rw [hframe k fun ki hki => by rw [mem_entries.1 hki] at hk; simp at hk]
    exact hk
  have hdel : emptyki.foldlM deleteItem tree = .ok (emptyki.foldl erase tree) := by
    refine deleteItem_foldlM hnd fun k hk => ?_
    obtain ⟨ki, hki⟩ := hin k hk
    obtain ⟨ki', h1, -⟩ := hfind k ki hki
    simp [h1]
  refine ⟨emptyki.foldl erase tree, keep, ?_, fun k ki hk => ?_, fun k r hr => ?_,
    fun rev => ?_⟩
  · simp only [TreeIndex.compact, hfold, bind, Except.bind, hdel]
  · rw [find_foldl_erase] at hk
    split_ifs at hk with hempty
    rcases hf : ti.find k with _ | ki₀
    · rw [hnone k hf] at hk
      simp at hk
    · obtain ⟨ki', h1, h2, h3⟩ := hfind k ki₀ hf
      rw [h1, Option.some.injEq] at hk
      subst hk
      exact ⟨h2.wf.resolve_left fun he => hempty (h3.2 he), h2.modified ▸ (h k ki₀ hf).2⟩
  · unfold look
    rw [find_foldl_erase]
    rcases hf : ti.find k with _ | ki₀
    · simp [hnone k hf]
    · obtain ⟨ki', h1, h2, h3⟩ := hfind k ki₀ hf
      rw [Option.bind_some, ← h2.lookup r hr]
      split_ifs with hempty
      · -- an empty index answers nothing
        have := h3.1 hempty
        unfold KeyIndex.isEmpty at this
        split at this
        · rename_i g hg
          simp [Generation.isEmpty] at this
          simp [KeyIndex.lookup, KeyIndex.findGeneration, hg, KeyIndex.find_of_empty this,
            KeyIndex.findGenerationIn]
        · simp at this
      · rw [h1, Option.bind_some]
  · rw [hkeep]
    simp
    constructor
    · rintro ⟨k, ki, hk, hki⟩
      exact ⟨k, by rw [look, mem_entries.1 hk]; exact hki⟩
    · rintro ⟨k, hk⟩
      rcases hf : ti.find k with _ | ki
      · simp [look, hf] at hk
      · exact ⟨k, ki, mem_entries.2 hf, by rw [look, hf] at hk; exact hk⟩

end Compact

end EtcdCompat.TreeIndex
