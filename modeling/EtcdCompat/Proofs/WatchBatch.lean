import EtcdCompat.Proofs.WatchLoop
import Mathlib.Data.List.Induction

/-!
# The events due to a watcher

`Watcher.due`: the events of the records on a watcher's keys, from the revision it is at up to
another. A batch takes from a list of events in the order of their revisions a part at the front,
and where it leaves events out it names the revision of the first one.
-/

namespace EtcdCompat

open List OrdMap EventBatch

namespace EventBatch

variable {evs : List StorageEvent} {eb : EventBatch}

/-- A batch has all events, or those below the revision it names. -/
def Cut (evs : List StorageEvent) (eb : EventBatch) : Prop :=
  (eb.evs = evs ∧ eb.moreRev = 0 ∧ eb.revs ≤ watchBatchMaxRevs)
    ∨ ∃ ev rest, evs = eb.evs ++ ev :: rest ∧ eb.evs ≠ [] ∧ eb.moreRev = ev.kv.modRevision
      ∧ (∀ e ∈ eb.evs, e.kv.modRevision < ev.kv.modRevision) ∧ watchBatchMaxRevs < eb.revs

theorem Cut.add {ev : StorageEvent}
    (hsorted : (evs ++ [ev]).Pairwise fun a b => a.kv.modRevision ≤ b.kv.modRevision)
    (hcut : Cut evs eb) : Cut (evs ++ [ev]) (eb.add ev) := by
  obtain ⟨hold, -, -⟩ := pairwise_append.1 hsorted
  unfold EventBatch.add
  rcases hcut with ⟨rfl, hmore, hrevs⟩ | ⟨ev', rest, hevs, hne, hmore, hlt, hrevs⟩
  · rw [if_neg (not_lt.2 hrevs)]
    rcases hlast : eb.evs.getLast? with _ | last
    · exact .inl ⟨rfl, hmore, show (1 : ℤ) ≤ watchBatchMaxRevs by decide⟩
    · obtain ⟨init, hinit⟩ := getLast?_eq_some_iff.1 hlast
      simp only
      split_ifs with hrev hmax
      · refine .inr ⟨ev, [], rfl, ?_, rfl, fun e he => ?_, hmax⟩
        · rw [show eb.evs = _ from hinit]
          simp
        have hle : e.kv.modRevision ≤ last.kv.modRevision := by
          rw [show eb.evs = _ from hinit] at he hold
          rcases mem_append.1 he with he | he
          · exact (pairwise_append.1 hold).2.2 e he last (by simp)
          · rw [mem_singleton.1 he]
        exact lt_of_le_of_lt hle hrev
      · exact .inl ⟨rfl, hmore, not_lt.1 hmax⟩
      · exact .inl ⟨rfl, hmore, hrevs⟩
  · rw [if_pos hrevs]
    exact .inr ⟨ev', rest ++ [ev], by rw [hevs]; simp, hne, hmore, hlt, hrevs⟩

theorem ofList_append (evs : List StorageEvent) (ev : StorageEvent) :
    ofList (evs ++ [ev]) = (ofList evs).add ev := by
  unfold ofList
  rw [foldl_append]
  rfl

theorem cut_ofList (hsorted : evs.Pairwise fun a b => a.kv.modRevision ≤ b.kv.modRevision) :
    Cut evs (ofList evs) := by
  induction evs using reverseRecOn with
  | nil => exact .inl ⟨rfl, rfl, by decide⟩
  | append_singleton evs ev ih =>
    rw [ofList_append]
    exact (ih (pairwise_append.1 hsorted).1).add hsorted

theorem moreRev_ofList (evs : List StorageEvent) :
    (ofList evs).moreRev = 0 ∨ ∃ ev ∈ evs, (ofList evs).moreRev = ev.kv.modRevision := by
  induction evs using reverseRecOn with
  | nil => exact .inl rfl
  | append_singleton evs ev ih =>
    have hold : (ofList evs).moreRev = 0 ∨ ∃ e ∈ evs ++ [ev],
        (ofList evs).moreRev = e.kv.modRevision := by
      refine ih.imp_right ?_
      rintro ⟨e, he, heq⟩
      exact ⟨e, by simp [he], heq⟩
    rw [ofList_append]
    unfold add
    by_cases hmax : (ofList evs).revs > watchBatchMaxRevs
    · rw [if_pos hmax]
      exact hold
    · rw [if_neg hmax]
      rcases (ofList evs).evs.getLast? with _ | last
      · exact hold
      · simp only
        split_ifs
        · exact .inr ⟨ev, by simp, rfl⟩
        · exact hold
        · exact hold

theorem ofList_of_rev {rev : ℤ} (hrev : ∀ ev ∈ evs, ev.kv.modRevision = rev) :
    (ofList evs).evs = evs ∧ (ofList evs).revs = if evs = [] then 0 else 1 := by
  induction evs using reverseRecOn with
  | nil => exact ⟨rfl, rfl⟩
  | append_singleton evs ev ih =>
    obtain ⟨hevs, hrevs⟩ := ih fun e he => hrev e (by simp [he])
    have hmax : ¬ (ofList evs).revs > watchBatchMaxRevs := by
      rw [hrevs]
      split_ifs <;> decide
    rw [ofList_append, if_neg (by simp)]
    unfold add
    rw [if_neg hmax, hevs]
    rcases hlast : evs.getLast? with _ | last
    · exact ⟨rfl, rfl⟩
    · have hmem := mem_of_getLast? hlast
      have hsame : ¬ ev.kv.modRevision > last.kv.modRevision := by
        rw [hrev ev (by simp), hrev last (by simp [hmem])]
        exact lt_irrefl _
      simp [if_neg hsame]
      rw [hrevs, if_neg (ne_nil_of_mem hmem)]

end EventBatch

/-- The pairs of a log have the revision they were put at. -/
structure Dated (log : OrdMap RevKey KeyValue) : Prop where
  sub : ∀ rk kv, log.find rk = some kv → 0 ≤ rk.rev.sub
  pos : ∀ rk kv, log.find rk = some kv → 0 < rk.rev.main
  put : ∀ rev kv, log.find ⟨rev, false⟩ = some kv → kv.modRevision = rev.main

section Due

variable {w : Watcher} {log log' : OrdMap RevKey KeyValue} {hi c : ℤ}
  {w : Watcher} {ev : StorageEvent}

/-- The events due to a watcher below a revision. -/
def Watcher.due (w : Watcher) (log : OrdMap RevKey KeyValue) (hi : ℤ) : List StorageEvent :=
  (log.entries.filter fun e =>
    w.Matches e.2.key ∧ w.cur ≤ e.1.rev.main ∧ e.1.rev.main < hi).map eventOf

theorem eventOf_key (e : RevKey × KeyValue) : (eventOf e).kv.key = e.2.key := by
  unfold eventOf
  split_ifs <;> rfl

theorem Dated.modRevision (hd : Dated log) {e : RevKey × KeyValue} (he : e ∈ log.entries) :
    (eventOf e).kv.modRevision = e.1.rev.main := by
  obtain ⟨⟨rev, mark⟩, kv⟩ := e
  rcases mark with _ | _
  · exact hd.put rev kv (find_of_mem he)
  · rfl

theorem filter_below {α : Type*} {f : α → ℤ} (c : ℤ) :
    ∀ {l : List α}, (l.Pairwise fun a b => f a ≤ f b) →
    l = (l.filter fun a => f a < c) ++ l.filter fun a => c ≤ f a
  | [], _ => rfl
  | a :: l, h => by
    obtain ⟨ha, hl⟩ := pairwise_cons.1 h
    by_cases hc : f a < c
    · rw [filter_cons_of_pos (by simpa using hc), filter_cons_of_neg (by simpa using hc),
        cons_append, ← filter_below c hl]
    · have hall : ∀ b ∈ a :: l, c ≤ f b := fun b hb => by
        rcases mem_cons.1 hb with rfl | hb
        · exact not_lt.1 hc
        · exact (not_lt.1 hc).trans (ha b hb)
      have hnil : ((a :: l).filter fun a => f a < c) = [] := by
        rw [filter_eq_nil_iff]
        exact fun b hb => by simpa using hall b hb
      rw [hnil, nil_append, filter_eq_self.2 fun b hb => by simpa using hall b hb]

theorem entries_ascend (log : OrdMap RevKey KeyValue) :
    log.entries.Pairwise fun a b => a.1.rev.main ≤ b.1.rev.main :=
  log.sorted.imp fun h => Revision.main_le (RevKey.rev_le h.le)

theorem Watcher.due_eq_nil (w : Watcher) (log : OrdMap RevKey KeyValue) {hi : ℤ} (h : hi ≤ w.cur) :
    w.due log hi = [] := by
  rw [Watcher.due, map_eq_nil_iff, filter_eq_nil_iff]
  intro e _
  simp
  omega

theorem Watcher.due_split (w : Watcher) (log : OrdMap RevKey KeyValue) (hc : w.cur ≤ c)
    (hhi : c ≤ hi) : w.due log hi = w.due log c ++ { w with cur := c }.due log hi := by
  unfold due
  rw [filter_below c ((entries_ascend log).filter fun e =>
    w.Matches e.2.key ∧ w.cur ≤ e.1.rev.main ∧ e.1.rev.main < hi), map_append,
    filter_filter, filter_filter]
  congr 2
  · refine filter_congr fun e _ => ?_
    rw [← Bool.decide_and, decide_eq_decide]
    constructor
    · rintro ⟨hlt, hm, hcur, -⟩
      exact ⟨hm, hcur, hlt⟩
    · rintro ⟨hm, hcur, hlt⟩
      exact ⟨hlt, hm, hcur, hlt.trans_le hhi⟩
  · refine filter_congr fun e _ => ?_
    rw [← Bool.decide_and, decide_eq_decide]
    constructor
    · rintro ⟨hle, hm, -, hlt⟩
      exact ⟨hm, hle, hlt⟩
    · rintro ⟨hm, hle, hlt⟩
      exact ⟨hle, hm, hc.trans hle, hlt⟩

theorem Watcher.due_congr (h : ∀ rk kv, w.Matches kv.key → w.cur ≤ rk.rev.main →
    rk.rev.main < hi → (log.find rk = some kv ↔ log'.find rk = some kv)) :
    w.due log hi = w.due log' hi := by
  unfold due
  congr 1
  refine entries_ext (log.sorted.filter _) (log'.sorted.filter _) fun e => ?_
  simp only [mem_filter, decide_eq_true_eq]
  refine and_congr_left fun hw => ?_
  rw [show e = (e.1, e.2) from rfl, mem_entries, mem_entries]
  exact h e.1 e.2 hw.1 hw.2.1 hw.2.2

theorem Watcher.wanted_map {l : List (RevKey × KeyValue)}
    (hl : ∀ e ∈ l, (eventOf e).kv.modRevision = e.1.rev.main) : w.wanted (l.map eventOf)
      = (l.filter fun e => w.Matches e.2.key ∧ w.cur ≤ e.1.rev.main).map eventOf := by
  unfold wanted
  rw [filter_map]
  congr 1
  refine filter_congr fun e he => ?_
  rw [Function.comp_apply, eventOf_key, hl e he]

theorem Watcher.due_append {recs : List (RevKey × KeyValue)}
    (hlog : log'.entries = log.entries ++ recs) (hi : ℤ) : w.due log' hi = w.due log hi
      ++ (recs.filter fun e =>
        w.Matches e.2.key ∧ w.cur ≤ e.1.rev.main ∧ e.1.rev.main < hi).map eventOf := by
  unfold due
  rw [hlog, filter_append, map_append]

variable (hd : Dated log)
include hd

theorem Dated.mem_due (hev : ev ∈ w.due log hi) :
    w.cur ≤ ev.kv.modRevision ∧ ev.kv.modRevision < hi := by
  obtain ⟨e, he, rfl⟩ := mem_map.1 hev
  obtain ⟨he, hp⟩ := mem_filter.1 he
  rw [hd.modRevision he]
  exact (of_decide_eq_true hp).2

theorem Dated.pos_of_mem_due (hev : ev ∈ w.due log hi) : 0 < ev.kv.modRevision := by
  obtain ⟨e, he, rfl⟩ := mem_map.1 hev
  have he := (mem_filter.1 he).1
  rw [hd.modRevision he]
  exact hd.pos _ _ (find_of_mem he)

theorem Dated.due_ascend (w : Watcher) (hi : ℤ) :
    (w.due log hi).Pairwise fun a b => a.kv.modRevision ≤ b.kv.modRevision := by
  unfold Watcher.due
  rw [pairwise_map]
  refine Pairwise.imp_of_mem (fun {a b} ha hb hle => ?_) ((entries_ascend log).filter _)
  rw [hd.modRevision (mem_filter.1 ha).1, hd.modRevision (mem_filter.1 hb).1]
  exact hle

theorem Dated.batch_due (w : Watcher) (hi : ℤ) : let eb := ofList (w.due log hi)
    (eb.moreRev = 0 ∧ eb.evs = w.due log hi)
      ∨ eb.moreRev ≠ 0 ∧ eb.evs = w.due log eb.moreRev ∧ w.cur < eb.moreRev ∧ eb.moreRev < hi := by
  have hasc := hd.due_ascend w hi
  rcases cut_ofList hasc with ⟨hevs, hmore, -⟩ | ⟨ev, rest, hevs, hnil, hmore, hlt, -⟩
  · exact .inl ⟨hmore, hevs⟩
  · set eb := ofList (w.due log hi)
    obtain ⟨e, he⟩ := exists_mem_of_ne_nil _ hnil
    have he₁ := hd.mem_due (show e ∈ w.due log hi by rw [hevs]; simp [he])
    have hev := hd.mem_due (show ev ∈ w.due log hi by rw [hevs]; simp)
    have hcur : w.cur < eb.moreRev := by
      rw [hmore]
      exact he₁.1.trans_lt (hlt e he)
    have hpos : 0 < eb.moreRev := by
      rw [hmore]
      exact hd.pos_of_mem_due (show ev ∈ w.due log hi by rw [hevs]; simp)
    refine .inr ⟨hpos.ne', ?_, hcur, by rw [hmore]; exact hev.2⟩
    -- both are the events due that are below the revision
    have hbelow : (w.due log hi).filter (fun e => e.kv.modRevision < eb.moreRev) = eb.evs := by
      rw [hevs] at hasc ⊢
      obtain ⟨-, hrest, -⟩ := pairwise_append.1 hasc
      rw [filter_append, filter_eq_self.2 fun e he => by simpa [hmore] using hlt e he,
        filter_eq_nil_iff.2, append_nil]
      intro e he
      rcases mem_cons.1 he with rfl | he
      · simp [hmore]
      · simpa [hmore] using (pairwise_cons.1 hrest).1 e he
    rw [← hbelow, w.due_split log hcur.le (by rw [hmore]; exact hev.2.le), filter_append,
      filter_eq_self.2 fun e he => by simpa using (hd.mem_due he).2,
      filter_eq_nil_iff.2, append_nil]
    intro e he
    simpa using (hd.mem_due he).1

end Due

section Sync

variable {ws : Watchers} {s : Store} {wg : WatcherGroup} {minRev curRev : ℤ} {id : ℕ} {w : Watcher}

theorem WatcherGroup.contains_of_find {key : Bytes} (hf : wg.find id = some w)
    (hm : w.Matches key) : wg.contains key = true :=
  any_eq_true.2 ⟨(id, w), mem_entries.2 hf, decide_eq_true hm⟩

theorem Dated.wanted_kvsToEvents (hd : Dated s.keyBucket) (hf : wg.find id = some w)
    (hmin : minRev ≤ w.cur) : w.wanted (kvsToEvents wg (Watchers.revRange s minRev curRev))
      = w.due s.keyBucket (curRev + 1) := by
  unfold kvsToEvents Watchers.revRange slice Watcher.due
  rw [filter_filter, Watcher.wanted_map fun e he => hd.modRevision (mem_filter.1 he).1,
    filter_filter]
  congr 1
  refine filter_congr fun e he => ?_
  have hsub := hd.sub e.1 e.2 (find_of_mem he)
  rw [← Bool.decide_coe (wg.contains e.2.key), ← Bool.decide_and, ← Bool.decide_and,
    decide_eq_decide]
  simp only [RevKey.plain_le_iff, RevKey.lt_plain_iff, Revision.le_iff, Revision.lt_iff]
  constructor
  · rintro ⟨⟨hm, hcur⟩, -, -, hlt⟩
    exact ⟨hm, hcur, by omega⟩
  · rintro ⟨hm, hcur, hlt⟩
    exact ⟨⟨hm, hcur⟩, WatcherGroup.contains_of_find hf hm, by omega, by omega⟩

theorem Dated.kvsToEvents_le (hd : Dated s.keyBucket) {ev : StorageEvent}
    (hev : ev ∈ kvsToEvents wg (Watchers.revRange s minRev curRev)) :
    ev.kv.modRevision ≤ curRev := by
  obtain ⟨⟨rk, kv⟩, he, rfl⟩ := mem_map.1 hev
  obtain ⟨hf, -, hlt⟩ := mem_slice.1 (mem_filter.1 he).1
  have hsub := hd.sub _ _ hf
  rw [hd.modRevision (mem_entries.2 hf)]
  rw [RevKey.lt_plain_iff, Revision.lt_iff] at hlt
  show rk.rev.main ≤ curRev
  simp only at hlt
  omega

theorem Watchers.look_syncWatchers (happart : ws.Apart)
    (hcur : ∀ id w, ws.unsynced.find id = some w → w.cur ≤ s.currentRev.main)
    (hd : Dated s.keyBucket) (room : Room) : ∃ evs ws', ws.syncWatchers s room = .ok ws'
      ∧ (∀ id, ws'.look id = caughtUp s.currentRev.main evs room.events id
          (scanned s.compactMainRev room.notice id (ws.look id)))
      ∧ (∀ ev ∈ evs, ev.kv.modRevision ≤ s.currentRev.main)
      ∧ ∀ id w, (scanned s.compactMainRev room.notice id (ws.look id)).unsynced = some w →
          s.compactMainRev ≤ w.cur → w.wanted evs = w.due s.keyBucket (s.currentRev.main + 1) := by
  unfold syncWatchers
  split_ifs with hnil
  · have hnone : ∀ id, (ws.look id).unsynced = none := fun id => by
      show ws.unsynced.find id = none
      unfold find
      rw [hnil]
      rfl
    refine ⟨[], ws, rfl, fun id => ?_, by simp, fun id w hf => ?_⟩
    · simp [scanned, caughtUp, hnone]
    · simp [scanned, hnone] at hf
  · obtain ⟨minRev, ws₁, hscan, hlook, hmin⟩ := look_scanMinRev hcur s.compactMainRev room.notice
    have hold : ∀ id w, ws₁.unsynced.find id = some w → ws₁.look id = ws.look id :=
      fun id w hf => (hlook id).trans
        (scanned_of_some ((congrArg WatcherView.unsynced (hlook id)).symm.trans hf))
    have happart₁ : ws₁.Apart := fun id => by
      rcases hf : ws₁.unsynced.find id with _ | w
      · exact .inl rfl
      · have hsame := hold id w hf
        have hf' : ws.unsynced.find id = some w :=
          (congrArg WatcherView.unsynced hsame).symm.trans hf
        exact .inr ((congrArg WatcherView.synced hsame).trans (happart.synced hf'))
    set evs := kvsToEvents ws₁.unsynced (revRange s minRev s.currentRev.main)
    obtain ⟨ws₂, ws₃, hws₂, hws₃, hall⟩ :=
      look_catchUp happart₁ s.currentRev.main evs room.events
    refine ⟨evs, ws₃, ?_, fun id => ?_, fun ev hev => hd.kvsToEvents_le hev, fun id w hf hc => ?_⟩
    · simp only [hscan]
      show ((newWatcherBatch ws₁.unsynced evs).foldlM (syncOne s.currentRev.main room.events) ws₁
        >>= _) = _
      rw [hws₂]
      exact hws₃
    · rw [hall, hlook]
    · rw [← hlook] at hf
      have hf' := hf
      rw [hold id w hf] at hf'
      exact hd.wanted_kvsToEvents hf (hmin id w hf' hc)

end Sync

end EtcdCompat
