import EtcdCompat.Lib.Loop
import EtcdCompat.Storage.Watch

/-!
# One watcher at a time

The loops over watchers treat each one alone: what becomes of a watcher depends on what is seen of
it, `WatcherView`. Neither `notify` nor `syncWatchers` panics as long as no watcher is in both
groups or ahead of the store.
-/

namespace EtcdCompat

open OrdMap List

variable {wg : WatcherGroup} {evs : List StorageEvent} {id : ℕ}

/-- What is seen of a watcher. -/
structure WatcherView where
  unsynced : Option Watcher
  synced : Option Watcher
  sent : List WatchResponse

def Watcher.wanted (w : Watcher) (evs : List StorageEvent) : List StorageEvent :=
  evs.filter fun ev => w.Matches ev.kv.key ∧ ev.kv.modRevision ≥ w.cur

def EventBatch.ofList (evs : List StorageEvent) : EventBatch := evs.foldl EventBatch.add {}

theorem mem_newWatcherBatch {w : Watcher} {eb : EventBatch} : (id, w, eb) ∈ newWatcherBatch wg evs
      ↔ wg.find id = some w ∧ w.wanted evs ≠ [] ∧ eb = .ofList (w.wanted evs) := by
  unfold newWatcherBatch
  rw [mem_filterMap]
  constructor
  · rintro ⟨⟨id', w'⟩, hmem, heq⟩
    simp only at heq
    split_ifs at heq with hnil
    obtain ⟨rfl, rfl, rfl⟩ := heq
    exact ⟨mem_entries.1 hmem, hnil, rfl⟩
  · rintro ⟨hf, hne, rfl⟩
    exact ⟨(id, w), mem_entries.2 hf, if_neg hne⟩

theorem nodup_newWatcherBatch (wg : WatcherGroup) (evs : List StorageEvent) :
    ((newWatcherBatch wg evs).map Prod.fst).Nodup := by
  refine Nodup.sublist ?_ wg.nodup_entries
  unfold newWatcherBatch
  induction wg.entries with
  | nil => exact .slnil
  | cons e es ih =>
    rw [filterMap_cons, map_cons]
    simp only
    split_ifs
    · exact ih.cons _
    · exact ih.cons_cons _

theorem mem_fst_newWatcherBatch :
    id ∈ (newWatcherBatch wg evs).map Prod.fst ↔ ∃ w, wg.find id = some w ∧ w.wanted evs ≠ [] := by
  rw [mem_map]
  constructor
  · rintro ⟨⟨id, w, eb⟩, hmem, rfl⟩
    obtain ⟨hf, hne, -⟩ := mem_newWatcherBatch.1 hmem
    exact ⟨w, hf, hne⟩
  · rintro ⟨w, hf, hne⟩
    exact ⟨(id, w, _), mem_newWatcherBatch.2 ⟨hf, hne, rfl⟩, rfl⟩

theorem WatcherGroup.add_ok (hf : wg.find id = none) (w : Watcher) :
    wg.add id w = .ok (wg.insert id w) := by
  unfold add
  rw [hf]
  rfl

namespace Watchers

variable {id : ℕ} {w : Watcher}

def look (ws : Watchers) (id : ℕ) : WatcherView :=
  ⟨ws.unsynced.find id, ws.synced.find id, ws.sent.filter fun r => r.watchID = id⟩

def Apart (ws : Watchers) : Prop :=
  ∀ id, ws.unsynced.find id = none ∨ ws.synced.find id = none

variable {ws : Watchers} {evs : List StorageEvent}

theorem Apart.synced (happart : ws.Apart) (hf : ws.unsynced.find id = some w) :
    ws.synced.find id = none :=
  (happart id).resolve_left (by rw [hf]; simp)

theorem Apart.unsynced (happart : ws.Apart) (hf : ws.synced.find id = some w) :
    ws.unsynced.find id = none :=
  (happart id).resolve_right (by rw [hf]; simp)

/-- What a loop over the watchers with events does to a watcher of a group. -/
def batched (upd : ℕ → Watcher × EventBatch → WatcherView →
    WatcherView) (evs : List StorageEvent) (id : ℕ)
    (v : WatcherView) : Option Watcher → WatcherView
  | none => v
  | some w => if w.wanted evs = [] then v else upd id (w, .ofList (w.wanted evs)) v

theorem look_batch {wg : WatcherGroup} {pre : ℕ → Watcher × EventBatch → WatcherView → Prop}
    {upd : ℕ → Watcher × EventBatch → WatcherView → WatcherView}
    {step : Watchers → ℕ × Watcher × EventBatch → Except WatchPanic Watchers}
    (hstep : Local look pre upd step) (hpre : ∀ id w, wg.find id = some w → w.wanted evs ≠ [] →
      pre id (w, .ofList (w.wanted evs)) (ws.look id)) :
    ∃ ws', (newWatcherBatch wg evs).foldlM step ws = .ok ws'
      ∧ ∀ id, ws'.look id = batched upd evs id (ws.look id) (wg.find id) := by
  obtain ⟨ws', hws', hin, hout⟩ := hstep.foldlM (nodup_newWatcherBatch wg evs) (s := ws) (by
    rintro ⟨id, w, eb⟩ hmem
    obtain ⟨hf, hne, rfl⟩ := mem_newWatcherBatch.1 hmem
    exact hpre id w hf hne)
  refine ⟨ws', hws', fun id => ?_⟩
  have hout := fun h => hout id (mem_fst_newWatcherBatch.not.2 h)
  rcases hf : wg.find id with _ | w
  · exact hout (by simp [hf])
  · unfold batched
    simp only
    split_ifs with hnil
    · exact hout (by simp [hf, hnil])
    · exact hin (id, w, _) (mem_newWatcherBatch.2 ⟨hf, hnil, rfl⟩)

section Notify

/-- What `notify` does to a watcher with events. -/
def notifyView (rev : ℤ) (room : ℕ →
    Bool) (id : ℕ) (b : Watcher × EventBatch) (v : WatcherView) : WatcherView :=
  if room id then
    { v with sent := v.sent ++ [{ watchID := id, events := b.2.evs, revision := rev }] }
  else { v with unsynced := some { b.1 with cur := rev }, synced := none }

theorem local_notifyOne (rev : ℤ) (room : ℕ → Bool) :
    Local look (fun _ b v => b.2.revs = 1 ∧ v.unsynced = none) (notifyView rev room)
      (notifyOne rev room) := by
  rintro ws id ⟨w, eb⟩ ⟨hrevs, hnone⟩
  have hone : ¬ eb.revs ≠ 1 := not_not.2 hrevs
  unfold notifyOne
  simp only [if_neg hone]
  by_cases hroom : room id = true
  · rw [if_pos hroom]
    refine ⟨_, rfl, ?_, fun j hj => ?_⟩
    · simp [look, notifyView, hroom]
    · simp [look, Ne.symm hj]
  · rw [if_neg hroom, WatcherGroup.add_ok hnone]
    refine ⟨_, rfl, ?_, fun j hj => ?_⟩
    · simp [look, notifyView, hroom, find_erase]
    · simp [look, find_insert_ne (Ne.symm hj), find_erase, hj]

/-- What `notify` does to a watcher. -/
def notified (rev : ℤ) (evs : List StorageEvent) (room : ℕ →
    Bool) (id : ℕ) (v : WatcherView) : WatcherView :=
  batched (notifyView rev room) evs id v v.synced

theorem look_notify (happart : ws.Apart)
    (hrevs : ∀ w : Watcher, w.wanted evs ≠ [] → (EventBatch.ofList (w.wanted evs)).revs = 1)
    (rev : ℤ) (room : ℕ → Bool) : ∃ ws', ws.notify rev evs room = .ok ws'
      ∧ ∀ id, ws'.look id = notified rev evs room id (ws.look id) :=
  look_batch (local_notifyOne rev room) fun _ w hf hne => ⟨hrevs w hne, happart.unsynced hf⟩

end Notify

section Sync

variable {curRev compactRev : ℤ} {room : ℕ → Bool}

/-- What `scanMinRev` does to a watcher that is not synced. -/
def scanView (compactRev : ℤ) (room : ℕ →
    Bool) (id : ℕ) (w : Watcher) (v : WatcherView) : WatcherView :=
  if w.cur < compactRev ∧ room id then { v with
    unsynced := none, sent := v.sent ++ [{ watchID := id, compactRevision := compactRev }] }
  else v

theorem local_scanOne (curRev compactRev : ℤ) (room : ℕ → Bool) :
    Local (fun acc : ℤ × Watchers => acc.2.look) (fun _ w _ => w.cur ≤ curRev)
      (scanView compactRev room) (scanOne curRev compactRev room) := by
  rintro ⟨minRev, ws⟩ id w hle
  unfold scanOne scanView
  simp only [if_neg (not_lt.2 hle)]
  by_cases hlt : w.cur < compactRev
  · rw [if_pos hlt]
    by_cases hroom : room id = true
    · rw [if_pos hroom, if_pos ⟨hlt, hroom⟩]
      refine ⟨_, rfl, ?_, fun j hj => ?_⟩
      · simp [look, find_erase]
      · simp [look, find_erase, hj, Ne.symm hj]
    · rw [if_neg hroom, if_neg fun h => hroom h.2]
      exact ⟨_, rfl, rfl, fun _ _ => rfl⟩
  · rw [if_neg hlt, if_neg (show ¬ (w.cur < compactRev ∧ room id = true) from fun h => hlt h.1)]
    exact ⟨_, rfl, rfl, fun _ _ => rfl⟩

theorem scan_minRev : ∀ {l : List (ℕ × Watcher)} {acc acc' : ℤ × Watchers},
    l.foldlM (scanOne curRev compactRev room) acc = .ok acc' →
    acc'.1 ≤ acc.1 ∧ ∀ e ∈ l, compactRev ≤ e.2.cur → acc'.1 ≤ e.2.cur
  | [], acc, acc', h => by
    cases h
    simp
  | (id, w) :: l, (minRev, ws), acc', h => by
    rw [foldlM_cons] at h
    obtain ⟨⟨minRev₁, ws₁⟩, h₁, h⟩ := exists_ok_of_bind h
    obtain ⟨hle, hall⟩ := scan_minRev h
    have hone : minRev₁ ≤ minRev ∧ (compactRev ≤ w.cur → minRev₁ ≤ w.cur) := by
      unfold scanOne at h₁
      simp only at h₁
      split_ifs at h₁ <;> obtain ⟨rfl, -⟩ := Prod.mk.inj (Except.ok.inj h₁) <;>
        constructor <;> intros <;> omega
    refine ⟨hle.trans hone.1, fun e he hc => ?_⟩
    rcases mem_cons.1 he with rfl | he
    · exact hle.trans (hone.2 hc)
    · exact hall e he hc

/-- What `scanMinRev` does to a watcher. -/
def scanned (compactRev : ℤ) (room : ℕ → Bool) (id : ℕ) (v : WatcherView) : WatcherView :=
  v.unsynced.elim v fun w => scanView compactRev room id w v

theorem scanned_of_some {id : ℕ} {v : WatcherView} {w : Watcher}
    (hf : (scanned compactRev room id v).unsynced = some w) : scanned compactRev room id v = v := by
  unfold scanned scanView at hf ⊢
  rcases v with ⟨_ | w', synced, sent⟩
  · rfl
  · simp only [Option.elim_some] at hf ⊢
    split_ifs at hf ⊢
    rfl

theorem look_scanMinRev (hcur : ∀ id w, ws.unsynced.find id = some w → w.cur ≤ curRev)
    (compactRev : ℤ) (room : ℕ → Bool) :
    ∃ minRev ws', ws.scanMinRev curRev compactRev room = .ok (minRev, ws')
      ∧ (∀ id, ws'.look id = scanned compactRev room id (ws.look id))
      ∧ ∀ id w, ws.unsynced.find id = some w → compactRev ≤ w.cur → minRev ≤ w.cur := by
  obtain ⟨⟨minRev, ws'⟩, hws', hall⟩ := (local_scanOne curRev compactRev room).entries
    (m := ws.unsynced) (p := fun _ => true) (s := (maxInt64, ws)) fun id w hf _ => hcur id w hf
  rw [filter_true] at hws'
  refine ⟨minRev, ws', hws', fun id => ?_, fun id w hf hc =>
    (scan_minRev hws').2 (id, w) (mem_entries.2 hf) hc⟩
  refine (hall id).trans ?_
  show _ = (ws.unsynced.find id).elim _ _
  rcases ws.unsynced.find id with _ | w <;> rfl

/-- What `syncWatchers` does to a watcher with events. -/
def syncView (curRev : ℤ) (room : ℕ →
    Bool) (id : ℕ) (b : Watcher × EventBatch) (v : WatcherView) : WatcherView :=
  if room id then
    let sent := v.sent ++ [{ watchID := id, events := b.2.evs, revision := curRev }]
    if b.2.moreRev ≠ 0 then { v with sent, unsynced := some { b.1 with cur := b.2.moreRev } }
    else { sent, unsynced := none, synced := some { b.1 with cur := curRev } }
  else v

theorem local_bring (curRev : ℤ) : Local look (fun _ _ v => v.synced = none)
    (fun _ w v => { v with unsynced := none, synced := some { w with cur := curRev } })
    (fun ws e => bring curRev ws e.1 e.2) := by
  rintro ws id w hnone
  unfold bring
  simp only [WatcherGroup.add_ok hnone]
  refine ⟨_, rfl, ?_, fun j hj => ?_⟩
  · simp [look, find_erase]
  · simp [look, find_insert_ne (Ne.symm hj), find_erase, hj]

theorem local_syncOne (curRev : ℤ) (room : ℕ → Bool) :
    Local look (fun _ _ v => v.synced = none) (syncView curRev room) (syncOne curRev room) := by
  rintro ws id ⟨w, eb⟩ hnone
  unfold syncOne syncView
  by_cases hroom : room id = true
  · simp only [if_pos hroom]
    split_ifs with hmore
    · refine ⟨_, rfl, ?_, fun j hj => ?_⟩
      · simp [look]
      · simp [look, find_insert_ne (Ne.symm hj), Ne.symm hj]
    · obtain ⟨ws', hws', hview, hframe⟩ := local_bring curRev { ws with
        sent := ws.sent ++ [{ watchID := id, events := eb.evs, revision := curRev }] } id w hnone
      refine ⟨ws', hws', ?_, fun j hj => ?_⟩
      · rw [hview]
        simp [look]
      · rw [hframe j hj]
        simp [look, Ne.symm hj]
  · simp only [if_neg hroom]
    exact ⟨ws, rfl, rfl, fun _ _ => rfl⟩

/-- What `syncWatchers` does to a watcher, given the events it has read. -/
def caughtUp (curRev : ℤ) (evs : List StorageEvent) (room : ℕ →
    Bool) (id : ℕ) (v : WatcherView) : WatcherView :=
  v.unsynced.elim v fun w =>
    if w.wanted evs = [] then
      { v with unsynced := none, synced := some { w with cur := curRev } }
    else syncView curRev room id (w, .ofList (w.wanted evs)) v

theorem look_catchUp (happart : ws.Apart) (curRev : ℤ) (evs : List StorageEvent) (room : ℕ → Bool) :
    ∃ ws₁ ws₂, (newWatcherBatch ws.unsynced evs).foldlM (syncOne curRev room) ws = .ok ws₁
      ∧ (ws₁.unsynced.entries.filter fun e =>
          e.1 ∉ (newWatcherBatch ws.unsynced evs).map (·.1)).foldlM
            (fun ws e => bring curRev ws e.1 e.2) ws₁ = .ok ws₂
      ∧ ∀ id, ws₂.look id = caughtUp curRev evs room id (ws.look id) := by
  have hpre : ∀ id w, ws.unsynced.find id = some w → w.wanted evs ≠ [] →
      (ws.look id).synced = none := fun id w hf _ => happart.synced hf
  obtain ⟨ws₁, hws₁, hall₁⟩ := look_batch (local_syncOne curRev room) hpre
  have hsame : ∀ id, id ∉ (newWatcherBatch ws.unsynced evs).map (·.1) →
      ws₁.look id = ws.look id := fun id hid => by
    rw [hall₁ id]
    rcases hf : ws.unsynced.find id with _ | w
    · rfl
    · exact if_pos (not_not.1 fun hne => hid (mem_fst_newWatcherBatch.2 ⟨w, hf, hne⟩))
  obtain ⟨ws₂, hws₂, hall₂⟩ := (local_bring curRev).entries (m := ws₁.unsynced)
    (p := fun e => e.1 ∉ (newWatcherBatch ws.unsynced evs).map (·.1)) (s := ws₁) (by
      intro id w hf hp
      have hsame := hsame id (of_decide_eq_true hp)
      have hf' : ws.unsynced.find id = some w := (congrArg WatcherView.unsynced hsame).symm.trans hf
      rw [hsame]
      exact happart.synced hf')
  refine ⟨ws₁, ws₂, hws₁, hws₂, fun id => (hall₂ id).trans ?_⟩
  by_cases hid : id ∈ (newWatcherBatch ws.unsynced evs).map (·.1)
  · obtain ⟨w, hf, hne⟩ := mem_fst_newWatcherBatch.1 hid
    have hskip : (ws₁.unsynced.find id).filter
        (fun _ => decide (id ∉ (newWatcherBatch ws.unsynced evs).map (·.1))) = none := by
      rw [Option.filter_eq_none_iff]
      exact fun _ _ => by simp [hid]
    rw [hskip, Option.elim_none, hall₁, hf]
    unfold caughtUp look
    simp [hf, if_neg hne]
    exact if_neg hne
  · have hfind : ws₁.unsynced.find id = ws.unsynced.find id :=
      congrArg WatcherView.unsynced (hsame id hid)
    rw [hsame id hid, hfind]
    unfold caughtUp look
    rcases hf : ws.unsynced.find id with _ | w
    · rfl
    · have hnil : w.wanted evs = [] :=
        not_not.1 fun hne => hid (mem_fst_newWatcherBatch.2 ⟨w, hf, hne⟩)
      simp [Option.filter_some, hid, if_pos hnil]

end Sync

end Watchers

end EtcdCompat
