import EtcdCompat.Proofs.WatchTrack
import EtcdCompat.Proofs.WatchTxn

/-!
# Runs of a watchable store

`Sound`: no watcher is in both groups, none that is unsynced is ahead of the store, and numbers not
yet given are unused. Then no event panics but for the store, and what it does to a watcher is one
of three things, `Seen`: next to nothing, its part in `notify`, or its part in `syncWatchers`.
-/

namespace EtcdCompat

open List OrdMap

/-- A watcher is in one group at most, and not ahead while unsynced. -/
def WatcherView.Sane (main : ℤ) (v : WatcherView) : Prop :=
  (v.unsynced = none ∨ v.synced = none) ∧ ∀ w, v.unsynced = some w → w.cur ≤ main

def WatcherView.blank : WatcherView := ⟨none, none, []⟩

section Views

variable {main rev compactRev : ℤ} {v : WatcherView} {evs : List StorageEvent} {room : ℕ →
  Bool} {id : ℕ}

theorem WatcherView.Sane.notified (hv : v.Sane main) (hle : main ≤ rev) :
    (Watchers.notified rev evs room id v).Sane rev := by
  have hold : v.Sane rev := ⟨hv.1, fun w hw => (hv.2 w hw).trans hle⟩
  unfold Watchers.notified
  rcases v.synced with _ | w
  · exact hold
  · unfold Watchers.batched Watchers.notifyView
    simp only
    split_ifs
    · exact hold
    · exact hold
    · exact ⟨.inr rfl, fun w hw => by rw [← Option.some.inj hw]⟩

theorem WatcherView.Sane.scanned (hv : v.Sane main) :
    (Watchers.scanned compactRev room id v).Sane main := by
  unfold Watchers.scanned Watchers.scanView
  rcases v.unsynced with _ | w
  · exact hv
  · simp
    split_ifs
    · exact ⟨.inl rfl, fun w hw => by cases hw⟩
    · exact hv

theorem WatcherView.Sane.caughtUp (hv : v.Sane main) (hevs : ∀ ev ∈ evs, ev.kv.modRevision ≤ main) :
    (Watchers.caughtUp main evs room id v).Sane main := by
  unfold Watchers.caughtUp Watchers.syncView
  rcases hu : v.unsynced with _ | w
  · exact hv
  · simp only [Option.elim_some]
    split_ifs with hnil hroom hmore
    · exact ⟨.inl rfl, fun w hw => by cases hw⟩
    · refine ⟨.inr (hv.1.resolve_left (by simp [hu])), fun w' hw => ?_⟩
      obtain ⟨ev, hev, heq⟩ := (EventBatch.moreRev_ofList (w.wanted evs)).resolve_left hmore
      rw [← Option.some.inj hw]
      exact heq.trans_le (hevs ev (mem_filter.1 hev).1)
    · exact ⟨.inl rfl, fun w hw => by cases hw⟩
    · exact hv

end Views

namespace WatchableStore

open Watchers

variable {ev : Event}

def look (s : WatchableStore) (id : ℕ) : WatcherView := s.watchers.look id

/-- What an event is to the store. -/
def Event.stored : Event → Option Store.Event
  | .txn ops _ => some (.txn ops)
  | .compact rev => some (.compact rev)
  | .batch => some .batch
  | .lessor le => some (.lessor le)
  | _ => none

structure Sound (s : WatchableStore) (h : History) : Prop where
  idle : Store.Idle s.store.txnBegin h
  stamped : Stamped h.log
  changes : s.store.changes = []
  sane : ∀ id, (s.look id).Sane h.main
  fresh : ∀ id, s.nextID ≤ id → s.look id = .blank

variable {s : WatchableStore} {h h' : History}

section

variable (hs : Sound s h)
include hs

theorem Sound.apart : s.watchers.Apart := fun id => (hs.sane id).1

theorem Sound.dated : Dated h.log :=
  hs.idle.1.wf.dated

theorem Sound.dated_bucket : Dated s.store.keyBucket :=
  hs.dated.mono hs.idle.1.bucket

theorem Sound.currentRev : s.store.currentRev.main = h.main := by
  have hcur := hs.idle.1.cur
  exact congrArg Revision.main hcur

theorem Sound.main_le {e : RevKey × KeyValue} (he : e ∈ h.log.entries) : e.1.rev.main ≤ h.main :=
  hs.idle.1.wf.main_le_of_sub hs.idle.2 (find_of_mem he)

end

/-- What an event may do to a watcher, given the records it has written. -/
inductive Seen (s : WatchableStore) (main : ℤ) (recs : List (RevKey × KeyValue)) (id : ℕ)
    (ev : Event) (v : WatcherView) : WatcherView → Prop
  | quiet {v' : WatcherView} : recs = [] →
    (v'.sent = v.sent ∨ ∃ r : WatchResponse, r.events = [] ∧ v'.sent = v.sent ++ [r]) →
    v'.unsynced = v.unsynced → v'.synced = v.synced → Seen s main recs id ev v v'
  | cancelled : recs = [] → ev = .cancel id → Seen s main recs id ev v ⟨none, none, v.sent⟩
  | notified (room : ℕ → Bool) : recs ≠ [] →
    Seen s main recs id ev v (notified (main + 1) (recs.map eventOf) room id v)
  | synced (room : Room) (evs : List StorageEvent) : recs = [] → ev = .sync room →
    (∀ w, (scanned s.store.compactMainRev room.notice id v).unsynced = some w →
      s.store.compactMainRev ≤ w.cur → w.wanted evs = w.due s.store.keyBucket (main + 1)) →
    Seen s main recs id ev v
      (caughtUp main evs room.events id (scanned s.store.compactMainRev room.notice id v))

theorem Seen.refl (s : WatchableStore) (main : ℤ) (id : ℕ) (ev : Event) (v : WatcherView) :
    Seen s main [] id ev v v :=
  .quiet rfl (.inl rfl) rfl rfl

/-- The history goes on with the records. -/
structure Continues (h h' : History) (recs : List (RevKey × KeyValue)) : Prop where
  log : h'.log.entries = h.log.entries ++ recs
  rev : ∀ e ∈ recs, e.1.rev.main = h.main + 1
  main : h'.main = if recs = [] then h.main else h.main + 1

theorem Continues.refl (h : History) : Continues h h [] := ⟨by simp, by simp, rfl⟩

/-- An event taken from a sound state: the next one is sound, and watchers see what they may. -/
structure Goes (s : WatchableStore) (h : History) (ev : Event) (s' : WatchableStore)
    (h' : History) : Prop where
  sound : Sound s' h'
  next : s.nextID ≤ s'.nextID
  seen : ∃ recs, Continues h h' recs
    ∧ ∀ id, id < s.nextID → Seen s h.main recs id ev (s.look id) (s'.look id)

theorem setChanges {st : Store} (hs : Store.Idle st h) (changes : List KeyValue) :
    Store.Idle { st with changes } h :=
  ⟨⟨hs.1.wf, hs.1.cur, hs.1.compacted, hs.1.index, hs.1.look, hs.1.bucket, hs.1.above, hs.1.reads,
    hs.1.lessor, hs.1.jobs, hs.1.swept, hs.1.lastJob, hs.1.finished, hs.1.done, hs.1.upper⟩, hs.2⟩

theorem Sound.txn (hs : Sound s h) (ops : List Store.Op) (room : ℕ → Bool)
    (hh : h.txn ops = .ok h') :
    ∃ s', s.txn ops room = .ok s' ∧ Goes s h (.txn ops room) s' h' := by
  obtain ⟨st, hst, recs, hw⟩ := (hs.idle.txn_wrote hs.stamped hs.changes ops).exists_ok_left hh
  have hst : s.store.txn ops = .ok st := hst
  have hidle : Store.Idle { st with changes := [] } h' := setChanges hw.idle []
  have hbegin : ({ st with changes := [] } : Store).txnBegin = { st with changes := [] } :=
    hidle.1.txnBegin hidle.2
  have hrev : st.currentRev.main = h'.main := by rw [hw.idle.1.cur]
  have hcont : Continues h h' recs := ⟨hw.log, hw.rev, hw.main⟩
  unfold WatchableStore.txn
  rw [hst]
  simp only [hw.changes, map_eq_nil_iff]
  by_cases hnil : recs = []
  · rw [if_pos hnil]
    have hmain : h'.main = h.main := by rw [hw.main, if_pos hnil]
    refine ⟨_, rfl, ⟨hbegin.symm ▸ hidle, hw.stamped, rfl, fun id => hmain.symm ▸ hs.sane id,
      hs.fresh⟩, le_rfl, recs, hcont, fun id _ => ?_⟩
    subst hnil
    exact Seen.refl ..
  · rw [if_neg hnil]
    have hmain : h'.main = h.main + 1 := by rw [hw.main, if_neg hnil]
    have hd := hw.idle.1.wf.dated
    have hg : Grows h.log h'.log h.main recs := ⟨hw.log, fun _ he => hs.main_le he, hw.rev, hd⟩
    have hevs : (recs.map (·.2)).map (changeEvent st.currentRev.main) = recs.map eventOf := by
      rw [map_map]
      refine map_congr_left fun e he => ?_
      rw [Function.comp_apply, hrev, hmain, ← hw.rev e he]
      exact hw.stamped.changeEvent (by rw [hw.log]; simp [he])
    have hrevs : ∀ w : Watcher, w.wanted (recs.map eventOf) ≠ [] →
        (EventBatch.ofList (w.wanted (recs.map eventOf))).revs = 1 := fun w hne => by
      rw [(EventBatch.ofList_of_rev fun ev hev => (hg.wanted_rev hev).1).2, if_neg hne]
    obtain ⟨ws', hws', hlook⟩ := look_notify hs.apart hrevs st.currentRev.main room
    rw [hevs, hws']
    rw [hrev, hmain] at hlook
    refine ⟨_, rfl, ⟨hbegin.symm ▸ hidle, hw.stamped, rfl, fun id => ?_, fun id hid => ?_⟩, le_rfl,
      recs, hcont, fun id _ => ?_⟩
    · rw [hmain]
      show (ws'.look id).Sane _
      rw [hlook id]
      exact (hs.sane id).notified (Int.lt_succ _).le
    · refine (hlook id).trans ?_
      rw [show s.watchers.look id = .blank from hs.fresh id hid]
      rfl
    · show Seen _ _ _ _ _ _ (ws'.look id)
      rw [hlook id]
      exact .notified room hnil

theorem scheduleCompaction_changes (st : Store) : st.scheduleCompaction.changes = st.changes := by
  obtain ⟨b, f, q, heq⟩ := st.scheduleCompaction_frame
  rw [heq]

theorem compact_changes {st st' : Store} {rev : ℤ} {err : Option StoreError}
    (heq : st.compact rev = .ok (st', err)) : st'.changes = st.changes := by
  unfold Store.compact at heq
  split_ifs at heq
  · rw [← (Prod.mk.inj (Except.ok.inj heq)).1]
  · rw [← (Prod.mk.inj (Except.ok.inj heq)).1]
  · obtain ⟨x, -, heq⟩ := exists_ok_of_bind heq
    rw [← (Prod.mk.inj (Except.ok.inj heq)).1]

theorem Sound.storeStep (hs : Sound s h) {e : Store.Event} (hh : h.step e = .ok h')
    (he : ∀ ops, e ≠ .txn ops) : ∃ s', s.storeStep e = .ok s' ∧ Goes s h ev s' h'
      ∧ s'.watchers = s.watchers := by
  obtain ⟨st, hst, hidle⟩ := (hs.idle.step e).exists_ok_left hh
  rw [Store.step_txnBegin] at hst
  obtain ⟨st', hst', rfl⟩ : ∃ st', s.store.step e = .ok st' ∧ st'.txnBegin = st := by
    rcases hstep : s.store.step e with f | st'
    · rw [hstep] at hst
      cases hst
    · rw [hstep] at hst
      exact ⟨st', rfl, Except.ok.inj hst⟩
  have hsame : st'.changes = s.store.changes ∧ h'.log = h.log ∧ h'.main = h.main := by
    rcases e with ops | rev | _ | le
    · exact absurd rfl (he ops)
    · obtain ⟨x, hx, hst'⟩ := exists_ok_of_bind (x := s.store.compact rev)
        (f := fun x => .ok x.1) (b := st') hst'
      cases hh
      exact ⟨Except.ok.inj hst' ▸ compact_changes hx, rfl, rfl⟩
    · cases hh
      exact ⟨Except.ok.inj hst' ▸ scheduleCompaction_changes _, rfl, rfl⟩
    · cases hh
      exact ⟨Except.ok.inj hst' ▸ rfl, rfl, rfl⟩
  obtain ⟨hch, hlog, hmain⟩ := hsame
  unfold WatchableStore.storeStep
  rw [hst']
  refine ⟨_, rfl, ⟨⟨hidle, by rw [hlog]; exact hs.stamped, hch.trans hs.changes, fun id => ?_,
    hs.fresh⟩, le_rfl, [], ⟨by simp [hlog], by simp, hmain⟩, fun id _ => Seen.refl ..⟩, rfl⟩
  rw [hmain]
  exact hs.sane id

theorem Sound.goes (hs : Sound s h) {s' : WatchableStore} (hstore : s'.store = s.store)
    (hnext : s.nextID ≤ s'.nextID) (hsane : ∀ id, (s'.look id).Sane h.main)
    (hfresh : ∀ id, s'.nextID ≤ id → s'.look id = .blank)
    (hseen : ∀ id, id < s.nextID → Seen s h.main [] id ev (s.look id) (s'.look id)) :
    Goes s h ev s' h :=
  ⟨⟨by rw [hstore]; exact hs.idle, hs.stamped, by rw [hstore]; exact hs.changes, hsane, hfresh⟩,
    hnext, [], Continues.refl h, hseen⟩

/-- What is seen of a watcher when it is created. -/
def created (rev : ℤ) (key : Bytes) (stop : Option Bytes) (startRev : ℤ) : WatcherView :=
  if startRev > rev ∨ startRev = 0 then
    ⟨none, some ⟨key, stop, if startRev > rev + 1 then startRev else rev + 1⟩, []⟩
  else ⟨some ⟨key, stop, startRev⟩, none, []⟩

theorem Sound.watch (hs : Sound s h) (key : Bytes) (stop : Option Bytes) (startRev : ℤ) :
    ∃ s', s.watch key stop startRev = .ok s' ∧ Goes s h (.watch key stop startRev) s' h
      ∧ s'.nextID = s.nextID + 1 ∧ s'.look s.nextID = created h.main key stop startRev := by
  have hblank := hs.fresh s.nextID le_rfl
  have hsent : (s.look s.nextID).sent = [] := by rw [hblank]; rfl
  have hun : s.watchers.unsynced.find s.nextID = none := congrArg WatcherView.unsynced hblank
  have hsy : s.watchers.synced.find s.nextID = none := congrArg WatcherView.synced hblank
  suffices hmain : ∃ s', s.watch key stop startRev = .ok s' ∧ s'.store = s.store
      ∧ s'.nextID = s.nextID + 1 ∧ s'.look s.nextID = created h.main key stop startRev
      ∧ ∀ id, id ≠ s.nextID → s'.look id = s.look id by
    obtain ⟨s', hs', hstore, hnext, hnew, hframe⟩ := hmain
    refine ⟨s', hs', hs.goes hstore (by omega) (fun id => ?_) (fun id hid => ?_) fun id hid => ?_,
      hnext, hnew⟩
    · by_cases hid : id = s.nextID
      · rw [hid, hnew]
        unfold created
        by_cases hc : startRev > h.main ∨ startRev = 0
        · rw [if_pos hc]
          exact ⟨.inl rfl, fun w hw => by cases hw⟩
        · rw [if_neg hc]
          refine ⟨.inr rfl, fun w hw => ?_⟩
          rw [← Option.some.inj hw]
          exact not_lt.1 fun hlt => hc (.inl hlt)
      · rw [hframe id hid]
        exact hs.sane id
    · rw [hframe id (by omega)]
      exact hs.fresh id (by omega)
    · rw [hframe id (by omega)]
      exact Seen.refl ..
  unfold WatchableStore.watch created
  simp only [hs.currentRev]
  by_cases hc : startRev > h.main ∨ startRev = 0
  · simp only [if_pos hc, WatcherGroup.add_ok hsy]
    refine ⟨_, rfl, rfl, rfl, ?_, fun id hid => ?_⟩
    · simp only [look, Watchers.look, find_insert_self, hun]
      exact congrArg (WatcherView.mk _ _) hsent
    · simp only [look, Watchers.look, find_insert_ne (Ne.symm hid)]
  · simp only [if_neg hc, WatcherGroup.add_ok hun]
    refine ⟨_, rfl, rfl, rfl, ?_, fun id hid => ?_⟩
    · simp only [look, Watchers.look, find_insert_self, hsy]
      exact congrArg (WatcherView.mk _ _) hsent
    · simp only [look, Watchers.look, find_insert_ne (Ne.symm hid)]

theorem Sound.cancel (hs : Sound s h) (id : ℕ) : Goes s h (.cancel id) (s.cancel id) h := by
  have hlook : ∀ j, (s.cancel id).look j
      = if j = id then ⟨none, none, (s.look j).sent⟩ else s.look j := fun j => by
    simp only [look, Watchers.look, WatchableStore.cancel, find_erase]
    split_ifs <;> rfl
  refine hs.goes rfl le_rfl (fun j => ?_) (fun j hj => ?_) fun j _ => ?_
  · rw [hlook]
    split_ifs
    · exact ⟨.inl rfl, fun w hw => by cases hw⟩
    · exact hs.sane j
  · rw [hlook, hs.fresh j hj]
    exact ite_self _
  · rw [hlook]
    split_ifs
    · rename_i hj
      exact .cancelled rfl (by rw [hj])
    · exact Seen.refl ..

theorem Sound.progress (hs : Sound s h) (id : ℕ) (room : Bool) :
    Goes s h (.progress id room) (s.progress id room) h := by
  unfold WatchableStore.progress
  split_ifs with hc
  · have hlook : ∀ j, ({ s with watchers := { s.watchers with sent := s.watchers.sent
        ++ [{ watchID := id, revision := s.store.currentRev.main }] } } : WatchableStore).look j
        = if j = id then { s.look j with sent := (s.look j).sent
          ++ [{ watchID := id, revision := s.store.currentRev.main }] } else s.look j := fun j => by
      simp [look, Watchers.look]
      split_ifs with hj
      · simp [hj]
      · simp [Ne.symm hj]
    refine hs.goes rfl le_rfl (fun j => ?_) (fun j hj => ?_) fun j _ => ?_
    · rw [hlook]
      split_ifs
      · exact hs.sane j
      · exact hs.sane j
    · have hne : j ≠ id := by
        rintro rfl
        have hnone : s.watchers.synced.find j = none := congrArg WatcherView.synced (hs.fresh j hj)
        rw [hnone] at hc
        cases hc.1
      rw [hlook, if_neg hne]
      exact hs.fresh j hj
    · rw [hlook]
      split_ifs
      · exact .quiet rfl (.inr ⟨_, rfl, rfl⟩) rfl rfl
      · exact Seen.refl ..
  · exact hs.goes rfl le_rfl hs.sane hs.fresh fun j _ => Seen.refl ..

theorem Sound.sync (hs : Sound s h) (room : Room) : ∃ s', s.step (.sync room) = .ok s'
    ∧ Goes s h (.sync room) s' h ∧ ∃ evs, ∀ id, s'.look id = caughtUp h.main evs room.events id
        (scanned s.store.compactMainRev room.notice id (s.look id))
      ∧ ∀ w, (scanned s.store.compactMainRev room.notice id (s.look id)).unsynced = some w →
        s.store.compactMainRev ≤ w.cur → w.wanted evs = w.due s.store.keyBucket (h.main + 1) := by
  obtain ⟨evs, ws', hws', hlook, hle, hwant⟩ := look_syncWatchers hs.apart
    (fun id w hf => hs.currentRev.symm ▸ (hs.sane id).2 w hf) hs.dated_bucket room
  rw [hs.currentRev] at hlook hle hwant
  refine ⟨{ s with watchers := ws' }, ?_, hs.goes rfl le_rfl (fun id => ?_) (fun id hid => ?_)
    fun id _ => ?_, evs, fun id => ⟨hlook id, hwant id⟩⟩
  · show (s.watchers.syncWatchers s.store room >>= _) = _
    rw [hws']
    rfl
  · show (ws'.look id).Sane _
    rw [hlook id]
    exact (hs.sane id).scanned.caughtUp hle
  · show ws'.look id = _
    rw [hlook id, show s.watchers.look id = .blank from hs.fresh id hid]
    rfl
  · show Seen _ _ _ _ _ _ (ws'.look id)
    rw [hlook id]
    exact .synced room evs rfl rfl (hwant id)

section Steps

variable {s' : WatchableStore} {ev : Event}

/-- What an event does to the history of the store. -/
def follow (h : History) (ev : Event) : Except Fatal History := ev.stored.elim (.ok h) h.step

def Event.restores : Event → Bool
  | .restore _ _ _ => true
  | _ => false

theorem Sound.step (hs : Sound s h) (hev : ev.restores = false) (hh : follow h ev = .ok h') :
    ∃ s', s.step ev = .ok s' ∧ Goes s h ev s' h' := by
  cases ev with
  | txn ops room => exact hs.txn ops room hh
  | compact rev =>
    obtain ⟨s', hs', hg, -⟩ := hs.storeStep (show h.step (.compact rev) = .ok h' from hh) (by simp)
    exact ⟨s', hs', hg⟩
  | batch =>
    obtain ⟨s', hs', hg, -⟩ := hs.storeStep (show h.step .batch = .ok h' from hh) (by simp)
    exact ⟨s', hs', hg⟩
  | lessor le =>
    obtain ⟨s', hs', hg, -⟩ := hs.storeStep (show h.step (.lessor le) = .ok h' from hh) (by simp)
    exact ⟨s', hs', hg⟩
  | watch key stop startRev =>
    cases hh
    obtain ⟨s', hs', hg, -⟩ := hs.watch key stop startRev
    exact ⟨s', hs', hg⟩
  | cancel id =>
    cases hh
    exact ⟨_, rfl, hs.cancel id⟩
  | sync room =>
    cases hh
    obtain ⟨s', hs', hg, -⟩ := hs.sync room
    exact ⟨s', hs', hg⟩
  | progress id room =>
    cases hh
    exact ⟨_, rfl, hs.progress id room⟩
  | restore _ _ _ => cases hev

/-- A round serves a watcher: behind the compaction there is room to tell it so, and otherwise the
key bucket has all that is due to it. -/
def Served (s : WatchableStore) (main : ℤ) (log : OrdMap RevKey KeyValue) (id : ℕ) (room : Room) :
    Prop :=
  ∀ w, (s.look id).unsynced = some w → (w.cur < s.store.compactMainRev → room.notice id = true)
    ∧ (s.store.compactMainRev ≤ w.cur →
      w.due s.store.keyBucket (main + 1) = w.due log (main + 1))

variable {base : List WatchResponse} {log log' : OrdMap RevKey KeyValue} {main : ℤ} {w₀ : Watcher}
  {recs : List (RevKey × KeyValue)} {id : ℕ}

theorem Served.wanted {room : Room} {w : Watcher} {evs : List StorageEvent}
    (hserve : Served s main log id room)
    (hw : (scanned s.store.compactMainRev room.notice id (s.look id)).unsynced = some w)
    (hwant : s.store.compactMainRev ≤ w.cur → w.wanted evs = w.due s.store.keyBucket (main + 1)) :
    w.wanted evs = w.due log (main + 1) := by
  have hold := scanned_of_some hw
  have hu : (s.look id).unsynced = some w := hold ▸ hw
  obtain ⟨hbehind, hdue⟩ := hserve w hu
  have hc : s.store.compactMainRev ≤ w.cur := by
    by_contra hlt
    unfold scanned scanView at hw
    rw [hu, Option.elim_some, if_pos ⟨not_le.1 hlt, hbehind (not_le.1 hlt)⟩] at hw
    cases hw
  rw [hwant hc, hdue hc]

theorem Seen.tracks {v' : WatcherView} (hseen : Seen s main recs id ev (s.look id) v')
    (ht : Tracks base log main w₀ (s.look id)) (hg : Grows log log' main recs)
    (hserve : ∀ room, ev = .sync room → Served s main log id room) :
    Tracks base log' (if recs = [] then main else main + 1) w₀ v' := by
  have hsame : recs = [] → log' = log := fun hnil => by
    have hentries := hg.entries
    rw [hnil, append_nil] at hentries
    cases log; cases log'
    simpa using hentries
  cases hseen with
  | quiet hnil hsent hun hsy =>
    rw [if_pos hnil, hsame hnil]
    exact ht.quiet hsent (fun w hw => hun ▸ hw) fun w hw => hsy ▸ hw
  | cancelled hnil hev =>
    rw [if_pos hnil, hsame hnil]
    exact ht.quiet (.inl rfl) (fun w hw => by cases hw) fun w hw => by cases hw
  | notified room hne =>
    rw [if_neg hne]
    exact ht.notified hg room id
  | synced room evs hnil hev hwant =>
    rw [if_pos hnil]
    have hd := hg.dated
    rw [hsame hnil] at hd ⊢
    exact (ht.scanned _ _ _).caughtUp hd (fun w hw => (hserve room hev).wanted hw (hwant w hw)) _ _

theorem tracks_created {startRev : ℤ} (hmain : 0 ≤ main) (log : OrdMap RevKey KeyValue)
    (key : Bytes) (stop : Option Bytes) :
    Tracks [] log main ⟨key, stop, if startRev = 0 then main + 1 else startRev⟩
      (created main key stop startRev) := by
  have hnone : ∀ lo hi, hi ≤ lo → (⟨key, stop, lo⟩ : Watcher).due log hi = [] := fun lo _ =>
    Watcher.due_eq_nil ⟨key, stop, lo⟩ log
  unfold created
  by_cases hc : startRev > main ∨ startRev = 0
  · rw [if_pos hc]
    have hcur : (if startRev > main + 1 then startRev else main + 1)
        = if startRev = 0 then main + 1 else startRev := by
      split_ifs <;> omega
    refine ⟨main + 1, [], rfl, (hnone _ _ ?_).symm, .nil, le_rfl, fun w hw => (by cases hw),
      fun w hw => ⟨rfl, _, ?_, fun _ _ => Iff.rfl⟩⟩
    · split_ifs <;> omega
    · rw [← Option.some.inj hw, hcur]
  · rw [if_neg hc, if_neg fun h0 => hc (.inr h0)]
    refine ⟨startRev, [], rfl, (hnone _ _ le_rfl).symm, .nil, by omega, fun w hw => ?_,
      fun w hw => (by cases hw)⟩
    exact ⟨(Option.some.inj hw).symm, le_rfl, by omega⟩

end Steps

section Runs

variable {base : List WatchResponse} {log log' : OrdMap RevKey KeyValue} {w₀ : Watcher} {id : ℕ}
  {h₁ : History} {log₁ : OrdMap RevKey KeyValue} {evs rest : List Event} {s₁ : WatchableStore}
  {ev : Event} {evs : List Event}

theorem Continues.grows {recs : List (RevKey × KeyValue)} (hc : Continues h h' recs)
    (hold : ∀ e ∈ log.entries, e.1.rev.main ≤ h.main) (hd : Dated log) (hd' : Dated h'.log) :
    ∃ log', Grows log log' h.main recs := by
  have hsorted : (log.entries ++ recs).Pairwise fun a b => a.1 < b.1 := by
    have hall := h'.log.sorted
    rw [hc.log] at hall
    refine pairwise_append.2 ⟨log.sorted, (pairwise_append.1 hall).2.1,
      fun a ha b hb => RevKey.lt_iff.2 (.inl (Revision.lt_iff.2 (.inl ?_)))⟩
    rw [hc.rev b hb]
    exact Int.lt_add_one_of_le (hold a ha)
  have hfind : ∀ {rk kv}, (⟨_, hsorted⟩ : OrdMap RevKey KeyValue).find rk = some kv →
      log.find rk = some kv ∨ h'.log.find rk = some kv := fun {rk kv} hf => by
    rcases mem_append.1 (mem_entries.2 hf) with hm | hm
    · exact .inl (mem_entries.1 hm)
    · refine .inr (mem_entries.1 ?_)
      rw [hc.log]
      exact mem_append_right _ hm
  refine ⟨⟨_, hsorted⟩, rfl, hold, hc.rev, fun rk kv hf => ?_, fun rk kv hf => ?_,
    fun rev kv hf => ?_⟩
  · rcases hfind hf with hf | hf
    · exact hd.sub rk kv hf
    · exact hd'.sub rk kv hf
  · rcases hfind hf with hf | hf
    · exact hd.pos rk kv hf
    · exact hd'.pos rk kv hf
  · rcases hfind hf with hf | hf
    · exact hd.put rev kv hf
    · exact hd'.put rev kv hf

/-- The same records were added to a log as to the history. -/
def Beside (h h' : History) (log log' : OrdMap RevKey KeyValue) : Prop :=
  ∃ recs, h'.log.entries = h.log.entries ++ recs ∧ log'.entries = log.entries ++ recs

theorem Beside.refl (h : History) (log : OrdMap RevKey KeyValue) : Beside h h log log :=
  ⟨[], by simp, by simp⟩

theorem Beside.trans (hb : Beside h h₁ log log₁) (hb' : Beside h₁ h' log₁ log') :
    Beside h h' log log' := by
  obtain ⟨recs, h₁, h₂⟩ := hb
  obtain ⟨recs', h₁', h₂'⟩ := hb'
  exact ⟨recs ++ recs', by rw [h₁', h₁, append_assoc], by rw [h₂', h₂, append_assoc]⟩

theorem Beside.eq (hb : Beside h h' h.log log') : log' = h'.log := by
  obtain ⟨recs, h₁, h₂⟩ := hb
  have hentries : log'.entries = h'.log.entries := by rw [h₁, h₂]
  cases log'
  cases hlog : h'.log
  rw [hlog] at hentries
  simpa using hentries

theorem foldlM_cons_ok {σ ε α : Type} {f : σ → α → Except ε σ} {x : α} {l : List α} {a b : σ}
    (h : (x :: l).foldlM f a = .ok b) : ∃ c, f a x = .ok c ∧ l.foldlM f c = .ok b :=
  exists_ok_of_bind (by rwa [foldlM_cons] at h)

theorem Sound.run : ∀ {evs : List Event} {s : WatchableStore} {h h' : History}, Sound s h →
    (∀ ev ∈ evs, ev.restores = false) → evs.foldlM follow h = .ok h' →
    ∃ s', evs.foldlM WatchableStore.step s = .ok s' ∧ Sound s' h' ∧ s.nextID ≤ s'.nextID
  | [], s, h, h', hs, _, hh => ⟨s, rfl, Except.ok.inj hh ▸ hs, le_rfl⟩
  | ev :: evs, s, h, h', hs, hno, hh => by
    obtain ⟨h₁, hh₁, hh⟩ := foldlM_cons_ok hh
    obtain ⟨s₁, hs₁, hg⟩ := hs.step (hno ev (by simp)) hh₁
    obtain ⟨s', hs', hsound, hnext⟩ := hg.sound.run (fun e he => hno e (by simp [he])) hh
    refine ⟨s', ?_, hsound, hg.next.trans hnext⟩
    rw [foldlM_cons, hs₁]
    exact hs'

/-- A watcher is being followed, by a log that has all records. -/
structure Following (base : List WatchResponse) (w₀ : Watcher) (id : ℕ) (s : WatchableStore)
    (h : History) (log : OrdMap RevKey KeyValue) : Prop where
  sound : Sound s h
  lt : id < s.nextID
  tracks : Tracks base log h.main w₀ (s.look id)
  old : ∀ e ∈ log.entries, e.1.rev.main ≤ h.main
  dated : Dated log

/-- Every round of the events serves a watcher. -/
def AllServed (base : List WatchResponse) (w₀ : Watcher) (id : ℕ) (s : WatchableStore)
    (h : History) (log : OrdMap RevKey KeyValue) (evs : List Event) : Prop :=
  ∀ mid room rest s₁ h₁ log₁, evs = mid ++ .sync room :: rest →
    mid.foldlM WatchableStore.step s = .ok s₁ → mid.foldlM follow h = .ok h₁ →
    Beside h h₁ log log₁ → Following base w₀ id s₁ h₁ log₁ → Served s₁ h₁.main log₁ id room

theorem AllServed.left (hserved : AllServed base w₀ id s h log (evs ++
    rest)) :
    AllServed base w₀ id s h log evs :=
  fun mid room rest' s₁ h₁ log₁ hsplit =>
    hserved mid room (rest' ++ rest) s₁ h₁ log₁ (by rw [hsplit]; simp)

theorem AllServed.right (hserved : AllServed base w₀ id s h log (evs ++ rest))
    (hs₁ : evs.foldlM WatchableStore.step s = .ok s₁) (hh₁ : evs.foldlM follow h = .ok h₁)
    (hb : Beside h h₁ log log₁) : AllServed base w₀ id s₁ h₁ log₁ rest := by
  intro mid room rest' s₂ h₂ log₂ hsplit hs₂ hh₂ hb₂
  refine hserved (evs ++ mid) room rest' s₂ h₂ log₂ (by rw [hsplit]; simp) ?_ ?_ (hb.trans hb₂)
  · rw [foldlM_append, hs₁]
    exact hs₂
  · rw [foldlM_append, hh₁]
    exact hh₂

theorem AllServed.tail (hserved : AllServed base w₀ id s h log (ev :: evs))
    (hs₁ : s.step ev = .ok s₁) (hh₁ : follow h ev = .ok h₁) (hb : Beside h h₁ log log₁) :
    AllServed base w₀ id s₁ h₁ log₁ evs := by
  have hserved' : AllServed base w₀ id s h log ([ev] ++ evs) := hserved
  exact hserved'.right (by rw [foldlM_cons, hs₁]; rfl) (by rw [foldlM_cons, hh₁]; rfl) hb

theorem Following.step (hf : Following base w₀ id s h log)
    (hserved : AllServed base w₀ id s h log (ev :: evs)) (hev : ev.restores = false)
    (hh : follow h ev = .ok h') : ∃ s' log', s.step ev = .ok s' ∧ Beside h h' log log'
      ∧ Following base w₀ id s' h' log'
      ∧ ∃ recs, Seen s h.main recs id ev (s.look id) (s'.look id) := by
  obtain ⟨s', hs', hg⟩ := hf.sound.step hev hh
  obtain ⟨recs, hc, hseen⟩ := hg.seen
  obtain ⟨log', hgrows⟩ := hc.grows hf.old hf.dated hg.sound.dated
  refine ⟨s', log', hs', ⟨recs, hc.log, hgrows.entries⟩, ⟨hg.sound, hf.lt.trans_le hg.next, ?_,
    fun e he => ?_, hgrows.dated⟩, recs, hseen id hf.lt⟩
  · have ht := (hseen id hf.lt).tracks hf.tracks hgrows fun room heq =>
      hserved [] room evs s h log (by rw [heq]; rfl) rfl rfl (.refl h log) hf
    rwa [← hc.main] at ht
  · rw [hgrows.entries] at he
    rw [hc.main]
    rcases mem_append.1 he with he | he
    · have := hf.old e he
      split_ifs <;> omega
    · rw [if_neg (ne_nil_of_mem he), hc.rev e he]

/-- A watcher is followed through a run whose every round serves it. -/
theorem Following.run : ∀ {evs : List Event} {s : WatchableStore} {h h' : History}
    {log : OrdMap RevKey KeyValue}, Following base w₀ id s h log →
    AllServed base w₀ id s h log evs → (∀ ev ∈ evs, ev.restores = false) →
    evs.foldlM follow h = .ok h' → ∃ s' log', evs.foldlM WatchableStore.step s = .ok s'
      ∧ Beside h h' log log' ∧ Following base w₀ id s' h' log'
  | [], s, h, h', log, hf, _, _, hh => by
    cases hh
    exact ⟨s, log, rfl, .refl h log, hf⟩
  | ev :: evs, s, h, h', log, hf, hserved, hno, hh => by
    obtain ⟨h₁, hh₁, hh⟩ := foldlM_cons_ok hh
    obtain ⟨s₁, log₁, hs₁, hb₁, hf₁, -⟩ := hf.step hserved (hno ev (by simp)) hh₁
    obtain ⟨s', log', hs', hb, hf'⟩ := hf₁.run (hserved.tail hs₁ hh₁ hb₁)
      (fun e he => hno e (by simp [he])) hh
    refine ⟨s', log', ?_, hb₁.trans hb, hf'⟩
    rw [foldlM_cons, hs₁]
    exact hs'

theorem Sound.new (le : Option Lessor) : Sound { store := { le } } { le } where
  idle := ⟨Store.Sim.empty le, rfl⟩
  stamped _ _ hf := by simp at hf
  changes := rfl
  sane _ := ⟨.inl rfl, fun _ hw => by cases hw⟩
  fresh _ _ := rfl

theorem foldlM_follow (evs : List Event) : ∀ h : History,
    evs.foldlM follow h = (evs.filterMap Event.stored).foldlM History.step h := by
  induction evs with
  | nil => exact fun _ => rfl
  | cons ev evs ih =>
    intro h
    rw [foldlM_cons]
    rcases hev : ev.stored with _ | e
    · rw [filterMap_cons_none hev, follow, hev]
      exact ih h
    · rw [filterMap_cons_some hev, foldlM_cons, follow, hev]
      exact congrArg _ (funext ih)

def firstRev (rev startRev : ℤ) : ℤ := if startRev = 0 then rev + 1 else startRev

theorem Sound.following (hs : Sound s h) (key : Bytes) (stop : Option Bytes) (startRev : ℤ) : ∃ s',
    s.step (.watch key stop startRev) = .ok s'
      ∧ s'.look s.nextID = created h.main key stop startRev
      ∧ Following [] ⟨key, stop, firstRev h.main startRev⟩ s.nextID s' h h.log := by
  obtain ⟨s', hs', hg, hnext, hcreated⟩ := hs.watch key stop startRev
  have hmain := hs.idle.1.wf.main_pos
  refine ⟨s', hs', hcreated, hg.sound, by omega, ?_, fun e he => hs.main_le he, hs.dated⟩
  rw [hcreated]
  exact tracks_created (by omega) h.log key stop

theorem run_watch {le : Option Lessor} {pre post : List Event} (key : Bytes) (stop : Option Bytes)
    (startRev : ℤ) (hno : ∀ ev ∈ pre ++ post, ev.restores = false)
    (hh : History.run le ((pre ++ post).filterMap Event.stored) = .ok h) :
    ∃ s₀ s₁ h₀, run le pre = .ok s₀ ∧ History.run le (pre.filterMap Event.stored) = .ok h₀
      ∧ post.foldlM follow h₀ = .ok h ∧ s₀.store.currentRev.main = h₀.main
      ∧ s₁.look s₀.nextID = created h₀.main key stop startRev
      ∧ Following [] ⟨key, stop, firstRev h₀.main startRev⟩ s₀.nextID s₁ h₀ h₀.log
      ∧ ∀ mid, run le (pre ++ .watch key stop startRev :: mid)
        = mid.foldlM WatchableStore.step s₁ := by
  have hrun : ∀ evs : List Event, History.run le (evs.filterMap Event.stored)
      = evs.foldlM follow { le } := fun evs => (foldlM_follow evs _).symm
  simp only [hrun] at hh ⊢
  rw [foldlM_append] at hh
  obtain ⟨h₀, hh₀, hh⟩ := exists_ok_of_bind hh
  obtain ⟨s₀, hs₀, hsound₀, -⟩ := (Sound.new le).run (fun ev hev => hno ev (by simp [hev])) hh₀
  obtain ⟨s₁, hs₁, hcreated, hf⟩ := hsound₀.following key stop startRev
  refine ⟨s₀, s₁, h₀, hs₀, hh₀, hh, hsound₀.currentRev, hcreated, hf, fun mid => ?_⟩
  unfold WatchableStore.run
  rw [foldlM_append, hs₀]
  show (_ :: mid).foldlM WatchableStore.step s₀ = _
  rw [foldlM_cons, hs₁]
  rfl

end Runs

end WatchableStore

end EtcdCompat
