import EtcdCompat.Proofs.CrashCompact
import EtcdCompat.Proofs.WatchCompact

/-!
# Watchers and a restore

`Restore` puts another backend under the watchers and leaves the groups as they are. A synced
watcher is never sent the records between the old and the restored revision; for an unsynced one
above the restored revision the next round panics.
-/

namespace EtcdCompat

open List OrdMap Option

open Store

theorem History.stamped_run (le : Option Lessor) (evs : List Event) :
    Yields (fun _ => True) (fun h => h.WF ∧ Stamped h.log) (History.run le evs) := by
  refine Yields.foldlM (fun ev _ a ha => ?_) ⟨.empty le, fun rk kv hf => by simp at hf⟩
  rcases ev with ops | rev | _ | le
  · have hg : Yields (fun _ => True) (Grown a) (ops.foldlM txnOp a) :=
      Yields.foldlM (fun op _ b hb => hb.txnOp op) ⟨ha.1, rfl, ha.2, [], by simp, by simp⟩
    exact hg.bind fun h' hg' => ⟨hg'.wf.txnEnd.1, hg'.stamped⟩
  · exact ha
  · exact ha
  · exact ⟨ha.1.setLessor (by simp), ha.2⟩

namespace WatchableStore

open Watchers

variable {s s' : WatchableStore} {h h' : History} {id : ℕ} {t : Store}

/-- Where a watcher stands: an unsynced one at its revision, a synced one after the last. -/
inductive Stands (s : WatchableStore) (id : ℕ) : Watcher → Prop
  | unsynced {w : Watcher} : s.watchers.unsynced.find id = some w → Stands s id w
  | synced {w : Watcher} : s.watchers.synced.find id = some w →
    Stands s id { w with cur := max w.cur (s.store.currentRev.main + 1) }

/-- What a restore needs for a watcher: the backend has its last revision, nothing is due to a
synced watcher, and nothing due to an unsynced one that is not behind the compaction was swept. -/
structure Regains (s : WatchableStore) (t : Store) (h' : History) (id : ℕ) (w₁ : Watcher) :
    Prop where
  last : (lastRev t.keyBucket).main = h'.main
  synced : (s.watchers.synced.find id).isSome → w₁.due h'.log (h'.main + 1) = []
  unsynced : (s.watchers.unsynced.find id).isSome → t.finishedCompact.getD (-1) ≤ w₁.cur →
    ∀ rk kv, h'.log.find rk = some kv → w₁.Matches kv.key → w₁.cur ≤ rk.rev.main →
      t.keyBucket.find rk = some kv

theorem Sound.restore (hs : Sound s h) (ht : Idle t h') (hst : Stamped h'.log)
    (hlong : h.main ≤ h'.main) (hle : t.le.isSome → s.store.le.isSome)
    (hlast : (lastRev t.keyBucket).main = h'.main) :
    ∃ s₁, s.step (.restore t.keyBucket t.scheduledCompact t.finishedCompact) = .ok s₁
      ∧ Sound s₁ (reopened t.keyBucket s₁.store.le) ∧ s₁.watchers = s.watchers
      ∧ s₁.nextID = s.nextID ∧ s₁.store.compactMainRev = t.finishedCompact.getD (-1) := by
  obtain ⟨st, hnew, hr⟩ := ht.1.newStore t.scheduledCompact t.finishedCompact hle
  have hc : t.finishedCompact.getD (-1) ≤ (lastRev t.keyBucket).main := by
    rw [hlast]
    exact ht.1.finished.1.trans ht.1.compacted
  refine ⟨{ s with store := st }, ?_, ⟨⟨ht.1.reopen hr (hr.lessor hle) hc, rfl⟩, ?_, ?_, ?_,
    hs.fresh⟩, rfl, rfl, ?_⟩
  · simp only [WatchableStore.step, hnew]
  · exact fun rk kv hf => hst rk kv (ht.1.bucket rk kv hf)
  · rw [hr.frame]
    rfl
  · intro id
    refine ⟨(hs.sane id).1, fun w hw => ?_⟩
    show w.cur ≤ (lastRev t.keyBucket).main
    rw [hlast]
    exact ((hs.sane id).2 w hw).trans hlong
  · rw [hr.frame]
    rfl

section Lag

variable {w₁ : Watcher} {ev : Event}

theorem step_compact_le (hev : ev.restores = false) (hs : s.step ev = .ok s') :
    s.store.compactMainRev ≤ s'.store.compactMainRev := by
  have hstore : ∀ e, s.storeStep e = .ok s' →
      s.store.compactMainRev ≤ s'.store.compactMainRev := fun e hs => by
    unfold WatchableStore.storeStep at hs
    rcases hst : s.store.step e with f | st
    · rw [hst] at hs
      cases hs
    · rw [hst] at hs
      rw [← Except.ok.inj hs]
      refine (run_compactMainRev s.store [e]).of_ok (a := st) ?_
      rw [foldlM_cons, hst]
      rfl
  cases ev with
  | compact rev => exact hstore (.compact rev) hs
  | batch => exact hstore .batch hs
  | restore _ _ _ => cases hev
  | _ => exact (step_uncompacted rfl hs).ge

/-- A watcher that is behind the compaction where it stands. -/
structure Lags (w₁ : Watcher) (compactRev : ℤ) (v : WatcherView) : Prop where
  synced : v.synced = none
  unsynced : ∀ w, v.unsynced = some w → w = w₁
  behind : w₁.cur < compactRev

theorem Seen.lags {main : ℤ} {recs : List (RevKey × KeyValue)} {v v' : WatcherView}
    (hseen : Seen s main recs id ev v v') (hl : Lags w₁ s.store.compactMainRev v)
    (hroom : ∀ room, ev = .sync room → v.unsynced = some w₁ → room.notice id = true) :
    Lags w₁ s.store.compactMainRev v' := by
  cases hseen with
  | quiet _ _ hun hsy =>
    exact ⟨hsy.trans hl.synced, fun w hw => hl.unsynced w (hun ▸ hw), hl.behind⟩
  | cancelled _ _ => exact ⟨rfl, fun w hw => (by cases hw), hl.behind⟩
  | notified room _ =>
    unfold Watchers.notified
    rw [hl.synced]
    exact hl
  | synced room evs _ hev _ =>
    unfold Watchers.scanned
    rcases hv : v.unsynced with _ | w
    · unfold Watchers.caughtUp
      rw [elim_none, hv]
      exact hl
    · obtain rfl := hl.unsynced w hv
      rw [elim_some, scanView, if_pos ⟨hl.behind, hroom room hev hv⟩]
      exact ⟨hl.synced, fun w hw => (by cases hw), hl.behind⟩

theorem Sound.run_lags : ∀ {evs : List Event} {s s' : WatchableStore}
    {h h' : History}, Sound s h → id < s.nextID →
    Lags w₁ s.store.compactMainRev (s.look id) → (∀ ev ∈ evs, ev.restores = false) →
    evs.foldlM follow h = .ok h' → evs.foldlM WatchableStore.step s = .ok s' →
    (∀ mid room rest s₁, evs = mid ++ .sync room :: rest →
      mid.foldlM WatchableStore.step s = .ok s₁ → (s₁.look id).unsynced = some w₁ →
      w₁.cur < s₁.store.compactMainRev → room.notice id = true) →
    Lags w₁ s'.store.compactMainRev (s'.look id)
  | [], s, s', h, h', _, _, hl, _, _, hs, _ => by
    cases hs
    exact hl
  | ev :: evs, s, s', h, h', hsound, hid, hl, hno, hh, hs, hroom => by
    obtain ⟨h₁, hh₁, hh⟩ := foldlM_cons_ok hh
    obtain ⟨s₁, hs₁, hs⟩ := foldlM_cons_ok hs
    obtain ⟨s₂, hs₂, hg⟩ := hsound.step (hno ev (by simp)) hh₁
    cases hs₁.symm.trans hs₂
    obtain ⟨recs, -, hseen⟩ := hg.seen
    have hl₁ := (hseen id hid).lags hl fun room heq hw =>
      hroom [] room evs s (by rw [heq]; rfl) rfl hw hl.behind
    refine hg.sound.run_lags (hid.trans_le hg.next) ⟨hl₁.synced, hl₁.unsynced,
      hl₁.behind.trans_le (step_compact_le (hno ev (by simp)) hs₁)⟩ (fun e he =>
        hno e (by simp [he]))
      hh hs fun mid room rest s₂ hsplit hs₂ => ?_
    refine hroom (ev :: mid) room rest s₂ (by rw [hsplit]; rfl) ?_
    rw [foldlM_cons, hs₁]
    exact hs₂

end Lag

section Resume

variable {w₁ : Watcher} {s₁ : WatchableStore}

theorem Stands.lt (hs : Sound s h) (hstands : Stands s id w₁) : id < s.nextID := by
  by_contra hge
  have hblank := hs.fresh id (not_lt.1 hge)
  cases hstands with
  | unsynced hf =>
    have hnone : s.watchers.unsynced.find id = none := congrArg WatcherView.unsynced hblank
    rw [hf] at hnone
    cases hnone
  | synced hf =>
    have hnone : s.watchers.synced.find id = none := congrArg WatcherView.synced hblank
    rw [hf] at hnone
    cases hnone

theorem Stands.kept (hstands : Stands s id w₁) : Kept (s.sentTo id) (s.look id) := by
  cases hstands with
  | unsynced hf => exact .inl (by rw [show (s.look id).unsynced = _ from hf]; rfl)
  | synced hf => exact .inr (.inl (by rw [show (s.look id).synced = _ from hf]; rfl))

theorem Stands.following (hs : Sound s h) (hstands : Stands s id w₁) (ht : Idle t h')
    (hlong : h.main ≤ h'.main) (hreg : Regains s t h' id w₁)
    (hs₁ : Sound s₁ (reopened t.keyBucket s₁.store.le)) (hws : s₁.watchers = s.watchers)
    (hnext : s₁.nextID = s.nextID) :
    Following (s.sentTo id) w₁ id s₁ (reopened t.keyBucket s₁.store.le) h'.log := by
  have hmain : (reopened t.keyBucket s₁.store.le).main = h'.main := hreg.last
  have hlook : s₁.look id = s.look id := congrArg (Watchers.look · id) hws
  have hnil := w₁.due_eq_nil h'.log le_rfl
  refine ⟨hs₁, by rw [hnext]; exact hstands.lt hs, ?_, fun e he => ?_, ht.1.wf.dated⟩
  · rw [hmain, hlook]
    cases hstands with
    | unsynced hf =>
      have hle := (hs.sane id).2 w₁ hf
      refine ⟨w₁.cur, [], (append_nil _).symm, hnil.symm, .nil, by omega, fun w hw => ?_,
        fun w hw => ?_⟩
      · rw [show (s.look id).unsynced = some w₁ from hf] at hw
        exact ⟨(some.inj hw).symm, le_rfl, by omega⟩
      · rw [show (s.look id).synced = none from hs.apart.synced hf] at hw
        cases hw
    | @synced w₀ hf =>
      have hrev := hs.currentRev
      refine ⟨h'.main + 1, [], (append_nil _).symm, (hreg.synced (by rw [hf]; rfl)).symm, .nil,
        le_rfl, fun w hw => ?_, fun w hw => ⟨rfl, w₀.cur, ?_, fun r hr => ?_⟩⟩
      · rw [show (s.look id).unsynced = none from hs.apart.unsynced hf] at hw
        cases hw
      · rw [show (s.look id).synced = some w₀ from hf] at hw
        exact (some.inj hw).symm
      · rw [max_le_iff]
        exact (and_iff_left (by omega)).symm
  · rw [hmain]
    exact ht.1.wf.main_le_of_sub ht.2 (find_of_mem he)

/-- Every round after a restore is heard, by the restored history and by that of the store since. -/
def HeardAfter (s₁ : WatchableStore) (h₁ : History) (log : OrdMap RevKey KeyValue) (id : ℕ)
    (post : List Event) : Prop :=
  ∀ mid room rest s₂ h₂, post = mid ++ .sync room :: rest →
    mid.foldlM WatchableStore.step s₁ = .ok s₂ → mid.foldlM follow h₁ = .ok h₂ →
    Heard s₂ log id room ∧ Heard s₂ h₂.log id room

theorem Heard.beside {h₁ h₂ : History} {log log₂ : OrdMap RevKey KeyValue} {room : Room}
    (hlog : Heard s log id room) (hown : Heard s h₂.log id room) (hb : Beside h₁ h₂ log log₂) :
    Heard s log₂ id room := by
  obtain ⟨recs, hrecs, hrecs'⟩ := hb
  intro w hw
  refine ⟨(hlog w hw).1, fun hat rk kv hf hm hcur => ?_⟩
  rw [← mem_entries, hrecs', mem_append] at hf
  rcases hf with hf | hf
  · exact (hlog w hw).2 hat rk kv (mem_entries.1 hf) hm hcur
  · refine (hown w hw).2 hat rk kv (mem_entries.1 ?_) hm hcur
    rw [hrecs]
    exact mem_append_right _ hf

theorem Regains.owns {w : Watcher} {s₂ : WatchableStore} (hstands : Stands s id w₁)
    (hreg : Regains s t h' id w₁) (ht : Idle t h') (hw : w.Matches = w₁.Matches)
    (hcur : w₁.cur ≤ w.cur) (hcompact : s₂.store.compactMainRev ≤ w.cur)
    (hlags : (s.watchers.unsynced.find id).isSome → w₁.cur < t.finishedCompact.getD (-1) →
      w = w₁ ∧ w₁.cur < s₂.store.compactMainRev)
    {rk : RevKey} {kv : KeyValue} (hf : h'.log.find rk = some kv) (hm : w.Matches kv.key)
    (hle : w.cur ≤ rk.rev.main) : t.keyBucket.find rk = some kv := by
  rw [hw] at hm
  cases hstands with
  | unsynced hfind =>
    have hsome : (s.watchers.unsynced.find id).isSome := by rw [hfind]; rfl
    refine hreg.unsynced hsome ?_ rk kv hf hm (hcur.trans hle)
    by_contra hlt
    obtain ⟨rfl, hbehind⟩ := hlags hsome (not_le.1 hlt)
    omega
  | synced hfind =>
    have hnil := hreg.synced (by rw [hfind]; rfl)
    have hmain := ht.1.wf.main_le_of_sub ht.2 hf
    rw [Watcher.due, map_eq_nil_iff, filter_eq_nil_iff] at hnil
    refine absurd ?_ (hnil (rk, kv) (mem_entries.2 hf))
    simp only [decide_eq_true_eq]
    exact ⟨hm, hcur.trans hle, by omega⟩

theorem Regains.lags (hs : Sound s h) (hws : s₁.watchers = s.watchers)
    (hcompact : s₁.store.compactMainRev = t.finishedCompact.getD (-1)) (hstands : Stands s id w₁)
    (hun : (s.watchers.unsynced.find id).isSome) (hlt : w₁.cur < t.finishedCompact.getD (-1)) :
    Lags w₁ s₁.store.compactMainRev (s₁.look id) := by
  have hlook : s₁.look id = s.look id := congrArg (Watchers.look · id) hws
  rw [hlook, hcompact]
  cases hstands with
  | unsynced hf =>
    refine ⟨hs.apart.synced hf, fun w hw => ?_, hlt⟩
    rw [show (s.look id).unsynced = some w₁ from hf] at hw
    exact (some.inj hw).symm
  | synced hf =>
    rw [hs.apart.unsynced hf] at hun
    cases hun

theorem Regains.served (hs : Sound s h) (hstands : Stands s id w₁) (ht : Idle t h')
    (hreg : Regains s t h' id w₁) (hs₁ : Sound s₁ (reopened t.keyBucket s₁.store.le))
    (hws : s₁.watchers = s.watchers) (hnext : s₁.nextID = s.nextID)
    (hcompact : s₁.store.compactMainRev = t.finishedCompact.getD (-1)) {post : List Event}
    (hno : ∀ ev ∈ post, ev.restores = false)
    (hheard : HeardAfter s₁ (reopened t.keyBucket s₁.store.le) h'.log id post) :
    AllServed (s.sentTo id) w₁ id s₁ (reopened t.keyBucket s₁.store.le) h'.log post := by
  intro mid room rest s₂ h₂ log₂ hsplit hs₂ hh₂ hb hf₂
  obtain ⟨hlog, hown⟩ := hheard mid room rest s₂ h₂ hsplit hs₂ hh₂
  have hheard₂ := hlog.beside hown hb
  obtain ⟨recs, hrecs, hrecs'⟩ := hb
  refine hheard₂.served hf₂.sound (fun rk kv hf => ?_) fun w hw hle rk kv hf hm hcur => ?_
  · rw [← mem_entries, hrecs, mem_append] at hf
    rw [← mem_entries, hrecs', mem_append]
    exact hf.imp_left fun hmem =>
      mem_entries.2 (ht.1.bucket rk kv (mem_entries.1 hmem))
  · rw [← mem_entries, hrecs', mem_append] at hf
    rw [← mem_entries, hrecs, mem_append]
    refine hf.imp_left fun hmem => mem_entries.2 (Regains.owns hstands hreg ht
      ?_ (hf₂.tracks.cur_le hw) hle (fun hun hlt => ?_) (mem_entries.1 hmem) hm hcur)
    · obtain ⟨hi, -, -, -, -, -, hun, -⟩ := hf₂.tracks
      rw [(hun w hw).1]
      rfl
    · have hl := hs₁.run_lags (by rw [hnext]; exact hstands.lt hs)
        (Regains.lags hs hws hcompact hstands hun hlt)
        (fun ev hev => hno ev (by rw [hsplit]; exact mem_append_left _ hev)) hh₂ hs₂
        fun mid' room' rest' s₃ hsplit' hs₃ hw₃ hlt₃ => ?_
      · exact ⟨hl.unsynced w hw, hl.behind⟩
      · rw [hsplit', foldlM_append] at hh₂
        obtain ⟨h₃, hh₃, -⟩ := exists_ok_of_bind hh₂
        have hheard₃ := (hheard mid' room' (rest' ++ .sync room :: rest) s₃ h₃
          (by rw [hsplit, hsplit']; simp) hs₃ hh₃).1
        exact (hheard₃ w₁ hw₃).1 hlt₃

end Resume

section Runs

variable {le : Option Lessor} {evs : List Event}

/-- A watchable store and its history, reached by any events with restores from longer histories
whose last revision is in the backend. -/
inductive Reached : WatchableStore → History → Prop
  | new (le : Option Lessor) : Reached { store := { le } } { le }
  | step {s s' : WatchableStore} {h h' : History} {ev : Event} : Reached s h →
    ev.restores = false → follow h ev = .ok h' → s.step ev = .ok s' → Reached s' h'
  | restore {s s' : WatchableStore} {h h' : History} {t : Store} {le : Option Lessor}
    {evs : List Store.Event} : Reached s h → History.run le evs = .ok h' →
    Store.run le evs = .ok t → h.main ≤ h'.main → (t.le.isSome → s.store.le.isSome) →
    (lastRev t.keyBucket).main = h'.main →
    s.step (.restore t.keyBucket t.scheduledCompact t.finishedCompact) = .ok s' →
    Reached s' (reopened t.keyBucket s'.store.le)

theorem idle_of_run {evs : List Store.Event} (hh : History.run le evs = .ok h)
    (ht : Store.run le evs = .ok t) : Store.Idle t h := by
  have hsim := Store.run_sim le evs
  rw [hh, ht] at hsim
  exact hsim

theorem Reached.sound (hr : Reached s h) : Sound s h := by
  induction hr with
  | new le => exact .new le
  | step _ hev hh hs ih =>
    obtain ⟨s₂, hs₂, hg⟩ := ih.step hev hh
    cases hs.symm.trans hs₂
    exact hg.sound
  | @restore s s' h h' t le evs _ hh ht hlong hle hlast hs ih =>
    obtain ⟨s₁, hs₁, hsound, -⟩ := ih.restore (idle_of_run hh ht)
      ((History.stamped_run le evs).of_ok hh).2 hlong hle hlast
    cases hs.symm.trans hs₁
    exact hsound

/-- What a watcher was sent since a restore is right: the events due to it from where it stood, in
order with none left out and no revision split, and all of them once it is synced. -/
def Resumed (s s' : WatchableStore) (id : ℕ) (w₁ : Watcher) (log : OrdMap RevKey KeyValue)
    (main : ℤ) : Prop :=
  ∃ later, s'.sentTo id = s.sentTo id ++ later ∧ eventsOf later <+: w₁.due log (main + 1)
    ∧ Unsplit later
    ∧ ((s'.watchers.synced.find id).isSome → eventsOf later = w₁.due log (main + 1))

theorem resumed {id : ℕ} {w₁ : Watcher} {log : OrdMap RevKey KeyValue} {main : ℤ}
    (ht : Tracks (s.sentTo id) log main w₁ (s'.look id)) : Resumed s s' id w₁ log main := by
  obtain ⟨hi, later, hlater, hevs, hsplit, hle, -, hsy⟩ := ht
  refine ⟨later, hlater, ?_, hsplit, fun hsome => ?_⟩
  · rw [hevs]
    exact Watcher.due_isPrefix w₁ log hle
  · obtain ⟨w, hw⟩ := isSome_iff_exists.1 hsome
    rw [hevs, (hsy w hw).1]

theorem Reached.of_run (hno : ∀ ev ∈ evs, ev.restores = false)
    (hh : History.run le (evs.filterMap Event.stored) = .ok h)
    (hs : WatchableStore.run le evs = .ok s) : Reached s h := by
  rw [History.run, ← foldlM_follow] at hh
  suffices ∀ (evs : List Event) (s₀ : WatchableStore) (h₀ : History), Reached s₀ h₀ →
      (∀ ev ∈ evs, ev.restores = false) → evs.foldlM follow h₀ = .ok h →
      evs.foldlM WatchableStore.step s₀ = .ok s → Reached s h from
    this evs _ _ (.new le) hno hh hs
  intro evs
  induction evs with
  | nil =>
    intro s₀ h₀ hr _ hh hs
    cases hh
    cases hs
    exact hr
  | cons ev evs ih =>
    intro s₀ h₀ hr hno hh hs
    obtain ⟨h₁, hh₁, hh⟩ := foldlM_cons_ok hh
    obtain ⟨s₁, hs₁, hs⟩ := foldlM_cons_ok hs
    exact ih s₁ h₁ (hr.step (hno ev (by simp)) hh₁ hs₁) (fun e he => hno e (by simp [he])) hh hs

/-- The run of a store with a restore from the backend of another one in it. -/
def runRestored (pre : List Event) (evs : List Store.Event) (post : List Event) :
    Except WatchPanic WatchableStore :=
  (Store.run none evs).mapError .store >>= fun t =>
    run none (pre ++ .restore t.keyBucket t.scheduledCompact t.finishedCompact :: post)

end Runs

end WatchableStore

end EtcdCompat
