import EtcdCompat.Proofs.WatchBatch

/-!
# Following one watcher

`Tracks`: the responses to a watcher have had, one after the other, the events due to it below some
revision. An unsynced watcher is at that revision, a synced one has had all there are. `notify` and
`syncWatchers` keep this, as long as the events read are those due.
-/

namespace EtcdCompat

open List Option

def eventsOf (sent : List WatchResponse) : List StorageEvent := sent.flatMap (·.events)

/-- No revision is split between two responses. -/
def Unsplit (sent : List WatchResponse) : Prop :=
  sent.Pairwise fun r r' => ∀ e ∈ r.events, ∀ e' ∈ r'.events, e.kv.modRevision < e'.kv.modRevision

/-- A watcher from a revision on, with the responses it had before. -/
def Tracks (base : List WatchResponse) (log : OrdMap RevKey KeyValue) (main : ℤ) (w₀ : Watcher)
    (v : WatcherView) : Prop :=
  ∃ hi later, v.sent = base ++ later ∧ eventsOf later = w₀.due log hi ∧ Unsplit later
    ∧ hi ≤ main + 1
    ∧ (∀ w, v.unsynced = some w → w = { w₀ with cur := hi } ∧ w₀.cur ≤ hi ∧ hi ≤ main)
    ∧ ∀ w, v.synced = some w → hi = main + 1
      ∧ ∃ c, w = { w₀ with cur := c } ∧ ∀ r, main < r → (c ≤ r ↔ w₀.cur ≤ r)

section

variable {base : List WatchResponse} {log log' : OrdMap RevKey KeyValue} {main hi hi' : ℤ}
  {w₀ : Watcher} {v v' : WatcherView} {r : WatchResponse}

theorem Unsplit.append {sent : List WatchResponse} (hsent : Unsplit sent)
    (hr : ∀ e ∈ eventsOf sent, ∀ e' ∈ r.events, e.kv.modRevision < e'.kv.modRevision) :
    Unsplit (sent ++ [r]) := by
  refine pairwise_append.2 ⟨hsent, pairwise_singleton _ _, fun r₁ h₁ r₂ h₂ => ?_⟩
  rw [mem_singleton.1 h₂]
  exact fun e he => hr e (mem_flatMap.2 ⟨r₁, h₁, he⟩)

section

variable (ht : Tracks base log main w₀ v)
include ht

theorem Tracks.quiet (hsent : v'.sent = v.sent
      ∨ ∃ r : WatchResponse, r.events = [] ∧ v'.sent = v.sent ++ [r])
    (hu : ∀ w, v'.unsynced = some w → v.unsynced = some w)
    (hs : ∀ w, v'.synced = some w → v.synced = some w) : Tracks base log main w₀ v' := by
  obtain ⟨hi, later, hlater, hevs, hsplit, hle, hun, hsy⟩ := ht
  have hgroups : (∀ w, v'.unsynced = some w → w = { w₀ with cur := hi } ∧ w₀.cur ≤ hi ∧ hi ≤ main)
      ∧ ∀ w, v'.synced = some w → hi = main + 1
        ∧ ∃ c, w = { w₀ with cur := c } ∧ ∀ r, main < r → (c ≤ r ↔ w₀.cur ≤ r) :=
    ⟨fun w hw => hun w (hu w hw), fun w hw => hsy w (hs w hw)⟩
  rcases hsent with hsent | ⟨r, hr, hsent⟩
  · exact ⟨hi, later, hsent.trans hlater, hevs, hsplit, hle, hgroups⟩
  · refine ⟨hi, later ++ [r], ?_, ?_, hsplit.append (by simp [hr]), hle, hgroups⟩
    · rw [hsent, hlater, append_assoc]
    · rw [eventsOf, flatMap_append, flatMap_singleton, hr, append_nil]
      exact hevs

theorem Tracks.isPrefix : base <+: v.sent := by
  obtain ⟨hi, later, hlater, -⟩ := ht
  exact ⟨later, hlater.symm⟩

theorem Tracks.cur_le {w : Watcher} (hw : v.unsynced = some w) : w₀.cur ≤ w.cur := by
  obtain ⟨hi, later, -, -, -, -, hun, -⟩ := ht
  obtain ⟨rfl, hle, -⟩ := hun w hw
  exact hle

end

theorem Unsplit.send {later : List WatchResponse} (hsplit : Unsplit later) (hd : Dated log)
    (hevs : eventsOf later = w₀.due log hi) (hlo : w₀.cur ≤ hi) (hle : hi ≤ hi')
    (hr : r.events = { w₀ with cur := hi }.due log hi') :
    eventsOf (later ++ [r]) = w₀.due log hi' ∧ Unsplit (later ++ [r]) := by
  refine ⟨?_, hsplit.append fun e he e' he' => ?_⟩
  · rw [eventsOf, flatMap_append, flatMap_singleton, hr, w₀.due_split log hlo hle]
    exact congrArg (· ++ _) hevs
  · rw [hevs] at he
    rw [hr] at he'
    exact (hd.mem_due he).2.trans_le (hd.mem_due he').1

section Notify

variable {recs : List (RevKey × KeyValue)}

/-- The log with the records of one transaction more. -/
structure Grows (log log' : OrdMap RevKey KeyValue) (main : ℤ) (recs : List (RevKey × KeyValue)) :
    Prop where
  entries : log'.entries = log.entries ++ recs
  old : ∀ e ∈ log.entries, e.1.rev.main ≤ main
  new : ∀ e ∈ recs, e.1.rev.main = main + 1
  dated : Dated log'

section

variable (hg : Grows log log' main recs)
include hg

theorem Grows.due_old (hle : hi ≤ main + 1) : w₀.due log' hi = w₀.due log hi := by
  rw [Watcher.due_append hg.entries, filter_eq_nil_iff.2, map_nil, append_nil]
  intro e he
  have := hg.new e he
  simp
  omega

theorem Grows.event {e : RevKey × KeyValue} (he : e ∈ recs) :
    (eventOf e).kv.modRevision = e.1.rev.main :=
  hg.dated.modRevision (by rw [hg.entries]; simp [he])

theorem Grows.due_new {c : ℤ} (hc : ∀ r, main < r → (c ≤ r ↔ w₀.cur ≤ r)) :
    w₀.due log' (main + 1 + 1)
      = w₀.due log (main + 1) ++ { w₀ with cur := c }.wanted (recs.map eventOf) := by
  rw [Watcher.due_append hg.entries, Watcher.wanted_map fun e he => hg.event he]
  congr 1
  · unfold Watcher.due
    congr 1
    refine filter_congr fun e he => ?_
    have := hg.old e he
    rw [decide_eq_decide]
    exact and_congr_right fun _ => and_congr_right fun _ => by omega
  · congr 1
    refine filter_congr fun e he => ?_
    have hnew := hg.new e he
    rw [decide_eq_decide]
    exact and_congr_right fun _ => by
      rw [hc _ (by omega)]
      exact and_iff_left (by omega)

theorem Grows.wanted_rev {w : Watcher} {ev : StorageEvent}
    (hev : ev ∈ w.wanted (recs.map eventOf)) :
    ev.kv.modRevision = main + 1 ∧ w.cur ≤ main + 1 := by
  obtain ⟨hmem, hp⟩ := mem_filter.1 hev
  obtain ⟨e, he, rfl⟩ := mem_map.1 hmem
  have hrev : (eventOf e).kv.modRevision = main + 1 := (hg.event he).trans (hg.new e he)
  refine ⟨hrev, ?_⟩
  rw [← hrev]
  exact (of_decide_eq_true hp).2

end

theorem Tracks.notified (ht : Tracks base log main w₀ v) (hg : Grows log log' main recs)
    (room : ℕ → Bool) (id : ℕ) :
    Tracks base log' (main + 1) w₀
      (Watchers.notified (main + 1) (recs.map eventOf) room id v) := by
  obtain ⟨hi, later, hlater, hevs, hsplit, hle, hun, hsy⟩ := ht
  unfold Watchers.notified
  rcases hv : v.synced with _ | w
  · refine ⟨hi, later, hlater, by rw [hg.due_old hle, hevs], hsplit, by omega, fun w hw => ?_,
      fun w hw => ?_⟩
    · obtain ⟨h₁, h₂, h₃⟩ := hun w hw
      exact ⟨h₁, h₂, by omega⟩
    · rw [Watchers.batched, hv] at hw
      cases hw
  · obtain ⟨rfl, c, rfl, hc⟩ := hsy w hv
    have hnew := hg.due_new hc
    have hold : eventsOf later = w₀.due log' (main + 1) := by rw [hg.due_old le_rfl, hevs]
    unfold Watchers.batched
    simp only
    split_ifs with hnil
    · rw [hnil, append_nil] at hnew
      refine ⟨main + 1 + 1, later, hlater, by rw [hnew, hevs], hsplit, le_rfl, fun w hw => ?_,
        fun w hw => ⟨rfl, c, ?_, fun r hr => hc r (by omega)⟩⟩
      · have := (hun w hw).2.2
        omega
      · rw [hv] at hw
        exact (some.inj hw).symm
    · -- the events wanted are those due from the new revision on
      have hcur : w₀.cur ≤ main + 1 := by
        obtain ⟨ev, hev⟩ := exists_mem_of_ne_nil _ hnil
        exact (hc _ (Int.lt_succ _)).1 (hg.wanted_rev hev).2
      have hwant : { w₀ with cur := c }.wanted (recs.map eventOf)
          = { w₀ with cur := main + 1 }.due log' (main + 1 + 1) := by
        rw [w₀.due_split log' hcur (by omega), hg.due_old le_rfl] at hnew
        exact (append_cancel_left hnew).symm
      unfold Watchers.notifyView
      split_ifs with hroom
      · have hbatch := (EventBatch.ofList_of_rev fun ev (hev : ev ∈ { w₀ with cur := c }.wanted
          (recs.map eventOf)) => (hg.wanted_rev hev).1).1
        obtain ⟨hevs', hsplit'⟩ := hsplit.send (r := ⟨id, _, main + 1, 0⟩) hg.dated hold hcur
          (Int.lt_succ _).le (hbatch.trans hwant)
        refine ⟨main + 1 + 1, _, ?_, hevs', hsplit', le_rfl, fun w hw => ?_,
          fun w hw => ⟨rfl, c, ?_, fun r hr => hc r (by omega)⟩⟩
        · rw [hlater, append_assoc]
        · have := (hun w hw).2.2
          omega
        · rw [show v.synced = some w from hw] at hv
          exact (some.inj hv)
      · refine ⟨main + 1, later, hlater, hold, hsplit, by omega, fun w hw => ?_, fun w hw => ?_⟩
        · exact ⟨(some.inj hw).symm, hcur, le_rfl⟩
        · cases hw

end Notify

section Sync

variable {evs : List StorageEvent}

theorem Tracks.scanned (ht : Tracks base log main w₀ v) (compactRev : ℤ) (room : ℕ → Bool)
    (id : ℕ) : Tracks base log main w₀ (Watchers.scanned compactRev room id v) := by
  unfold Watchers.scanned Watchers.scanView
  rcases hv : v.unsynced with _ | w
  · exact ht
  · simp
    split_ifs
    · exact ht.quiet (.inr ⟨_, rfl, rfl⟩) (fun w hw => by cases hw) fun w hw => hw
    · exact ht

theorem passes_main (hlo : w₀.cur ≤ hi) (hle : hi ≤ main) (r : ℤ) (hr : main < r) :
    main ≤ r ↔ w₀.cur ≤ r :=
  iff_of_true hr.le (by omega)

theorem Tracks.caughtUp (ht : Tracks base log main w₀ v) (hd : Dated log)
    (hevs : ∀ w, v.unsynced = some w → w.wanted evs = w.due log (main + 1)) (room : ℕ → Bool)
    (id : ℕ) : Tracks base log main w₀ (Watchers.caughtUp main evs room id v) := by
  unfold Watchers.caughtUp
  rcases hv : v.unsynced with _ | w
  · exact ht
  obtain ⟨hi, later, hlater, hdue, hsplit, -, hun, hsy⟩ := ht
  obtain ⟨rfl, hlo, hle⟩ := hun w hv
  have hwant := hevs _ hv
  have hnone : v.synced = none := by
    rcases hs : v.synced with _ | w
    · rfl
    · have := (hsy w hs).1
      omega
  simp
  split_ifs with hnil
  · refine ⟨main + 1, later, hlater, ?_, hsplit, le_rfl, fun w hw => (by cases hw),
      fun w hw => ⟨rfl, main, (some.inj hw).symm, passes_main hlo hle⟩⟩
    rw [w₀.due_split log hlo (by omega), ← hwant, hnil, append_nil, hdue]
  · unfold Watchers.syncView
    by_cases hroom : room id = true
    · simp only [if_pos hroom, hwant]
      rcases hd.batch_due { w₀ with cur := hi } (main + 1) with
        ⟨hmore, hall⟩ | ⟨hmore, hpart, hlt, hlt'⟩
      · simp [hmore]
        obtain ⟨hdue', hsplit'⟩ := hsplit.send (r := ⟨id, _, main, 0⟩) hd hdue hlo (by omega) hall
        exact ⟨main + 1, _, by rw [hlater, append_assoc], hdue', hsplit', le_rfl,
          fun w hw => (by cases hw),
          fun w hw => ⟨rfl, main, (some.inj hw).symm, passes_main hlo hle⟩⟩
      · simp only [if_pos hmore]
        obtain ⟨hdue', hsplit'⟩ :=
          hsplit.send (r := ⟨id, _, main, 0⟩) hd hdue hlo hlt.le hpart
        refine ⟨_, _, by rw [hlater, append_assoc], hdue', hsplit', hlt'.le, fun w hw =>
          ⟨(some.inj hw).symm, hlo.trans hlt.le, by omega⟩, fun w hw => ?_⟩
        rw [show v.synced = some w from hw] at hnone
        cases hnone
    · rw [if_neg hroom]
      exact ⟨hi, later, hlater, hdue, hsplit, by omega, hun, hsy⟩

theorem caughtUp_advances (hd : Dated log) {w : Watcher} (hv : v.unsynced = some w)
    (hwant : w.wanted evs = w.due log hi) {room : ℕ → Bool} {id : ℕ} (hroom : room id = true)
    {w' : Watcher} (hw' : (Watchers.caughtUp main evs room id v).unsynced = some w') :
    w.cur < w'.cur := by
  unfold Watchers.caughtUp Watchers.syncView at hw'
  simp [hv, if_pos hroom, hwant] at hw'
  split_ifs at hw' with hnil hmore
  · cases hw'
    rcases hd.batch_due w hi with ⟨h0, -⟩ | ⟨-, -, hlt, -⟩
    · exact absurd h0 hmore
    · exact hlt

end Sync

end

end EtcdCompat
