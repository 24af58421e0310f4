import EtcdCompat.Proofs.WatchDeliver

/-!
# Delivery with compactions

A watcher behind a compaction is told so, and is dropped then. A round fails a watcher behind the
compaction with no room to be told, and one right at the compaction, where tombstones and pairs
written over are gone. With neither, enough rounds with room bring all that is due or the notice.
-/

namespace EtcdCompat.WatchableStore

open List

open Watchers

variable {s s' : WatchableStore} {h h' : History} {id : ℕ} {v : WatcherView}

/-- Behind the compaction there is room for the notice, and right at it nothing due was removed. -/
def Heard (s : WatchableStore) (log : OrdMap RevKey KeyValue) (id : ℕ) (room : Room) : Prop :=
  ∀ w, s.watchers.unsynced.find id = some w →
    (w.cur < s.store.compactMainRev → room.notice id = true)
    ∧ (w.cur = s.store.compactMainRev → ∀ rk kv, log.find rk = some kv → w.Matches kv.key →
      rk.rev.main = w.cur → s.store.keyBucket.find rk = some kv)

theorem Heard.served {room : Room} {log : OrdMap RevKey KeyValue} (hs : Sound s h)
    (hheard : Heard s log id room)
    (hsub : ∀ rk kv, h.log.find rk = some kv → log.find rk = some kv)
    (hown : ∀ w, (s.look id).unsynced = some w → s.store.compactMainRev ≤ w.cur → ∀ rk kv,
      log.find rk = some kv → w.Matches kv.key → w.cur ≤ rk.rev.main → h.log.find rk = some kv) :
    Served s h.main log id room := by
  intro w hw
  obtain ⟨hbehind, hat⟩ := hheard w hw
  refine ⟨hbehind, fun hle => Watcher.due_congr fun rk kv hm hcur _ =>
    ⟨fun hf => hsub rk kv (hs.idle.1.bucket rk kv hf), fun hf => ?_⟩⟩
  have hlog := hown w hw hle rk kv hf hm hcur
  rcases (hle.trans hcur).lt_or_eq with hlt | heq
  · exact hs.idle.1.above rk kv hlog hlt
  · exact hat (by omega) rk kv hf hm (by omega)

/-- A watcher is in a group, or was told. -/
def Kept (base : List WatchResponse) (v : WatcherView) : Prop :=
  v.unsynced.isSome ∨ v.synced.isSome
    ∨ ∃ later, v.sent = base ++ later ∧ ∃ r ∈ later, r.compactRevision ≠ 0

variable {base : List WatchResponse}

theorem Kept.notified (hk : Kept base v) (rev : ℤ) (evs : List StorageEvent) (room : ℕ → Bool) :
    Kept base (notified rev evs room id v) := by
  unfold Watchers.notified
  rcases hv : v.synced with _ | w
  · exact hk
  · unfold batched notifyView
    simp only
    split_ifs
    · exact hk
    · exact .inr (.inl (by simp [hv]))
    · exact .inl rfl

theorem Kept.scanned (hk : Kept base v) (hbase : base <+: v.sent)
    (hcur : ∀ w, v.unsynced = some w → 0 ≤ w.cur) (compactRev : ℤ) (room : ℕ → Bool) :
    Kept base (scanned compactRev room id v) := by
  unfold Watchers.scanned scanView
  rcases hv : v.unsynced with _ | w
  · exact hk
  · simp
    split_ifs with hc
    · have := hcur w hv
      obtain ⟨later, hlater⟩ := hbase
      refine .inr (.inr ⟨later ++ [⟨id, [], 0, compactRev⟩], ?_, ⟨id, [], 0, compactRev⟩,
        mem_append_right _ (mem_singleton_self _), show compactRev ≠ 0 by omega⟩)
      rw [← hlater, append_assoc]
    · exact hk

theorem Kept.caughtUp (hk : Kept base v) (main : ℤ) (evs : List StorageEvent) (room : ℕ → Bool) :
    Kept base (caughtUp main evs room id v) := by
  unfold Watchers.caughtUp syncView
  rcases v.unsynced with _ | w
  · exact hk
  · simp only [Option.elim_some]
    split_ifs
    · exact .inr (.inl rfl)
    · exact .inl rfl
    · exact .inr (.inl rfl)
    · exact hk

theorem Seen.kept {main : ℤ} {recs : List (RevKey × KeyValue)} {ev : Event} {v v' : WatcherView}
    (hseen : Seen s main recs id ev v v') (hev : ev ≠ .cancel id) (hk : Kept base v)
    (hbase : base <+: v.sent) (hcur : ∀ w, v.unsynced = some w → 0 ≤ w.cur) : Kept base v' := by
  cases hseen with
  | quiet _ hsent hun hsy =>
    unfold Kept at hk ⊢
    rw [hun, hsy]
    refine hk.imp_right (Or.imp_right ?_)
    rintro ⟨later, hlater, r, hr, hne⟩
    rcases hsent with hsent | ⟨r', -, hsent⟩
    · exact ⟨later, hsent.trans hlater, r, hr, hne⟩
    · exact ⟨later ++ [r'], by rw [hsent, hlater, append_assoc], r,
        mem_append_left _ hr, hne⟩
  | cancelled _ hc => exact absurd hc hev
  | notified room _ => exact hk.notified _ _ _
  | synced room evs _ _ _ => exact (hk.scanned hbase hcur _ _).caughtUp _ _ _

section Rounds

variable {w₀ : Watcher} {log : OrdMap RevKey KeyValue} {room : Room}

theorem Following.run_kept (hw₀ : 0 ≤ w₀.cur)
    : ∀ {evs : List Event} {s s' : WatchableStore} {h h' : History}
    {log : OrdMap RevKey KeyValue}, Following base w₀ id s h log →
    AllServed base w₀ id s h log evs → (∀ ev ∈ evs, ev.restores = false) →
    evs.foldlM follow h = .ok h' → evs.foldlM WatchableStore.step s = .ok s' →
    Event.cancel id ∉ evs → Kept base (s.look id) → Kept base (s'.look id)
  | [], s, s', h, h', log, _, _, _, _, hs, _, hk => by
    cases hs
    exact hk
  | ev :: evs, s, s', h, h', log, hf, hserved, hno, hh, hs, hcancel, hk => by
    obtain ⟨h₁, hh₁, hh⟩ := foldlM_cons_ok hh
    obtain ⟨s₁, log₁, hs₁, hb₁, hf₁, recs, hseen⟩ := hf.step hserved (hno ev (by simp)) hh₁
    obtain ⟨s₂, hs₂, hs⟩ := foldlM_cons_ok hs
    cases hs₁.symm.trans hs₂
    refine hf₁.run_kept hw₀ (hserved.tail hs₁ hh₁ hb₁) (fun e he => hno e (by simp [he])) hh hs
      (fun hmem => hcancel (by simp [hmem])) (hseen.kept (fun heq => hcancel (by simp [heq])) hk
        hf.tracks.isPrefix fun w hw => hw₀.trans (hf.tracks.cur_le hw))

theorem Following.sync_advances (hf : Following base w₀ id s h log)
    (hserve : Served s h.main log id room) (hroom : room.events id = true)
    (hstep : s.step (.sync room) = .ok s') {w' : Watcher} (hw' : (s'.look id).unsynced = some w') :
    ∃ w, (s.look id).unsynced = some w ∧ w.cur < w'.cur := by
  obtain ⟨s₁, hs₁, -, evs, hlook⟩ := hf.sound.sync room
  cases hstep.symm.trans hs₁
  obtain ⟨hlook, hwant⟩ := hlook id
  rw [hlook] at hw'
  rcases hv : (scanned s.store.compactMainRev room.notice id (s.look id)).unsynced with _ | w
  · unfold caughtUp at hw'
    rw [hv, Option.elim_none, hv] at hw'
    cases hw'
  · have hu : (s.look id).unsynced = some w := scanned_of_some hv ▸ hv
    exact ⟨w, hu, caughtUp_advances hf.dated hv
      (hserve.wanted hv (hwant w hv)) hroom hw'⟩

theorem Following.run_rounds (hroom : room.events id = true) : ∀ (n : ℕ)
    {s s' : WatchableStore} {log : OrdMap RevKey KeyValue} {w' : Watcher},
    Following base w₀ id s h log →
    AllServed base w₀ id s h log (replicate n (.sync room)) →
    (replicate n (Event.sync room)).foldlM WatchableStore.step s = .ok s' →
    (s'.look id).unsynced = some w' → ∃ w, (s.look id).unsynced = some w ∧ w.cur + n ≤ w'.cur
  | 0, s, s', log, w', _, _, hs, hw' => by
    cases hs
    exact ⟨w', hw', by simp⟩
  | n + 1, s, s', log, w', hf, hserved, hs, hw' => by
    rw [replicate_succ] at hserved hs
    obtain ⟨s₁, log₁, hs₁, hb₁, hf₁, -⟩ := hf.step hserved rfl (show follow h _ = .ok h from rfl)
    obtain ⟨s₂, hs₂, hs⟩ := foldlM_cons_ok hs
    cases hs₁.symm.trans hs₂
    obtain ⟨w₁, hw₁, hle⟩ := hf₁.run_rounds hroom n (hserved.tail hs₁ rfl hb₁) hs hw'
    obtain ⟨w, hw, hlt⟩ := hf.sync_advances
      (hserved [] room _ s h log rfl rfl rfl (.refl h log) hf) hroom hs₁ hw₁
    exact ⟨w, hw, by push_cast; omega⟩

theorem follow_rounds (n : ℕ) (h : History) (room : Room) :
    (replicate n (Event.sync room)).foldlM follow h = .ok h := by
  induction n with
  | zero => rfl
  | succ n ih =>
    rw [replicate_succ, foldlM_cons]
    exact ih

/-- With enough rounds that have room, at the end, a watcher is told or has had all. -/
theorem Following.settled (hf : Following base w₀ id s h log) (hw₀ : 0 ≤ w₀.cur)
    {evs mid : List Event} (hserved : AllServed base w₀ id s h log evs)
    (hno : ∀ ev ∈ evs, ev.restores = false) (hh : evs.foldlM follow h = .ok h')
    (hs : evs.foldlM WatchableStore.step s = .ok s') (hk : Kept base (s.look id))
    (hcancel : Event.cancel id ∉ evs) {n : ℕ} (hevs : evs = mid ++ replicate n (.sync room))
    (hroom : room.events id = true) (hn : h'.main < w₀.cur + n) : (s'.look id).synced.isSome
      ∨ ∃ later, (s'.look id).sent = base ++ later ∧ ∃ r ∈ later, r.compactRevision ≠ 0 := by
  obtain ⟨s'', log', hs'', -, hf'⟩ := hf.run hserved hno hh
  cases hs.symm.trans hs''
  rcases hf.run_kept hw₀ hserved hno hh hs hcancel hk with hun | hsy | htold
  · exfalso
    obtain ⟨w', hw'⟩ := Option.isSome_iff_exists.1 hun
    have hle := (hf'.sound.sane id).2 w' hw'
    subst hevs
    rw [foldlM_append] at hh hs
    obtain ⟨h₁, hh₁, hh⟩ := exists_ok_of_bind hh
    obtain ⟨s₁, log₁, hs₁, hb₁, hf₁⟩ :=
      hf.run hserved.left (fun e he => hno e (by simp [he])) hh₁
    rw [hs₁] at hs
    obtain rfl : h₁ = h' := Except.ok.inj ((follow_rounds n h₁ room).symm.trans hh)
    obtain ⟨w, hw, hlt⟩ := hf₁.run_rounds hroom n (hserved.right hs₁ hh₁ hb₁) hs hw'
    have := hf₁.tracks.cur_le hw
    omega
  · exact .inl hsy
  · exact .inr htold

end Rounds

section Runs

variable {le : Option Lessor} {pre post : List Event} {key : Bytes} {stop : Option Bytes}
  {startRev : ℤ} {s₀ : WatchableStore}

/-- Every round after a watcher is created is heard. -/
def AllHeard (le : Option Lessor) (pre : List Event) (watch : Event) (post : List Event) (id : ℕ) :
    Prop :=
  ∀ mid room rest s₁ h₁, post = mid ++ .sync room :: rest → run le (pre ++ watch :: mid) = .ok s₁ →
    History.run le ((pre ++ mid).filterMap Event.stored) = .ok h₁ → Heard s₁ h₁.log id room

/-- The store is fine, but the watcher is synced with something due and nothing sent. -/
def Untold (evs : List Event) (w₀ : Watcher) : Prop :=
  ∃ h s, History.run none (evs.filterMap Event.stored) = .ok h ∧ run none evs = .ok s
    ∧ (s.watchers.synced.find 0).isSome = true ∧ s.sentTo 0 = [] ∧ w₀.due h.log (h.main + 1) ≠ []

theorem Untold.of_eval {evs : List Event} {w₀ : Watcher}
    (hh : ∃ h, History.run none (evs.filterMap Event.stored) = .ok h
      ∧ w₀.due h.log (h.main + 1) ≠ [])
    (hs : ∃ s, run none evs = .ok s ∧ (s.watchers.synced.find 0).isSome = true
      ∧ s.sentTo 0 = []) : Untold evs w₀ := by
  obtain ⟨h, hh, hdue⟩ := hh
  obtain ⟨s, hs, hsynced, hsent⟩ := hs
  exact ⟨h, s, hh, hs, hsynced, hsent, hdue⟩

end Runs

end EtcdCompat.WatchableStore
