import EtcdCompat.Proofs.StoreMvcc
import EtcdCompat.Proofs.WatchRun

/-!
# Delivery without compactions

While nothing is compacted the key bucket has every record, so each round serves every watcher: what
a watcher was sent is always the front part of what is due to it, and all of it while it is synced.
-/

namespace EtcdCompat

section Matching

end Matching

namespace WatchableStore

variable {s s' : WatchableStore} {h : History} {w : Watcher}

theorem Sound.due_bucket (hs : Sound s h) (hc : s.store.compactMainRev < w.cur) (hi : ℤ) :
    w.due s.store.keyBucket hi = w.due h.log hi :=
  Watcher.due_congr fun rk kv _ hcur _ =>
    ⟨hs.idle.1.bucket rk kv, fun hf => hs.idle.1.above rk kv hf (hc.trans_le hcur)⟩

theorem Watcher.due_isPrefix (w : Watcher) (log : OrdMap RevKey KeyValue) {hi hi' : ℤ}
    (hle : hi ≤ hi') : w.due log hi <+: w.due log hi' := by
  by_cases hc : w.cur ≤ hi
  · rw [w.due_split log hc hle]
    exact List.prefix_append _ _
  · rw [w.due_eq_nil log (not_le.1 hc).le]
    exact List.nil_prefix

/-- What a watcher was sent is right: the events due come in order with none left out, no revision
is split, and a synced watcher has had them all. -/
structure Delivered (s : WatchableStore) (id : ℕ) (w₀ : Watcher) (log : OrdMap RevKey KeyValue)
    (main : ℤ) : Prop where
  sent : eventsOf (s.sentTo id) <+: w₀.due log (main + 1)
  unsplit : Unsplit (s.sentTo id)
  synced : (s.watchers.synced.find id).isSome → eventsOf (s.sentTo id) = w₀.due log (main + 1)

theorem delivered {id : ℕ} {w₀ : Watcher} {log : OrdMap RevKey KeyValue} {main : ℤ}
    (ht : Tracks [] log main w₀ (s.look id)) : Delivered s id w₀ log main := by
  obtain ⟨hi, later, hlater, hevs, hsplit, hle, -, hsy⟩ := ht
  obtain rfl : later = s.sentTo id := hlater.symm
  refine ⟨?_, hsplit, fun hsome => ?_⟩
  · rw [hevs]
    exact Watcher.due_isPrefix w₀ log hle
  · obtain ⟨w, hw⟩ := Option.isSome_iff_exists.1 hsome
    rw [hevs, (hsy w hw).1]

def Event.plain : Event → Bool
  | .compact _ => false
  | .batch => false
  | .restore _ _ _ => false
  | _ => true

theorem step_uncompacted {ev : Event} (hev : ev.plain) (hs : s.step ev = .ok s') :
    s'.store.compactMainRev = s.store.compactMainRev := by
  cases ev with
  | txn ops room =>
    have hs : s.txn ops room = .ok s' := hs
    unfold WatchableStore.txn at hs
    rcases hst : s.store.txn ops with f | st
    · rw [hst] at hs
      cases hs
    · have hkeep := ((s.store.txn_keeps ops).of_ok hst).1
      rw [hst] at hs
      simp only at hs
      split_ifs at hs
      · rw [← Except.ok.inj hs]
        exact hkeep
      · obtain ⟨ws, -, hs⟩ := exists_ok_of_bind hs
        rw [← Except.ok.inj hs]
        exact hkeep
  | compact rev => cases hev
  | batch => cases hev
  | lessor le =>
    cases hs
    rfl
  | watch key stop startRev =>
    have hs : s.watch key stop startRev = .ok s' := hs
    unfold WatchableStore.watch at hs
    simp only at hs
    split_ifs at hs <;> obtain ⟨wg, -, hs⟩ := exists_ok_of_bind hs <;> rw [← Except.ok.inj hs]
  | cancel id =>
    cases hs
    rfl
  | sync room =>
    obtain ⟨ws, -, ⟨⟩⟩ := exists_ok_of_bind hs
    rfl
  | progress id room =>
    cases hs
    unfold WatchableStore.progress
    split_ifs <;> rfl
  | restore _ _ _ => cases hev

theorem run_uncompacted : ∀ {evs : List Event} {s s' : WatchableStore},
    (∀ ev ∈ evs, ev.plain) → evs.foldlM WatchableStore.step s = .ok s' →
    s'.store.compactMainRev = s.store.compactMainRev
  | [], s, s', _, hs => by rw [Except.ok.inj hs]
  | ev :: evs, s, s', hplain, hs => by
    obtain ⟨s₁, hs₁, hs⟩ := foldlM_cons_ok hs
    rw [run_uncompacted (fun e he => hplain e (by simp [he])) hs,
      step_uncompacted (hplain ev (by simp)) hs₁]

end WatchableStore

end EtcdCompat
