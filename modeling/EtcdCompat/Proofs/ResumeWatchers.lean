import Mathlib.Data.List.Nodup
import EtcdCompat.Client.Watch

/-!
# Resumed watchers

A stream leaves its old id after earlier streams were given theirs. What it deletes there is one of
them, if the server gave out the old id again; that one is then in the map no longer.
-/

namespace EtcdCompat.ClientWatch

open List

variable {σ : Type*} [DecidableEq σ] {w : Watcher σ} {acks : List (σ × Ack)} {ws : σ} {i : ℤ}

theorem id_move (h : ws ∉ acks.map Prod.fst) (watchId : ℤ) :
    ∀ b ∈ acks, (w.move ws watchId).id b.1 = w.id b.1 := by
  intro b hb
  refine Function.update_of_ne (fun heq => h ?_) _ _
  rw [← heq]
  exact mem_map_of_mem hb

theorem exists_id_move (h : ws ∉ acks.map Prod.fst) (watchId : ℤ) :
    (∃ b ∈ acks, (w.move ws watchId).id b.1 = i) ↔ ∃ b ∈ acks, w.id b.1 = i :=
  exists_congr fun b => and_congr_right fun hb => by rw [id_move h watchId b hb]

theorem streams_unassigned (hok : (resumeWatchers w acks).2 = true)
    (hnodup : (acks.map Prod.fst).Nodup) (hi : .created i ∉ acks.map Prod.snd) :
    (resumeWatchers w acks).1.streams i =
      if ∃ b ∈ acks, w.id b.1 = i then none else w.streams i := by
  induction acks generalizing w with
  | nil => simp [resumeWatchers]
  | cons a acks ih =>
    obtain ⟨ws, _ | _ | watchId⟩ := a
    · cases hok
    · cases hok
    rw [map_cons, nodup_cons] at hnodup
    rw [map_cons, mem_cons, not_or, Ack.created.injEq] at hi
    have hcons : (∃ b ∈ (ws, Ack.created watchId) :: acks, w.id b.1 = i) ↔
        w.id ws = i ∨ ∃ b ∈ acks, w.id b.1 = i := by simp
    have hmove : (w.move ws watchId).streams i = if w.id ws = i then none else w.streams i := by
      simp [Watcher.move, Function.update_apply, hi.1, eq_comm]
    refine (ih hok hnodup.2 hi.2).trans ?_
    rw [if_congr (exists_id_move hnodup.1 _) rfl rfl, hmove, if_congr hcons rfl rfl]
    by_cases hws : w.id ws = i
    · rw [if_pos hws, ite_self, if_pos (.inl hws)]
    · rw [if_neg hws, if_congr (or_iff_right hws) rfl rfl]

/-- All streams have their new ids in the map just if none was given one that a later stream
leaves. -/
theorem streams_assigned_iff (hok : (resumeWatchers w acks).2 = true)
    (hnodup : (acks.map Prod.fst).Nodup) (hfresh : (acks.map Prod.snd).Nodup) :
    (∀ ws i, (ws, Ack.created i) ∈ acks → (resumeWatchers w acks).1.streams i = some ws) ↔
      acks.Pairwise fun a b => a.2 ≠ .created (w.id b.1) := by
  induction acks generalizing w with
  | nil => simp
  | cons a acks ih =>
    obtain ⟨ws, _ | _ | watchId⟩ := a
    · cases hok
    · cases hok
    change (resumeWatchers (w.move ws watchId) acks).2 = true at hok
    rw [map_cons, nodup_cons] at hnodup hfresh
    have hfirst : (resumeWatchers (w.move ws watchId) acks).1.streams watchId = some ws ↔
        ∀ b ∈ acks, Ack.created watchId ≠ .created (w.id b.1) := by
      rw [streams_unassigned hok hnodup.2 hfresh.1, if_congr (exists_id_move hnodup.1 _) rfl rfl,
        show (w.move ws watchId).streams watchId = some ws from Function.update_self ..]
      simp [eq_comm]
    have hrest : acks.Pairwise (fun a b => a.2 ≠ .created ((w.move ws watchId).id b.1)) ↔
        acks.Pairwise fun a b => a.2 ≠ .created (w.id b.1) :=
      Pairwise.iff_of_mem fun _ hb => by rw [id_move hnodup.1 _ _ hb]
    rw [pairwise_cons, ← hrest, ← ih hok hnodup.2 hfresh.2, ← hfirst]
    refine ⟨fun h => ⟨h ws watchId (by simp), fun ws' i hmem => h ws' i (by simp [hmem])⟩,
      fun h ws' i hmem => ?_⟩
    rcases mem_cons.1 hmem with heq | hmem
    · cases heq
      exact h.1
    · exact h.2 ws' i hmem

theorem resumed_once_iff
    (hstreams : ∀ i ws, w.streams i = some ws ↔ ws ∈ acks.map Prod.fst ∧ w.id ws = i)
    (hnodup : (acks.map Prod.fst).Nodup) (hfresh : (acks.map Prod.snd).Nodup)
    (hok : (resumeWatchers w acks).2 = true) :
    (∀ ws i, (ws, Ack.created i) ∈ acks →
        ∀ j, (resumeWatchers w acks).1.streams j = some ws ↔ j = i) ↔
      acks.Pairwise fun a b => a.2 ≠ .created (w.id b.1) := by
  rw [← streams_assigned_iff hok hnodup hfresh]
  refine ⟨fun h ws i hmem => (h ws i hmem i).2 rfl, fun h ws i hmem j => ⟨fun hj => ?_, ?_⟩⟩
  · by_cases hjs : .created j ∈ acks.map Prod.snd
    · obtain ⟨⟨ws', ack⟩, hmem', hack⟩ := List.mem_map.1 hjs
      cases hack
      cases hj.symm.trans (h ws' j hmem')
      cases List.inj_on_of_nodup_map hnodup hmem hmem' rfl
      rfl
    · rw [streams_unassigned hok hnodup hjs] at hj
      split_ifs at hj with hleft
      obtain ⟨hmem', hid⟩ := (hstreams j ws).1 hj
      obtain ⟨b, hb, rfl⟩ := List.mem_map.1 hmem'
      exact absurd ⟨b, hb, hid⟩ hleft
  · rintro rfl
    exact h ws j hmem

/-- Two streams, `false` with the id 0 and `true` with the id 1. -/
def twoStreams : Watcher Bool where
  streams := fun i => if i = 0 then some false else if i = 1 then some true else none
  id := fun ws => if ws then 1 else 0

theorem twoStreams_listed (x y : Ack) (i : ℤ) (ws : Bool) : twoStreams.streams i = some ws ↔
    ws ∈ [(false, x), (true, y)].map Prod.fst ∧ twoStreams.id ws = i := by
  unfold twoStreams
  by_cases h0 : i = 0
  · cases ws <;> simp [h0]
  · by_cases h1 : i = 1
    · cases ws <;> simp [h1]
    · cases ws <;> simp [h0, h1, Ne.symm h0, Ne.symm h1]

theorem resumed_once_shifted :
    (resumeWatchers twoStreams [(false, .created 2), (true, .created 0)]).2 = true ∧
    ∀ j, (resumeWatchers twoStreams [(false, .created 2), (true, .created 0)]).1.streams j =
      some false ↔ j = 2 :=
  ⟨rfl, (resumed_once_iff (twoStreams_listed _ _) (by decide) (by decide) rfl).2 (by decide) false 2
    (by simp)⟩

/-- The ids are swapped, and the first stream is lost. -/
theorem resumed_lost :
    (∀ i ws, twoStreams.streams i = some ws ↔
      ws ∈ [(false, Ack.created 1), (true, .created 0)].map Prod.fst ∧ twoStreams.id ws = i) ∧
    (resumeWatchers twoStreams [(false, .created 1), (true, .created 0)]).2 = true ∧
    ∀ j, (resumeWatchers twoStreams [(false, .created 1), (true, .created 0)]).1.streams j ≠
      some false := by
  refine ⟨twoStreams_listed _ _, rfl, fun j => ?_⟩
  simp only [resumeWatchers, Watcher.move, twoStreams, Function.update_apply]
  split_ifs <;> simp_all

end EtcdCompat.ClientWatch
