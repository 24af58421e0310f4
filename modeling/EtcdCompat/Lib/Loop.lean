import EtcdCompat.Lib.OrdMap
import EtcdCompat.Lib.Outcome

/-!
# Loops over distinct keys

A loop over items with different keys, where a step changes only what is seen of its own key. If
every step can be made from what is seen of its key at the start, the loop ends, and each key is
seen as its one step left it.
-/

variable {σ : Type*} {ι α β : Type*} {ε : Type*}

/-- A step is made from what is seen of its key, and seen nowhere else. -/
def Local (view : σ → ι → β) (pre : ι → α → β → Prop) (upd : ι → α → β → β)
    (step : σ → ι × α → Except ε σ) : Prop :=
  ∀ s i a, pre i a (view s i) → ∃ s', step s (i, a) = .ok s' ∧ view s' i = upd i a (view s i)
    ∧ ∀ j, j ≠ i → view s' j = view s j

theorem Local.foldlM {view : σ → ι → β} {pre : ι → α → β → Prop} {upd : ι → α → β → β}
    {step : σ → ι × α → Except ε σ} (hstep : Local view pre upd step) :
    ∀ {l : List (ι × α)} {s : σ}, (l.map Prod.fst).Nodup → (∀ x ∈ l, pre x.1 x.2 (view s x.1)) →
    ∃ s', l.foldlM step s = .ok s' ∧ (∀ x ∈ l, view s' x.1 = upd x.1 x.2 (view s x.1))
      ∧ ∀ j, j ∉ l.map Prod.fst → view s' j = view s j
  | [], s, _, _ => ⟨s, rfl, by simp, fun _ _ => rfl⟩
  | (i, a) :: l, s, hnd, hpre => by
    rw [List.map_cons, List.nodup_cons] at hnd
    obtain ⟨s₁, hs₁, hview, hframe⟩ := hstep s i a (hpre (i, a) (by simp))
    have hne : ∀ x ∈ l, x.1 ≠ i := by
      rintro x hx rfl
      exact hnd.1 (List.mem_map.2 ⟨x, hx, rfl⟩)
    obtain ⟨s₂, hs₂, hviews, hframes⟩ := hstep.foldlM hnd.2 fun x hx => by
      rw [hframe _ (hne x hx)]
      exact hpre x (by simp [hx])
    refine ⟨s₂, ?_, fun x hx => ?_, fun j hj => ?_⟩
    · rw [List.foldlM_cons, hs₁]
      exact hs₂
    · rcases List.mem_cons.1 hx with rfl | hx
      · rw [hframes _ hnd.1, hview]
      · rw [hviews x hx, hframe _ (hne x hx)]
    · rw [List.map_cons, List.mem_cons, not_or] at hj
      rw [hframes j hj.2, hframe j hj.1]

theorem OrdMap.nodup_entries {κ ν : Type*} [LinearOrder κ] (m : OrdMap κ ν) :
    (m.entries.map Prod.fst).Nodup :=
  (List.pairwise_map.2 m.sorted).imp fun h => ne_of_lt h

theorem Local.entries [LinearOrder ι] {view : σ → ι → β} {pre : ι → α → β → Prop}
    {upd : ι → α → β → β} {step : σ → ι × α → Except ε σ} (hstep : Local view pre upd step)
    {m : OrdMap ι α} {p : ι × α → Bool} {s : σ}
    (hpre : ∀ i a, m.find i = some a → p (i, a) → pre i a (view s i)) :
    ∃ s', (m.entries.filter p).foldlM step s = .ok s'
      ∧ ∀ i, view s' i = ((m.find i).filter fun a => p (i, a)).elim (view s i)
        fun a => upd i a (view s i) := by
  have hmem : ∀ x, x ∈ m.entries.filter p ↔ m.find x.1 = some x.2 ∧ p x := fun x => by
    rw [List.mem_filter, ← OrdMap.mem_entries]
  obtain ⟨s', hs', hin, hout⟩ := hstep.foldlM
    (m.nodup_entries.sublist (List.filter_sublist.map Prod.fst)) (s := s)
    fun x hx => hpre x.1 x.2 ((hmem x).1 hx).1 ((hmem x).1 hx).2
  refine ⟨s', hs', fun i => ?_⟩
  rcases hf : (m.find i).filter fun a => p (i, a) with _ | a
  · refine hout i fun hi => ?_
    obtain ⟨x, hx, rfl⟩ := List.mem_map.1 hi
    rw [((hmem x).1 hx).1, Option.filter_some, if_pos ((hmem x).1 hx).2] at hf
    cases hf
  · obtain ⟨hfind, hp⟩ := Option.filter_eq_some_iff.1 hf
    exact hin (i, a) ((hmem _).2 ⟨hfind, hp⟩)
