import Mathlib.Algebra.BigOperators.Group.List.Basic
import Mathlib.Algebra.GroupWithZero.Nat

/-!
# Strings cut at a separator

`segments sep l` is what lies between the separators of `l`, at least one segment. `rooted sep`
writes a separator before each of its segments, and cutting that gives them back after an empty
one.
-/

variable {α : Type*} [DecidableEq α] {sep : α}

/-- What lies between the separators. -/
def segments (sep : α) : List α → List (List α)
  | [] => [[]]
  | c :: l =>
    if c = sep then [] :: segments sep l
    else match segments sep l with
      | [] => [[c]]
      | s :: ss => (c :: s) :: ss

/-- The segments with a separator before each. -/
def rooted (sep : α) (ss : List (List α)) : List α := ss.flatMap (sep :: ·)

omit [DecidableEq α] in
theorem rooted_cons (s : List α) (ss : List (List α)) :
    rooted sep (s :: ss) = sep :: s ++ rooted sep ss := rfl

omit [DecidableEq α] in
theorem rooted_append (ss ss' : List (List α)) :
    rooted sep (ss ++ ss') = rooted sep ss ++ rooted sep ss' := List.flatMap_append

omit [DecidableEq α] in
theorem length_rooted (sep : α) (ss : List (List α)) :
    (rooted sep ss).length = (ss.map (·.length + 1)).sum := by
  induction ss with
  | nil => rfl
  | cons s ss ih => simp [rooted_cons, ih]; omega

theorem segments_ne_nil : ∀ l : List α, segments sep l ≠ []
  | [] => by simp [segments]
  | c :: l => by
    unfold segments
    split_ifs
    · simp
    · split <;> simp

theorem not_mem_segment : ∀ {l s : List α}, s ∈ segments sep l → sep ∉ s
  | [], s, hs => by simp_all [segments]
  | c :: l, s, hs => by
    unfold segments at hs
    split_ifs at hs with hc
    · rcases List.mem_cons.1 hs with rfl | hs
      · simp
      · exact not_mem_segment hs
    · rcases hl : segments sep l with _ | ⟨t, ts⟩
      · exact absurd hl (segments_ne_nil l)
      · simp [hl] at hs
        rcases hs with rfl | hs
        · have := not_mem_segment (show t ∈ segments sep l by simp [hl])
          simp [this, Ne.symm hc]
        · exact not_mem_segment (show s ∈ segments sep l by simp [hl, hs])

theorem sum_length_segments : ∀ l : List α,
    ((segments sep l).map (·.length + 1)).sum = l.length + 1
  | [] => by simp [segments]
  | c :: l => by
    have ih := sum_length_segments l
    unfold segments
    split_ifs
    · simp [ih]
      omega
    · rcases hl : segments sep l with _ | ⟨t, ts⟩
      · exact absurd hl (segments_ne_nil l)
      · simp [hl] at ih ⊢
        omega

theorem segments_append_rooted : ∀ {s : List α}, sep ∉ s → ∀ ss : List (List α),
    segments sep (s ++ rooted sep ss) = s :: (segments sep (rooted sep ss)).tail
  | [], _, [] => by simp [segments, rooted]
  | [], _, t :: ts => by simp [segments, rooted_cons]
  | c :: s, hs, ss => by
    have hc : c ≠ sep := fun h => hs (by simp [h])
    rw [List.cons_append, segments, if_neg hc,
      segments_append_rooted (fun h => hs (List.mem_cons_of_mem _ h)) ss]

theorem segments_rooted : ∀ {ss : List (List α)}, (∀ s ∈ ss, sep ∉ s) →
    segments sep (rooted sep ss) = [] :: ss
  | [], _ => rfl
  | s :: ss, hss => by
    rw [rooted_cons, List.cons_append, segments, if_pos rfl,
      segments_append_rooted (hss s (by simp)),
      segments_rooted fun t ht => hss t (List.mem_cons_of_mem _ ht)]
    rfl

theorem rooted_segments : ∀ l : List α, rooted sep (segments sep l) = sep :: l
  | [] => rfl
  | c :: l => by
    have ih := rooted_segments l
    unfold segments
    split_ifs with hc
    · rw [rooted_cons, ih, hc]
      rfl
    · rcases hl : segments sep l with _ | ⟨t, ts⟩
      · exact absurd hl (segments_ne_nil l)
      · rw [hl, rooted_cons, List.cons_append, List.cons.injEq] at ih
        simp [rooted_cons, ih.2]

theorem segments_append_sep (b : List α) : ∀ a : List α,
    segments sep (a ++ sep :: b) = segments sep a ++ segments sep b
  | [] => by simp [segments]
  | c :: a => by
    have ih := segments_append_sep b a
    rw [List.cons_append, segments, segments]
    split_ifs
    · rw [ih]
      rfl
    · rcases ha : segments sep a with _ | ⟨t, ts⟩
      · exact absurd ha (segments_ne_nil a)
      · rw [ih, ha]
        rfl

theorem segments_inj {a b : List α} (h : segments sep a = segments sep b) : a = b := by
  have := @rooted_segments α _ sep a
  rw [h, rooted_segments] at this
  exact (List.cons.inj this).2.symm

theorem prefix_of_segments {a b : List α} (h : segments sep a <+: segments sep b) : a <+: b := by
  obtain ⟨t, ht⟩ := h
  refine ⟨rooted sep t, ?_⟩
  have := @rooted_segments α _ sep b
  rw [← ht, rooted_append, rooted_segments, List.cons_append, List.cons.injEq] at this
  exact this.2

theorem append_sep_prefix_iff {a b : List α} :
    a ++ [sep] <+: b ↔ segments sep a <+: segments sep b ∧ a ≠ b := by
  constructor
  · rintro ⟨t, rfl⟩
    rw [List.append_assoc, List.singleton_append]
    refine ⟨⟨segments sep t, (segments_append_sep t a).symm⟩, fun h => ?_⟩
    have := congrArg List.length h
    rw [List.length_append, List.length_cons] at this
    omega
  · rintro ⟨⟨t, ht⟩, hne⟩
    rcases t with _ | ⟨s, t⟩
    · rw [List.append_nil] at ht
      exact absurd (segments_inj ht) hne
    · refine ⟨s ++ rooted sep t, ?_⟩
      have := @rooted_segments α _ sep b
      rw [← ht, rooted_append, rooted_segments, List.cons_append, List.cons.injEq,
        rooted_cons] at this
      rw [← this.2]
      simp
