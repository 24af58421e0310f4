import Mathlib.Data.List.Sort

/-!
# Insertion sort by a comparison of the elements at hand

Mathlib sorts by a relation that is transitive and total everywhere. Here it is so on the elements
of the list only.
-/

namespace List

variable {α : Type*} {r : α → α → Prop} [DecidableRel r]

theorem pairwise_orderedInsert_of_mem {a : α} : ∀ {l : List α},
    (∀ x ∈ a :: l, ∀ y ∈ a :: l, ∀ z ∈ a :: l, r x y → r y z → r x z) →
    (∀ x ∈ a :: l, ∀ y ∈ a :: l, r x y ∨ r y x) → l.Pairwise r →
    (l.orderedInsert r a).Pairwise r
  | [], _, _, _ => pairwise_singleton r a
  | b :: l, htrans, htotal, hl => by
    obtain ⟨hb, hl⟩ := pairwise_cons.1 hl
    have ha : a ∈ a :: b :: l := mem_cons_self
    have hmem : b ∈ a :: b :: l := mem_cons_of_mem a mem_cons_self
    have hsub : ∀ x ∈ a :: l, x ∈ a :: b :: l := fun x hx => (mem_cons.1 hx).elim
      (fun h => h ▸ ha) fun h => mem_cons_of_mem a (mem_cons_of_mem b h)
    rw [orderedInsert_cons]
    split_ifs with hab
    · refine pairwise_cons.2 ⟨fun x hx => ?_, pairwise_cons.2 ⟨hb, hl⟩⟩
      rcases mem_cons.1 hx with rfl | hx
      · exact hab
      · exact htrans a ha b hmem x (hsub x (mem_cons_of_mem a hx)) hab (hb x hx)
    · refine pairwise_cons.2 ⟨fun x hx => ?_, pairwise_orderedInsert_of_mem
        (fun x hx y hy z hz => htrans x (hsub x hx) y (hsub y hy) z (hsub z hz))
        (fun x hx y hy => htotal x (hsub x hx) y (hsub y hy)) hl⟩
      rcases (mem_orderedInsert r).1 hx with rfl | hx
      · exact (htotal _ ha b hmem).resolve_left hab
      · exact hb x hx

theorem pairwise_insertionSort_of_mem : ∀ {l : List α},
    (∀ x ∈ l, ∀ y ∈ l, ∀ z ∈ l, r x y → r y z → r x z) →
    (∀ x ∈ l, ∀ y ∈ l, r x y ∨ r y x) → (l.insertionSort r).Pairwise r
  | [], _, _ => .nil
  | a :: l, htrans, htotal => by
    have hsub : ∀ x ∈ a :: l.insertionSort r, x ∈ a :: l := fun x hx => (mem_cons.1 hx).elim
      (fun h => h ▸ mem_cons_self) fun h => mem_cons_of_mem a ((mem_insertionSort r).1 h)
    refine pairwise_orderedInsert_of_mem
      (fun x hx y hy z hz => htrans x (hsub x hx) y (hsub y hy) z (hsub z hz))
      (fun x hx y hy => htotal x (hsub x hx) y (hsub y hy))
      (pairwise_insertionSort_of_mem (fun x hx y hy z hz => ?_) fun x hx y hy => ?_)
    · exact htrans x (mem_cons_of_mem a hx) y (mem_cons_of_mem a hy) z (mem_cons_of_mem a hz)
    · exact htotal x (mem_cons_of_mem a hx) y (mem_cons_of_mem a hy)

end List
