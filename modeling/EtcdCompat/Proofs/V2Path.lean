import EtcdCompat.V2.Store

/-!
# Cleaned paths

A rooted path is cleaned to the root or to elements after slashes, none of them empty, a dot or two
dots. Cleaning that again, or with a slash at the end, gives the same.
-/

namespace EtcdCompat.GoPath

open List

variable {path : Bytes} {elems : List Bytes} {elem : Bytes}

def IsElem (elem : Bytes) : Prop := elem ≠ [] ∧ slash ∉ elem ∧ elem ≠ dot ∧ elem ≠ dotdot

def rootedPath (elems : List Bytes) : Bytes := if elems = [] then [slash] else rooted slash elems

theorem forall_isElem_cleanElem {done : List Bytes} (hdone : ∀ e ∈ done, IsElem e)
    (helem : slash ∉ elem) : ∀ e ∈ cleanElem true done elem, IsElem e := by
  unfold cleanElem
  by_cases hdot : elem = [] ∨ elem = dot
  · rw [if_pos hdot]
    exact hdone
  rw [if_neg hdot]
  by_cases hdotdot : elem = dotdot
  · rw [if_pos hdotdot]
    rcases done with _ | ⟨last, rest⟩
    · simp
    · have hlast : last ≠ dotdot := (hdone last mem_cons_self).2.2.2
      simp [hlast]
      exact fun e he => hdone e (mem_cons_of_mem _ he)
  · rw [if_neg hdotdot]
    rw [not_or] at hdot
    intro e he
    rcases mem_cons.1 he with rfl | he
    · exact ⟨hdot.1, helem, hdot.2, hdotdot⟩
    · exact hdone e he

theorem forall_isElem_foldl : ∀ {segs done : List Bytes}, (∀ s ∈ segs, slash ∉ s) →
    (∀ e ∈ done, IsElem e) → ∀ e ∈ segs.foldl (cleanElem true) done, IsElem e
  | [], _, _, hdone => hdone
  | s :: segs, done, hsegs, hdone => by
    rw [foldl_cons]
    exact forall_isElem_foldl (fun t ht => hsegs t (mem_cons_of_mem _ ht))
      (forall_isElem_cleanElem hdone (hsegs s mem_cons_self))

theorem clean_of_rooted (h : path.head? = some slash) :
    clean path = rootedPath ((segments slash path).foldl (cleanElem true) []).reverse := by
  simp [clean, h, rootedPath]

theorem exists_clean_eq (h : path.head? = some slash) :
    ∃ elems, (∀ e ∈ elems, IsElem e) ∧ clean path = rootedPath elems := by
  refine ⟨_, fun e he => ?_, clean_of_rooted h⟩
  rw [mem_reverse] at he
  exact forall_isElem_foldl (fun s hs => not_mem_segment hs) (by simp) e he

theorem cleanElem_isElem (h : IsElem elem) (isRooted : Bool) (done : List Bytes) :
    cleanElem isRooted done elem = elem :: done := by
  unfold cleanElem
  rw [if_neg (not_or.2 ⟨h.1, h.2.2.1⟩), if_neg h.2.2.2]

theorem foldl_cleanElem_isElem : ∀ {elems : List Bytes}, (∀ e ∈ elems, IsElem e) →
    ∀ done, elems.foldl (cleanElem true) done = elems.reverse ++ done
  | [], _, _ => rfl
  | e :: elems, h, done => by
    rw [foldl_cons, cleanElem_isElem (h e mem_cons_self),
      foldl_cleanElem_isElem fun e' he' => h e' (mem_cons_of_mem _ he')]
    simp

theorem head?_rootedPath (elems : List Bytes) : (rootedPath elems).head? = some slash := by
  rcases elems with _ | ⟨e, elems⟩ <;> rfl

theorem segments_rootedPath (h : ∀ e ∈ elems, IsElem e) (hne : elems ≠ []) :
    segments slash (rootedPath elems) = [] :: elems := by
  rw [rootedPath, if_neg hne, segments_rooted fun e he => (h e he).2.1]

theorem clean_rootedPath (h : ∀ e ∈ elems,
    IsElem e) : clean (rootedPath elems) = rootedPath elems := by
  rw [clean_of_rooted (head?_rootedPath elems)]
  by_cases hne : elems = []
  · subst hne
    rfl
  · rw [segments_rootedPath h hne, foldl_cons, show cleanElem true [] [] = [] from rfl,
      foldl_cleanElem_isElem h]
    simp

theorem clean_append_slash (h : path.head? = some slash) : clean (path ++ [slash]) = clean path :=
    by
  have h' : (path ++ [slash]).head? = some slash := by
    rw [head?_append, h]
    rfl
  rw [clean_of_rooted h', clean_of_rooted h, segments_append_sep, foldl_append]
  rfl

theorem getLast?_rootedPath (h : ∀ e ∈ elems, IsElem e) (hne : elems ≠ []) :
    (rootedPath elems).getLast? ≠ some slash := by
  obtain ⟨init, e, rfl⟩ : ∃ init e, elems = init ++ [e] :=
    ⟨_, _, (dropLast_append_getLast hne).symm⟩
  have he := h e (by simp)
  rw [rootedPath, if_neg hne, rooted_append]
  simp only [rooted, flatMap_cons, flatMap_nil, append_nil]
  rw [getLast?_append_of_ne_nil _ (by simp), getLast?_cons_of_ne_nil he.1]
  intro hlast
  exact he.2.1 (mem_of_getLast? hlast)

/-- A cleaned path with a slash before it. -/
structure Cleaned (path : Bytes) : Prop where
  absolute : path.head? = some slash
  clean : clean path = path

namespace Cleaned

theorem exists_elems (h : Cleaned path) : ∃ elems, (∀ e ∈ elems,
    IsElem e) ∧ path = rootedPath elems := by
  obtain ⟨elems, helems, heq⟩ := exists_clean_eq h.absolute
  exact ⟨elems, helems, h.clean.symm.trans heq⟩

theorem getLast?_iff (h : Cleaned path) : path.getLast? = some slash ↔ path = [slash] := by
  obtain ⟨elems, helems, rfl⟩ := h.exists_elems
  by_cases hne : elems = []
  · subst hne
    simp [rootedPath]
  · refine ⟨fun hlast => absurd hlast (getLast?_rootedPath helems hne), fun heq => ?_⟩
    rw [heq]
    rfl

end Cleaned

end EtcdCompat.GoPath
