import Mathlib.Data.List.Basic
import Mathlib.Data.List.Induction
import Mathlib.Order.Nat
import Mathlib.Tactic.SplitIfs

/-!
# Logs that are written over

Numbered elements are saved one after the other, and each replaces those before it whose number is
not smaller: `replay` is what is left. A reader can also put each element at its place in an array
(`placed`). The two agree exactly if what is left has no gaps, as long as the elements are `Steady`.
-/

namespace Overwrite

open List

variable {α : Type*} (ix : α → ℕ)

section Replay

variable {es : List α} {s : ℕ} {e : α}

def overwrite (log : List α) (e : α) : List α := log.filter (fun x => ix x < ix e) ++ [e]

def replay (es : List α) : List α := es.foldl (overwrite ix) []

theorem replay_concat (es : List α) (e : α) :
    replay ix (es ++ [e]) = (replay ix es).filter (fun x => ix x < ix e) ++ [e] := by
  rw [replay, foldl_append]
  rfl

theorem replay_append (as bs : List α) : replay ix (as ++ bs)
    = (replay ix as).filter (fun x => bs.all fun b => ix x < ix b) ++ replay ix bs := by
  induction bs using reverseRecOn with
  | nil => simp [replay]
  | append_singleton bs b ih =>
    rw [← append_assoc, replay_concat, ih, filter_append, filter_filter, replay_concat,
      append_assoc]
    congr 1
    refine filter_congr fun x _ => ?_
    simp [Bool.and_comm]

theorem le_of_mem_replay_concat {e x : α} (h : x ∈ replay ix (es ++ [e])) : ix x ≤ ix e := by
  rw [replay_concat, mem_append, mem_filter, mem_singleton] at h
  rcases h with ⟨-, h⟩ | rfl
  · exact (of_decide_eq_true h).le
  · exact Nat.le_refl _

/-- What is left above a number. -/
def above (s : ℕ) (es : List α) : List α := (replay ix es).filter fun x => s < ix x

theorem above_append {as bs : List α} (h : ∀ x ∈ replay ix as, ix x ≤ s) :
    above ix s (as ++ bs) = above ix s bs := by
  rw [above, replay_append, filter_append, filter_eq_nil_iff.2, nil_append, above]
  intro x hx
  have := h x (mem_of_mem_filter hx)
  simpa using this

theorem above_concat_of_le (h : ix e ≤ s) : above ix s (es ++ [e]) = [] := by
  refine filter_eq_nil_iff.2 fun x hx => ?_
  have := le_of_mem_replay_concat ix hx
  simpa using this.trans h

theorem above_concat_of_lt (h : s < ix e) :
    above ix s (es ++ [e]) = (above ix s es).filter (fun x => ix x < ix e) ++ [e] := by
  rw [above, replay_concat, filter_append, filter_cons_of_pos (by simpa using h), above,
    filter_filter, filter_filter]
  congr 1
  exact filter_congr fun x _ => Bool.and_comm ..

end Replay

section LastAt

def lastAt (es : List α) (n : ℕ) : Option α := es.reverse.find? fun x => ix x = n

theorem lastAt_concat (es : List α) (e : α) (n : ℕ) :
    lastAt ix (es ++ [e]) n = if ix e = n then some e else lastAt ix es n := by
  simp [lastAt, find?_cons]
  split_ifs with h <;> simp [h]

theorem lastAt_of_mem_replay {es : List α} : ∀ {x}, x ∈ replay ix es →
    lastAt ix es (ix x) = some x := by
  induction es using reverseRecOn with
  | nil => simp [replay]
  | append_singleton es e ih =>
    intro x hx
    rw [replay_concat, mem_append, mem_filter, mem_singleton] at hx
    rw [lastAt_concat]
    rcases hx with ⟨hx, hlt⟩ | rfl
    · rw [if_neg (of_decide_eq_true hlt).ne', ih hx]
    · rw [if_pos rfl]

end LastAt

section Placed

variable {s : ℕ} {arr : List α} {es : List α} {k : ℕ}

def place (arr : List α) (k : ℕ) (e : α) : List α :=
  if k < arr.length then arr.set k e else arr ++ [e]

def put (s : ℕ) (arr : List α) (e : α) : List α :=
  if s < ix e then place arr (ix e - s - 1) e else arr

def placed (s : ℕ) (es : List α) : List α := es.foldl (put ix s) []

def putLen (s : ℕ) (n : ℕ) (e : α) : ℕ := if s < ix e then ix e - s else n

def placedLen (s : ℕ) (es : List α) : ℕ := es.foldl (putLen ix s) 0

/-- No element is more than one above the highest of those before it. -/
def Steady : ℕ → List α → Prop
  | _, [] => True
  | top, e :: es => ix e ≤ top + 1 ∧ Steady (max top (ix e)) es

instance decidableSteady : ∀ (top : ℕ) (es : List α), Decidable (Steady ix top es)
  | _, [] => inferInstanceAs (Decidable True)
  | top, e :: es =>
    have := decidableSteady (max top (ix e)) es
    inferInstanceAs (Decidable (_ ∧ _))

def top (s : ℕ) (es : List α) : ℕ := es.foldl (fun n e => max n (ix e)) s

theorem steady_append {as bs : List α} :
    Steady ix s (as ++ bs) ↔ Steady ix s as ∧ Steady ix (top ix s as) bs := by
  induction as generalizing s with
  | nil => simp [Steady, top]
  | cons a as ih =>
    rw [cons_append, Steady, ih, Steady, and_assoc]
    rfl

theorem top_concat (s : ℕ) (es : List α) (e : α) :
    top ix s (es ++ [e]) = max (top ix s es) (ix e) := by
  rw [top, foldl_append]
  rfl

theorem le_top (s : ℕ) (es : List α) : s ≤ top ix s es := by
  induction es using reverseRecOn with
  | nil => exact Nat.le_refl s
  | append_singleton es e ih =>
    rw [top_concat]
    omega

theorem getElem?_place (hk : k ≤ arr.length) (e : α) (i : ℕ) :
    (place arr k e)[i]? = if i = k then some e else arr[i]? := by
  unfold place
  split_ifs with h hi hi
  · subst hi
    rw [getElem?_set_self h]
  · rw [getElem?_set_ne (Ne.symm hi)]
  · have hlen : k = arr.length := by omega
    subst hi hlen
    simp
  · rw [getElem?_append]
    split_ifs with hlt
    · rfl
    · rw [getElem?_singleton, if_neg (by omega), getElem?_eq_none (by omega)]

theorem length_place (hk : k ≤ arr.length) (e : α) :
    (place arr k e).length = max arr.length (k + 1) := by
  unfold place
  split_ifs with h
  · rw [length_set]
    omega
  · rw [length_append, length_singleton]
    omega

theorem placed_concat (s : ℕ) (es : List α) (e : α) :
    placed ix s (es ++ [e]) = put ix s (placed ix s es) e := by
  rw [placed, foldl_append]
  rfl

theorem placedLen_concat (s : ℕ) (es : List α) (e : α) :
    placedLen ix s (es ++ [e]) = putLen ix s (placedLen ix s es) e := by
  rw [placedLen, foldl_append]
  rfl

theorem Steady.getElem_placed (h : Steady ix s es) : (placed ix s es).length = top ix s es - s
      ∧ ∀ i < top ix s es - s, (placed ix s es)[i]? = lastAt ix es (s + 1 + i) := by
  induction es using reverseRecOn with
  | nil => simp [placed, top]
  | append_singleton es e ih =>
    obtain ⟨hes, hstep, -⟩ := (steady_append ix).1 h
    obtain ⟨hlen, hget⟩ := ih hes
    have hle := le_top ix s es
    rw [placed_concat, put, top_concat]
    split_ifs with hlt
    · have hk : ix e - s - 1 ≤ (placed ix s es).length := by omega
      refine ⟨by rw [length_place hk, hlen]; omega, fun i hi => ?_⟩
      rw [getElem?_place hk, lastAt_concat]
      by_cases hie : ix e = s + 1 + i
      · rw [if_pos (by omega), if_pos hie]
      · rw [if_neg (by omega), if_neg hie, hget i (by omega)]
    · refine ⟨by rw [hlen]; omega, fun i hi => ?_⟩
      rw [lastAt_concat, if_neg (by omega), hget i (by omega)]

theorem placedLen_le (es : List α) : placedLen ix s es ≤ top ix s es - s := by
  induction es using reverseRecOn with
  | nil => simp [placedLen]
  | append_singleton es e ih =>
    rw [placedLen_concat, putLen, top_concat]
    split_ifs <;> omega

theorem placedLen_eq_zero_iff : placedLen ix s es = 0 ↔ ∀ e ∈ es, ix e ≤ s := by
  induction es using reverseRecOn with
  | nil => simp [placedLen]
  | append_singleton es e ih =>
    rw [placedLen_concat, putLen]
    split_ifs with h
    · refine ⟨fun h0 => by omega, fun hall => ?_⟩
      have := hall e (by simp)
      omega
    · rw [ih]
      simp
      exact ⟨fun hall x hx => hx.elim (hall x) fun hx => by rw [hx]; omega,
        fun hall x hx => hall x (.inl hx)⟩

theorem placedLen_of_above_ne_nil (h : above ix s es ≠ []) :
    ∃ e, (above ix s es).getLast? = some e ∧ placedLen ix s es = ix e - s := by
  induction es using reverseRecOn with
  | nil => exact absurd rfl h
  | append_singleton es e _ =>
    by_cases hlt : s < ix e
    · refine ⟨e, ?_, ?_⟩
      · rw [above_concat_of_lt ix hlt, getLast?_concat]
      · rw [placedLen_concat, putLen, if_pos hlt]
    · exact absurd (above_concat_of_le ix (not_lt.1 hlt)) h

end Placed

section Numbered

variable {es : List α} {e : α} {n : ℕ} {s : ℕ}

/-- The elements have the numbers from `n` on, without gaps. -/
def Numbered (n : ℕ) (es : List α) : Prop := es.map ix = List.range' n es.length

instance (n : ℕ) (es : List α) : Decidable (Numbered ix n es) :=
  inferInstanceAs (Decidable (_ = _))

variable {ix}

theorem Numbered.getElem {n i : ℕ} (h : Numbered ix n es) (he : es[i]? = some e) :
    ix e = n + i := by
  have hmap : (es.map ix)[i]? = some (ix e) := by rw [List.getElem?_map, he, Option.map_some]
  have hi := (List.getElem?_eq_some_iff.1 he).1
  rw [h, List.getElem?_range' hi] at hmap
  simp at hmap
  omega

theorem Numbered.getLast (h : Numbered ix n es) (he : es.getLast? = some e) :
    ix e + 1 = n + es.length := by
  rw [List.getLast?_eq_getElem?] at he
  have hlt := (List.getElem?_eq_some_iff.1 he).1
  have := h.getElem he
  omega

theorem numbered_of_getElem (h : ∀ i e, es[i]? = some e → ix e = n + i) : Numbered ix n es := by
  refine List.ext_getElem? fun i => ?_
  rw [List.getElem?_map]
  rcases he : es[i]? with _ | e
  · rw [List.getElem?_eq_none (by simpa using he)]
    rfl
  · rw [List.getElem?_range' (List.getElem?_eq_some_iff.1 he).1, Option.map_some, h i e he,
      Nat.one_mul]

theorem Steady.numbered_take (h : Steady ix s es) (n : ℕ) :
    Numbered ix (s + 1) ((placed ix s es).take n) := by
  obtain ⟨hlen, hget⟩ := h.getElem_placed
  refine numbered_of_getElem fun i e he => ?_
  have he' : (placed ix s es)[i]? = some e := by
    rw [List.getElem?_take] at he
    split_ifs at he
    exact he
  rw [hget i (by have := (List.getElem?_eq_some_iff.1 he').1; omega)] at he'
  have hx := List.find?_some (show es.reverse.find? (fun x => ix x = s + 1 + i) = some e from he')
  exact of_decide_eq_true hx

theorem Steady.take_placed_eq_iff (h : Steady ix s es) :
    (placed ix s es).take (placedLen ix s es) = above ix s es ↔
      Numbered ix (s + 1) (above ix s es) ∧ (above ix s es = [] → ∀ e ∈ es, ix e ≤ s) := by
  obtain ⟨hlen, hget⟩ := h.getElem_placed
  have hle := placedLen_le ix (s := s) es
  constructor
  · intro heq
    refine ⟨heq ▸ h.numbered_take _, fun hnil => (placedLen_eq_zero_iff ix).1 ?_⟩
    rw [hnil, take_eq_nil_iff] at heq
    rcases heq with heq | heq
    · exact heq
    · rw [heq, length_nil] at hlen
      omega
  · rintro ⟨hnum, hnil⟩
    by_cases h0 : above ix s es = []
    · rw [h0, (placedLen_eq_zero_iff ix).2 (hnil h0), take_zero]
    · obtain ⟨e, hlast, hcount⟩ := placedLen_of_above_ne_nil ix h0
      have hsize := hnum.getLast hlast
      refine ext_getElem? fun i => ?_
      by_cases hi : i < (above ix s es).length
      · obtain ⟨x, hx⟩ : ∃ x, (above ix s es)[i]? = some x := ⟨_, getElem?_eq_getElem hi⟩
        have hmem : x ∈ replay ix es := mem_of_mem_filter (mem_of_getElem? hx)
        rw [getElem?_take, if_pos (by omega), hget i (by omega), hx, ← hnum.getElem hx]
        exact lastAt_of_mem_replay ix hmem
      · rw [getElem?_eq_none (by rw [length_take]; omega), getElem?_eq_none (by omega)]

end Numbered

end Overwrite
