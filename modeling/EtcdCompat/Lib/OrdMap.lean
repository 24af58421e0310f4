import Mathlib.Data.List.Sort
import Mathlib.Data.List.Lex
import Mathlib.Order.Lattice
import Mathlib.Tactic.Basic
import Mathlib.Tactic.SplitIfs

/-!
# Ordered maps

A map as the list of its entries, strictly ascending by key. Two maps with the same lookups are
equal (`ext_find`), and a walk over the entries visits the keys in order, so whatever is read off
a walk is settled by the lookups alone.
-/

/-- A finite map, its entries strictly ascending by key. -/
structure OrdMap (κ ν : Type*) [LinearOrder κ] where
  entries : List (κ × ν)
  sorted : entries.Pairwise fun a b => a.1 < b.1

namespace OrdMap

open List

variable {κ ν μ : Type*} [LinearOrder κ] {k : κ} {v : ν} {e : κ × ν} {m : OrdMap κ ν}

instance [DecidableEq ν] : DecidableEq (OrdMap κ ν) := fun a b =>
  decidable_of_iff (a.entries = b.entries) <| by cases a; cases b; simp

def empty : OrdMap κ ν := ⟨[], .nil⟩

instance : Inhabited (OrdMap κ ν) := ⟨empty⟩

/-- The value in a list of entries at `k`. -/
def findIn (k : κ) : List (κ × ν) → Option ν
  | [] => none
  | e :: es => if e.1 = k then some e.2 else findIn k es

def find (m : OrdMap κ ν) (k : κ) : Option ν := findIn k m.entries

/-- Puts an entry into an ascending list, in place of the one with its key. -/
def insertIn (k : κ) (v : ν) : List (κ × ν) → List (κ × ν)
  | [] => [(k, v)]
  | e :: es =>
    if k < e.1 then (k, v) :: e :: es
    else if k = e.1 then (k, v) :: es
    else e :: insertIn k v es

theorem fst_mem_insertIn : ∀ {es : List (κ × ν)},
    e ∈ insertIn k v es → e.1 = k ∨ e ∈ es
  | [], h => by simp [insertIn] at h; exact .inl (by rw [h])
  | d :: ds, h => by
    simp only [insertIn] at h
    split_ifs at h
    · rcases mem_cons.1 h with rfl | h
      · exact .inl rfl
      · exact .inr h
    · rcases mem_cons.1 h with rfl | h
      · exact .inl rfl
      · exact .inr (mem_cons_of_mem _ h)
    · rcases mem_cons.1 h with rfl | h
      · exact .inr mem_cons_self
      · rcases fst_mem_insertIn h with h | h
        · exact .inl h
        · exact .inr (mem_cons_of_mem _ h)

theorem insertIn_sorted (k : κ) (v : ν) : ∀ {es : List (κ × ν)},
    (es.Pairwise fun a b => a.1 < b.1) → (insertIn k v es).Pairwise fun a b => a.1 < b.1
  | [], _ => by simp [insertIn]
  | e :: es, h => by
    obtain ⟨he, hes⟩ := pairwise_cons.1 h
    simp only [insertIn]
    split_ifs with h1 h2
    · refine pairwise_cons.2 ⟨fun b hb => ?_, h⟩
      rcases mem_cons.1 hb with rfl | hb
      · exact h1
      · exact h1.trans (he b hb)
    · subst h2
      exact pairwise_cons.2 ⟨he, hes⟩
    · refine pairwise_cons.2 ⟨fun b hb => ?_, insertIn_sorted k v hes⟩
      rcases fst_mem_insertIn hb with hb | hb
      · rw [hb]
        exact lt_of_le_of_ne (not_lt.1 h1) (Ne.symm h2)
      · exact he b hb

def insert (m : OrdMap κ ν) (k : κ) (v : ν) : OrdMap κ ν :=
  ⟨insertIn k v m.entries, insertIn_sorted k v m.sorted⟩

def erase (m : OrdMap κ ν) (k : κ) : OrdMap κ ν :=
  ⟨m.entries.filter fun e => e.1 ≠ k, m.sorted.filter _⟩

theorem findIn_eq_some_iff : ∀ {es : List (κ × ν)},
    (es.Pairwise fun a b => a.1 < b.1) → (findIn k es = some v ↔ (k, v) ∈ es)
  | [], _ => by simp [findIn]
  | e :: es, h => by
    obtain ⟨he, hes⟩ := pairwise_cons.1 h
    simp only [findIn]
    split_ifs with hk
    · subst hk
      simp
      refine ⟨fun h => .inl (by rw [← h]), ?_⟩
      rintro (h | h)
      · rw [← h]
      · exact absurd (he _ h) (lt_irrefl _)
    · rw [findIn_eq_some_iff hes, mem_cons]
      exact ⟨.inr, fun h => h.resolve_left fun h => hk (by rw [← h])⟩

theorem mem_entries : (k, v) ∈ m.entries ↔ m.find k = some v :=
  (findIn_eq_some_iff m.sorted).symm

theorem find_of_mem (h : e ∈ m.entries) : m.find e.1 = some e.2 :=
  mem_entries.1 h

theorem entries_ext {l l' : List (κ × ν)} (hl : l.Pairwise fun a b => a.1 < b.1)
    (hl' : l'.Pairwise fun a b => a.1 < b.1) (h : ∀ e, e ∈ l ↔ e ∈ l') : l = l' := by
  exact hl.eq_of_mem_iff hl' h

theorem ext_find {m m' : OrdMap κ ν} (h : ∀ k, m.find k = m'.find k) : m = m' := by
  have he : m.entries = m'.entries := entries_ext m.sorted m'.sorted fun e => by
    rw [show e = (e.1, e.2) from rfl, mem_entries, mem_entries, h]
  cases m; cases m'
  simpa using he

@[simp] theorem find_empty (k : κ) : (empty : OrdMap κ ν).find k = none := rfl

theorem findIn_insertIn (k k' : κ) (v : ν) : ∀ (es : List (κ × ν)),
    (es.Pairwise fun a b => a.1 < b.1) →
    findIn k' (insertIn k v es) = if k = k' then some v else findIn k' es
  | [], _ => by simp [insertIn, findIn]
  | e :: es, h => by
    obtain ⟨he, hes⟩ := pairwise_cons.1 h
    simp only [insertIn]
    by_cases h1 : k < e.1
    · rw [if_pos h1]
      simp [findIn]
    rw [if_neg h1]
    by_cases h2 : k = e.1
    · rw [if_pos h2]
      simp only [findIn, ← h2]
      split_ifs <;> rfl
    rw [if_neg h2]
    simp only [findIn, findIn_insertIn k k' v es hes]
    by_cases h3 : k = k'
    · rw [if_pos h3, if_pos h3, if_neg (by rw [← h3]; exact Ne.symm h2)]
    · rw [if_neg h3, if_neg h3]

theorem find_insert (m : OrdMap κ ν) (k k' : κ) (v : ν) :
    (m.insert k v).find k' = if k = k' then some v else m.find k' :=
  findIn_insertIn k k' v m.entries m.sorted

@[simp] theorem find_insert_self (m : OrdMap κ ν) (k : κ) (v : ν) :
    (m.insert k v).find k = some v := by
  rw [find_insert, if_pos rfl]

theorem find_insert_ne {k k' : κ} (h : k ≠ k') : (m.insert k v).find k' = m.find k' := by
  rw [find_insert, if_neg h]

def filter (m : OrdMap κ ν) (p : κ → Bool) : OrdMap κ ν :=
  ⟨m.entries.filter fun e => p e.1, m.sorted.filter _⟩

theorem find_filter (m : OrdMap κ ν) (p : κ → Bool) (k : κ) :
    (m.filter p).find k = if p k then m.find k else none := by
  have hmem : ∀ v, (m.filter p).find k = some v ↔ p k ∧ m.find k = some v := by
    intro v
    rw [← mem_entries, ← mem_entries]
    simp [filter, and_comm]
  split_ifs with hp
  · rcases hk : m.find k with _ | v
    · rcases hf : (m.filter p).find k with _ | v
      · rfl
      · exact absurd ((hmem v).1 hf).2 (by simp [hk])
    · exact (hmem v).2 ⟨hp, hk⟩
  · rcases hf : (m.filter p).find k with _ | v
    · rfl
    · exact absurd ((hmem v).1 hf).1 hp

theorem erase_eq_filter (m : OrdMap κ ν) (k : κ) : m.erase k = m.filter fun k' => k' ≠ k := rfl

theorem find_erase (m : OrdMap κ ν) (k k' : κ) :
    (m.erase k).find k' = if k' = k then none else m.find k' := by
  rw [erase_eq_filter, find_filter]
  by_cases h : k' = k <;> simp [h]

def mapVal (m : OrdMap κ ν) (f : κ → ν → μ) : OrdMap κ μ :=
  ⟨m.entries.map fun e => (e.1, f e.1 e.2), List.pairwise_map.2 m.sorted⟩

theorem find_mapVal (m : OrdMap κ ν) (f : κ → ν → μ) (k : κ) :
    (m.mapVal f).find k = (m.find k).map (f k) := by
  have hmap : ∀ es : List (κ × ν),
      findIn k (es.map fun e => (e.1, f e.1 e.2)) = (findIn k es).map (f k) := by
    intro es
    induction es with
    | nil => rfl
    | cons e es ih =>
      simp [findIn, ih]
      split_ifs with hk
      · rw [hk]
        rfl
      · rfl
  exact hmap m.entries

theorem find_foldl_insert {ι : Type*} (key : ι → κ) (val : ι → ν) :
    ∀ (l : List ι) (m : OrdMap κ ν), (∀ x ∈ l, ∀ y ∈ l, key x = key y → val x = val y) →
    ∀ k v, (l.foldl (fun m x => m.insert (key x) (val x)) m).find k = some v ↔
      (∃ x ∈ l, key x = k ∧ val x = v) ∨ (∀ x ∈ l, key x ≠ k) ∧ m.find k = some v
  | [], m, _, k, v => by simp
  | x :: l, m, hl, k, v => by
    have ih := find_foldl_insert key val l (m.insert (key x) (val x))
      (fun y hy z hz => hl y (mem_cons_of_mem _ hy) z (mem_cons_of_mem _ hz)) k v
    rw [foldl_cons, ih, find_insert]
    constructor
    · rintro (⟨y, hy, h1, h2⟩ | ⟨hno, hv⟩)
      · exact .inl ⟨y, mem_cons_of_mem _ hy, h1, h2⟩
      · split_ifs at hv with hk
        · exact .inl ⟨x, mem_cons_self, hk, Option.some.inj hv⟩
        · exact .inr ⟨forall_mem_cons.2 ⟨hk, hno⟩, hv⟩
    · rintro (⟨y, hy, h1, h2⟩ | ⟨hno, hv⟩)
      · by_cases hex : ∃ z ∈ l, key z = k
        · obtain ⟨z, hz, hzk⟩ := hex
          refine .inl ⟨z, hz, hzk, ?_⟩
          rw [← h2]
          exact hl z (mem_cons_of_mem _ hz) y hy (hzk.trans h1.symm)
        · rcases mem_cons.1 hy with rfl | hy
          · refine .inr ⟨fun z hz hzk => hex ⟨z, hz, hzk⟩, ?_⟩
            rw [if_pos h1, h2]
          · exact absurd ⟨y, hy, h1⟩ hex
      · obtain ⟨hx, hno⟩ := forall_mem_cons.1 hno
        exact .inr ⟨hno, by rw [if_neg hx]; exact hv⟩

theorem find_foldl_erase (k : κ) : ∀ (ks : List κ) (m : OrdMap κ ν),
    (ks.foldl erase m).find k = if k ∈ ks then none else m.find k
  | [], m => by simp
  | k' :: ks, m => by
    rw [foldl_cons, find_foldl_erase k ks, find_erase]
    by_cases h : k ∈ ks
    · simp [h]
    · by_cases h' : k = k' <;> simp [h, h']

/-- The entries from `lo` up to but not including `hi`, in order. -/
def slice (m : OrdMap κ ν) (lo hi : κ) : List (κ × ν) :=
  m.entries.filter fun e => lo ≤ e.1 ∧ e.1 < hi

theorem mem_slice {lo hi k : κ} : (k, v) ∈ m.slice lo hi ↔ m.find k = some v ∧ lo ≤ k ∧ k < hi := by
  simp [slice, mem_entries]

theorem slice_sorted (m : OrdMap κ ν) (lo hi : κ) :
    (m.slice lo hi).Pairwise fun a b => a.1 < b.1 :=
  m.sorted.filter _

theorem insertIn_of_lt : ∀ {es : List (κ × ν)}, (∀ e ∈ es, e.1 < k) →
    insertIn k v es = es ++ [(k, v)]
  | [], _ => rfl
  | e :: es, h => by
    have he : e.1 < k := h e mem_cons_self
    rw [insertIn, if_neg (not_lt.2 he.le), if_neg (ne_of_gt he),
      insertIn_of_lt fun d hd => h d (mem_cons_of_mem _ hd), cons_append]

theorem le_of_getLast? {l : List (κ × ν)} (hl : l.Pairwise fun a b => a.1 < b.1) {d x : κ × ν}
    (hd : l.getLast? = some d) (hx : x ∈ l) : x.1 ≤ d.1 := by
  obtain ⟨l', y, rfl⟩ := (eq_nil_or_concat l).resolve_left (ne_nil_of_mem hx)
  rw [concat_eq_append] at hl hd hx
  rw [getLast?_concat, Option.some.injEq] at hd
  rcases mem_append.1 hx with hx | hx
  · rw [← hd]
    exact ((pairwise_append.1 hl).2.2 x hx y (by simp)).le
  · rw [mem_singleton.1 hx, hd]

/-- The last entry that passes a test. -/
def last (m : OrdMap κ ν) (p : κ × ν → Bool) : Option (κ × ν) := (m.entries.filter p).getLast?

theorem last_eq_some_iff {p : κ × ν → Bool} :
    m.last p = some e ↔ e ∈ m.entries ∧ p e ∧ ∀ d ∈ m.entries, p d → d.1 ≤ e.1 := by
  have hs := m.sorted.filter (p ·)
  have hmem : ∀ d, d ∈ m.entries.filter p ↔ d ∈ m.entries ∧ p d := fun d => mem_filter
  unfold last
  rcases eq_nil_or_concat (m.entries.filter p) with hl | ⟨l, x, hl⟩
  · simp only [hl, getLast?_nil, reduceCtorEq, false_iff]
    rintro ⟨he, hp, -⟩
    have := (hmem e).2 ⟨he, hp⟩
    simp [hl] at this
  · rw [concat_eq_append] at hl
    rw [hl] at hs hmem ⊢
    have hlt := (pairwise_append.1 hs).2.2
    rw [getLast?_concat, Option.some.injEq]
    constructor
    · rintro rfl
      obtain ⟨h1, h2⟩ := (hmem x).1 (by simp)
      refine ⟨h1, h2, fun d hd hp => ?_⟩
      rcases mem_append.1 ((hmem d).2 ⟨hd, hp⟩) with h | h
      · exact (hlt d h x (by simp)).le
      · rw [mem_singleton.1 h]
    · rintro ⟨he, hp, hmax⟩
      have hx := (hmem x).1 (by simp)
      rcases mem_append.1 ((hmem e).2 ⟨he, hp⟩) with h | h
      · exact absurd (hlt e h x (by simp)) (not_lt.2 (hmax x hx.1 hx.2))
      · exact (mem_singleton.1 h).symm

theorem last_insert (h : ∀ e ∈ m.entries, e.1 < k) (p : κ × ν → Bool) :
    (m.insert k v).last p = if p (k, v) then some (k, v) else m.last p := by
  unfold last insert
  simp [insertIn_of_lt h]
  by_cases hp : p (k, v) = true <;> simp [hp]

end OrdMap
