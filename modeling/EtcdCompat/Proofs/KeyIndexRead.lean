import EtcdCompat.Storage.KeyIndex
import Mathlib.Data.List.Basic
import Mathlib.Tactic.Linarith

/-!
# What is read from the index of one key

A well-formed index (`KeyIndex.WF`) has generations that end before the next begin, all but the
last closed by a tombstone. A put then changes what is read from its own main revision on
(`lookup_putTo`) and a tombstone ends the key there (`lookup_tombTo`).
-/

namespace EtcdCompat

open List

namespace Generation

variable {a b : List Revision} {g : Generation} {f : Revision → Bool}

theorem walkFrom_append (f : Revision → Bool) (hb : ∀ r ∈ b, f r) :
    ∀ n, n ≤ b.length → walkFrom (a ++ b) f (a.length + n) = walkFrom (a ++ b) f a.length
  | 0, _ => rfl
  | n + 1, hn => by
    have hget : (a ++ b)[a.length + n]? = b[n]? := by
      rw [getElem?_append_right (by omega), Nat.add_sub_cancel_left]
    obtain ⟨r, hr⟩ : ∃ r, b[n]? = some r := ⟨_, getElem?_eq_getElem (by omega)⟩
    have hf : f r := hb r (mem_of_getElem? hr)
    rw [← Nat.add_assoc, walkFrom, hget, hr]
    simp [hf]
    exact walkFrom_append f hb n (by omega)

@[simp] theorem isEmpty_snoc (v : ℤ) (c x : Revision) (l : List Revision) :
    (⟨v, c, l ++ [x]⟩ : Generation).isEmpty = false := by
  simp [isEmpty]

theorem walk_none (h : ∀ r ∈ g.revs, f r) : g.walk f = none := by
  have := walkFrom_append f (a := []) h g.revs.length le_rfl
  simpa [walk, walkFrom] using this

theorem walk_some {r : Revision} (hg : g.revs = a ++ r :: b) (hr : ¬ f r) (hb : ∀ r ∈ b, f r) :
    g.walk f = some a.length := by
  have h := walkFrom_append f (a := a ++ [r]) hb b.length le_rfl
  have hlen : (a ++ [r]).length = a.length + 1 := by simp
  rw [append_assoc, singleton_append, hlen] at h
  unfold walk
  rw [hg, show (a ++ r :: b).length = a.length + 1 + b.length by simp; omega, h, walkFrom]
  simp [hr]

theorem newest_split (r : ℤ) : ∀ revs : List Revision, (∀ x ∈ revs, r < x.main)
    ∨ ∃ a x b, revs = a ++ x :: b ∧ x.main ≤ r ∧ ∀ y ∈ b, r < y.main
  | [] => .inl (by simp)
  | x :: revs => by
    rcases newest_split r revs with h | ⟨a, x', b, rfl, hx', hb⟩
    · by_cases hx : x.main ≤ r
      · exact .inr ⟨[], x, revs, rfl, hx, h⟩
      · refine .inl fun y hy => ?_
        rcases mem_cons.1 hy with rfl | hy
        · omega
        · exact h y hy
    · exact .inr ⟨x :: a, x', b, rfl, hx', hb⟩

end Generation

namespace KeyIndex

/-- The generations are `old` and then `last`: the old ones have a put and a tombstone at least,
and the last is empty only after one of them. -/
structure Split (ki : KeyIndex) (old : List Generation) (last : Generation) : Prop where
  eq : ki.generations = old ++ [last]
  closed : ∀ g ∈ old, 2 ≤ g.revs.length
  opened : last.revs = [] → old ≠ [] ∧ last.ver = 0
  sorted : (old.flatMap (·.revs) ++ last.revs).Pairwise (· < ·)
  bound : ∀ r ∈ old.flatMap (·.revs) ++ last.revs, r ≤ ki.modified

def WF (ki : KeyIndex) : Prop := ∃ old last, Split ki old last

section Find

variable {r : ℤ} {b : Bool} {g : Generation} {gs : List Generation}

theorem find_of_empty (h : g.revs = []) :
    findGenerationIn r b (g :: gs) = findGenerationIn r false gs := by
  simp [findGenerationIn, h]

theorem find_of_cons {f t : Revision} (hf : g.revs.head? = some f)
    (ht : g.revs.getLast? = some t) :
    findGenerationIn r b (g :: gs) = if ¬ b ∧ t.main ≤ r then none
      else if f.main ≤ r then some g else findGenerationIn r false gs := by
  simp [findGenerationIn, hf, ht]

theorem find_of_last {f : Revision} (hf : g.revs.head? = some f) :
    findGenerationIn r true (g :: gs)
      = if f.main ≤ r then some g else findGenerationIn r false gs := by
  obtain ⟨tomb, ht⟩ : ∃ tomb, g.revs.getLast? = some tomb := by
    rcases hg : g.revs with _ | ⟨x, tl⟩
    · simp [hg] at hf
    · exact ⟨_, getLast?_eq_getLast_of_ne_nil (by simp)⟩
  rw [find_of_cons hf ht, if_neg (by simp)]

theorem find_of_later (h : ∀ x ∈ g.revs, r < x.main) :
    findGenerationIn r b (g :: gs) = findGenerationIn r false gs := by
  rcases hg : g.revs with _ | ⟨first, tl⟩
  · exact find_of_empty hg
  · have hne : g.revs ≠ [] := by simp [hg]
    have hlast : r < (g.revs.getLast hne).main := h _ (getLast_mem hne)
    have hfirst : r < first.main := h first (by simp [hg])
    rw [find_of_cons (f := first) (t := g.revs.getLast hne) (by simp [hg])
      (getLast?_eq_getLast_of_ne_nil hne), if_neg (by omega), if_neg (by omega)]

theorem find_of_closed {tomb : Revision} (ht : g.revs.getLast? = some tomb)
    (h : tomb.main ≤ r) : findGenerationIn r false (g :: gs) = none := by
  obtain ⟨first, hf⟩ : ∃ first, g.revs.head? = some first := by
    rcases hg : g.revs with _ | ⟨first, tl⟩
    · simp [hg] at ht
    · exact ⟨first, rfl⟩
  rw [find_of_cons hf ht, if_pos ⟨by simp, h⟩]

end Find

variable {g : Generation} {r : ℤ} {rev : Revision}

theorem getIn_some {a b : List Revision} {x : Revision} (hg : g.revs = a ++ x :: b)
    (hx : x.main ≤ r) (hb : ∀ y ∈ b, r < y.main) :
    getIn g r = some (x, g.created, g.ver - b.length) := by
  have hw : g.walk (fun rev => ¬ rev.main ≤ r) = some a.length :=
    Generation.walk_some hg (by simpa using hx) (fun y hy => by simpa using hb y hy)
  have hget : g.revs[a.length]? = some x := by rw [hg]; simp
  have hlen : (g.revs.length : ℤ) - a.length - 1 = b.length := by
    rw [hg]
    simp only [length_append, length_cons]
    omega
  unfold getIn
  rw [hw]
  simp [hget, hlen]

theorem getIn_none (h : ∀ y ∈ g.revs, r < y.main) : getIn g r = none := by
  have hw : g.walk (fun rev => ¬ rev.main ≤ r) = none :=
    Generation.walk_none fun y hy => by simpa using h y hy
  unfold getIn
  rw [hw]
  rfl

variable {ki : KeyIndex} {old : List Generation} {last : Generation}

section

variable (h : Split ki old last)
include h

theorem Split.lookup_eq (r : ℤ) : ki.lookup r = (findGenerationIn r true (last :: old.reverse)).bind
      fun g => if g.isEmpty then none else getIn g r := by
  simp [lookup, findGeneration, h.eq]

theorem Split.not_isEmpty : ki.isEmpty = false := by
  unfold isEmpty
  rw [h.eq]
  rcases old with _ | ⟨g, _ | ⟨g', gs⟩⟩
  · have hne : last.revs ≠ [] := fun hl => (h.opened hl).1 rfl
    simpa [Generation.isEmpty] using hne
  · rfl
  · rfl

theorem Split.lookup_top (hr : ki.modified.main ≤ r) : (last.revs = [] → ki.lookup r = none)
      ∧ ∀ a x, last.revs = a ++ [x] → ki.lookup r = some (x, last.created, last.ver) := by
  have hle : ∀ x ∈ old.flatMap (·.revs) ++ last.revs, x.main ≤ r := fun x hx =>
    (Revision.main_le (h.bound x hx)).trans hr
  refine ⟨fun hl => ?_, fun a x hl => ?_⟩
  · rw [h.lookup_eq, find_of_empty hl]
    rcases hrev : old.reverse with _ | ⟨g, gs⟩
    · simp [findGenerationIn]
    · have hg : g ∈ old := by rw [← mem_reverse, hrev]; exact mem_cons_self
      have hne : g.revs ≠ [] := fun hn => by
        have := h.closed g hg
        simp [hn] at this
      have htomb := hle (g.revs.getLast hne) (mem_append_left _
        (mem_flatMap.2 ⟨g, hg, getLast_mem hne⟩))
      rw [find_of_closed (getLast?_eq_getLast_of_ne_nil hne) htomb]
      rfl
  · obtain ⟨first, hf⟩ : ∃ first, last.revs.head? = some first := by
      rcases a with _ | ⟨y, a⟩
      · exact ⟨x, by simp [hl]⟩
      · exact ⟨y, by simp [hl]⟩
    have hfirst := hle first (mem_append_right _ (mem_of_mem_head? hf))
    have hx := hle x (mem_append_right _ (by simp [hl]))
    rw [h.lookup_eq, find_of_last hf, if_pos hfirst, Option.bind_some,
      if_neg (by simp [Generation.isEmpty, hl]),
      getIn_some (b := []) hl hx (by simp)]
    simp

theorem Split.putTo (rev : Revision) : (ki.putTo rev).generations
      = old ++ [⟨last.ver + 1, if last.revs.length = 0 then rev else last.created,
          last.revs ++ [rev]⟩] := by
  simp [KeyIndex.putTo, h.eq, getLastD_eq_getLast?]

theorem Split.putTo_split (hr : ki.modified < rev) :
    Split (ki.putTo rev) old ⟨last.ver + 1, if last.revs.length = 0 then rev else last.created,
      last.revs ++ [rev]⟩ where
  eq := h.putTo rev
  closed := h.closed
  opened hl := by simp at hl
  sorted := by
    rw [← append_assoc, pairwise_append]
    refine ⟨h.sorted, pairwise_singleton _ _, fun x hx y hy => ?_⟩
    rw [mem_singleton.1 hy]
    exact (h.bound x hx).trans_lt hr
  bound x hx := by
    rw [← append_assoc] at hx
    rcases mem_append.1 hx with hx | hx
    · exact (h.bound x hx).trans hr.le
    · rw [mem_singleton.1 hx]
      exact le_rfl

theorem Split.lookup_putTo_lt (hr : ki.modified < rev) (hlt : r < rev.main) :
    (ki.putTo rev).lookup r = ki.lookup r := by
  rw [(h.putTo_split hr).lookup_eq, h.lookup_eq]
  by_cases hl : last.revs = []
  · rw [find_of_empty hl, find_of_later (by simpa [hl] using hlt)]
  obtain ⟨first, hf⟩ : ∃ first, last.revs.head? = some first := ⟨_, head?_eq_some_head hl⟩
  rw [find_of_last hf, find_of_last (f := first) (by rw [head?_append, hf]; rfl)]
  by_cases hle : first.main ≤ r
  swap
  · rw [if_neg hle, if_neg hle]
  have hempty : last.isEmpty = false := by simpa [Generation.isEmpty] using hl
  have hlen : last.revs.length ≠ 0 := by simpa using hl
  rw [if_pos hle, if_pos hle]
  simp [hempty, hlen, Generation.isEmpty_snoc]
  -- the newest revision read is the same, and one more stands above it
  rcases Generation.newest_split r last.revs with hall | ⟨a, x, b, hab, hx, hb⟩
  · have := hall first (mem_of_mem_head? hf)
    omega
  · have hb' : ∀ y ∈ b ++ [rev], r < y.main := by
      intro y hy
      rcases mem_append.1 hy with hy | hy
      · exact hb y hy
      · rw [mem_singleton.1 hy]
        exact hlt
    rw [getIn_some hab hx hb, getIn_some (a := a) (b := b ++ [rev]) (by rw [hab]; simp) hx hb']
    have hver : last.ver + 1 - ((b ++ [rev]).length : ℤ) = last.ver - b.length := by
      simp only [length_append, length_singleton]
      omega
    rw [hver]

end

/-- What a put makes of what is read at its main revision. -/
def afterPut (rev : Revision) :
    Option (Revision × Revision × ℤ) → Revision × Revision × ℤ
  | none => (rev, rev, 1)
  | some (_, created, ver) => (rev, created, ver + 1)

theorem WF.lookup_putTo (h : ki.WF) (hr : ki.modified < rev) (r : ℤ) : (ki.putTo rev).lookup r
      = if r < rev.main then ki.lookup r else some (afterPut rev (ki.lookup rev.main)) := by
  obtain ⟨old, last, h⟩ := h
  split_ifs with hlt
  · exact h.lookup_putTo_lt hr hlt
  · have hput := ((h.putTo_split hr).lookup_top (r := r) (not_lt.1 hlt)).2 last.revs rev rfl
    have htop := h.lookup_top (r := rev.main) (Revision.main_le hr.le)
    rw [hput]
    by_cases hl : last.revs = []
    · simp [htop.1 hl, afterPut, hl, (h.opened hl).2]
    · have hx := htop.2 _ _ (dropLast_append_getLast hl).symm
      have hlen : last.revs.length ≠ 0 := by simpa using hl
      simp [hx, afterPut, hlen]

theorem WF.putTo (h : ki.WF) (hr : ki.modified < rev) : (ki.putTo rev).WF := by
  obtain ⟨old, last, h⟩ := h
  exact ⟨_, _, h.putTo_split hr⟩

/-- What `tombstone` leaves of an index whose last generation is not empty. -/
def tombTo (ki : KeyIndex) (rev : Revision) : KeyIndex :=
  { ki.putTo rev with generations := (ki.putTo rev).generations ++ [{}] }

theorem tombTo_split (h : Split ki old last) (hr : ki.modified < rev) (hl : last.revs ≠ []) :
    Split (ki.tombTo rev) (old ++ [⟨last.ver + 1, last.created, last.revs ++ [rev]⟩]) {} where
  eq := by
    have hlen : last.revs.length ≠ 0 := by simpa using hl
    simp [tombTo, h.putTo rev, hlen]
  closed g hg := by
    rcases mem_append.1 hg with hg | hg
    · exact h.closed g hg
    · rw [mem_singleton.1 hg]
      have := length_pos_iff.2 hl
      simp
      omega
  opened _ := ⟨by simp, rfl⟩
  sorted := by
    have := (h.putTo_split hr).sorted
    simpa using this
  bound x hx := by
    have := (h.putTo_split hr).bound x
    simp only [flatMap_append, flatMap_singleton, append_nil] at hx
    exact this hx

theorem Split.tombstone_eq (h : Split ki old last) (hr : ki.modified < rev) :
    ki.tombstone rev = .ok (if last.revs = [] then none else some (ki.tombTo rev)) := by
  unfold tombstone
  rw [if_neg (by simp [h.not_isEmpty]), h.eq, getLast?_append, getLast?_singleton]
  simp [Generation.isEmpty]
  split_ifs with hl
  · rfl
  · simp only [put, if_pos (Revision.greaterThan_iff.2 hr)]
    rfl

theorem Split.lookup_tombTo (h : Split ki old last) (hr : ki.modified < rev) (hl : last.revs ≠ [])
    (r : ℤ) : (ki.tombTo rev).lookup r = if r < rev.main then ki.lookup r else none := by
  have hs := tombTo_split h hr hl
  split_ifs with hlt
  · rw [← h.lookup_putTo_lt hr hlt, hs.lookup_eq, (h.putTo_split hr).lookup_eq, find_of_empty rfl,
      reverse_append, reverse_singleton, singleton_append]
    obtain ⟨first, hf⟩ : ∃ first, last.revs.head? = some first := ⟨_, head?_eq_some_head hl⟩
    have hlen : last.revs.length ≠ 0 := by simpa using hl
    simp [hlen]
    rw [find_of_last (f := first) (by rw [head?_append, hf]; rfl),
      find_of_cons (f := first) (t := rev) (by rw [head?_append, hf]; rfl) (by simp),
      if_neg (by omega)]
  · exact (hs.lookup_top (not_lt.1 hlt)).1 rfl

theorem WF.tombstone (h : ki.WF) (hr : ki.modified < rev) (hlive : ki.lookup rev.main ≠ none) :
    ki.tombstone rev = .ok (some (ki.tombTo rev)) ∧ (ki.tombTo rev).WF
      ∧ ∀ r, (ki.tombTo rev).lookup r = if r < rev.main then ki.lookup r else none := by
  obtain ⟨old, last, h⟩ := h
  have hl : last.revs ≠ [] := fun hl => hlive ((h.lookup_top (Revision.main_le hr.le)).1 hl)
  refine ⟨?_, ⟨_, _, tombTo_split h hr hl⟩, h.lookup_tombTo hr hl⟩
  rw [h.tombstone_eq hr, if_neg hl]

theorem fresh_putTo (key : Bytes) (r : ℤ) : (({ key := key } : KeyIndex).putTo rev).WF
      ∧ (({ key := key } : KeyIndex).putTo rev).lookup r
        = if r < rev.main then none else some (afterPut rev none) := by
  have hs : Split (({ key := key } : KeyIndex).putTo rev) [] ⟨1, rev, [rev]⟩ :=
    ⟨rfl, by simp, by simp, by simp, by simp [KeyIndex.putTo]⟩
  refine ⟨⟨_, _, hs⟩, ?_⟩
  split_ifs with hlt
  · rw [hs.lookup_eq, find_of_later (by simpa using hlt)]
    rfl
  · exact (hs.lookup_top (not_lt.1 hlt)).2 [] rev rfl

end KeyIndex

end EtcdCompat
