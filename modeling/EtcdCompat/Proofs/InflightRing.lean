import Mathlib.Order.Nat
import EtcdCompat.Lib.Outcome
import EtcdCompat.Raft.Progress

/-!
# The ring of the messages in flight

The cells from `start` on, around the end, are the queue, oldest first. Each operation on the ring
is that on the queue, and with indices added in order freeing takes the elements up to a bound.
-/

namespace EtcdCompat

open List

/-- The ring has the elements of the queue. -/
structure InflightRing.Holds (r : InflightRing) (ins : Inflights) : Prop where
  size : r.size = ins.size
  buffer : r.buffer.length = r.size
  count : r.count = ins.buffer.length
  le : r.count ≤ r.size
  start : r.start < r.size ∨ r.start = 0
  get : ∀ k, k < r.count → r.buffer[r.wrap (r.start + k)]? = ins.buffer[k]?

namespace InflightRing

theorem Holds.new (size : ℕ) : (new size).Holds { size := size } :=
  ⟨rfl, length_replicate, rfl, Nat.zero_le _, .inr rfl, fun k hk =>
    absurd hk (Nat.not_lt_zero k)⟩

namespace Holds

variable {r : InflightRing} {ins : Inflights} (h : r.Holds ins) {k m : ℕ}
include h

theorem full_iff : r.full = ins.full := by
  rw [full, Inflights.full, h.count, h.size]

theorem wrap_wrap (hk : m + k ≤ r.size) :
    r.wrap (r.wrap (r.start + m) + k) = r.wrap (r.start + (m + k)) := by
  have := h.start
  unfold wrap
  split_ifs <;> omega

theorem wrap_start : r.wrap (r.start + 0) = r.start := by
  have := h.start
  unfold wrap
  split_ifs <;> omega

theorem add (inflight : ℕ) : Agree Holds (r.add inflight) (ins.add inflight) := by
  have hstart := h.start
  have hle := h.le
  unfold InflightRing.add Inflights.add
  rw [← h.full_iff]
  split_ifs with hfull
  · rfl
  have hlt : r.count < r.size := Nat.lt_of_le_of_ne hle fun heq => hfull (by simp [full, heq])
  have hwrap : ∀ k, k ≤ r.count → r.wrap (r.start + k) < r.size := by
    intro k hk
    unfold wrap
    split_ifs <;> omega
  have hne : ∀ k, k < r.count → r.wrap (r.start + r.count) ≠ r.wrap (r.start + k) := by
    intro k hk
    unfold wrap
    split_ifs <;> omega
  simp only [h.buffer]
  rw [if_pos (hwrap r.count le_rfl)]
  refine ⟨h.size, ?_, ?_, hlt, hstart, fun k hk => ?_⟩
  · rw [length_set, h.buffer]
  · rw [length_append, h.count]
    rfl
  · change (r.buffer.set _ inflight)[r.wrap (r.start + k)]? = _
    have hlast : (ins.buffer ++ [inflight])[r.count]? = some inflight := by
      rw [h.count, getElem?_concat_length]
    rcases Nat.lt_succ_iff_lt_or_eq.1 hk with hk | rfl
    · rw [getElem?_set_ne (hne k hk), h.get k hk, getElem?_append_left (h.count ▸ hk)]
    · rw [getElem?_set_self (by rw [h.buffer]; exact hwrap _ le_rfl), hlast]

theorem drop (hm : m ≤ r.count) :
    Holds { r with count := r.count - m, start := r.wrap (r.start + m) }
      { ins with buffer := ins.buffer.drop m } := by
  have hstart := h.start
  have hle := h.le
  refine ⟨h.size, h.buffer, ?_, (Nat.sub_le _ _).trans hle, ?_, fun k hk => ?_⟩
  · rw [length_drop, h.count]
  · unfold wrap
    split_ifs <;> simp only <;> omega
  · change k < r.count - m at hk
    change r.buffer[r.wrap (r.wrap (r.start + m) + k)]? = _
    rw [h.wrap_wrap (by omega), h.get _ (by omega), getElem?_drop]

theorem cell_eq {x : ℕ} (hk : ins.buffer[k]? = some x) : r.cell (r.wrap (r.start + k)) = .ok x := by
  rw [cell, h.get k (h.count ▸ (List.getElem?_eq_some_iff.1 hk).1), hk]
  rfl

theorem cell_start {x : ℕ} {rest : List ℕ} (hb : ins.buffer = x :: rest) :
    r.cell r.start = .ok x := by
  rw [← h.wrap_start]
  exact h.cell_eq (by rw [hb]; rfl)

theorem freeLoop_eq (to_ : ℕ) : ∀ {rest : List ℕ} {j : ℕ}, ins.buffer.drop j = rest →
    ∃ m, m ≤ rest.length ∧ rest.drop m = rest.dropWhile (· ≤ to_) ∧
      r.freeLoop to_ rest.length j (r.wrap (r.start + j)) =
        .ok (j + m, r.wrap (r.start + (j + m)))
  | [], j, _ => ⟨0, le_rfl, rfl, rfl⟩
  | x :: rest, j, hrest => by
    have hj : ins.buffer[j]? = some x := by
      rw [← List.head?_drop, hrest]
      rfl
    have hlt : j < r.count := h.count ▸ (List.getElem?_eq_some_iff.1 hj).1
    rw [List.length_cons, freeLoop, h.cell_eq hj]
    by_cases hx : x ≤ to_
    · obtain ⟨m, hm, hdrop, hloop⟩ := freeLoop_eq to_ (show ins.buffer.drop (j + 1) = rest by
        rw [← List.drop_drop, hrest]
        rfl)
      refine ⟨m + 1, Nat.succ_le_succ hm, ?_, ?_⟩
      · rw [List.drop_succ_cons, hdrop, List.dropWhile_cons_of_pos (by simpa using hx)]
      · change (if to_ < x then _ else r.freeLoop _ _ _ _) = _
        rw [if_neg (by omega), h.wrap_wrap (by have := h.le; omega), hloop]
        simp only [Nat.add_assoc, Nat.add_comm 1]
    · refine ⟨0, Nat.zero_le _, ?_, ?_⟩
      · rw [List.drop_zero, List.dropWhile_cons_of_neg (by simpa using hx)]
      · change (if to_ < x then _ else r.freeLoop _ _ _ _) = _
        rw [if_pos (by omega)]
        rfl

theorem freeTo (to_ : ℕ) : ∃ r', r.freeTo to_ = .ok r' ∧ r'.Holds (ins.freeTo to_) := by
  unfold InflightRing.freeTo Inflights.freeTo
  rcases hb : ins.buffer with _ | ⟨x, rest⟩
  · have h0 : r.count = 0 := by rw [h.count, hb]; rfl
    refine ⟨r, if_pos h0, ?_⟩
    rw [dropWhile_nil, ← hb]
    exact h
  have hpos : 0 < r.count := by rw [h.count, hb]; exact Nat.succ_pos _
  rw [if_neg hpos.ne', h.cell_start hb]
  obtain ⟨m, hm, hdrop, hloop⟩ := h.freeLoop_eq to_ (show ins.buffer.drop 0 = x :: rest from hb)
  rw [h.wrap_start, ← hb, ← h.count, Nat.zero_add] at hloop
  by_cases hx : to_ < x
  · refine ⟨r, if_pos hx, ?_⟩
    rw [dropWhile_cons_of_neg (by simpa using hx), ← hb]
    exact h
  · refine ⟨_, (if_neg hx).trans (by rw [hloop]; rfl), ?_⟩
    rw [← hdrop, ← hb]
    exact h.drop (by rw [h.count, hb]; exact hm)

theorem freeFirstOne (hne : ins.buffer ≠ []) :
    ∃ r', r.freeFirstOne = .ok r' ∧ r'.Holds ins.freeFirstOne := by
  unfold InflightRing.freeFirstOne Inflights.freeFirstOne
  rcases hb : ins.buffer with _ | ⟨x, rest⟩
  · exact absurd hb hne
  · rw [h.cell_start hb]
    exact h.freeTo x

theorem reset : r.reset.Holds ins.reset :=
  ⟨h.size, h.buffer, rfl, Nat.zero_le _, .inr rfl, fun k hk => absurd hk (Nat.not_lt_zero k)⟩

end Holds

end InflightRing

section Run

/-- The calls on `inflights`. -/
inductive InflightOp where
  | add (inflight : ℕ)
  | freeTo (to_ : ℕ)
  | freeFirstOne
  | reset

def InflightRing.call (r : InflightRing) : InflightOp → Except Panic InflightRing
  | .add inflight => r.add inflight
  | .freeTo to_ => r.freeTo to_
  | .freeFirstOne => r.freeFirstOne
  | .reset => .ok r.reset

/-- The indices added and not yet freed. -/
def InflightOp.live (l : List ℕ) : InflightOp → List ℕ
  | .add inflight => l ++ [inflight]
  | .freeTo to_ => l.filter (to_ < ·)
  | .freeFirstOne => l.tail
  | .reset => []

/-- Indices are added in order and within the capacity, and the oldest is freed if there is one. -/
def InflightOp.Permitted (size : ℕ) (l : List ℕ) : InflightOp → Prop
  | .add inflight => l.length < size ∧ ∀ i ∈ l, i < inflight
  | .freeFirstOne => l ≠ []
  | _ => True

/-- Every call is permitted after those before it. -/
def AllPermitted (size : ℕ) : List ℕ → List InflightOp → Prop
  | _, [] => True
  | l, op :: ops => op.Permitted size l ∧ AllPermitted size (op.live l) ops

theorem dropWhile_le_eq_filter {to_ : ℕ} : ∀ {l : List ℕ}, l.Pairwise (· < ·) →
    l.dropWhile (· ≤ to_) = l.filter (to_ < ·)
  | [], _ => rfl
  | x :: l, h => by
    obtain ⟨hx, hl⟩ := pairwise_cons.1 h
    by_cases hle : x ≤ to_
    · rw [dropWhile_cons_of_pos (by simpa using hle), dropWhile_le_eq_filter hl,
        filter_cons_of_neg (by simpa using hle)]
    · rw [dropWhile_cons_of_neg (by simpa using hle), filter_eq_self.2]
      intro y hy
      have hxy : ∀ y ∈ l, x < y := hx
      rcases mem_cons.1 hy with rfl | hy
      · simpa using hle
      · have := hxy y hy
        simp
        omega

variable {size : ℕ} {l : List ℕ} {r : InflightRing} {op : InflightOp}

theorem InflightOp.Permitted.call (hp : op.Permitted size l) (hl : l.Pairwise (· < ·))
    (h : r.Holds ⟨size, l⟩) :
    (op.live l).Pairwise (· < ·) ∧ ∃ r', r.call op = .ok r' ∧ r'.Holds ⟨size, op.live l⟩ := by
  cases op with
  | add inflight =>
    refine ⟨pairwise_append.2 ⟨hl, pairwise_singleton _ _, fun i hi j hj => ?_⟩, ?_⟩
    · rw [mem_singleton.1 hj]
      exact hp.2 i hi
    · have hadd : Inflights.add ⟨size, l⟩ inflight = .ok ⟨size, l ++ [inflight]⟩ :=
        if_neg (by simpa [Inflights.full] using hp.1.ne)
      exact (h.add inflight).exists_ok_left hadd
  | freeTo to_ =>
    refine ⟨hl.filter _, ?_⟩
    rw [live, ← dropWhile_le_eq_filter hl]
    exact h.freeTo to_
  | freeFirstOne =>
    refine ⟨hl.tail, ?_⟩
    rcases l with _ | ⟨x, rest⟩
    · exact absurd rfl hp
    · have hrest : (x :: rest).dropWhile (· ≤ x) = rest := by
        rw [dropWhile_le_eq_filter hl, filter_cons_of_neg (by simp), filter_eq_self.2]
        simpa using (pairwise_cons.1 hl).1
      rw [live, tail_cons, ← hrest]
      exact h.freeFirstOne hp
  | reset => exact ⟨.nil, _, rfl, h.reset⟩

theorem AllPermitted.run : ∀ {ops : List InflightOp} {l : List ℕ} {r : InflightRing},
    AllPermitted size l ops → l.Pairwise (· < ·) → r.Holds ⟨size, l⟩ →
    ∃ r', ops.foldlM InflightRing.call r = .ok r' ∧
      r'.Holds ⟨size, ops.foldl InflightOp.live l⟩
  | [], _, r, _, _, h => ⟨r, rfl, h⟩
  | _ :: _, _, _, hops, hl, h => by
    obtain ⟨hl', r', hcall, h'⟩ := hops.1.call hl h
    rw [foldlM_cons, hcall]
    exact hops.2.run hl' h'

theorem inflights_queue (size : ℕ) (ops : List InflightOp) (hops : AllPermitted size [] ops) :
    ∃ r, ops.foldlM InflightRing.call (.new size) = .ok r ∧
      r.Holds ⟨size, ops.foldl InflightOp.live []⟩ ∧
      (r.full = true ↔ (ops.foldl InflightOp.live []).length = size) := by
  obtain ⟨r, hrun, h⟩ := hops.run .nil (.new size)
  refine ⟨r, hrun, h, ?_⟩
  rw [h.full_iff, Inflights.full, beq_iff_eq]

theorem inflights_queue_wrapped : ∃ r,
    [.add 3, .add 5, .freeFirstOne, .add 7, .freeTo 5].foldlM InflightRing.call (.new 2) = .ok r ∧
      r.Holds ⟨2, [7]⟩ ∧ (r.full = true ↔ [7].length = 2) :=
  inflights_queue 2 [.add 3, .add 5, .freeFirstOne, .add 7, .freeTo 5]
    (by simp [AllPermitted, InflightOp.Permitted, InflightOp.live])

end Run

end EtcdCompat
