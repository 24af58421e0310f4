import Mathlib.Data.List.Basic

/-!
# Ring buffers

A ring of fixed capacity keeps the newest of the values inserted: `Holds r l` says that the cells
from `front` on, around the end, have the values of `l`, oldest first. An insertion into a full ring
drops the oldest.
-/

structure RingBuffer (α : Type*) where
  cells : List (Option α)
  size : ℕ := 0
  front : ℕ := 0
  back : ℕ := 0
  capacity : ℕ

namespace RingBuffer

open List

variable {α : Type*} {r : RingBuffer α} {l : List α}

def new (α : Type*) (capacity : ℕ) : RingBuffer α where
  cells := List.replicate capacity none
  capacity := capacity

def insert (r : RingBuffer α) (x : α) : RingBuffer α :=
  let r := { r with cells := r.cells.set r.back (some x), back := (r.back + 1) % r.capacity }
  if r.size = r.capacity then { r with front := (r.front + 1) % r.capacity }
  else { r with size := r.size + 1 }

/-- The newest values, at most `n` of them. -/
def newest (n : ℕ) (l : List α) : List α := l.drop (l.length - n)

/-- The ring has the values of `l`, oldest first. -/
structure Holds (r : RingBuffer α) (l : List α) : Prop where
  cells : r.cells.length = r.capacity
  pos : 0 < r.capacity
  front : r.front < r.capacity
  size : r.size = l.length
  le : l.length ≤ r.capacity
  back : r.back = (r.front + l.length) % r.capacity
  get : ∀ k, k < l.length → r.cells[(r.front + k) % r.capacity]? = some l[k]?

theorem add_mod_ne {a i j n : ℕ} (hij : i < j) (hj : j < i + n) : (a + i) % n ≠ (a + j) % n := by
  intro h
  have hmod := Nat.sub_mod_eq_zero_of_mod_eq h.symm
  rw [Nat.mod_eq_of_lt (by omega)] at hmod
  omega

theorem newest_of_le {n : ℕ} (h : l.length ≤ n) : newest n l = l := by
  rw [newest, show l.length - n = 0 by omega, drop_zero]

theorem newest_newest_append (n : ℕ) (l : List α) (x : α) :
    newest n (newest n l ++ [x]) = newest n (l ++ [x]) := by
  unfold newest
  rcases Nat.lt_or_ge n l.length with h | h
  · rw [← drop_append_of_le_length (by omega), drop_drop]
    congr 1
    simp
    omega
  · rw [show l.length - n = 0 by omega, drop_zero]

theorem length_newest (n : ℕ) (l : List α) : (newest n l).length = min n l.length := by
  rw [newest, length_drop]
  omega

theorem Holds.new {capacity : ℕ} (h : 0 < capacity) : Holds (RingBuffer.new α capacity) [] where
  cells := length_replicate
  pos := h
  front := h
  size := rfl
  le := Nat.zero_le _
  back := (Nat.zero_mod _).symm
  get k hk := absurd hk (Nat.not_lt_zero k)

namespace Holds

variable (h : r.Holds l) {k : ℕ}
include h

theorem back_lt : r.back < r.capacity := by
  rw [h.back]
  exact Nat.mod_lt _ h.pos

theorem set_get (x : α) (hk : k < l.length) (hfull : l.length = r.capacity → 0 < k) :
    (r.cells.set r.back (some x))[(r.front + k) % r.capacity]? = some l[k]? := by
  have hle := h.le
  rw [getElem?_set_ne, h.get k hk]
  rw [h.back]
  refine (add_mod_ne hk ?_).symm
  omega

theorem set_back (x : α) : (r.cells.set r.back (some x))[r.back]? = some (some x) :=
  getElem?_set_self (by rw [h.cells]; exact h.back_lt)

theorem insert (x : α) : (r.insert x).Holds (newest r.capacity (l ++ [x])) := by
  have hcells : (r.cells.set r.back (some x)).length = r.capacity := by
    rw [length_set, h.cells]
  have hback : (r.back + 1) % r.capacity = (r.front + (l.length + 1)) % r.capacity := by
    rw [h.back, Nat.mod_add_mod, Nat.add_assoc]
  unfold RingBuffer.insert
  simp only
  split_ifs with hs
  · -- the ring is full: the oldest value goes, the new one takes its cell
    have hlen : l.length = r.capacity := h.size.symm.trans hs
    have hnew : newest r.capacity (l ++ [x]) = l.tail ++ [x] := by
      rw [newest, show (l ++ [x]).length - r.capacity = 1 by simp [hlen],
        drop_append_of_le_length (by have := h.pos; omega), drop_one]
    have hpos := h.pos
    rw [hnew]
    have hnext : ∀ k, ((r.front + 1) % r.capacity + k) % r.capacity
        = (r.front + (k + 1)) % r.capacity := fun k => by
      rw [Nat.mod_add_mod, Nat.add_assoc, Nat.add_comm 1 k]
    refine ⟨hcells, hpos, Nat.mod_lt _ hpos, ?_, ?_, ?_, fun k hk => ?_⟩
    · simp [h.size, hlen]
      omega
    · simp [hlen]
      omega
    · rw [hnext]
      simp [hback]
      congr 2
      omega
    · simp at hk
      simp only [hnext]
      rcases Nat.lt_or_ge (k + 1) l.length with hlt | hge
      · rw [h.set_get x hlt fun _ => Nat.succ_pos k,
          getElem?_append_left (by rw [length_tail]; omega), getElem?_tail]
      · have hk' : k + 1 = l.length := by omega
        rw [hk', ← h.back, h.set_back, getElem?_append_right (by rw [length_tail]; omega)]
        simp [show k - (l.length - 1) = 0 by omega]
  · have hlt : l.length < r.capacity := by
      have := h.size
      have := h.le
      omega
    rw [newest_of_le (by simpa using Nat.succ_le_of_lt hlt)]
    refine ⟨hcells, h.pos, h.front, by simp [h.size],
      by simpa using Nat.succ_le_of_lt hlt, ?_, fun k hk => ?_⟩
    · simp [hback]
    · rw [length_append, length_singleton] at hk
      rcases Nat.lt_or_ge k l.length with hk' | hk'
      · rw [h.set_get x hk' fun hfull => absurd hfull (by omega), getElem?_append_left hk']
      · have : k = l.length := by omega
        subst this
        rw [← h.back, h.set_back, getElem?_append_right (Nat.le_refl _)]
        simp

theorem next_eq_back (hk : k < l.length) :
    (r.front + (k + 1)) % r.capacity = r.back ↔ k + 1 = l.length := by
  rw [h.back]
  constructor
  · intro heq
    by_contra hne
    have := h.le
    exact add_mod_ne (a := r.front) (i := k + 1) (j := l.length) (n := r.capacity) (by omega)
      (by omega) heq
  · rintro hk'
    rw [hk']

end Holds

end RingBuffer
