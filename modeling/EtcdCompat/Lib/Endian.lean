import Mathlib.Data.List.Lex
import Mathlib.Order.Fin.Basic
import Mathlib.Tactic.Positivity

/-!
# Encodings of numbers

A natural number as a fixed number of bytes, the most or the least significant first. Among the
numbers that fit, the order of the first encodings, byte by byte, is the order of the numbers.
-/

namespace BigEndian

open List

variable {w a b : ℕ}

/-- The `w` lowest bytes of `n`, the most significant first. -/
def encode : ℕ → ℕ → List (Fin 256)
  | 0, _ => []
  | w + 1, n => ⟨n / 256 ^ w % 256, Nat.mod_lt _ (by decide)⟩ :: encode w n

def decode : List (Fin 256) → ℕ
  | [] => 0
  | b :: l => b.val * 256 ^ l.length + decode l

theorem length_encode : ∀ w n : ℕ, (encode w n).length = w
  | 0, _ => rfl
  | w + 1, n => by rw [encode, length_cons, length_encode w]

theorem decode_encode_mod : ∀ w n : ℕ, decode (encode w n) = n % 256 ^ w
  | 0, n => by simp [encode, decode, Nat.mod_one]
  | w + 1, n => by
    rw [encode, decode, length_encode, decode_encode_mod w, pow_succ, Nat.mod_mul, Nat.mul_comm,
      Nat.add_comm]

theorem decode_encode {w n : ℕ} (hn : n < 256 ^ w) : decode (encode w n) = n := by
  rw [decode_encode_mod, Nat.mod_eq_of_lt hn]

theorem digits_lt_iff {m r r' q q' : ℕ} (hr : r < m) (hr' : r' < m) :
    r + m * q < r' + m * q' ↔ q < q' ∨ q = q' ∧ r < r' := by
  rcases lt_trichotomy q q' with h | rfl | h
  · have : m * q + m ≤ m * q' := by
      rw [← Nat.mul_succ]
      exact Nat.mul_le_mul_left m h
    omega
  · simp
  · have : m * q' + m ≤ m * q := by
      rw [← Nat.mul_succ]
      exact Nat.mul_le_mul_left m h
    constructor
    · omega
    · rintro (hlt | ⟨heq, -⟩) <;> omega

theorem append_lt_append_iff {α : Type*} [LinearOrder α] : ∀ {a b s t : List α},
    a.length = b.length → (a ++ s < b ++ t ↔ a < b ∨ a = b ∧ s < t)
  | [], [], _, _, _ => by simp
  | x :: a, y :: b, s, t, h => by
    rw [cons_append, cons_append, cons_lt_cons_iff, cons_lt_cons_iff,
      append_lt_append_iff (Nat.succ.inj h), cons.injEq]
    tauto

theorem encode_lt_iff_mod : ∀ (w a b : ℕ),
    encode w a < encode w b ↔ a % 256 ^ w < b % 256 ^ w
  | 0, a, b => by simp [encode, Nat.mod_one]
  | w + 1, a, b => by
    have hpos : 0 < 256 ^ w := by positivity
    rw [pow_succ, Nat.mod_mul, Nat.mod_mul, digits_lt_iff (Nat.mod_lt _ hpos) (Nat.mod_lt _ hpos),
      ← encode_lt_iff_mod w a b]
    simp only [encode, cons_lt_cons_iff, Fin.lt_def, Fin.ext_iff]

theorem encode_lt_iff (ha : a < 256 ^ w) (hb : b < 256 ^ w) : encode w a < encode w b ↔ a < b := by
  rw [encode_lt_iff_mod, Nat.mod_eq_of_lt ha, Nat.mod_eq_of_lt hb]

end BigEndian

namespace LittleEndian

/-- The `w` lowest bytes of `n`, the least significant first. -/
def encode : ℕ → ℕ → List (Fin 256)
  | 0, _ => []
  | w + 1, n => ⟨n % 256, Nat.mod_lt _ (by decide)⟩ :: encode w (n / 256)

def decode : List (Fin 256) → ℕ
  | [] => 0
  | b :: l => b.val + 256 * decode l

theorem length_encode : ∀ w n : ℕ, (encode w n).length = w
  | 0, _ => rfl
  | w + 1, n => by simp [encode, length_encode w]

theorem decode_encode : ∀ {w n : ℕ}, n < 256 ^ w → decode (encode w n) = n
  | 0, n, hn => by simp [encode, decode] at hn ⊢; omega
  | w + 1, n, hn => by
    have ih := decode_encode (show n / 256 < 256 ^ w by rw [pow_succ] at hn; omega)
    simp only [encode, decode, ih]
    omega

end LittleEndian
