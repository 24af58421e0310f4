import EtcdCompat.Basic
import Mathlib.Data.Prod.Lex
import Mathlib.Data.Int.Order.Basic
import Mathlib.Tactic.Basic
import Mathlib.Tactic.SplitIfs

/-!
# Revisions

A revision is the main revision of a transaction and the position of a change within it. The key
bucket of the backend is keyed by revisions, the ones of tombstones marked: `RevKey` is such a key
decoded, in the order of its bytes.
-/

namespace EtcdCompat

structure Revision where
  main : ℤ
  sub : ℤ
deriving DecidableEq, Repr, Inhabited

namespace Revision

variable {a b : Revision}

def GreaterThan (a b : Revision) : Prop :=
  if a.main > b.main then True
  else if a.main < b.main then False
  else a.sub > b.sub

instance (a b : Revision) : Decidable (a.GreaterThan b) := by
  unfold GreaterThan
  infer_instance

instance : LinearOrder Revision :=
  LinearOrder.lift' (fun r => toLex (r.main, r.sub)) fun a b h => by
    cases a; cases b
    simpa using h

theorem lt_iff : a < b ↔ a.main < b.main ∨ a.main = b.main ∧ a.sub < b.sub :=
  Prod.Lex.toLex_lt_toLex

theorem le_iff : a ≤ b ↔ a.main < b.main ∨ a.main = b.main ∧ a.sub ≤ b.sub :=
  Prod.Lex.toLex_le_toLex

theorem main_le (h : a ≤ b) : a.main ≤ b.main := by
  rw [le_iff] at h
  omega

theorem greaterThan_iff : a.GreaterThan b ↔ b < a := by
  unfold GreaterThan
  rw [lt_iff]
  split_ifs <;> simp <;> omega

end Revision

/-- A key of the key bucket: a revision, and whether the tombstone mark `t` follows it. -/
structure RevKey where
  rev : Revision
  mark : Bool
deriving DecidableEq, Repr, Inhabited

namespace RevKey

variable {a b : RevKey} {r : Revision} {k : RevKey}

instance : LinearOrder RevKey :=
  LinearOrder.lift' (fun k => toLex (k.rev, k.mark)) fun a b h => by
    cases a; cases b
    simpa using h

theorem lt_iff : a < b ↔ a.rev < b.rev ∨ a.rev = b.rev ∧ a.mark < b.mark :=
  Prod.Lex.toLex_lt_toLex

theorem le_iff : a ≤ b ↔ a.rev < b.rev ∨ a.rev = b.rev ∧ a.mark ≤ b.mark :=
  Prod.Lex.toLex_le_toLex

theorem rev_le (h : a ≤ b) : a.rev ≤ b.rev := by
  rcases le_iff.1 h with hlt | ⟨heq, -⟩
  · exact hlt.le
  · exact heq.le

theorem plain_le_iff : (⟨r, false⟩ : RevKey) ≤ k ↔ r ≤ k.rev := by
  rw [le_iff, le_iff_lt_or_eq (a := r)]
  simp only [Bool.false_le, and_true]

theorem lt_plain_iff : k < (⟨r, false⟩ : RevKey) ↔ k.rev < r := by
  rw [lt_iff]
  simp

end RevKey

end EtcdCompat
