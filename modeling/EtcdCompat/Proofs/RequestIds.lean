import Mathlib.Algebra.GroupWithZero.Nat
import Mathlib.Data.List.Nodup
import Mathlib.Tactic.Basic

/-!
# Request ids across restarts

The suffixes of a generator count up from its time in milliseconds, shifted over the counter, and
wrap. Those of two generators lie in two windows of a circle, which do not meet as long as neither
generator comes up to the time of the other.
-/

namespace EtcdCompat.Idutil

open List

section Model

def tsLen : UInt64 := 5 * 8

def cntLen : UInt64 := 8

def suffixLen : UInt64 := tsLen + cntLen

structure Generator where
  pfx : UInt64
  suffix : UInt64
deriving DecidableEq, Repr

def lowbit (x n : UInt64) : UInt64 := x &&& (0xffffffffffffffff >>> (64 - n))

/-- The milliseconds of a time given by its `UnixNano`. -/
def unixMilli (now : Int64) : UInt64 := now.toUInt64 / 1000000

def newGenerator (memberID : UInt16) (now : Int64) : Generator :=
  ⟨memberID.toUInt64 <<< suffixLen, lowbit (unixMilli now) tsLen <<< cntLen⟩

def Generator.next (g : Generator) : UInt64 × Generator :=
  let g := { g with suffix := g.suffix + 1 }
  (g.pfx ||| lowbit g.suffix suffixLen, g)

/-- The ids of that many calls of `Next`. -/
def Generator.ids : ℕ → Generator → List UInt64
  | 0, _ => []
  | n + 1, g => g.next.1 :: ids n g.next.2

end Model

section Words

theorem lowbit_suffix (x : UInt64) : (lowbit x suffixLen).toNat = x.toNat % 2 ^ 48 := by
  rw [lowbit, show (0xffffffffffffffff >>> (64 - suffixLen) : UInt64) = 0xffffffffffff by decide,
    UInt64.toNat_and]
  exact Nat.and_two_pow_sub_one_eq_mod x.toNat 48

theorem lowbit_ts (x : UInt64) : (lowbit x tsLen).toNat = x.toNat % 2 ^ 40 := by
  rw [lowbit, show (0xffffffffffffffff >>> (64 - tsLen) : UInt64) = 0xffffffffff by decide,
    UInt64.toNat_and]
  exact Nat.and_two_pow_sub_one_eq_mod x.toNat 40

variable (memberID : UInt16)

theorem newGenerator_suffix (now : Int64) :
    (newGenerator memberID now).suffix.toNat = (unixMilli now).toNat % 2 ^ 40 * 256 := by
  simp [newGenerator, lowbit_ts, cntLen]
  rw [Nat.shiftLeft_eq]
  simp
  omega

theorem pfx_or (x : UInt64) : (memberID.toUInt64 <<< suffixLen ||| lowbit x suffixLen).toNat
    = memberID.toNat * 2 ^ 48 + x.toNat % 2 ^ 48 := by
  have hm := memberID.toNat_lt
  have hs : (memberID.toUInt64 <<< suffixLen).toNat = memberID.toNat <<< 48 := by
    rw [UInt64.toNat_shiftLeft, show suffixLen.toNat % 64 = 48 by decide, Nat.shiftLeft_eq]
    simp
    omega
  rw [UInt64.toNat_or, lowbit_suffix, hs,
    ← Nat.shiftLeft_add_eq_or_of_lt (Nat.mod_lt _ (by decide)), Nat.shiftLeft_eq]

end Words

section Windows

variable {memberID : UInt16} {now₀ now₁ : Int64} {t₀ t₁ n₀ n₁ : ℕ}

/-- The numbers that the ids of a generator are. -/
theorem ids_toNat {n : ℕ} : ∀ {g : Generator}, g.pfx = memberID.toUInt64 <<< suffixLen →
    (g.ids n).map UInt64.toNat = (range n).map fun i =>
      memberID.toNat * 2 ^ 48 + (g.suffix.toNat + i + 1) % 2 ^ 48 := by
  induction n with
  | zero => exact fun _ => rfl
  | succ n ih =>
    intro g hg
    have hnext : g.next.2.suffix.toNat = (g.suffix.toNat + 1) % 2 ^ 64 := UInt64.toNat_add ..
    rw [Generator.ids, map_cons, ih (g := g.next.2) hg, hnext, range_succ_eq_map, map_cons, map_map]
    refine congrArg₂ _ ?_ (map_congr_left fun i _ => ?_)
    · rw [Generator.next, hg, pfx_or, UInt64.toNat_add]
      simp
    · simp
      omega

theorem shiftRight_of_mem_ids {n : ℕ} {g : Generator} {id : UInt64}
    (hg : g.pfx = memberID.toUInt64 <<< suffixLen) (hid : id ∈ g.ids n) :
    id >>> 48 = memberID.toUInt64 := by
  have hmem : id.toNat ∈ (g.ids n).map UInt64.toNat := mem_map_of_mem hid
  rw [ids_toNat hg, mem_map] at hmem
  obtain ⟨i, -, hi⟩ := hmem
  rw [← UInt64.toNat_inj, UInt64.toNat_shiftRight, ← hi, Nat.shiftRight_eq_div_pow]
  simp
  omega

/-- The ids of a member across a restart are distinct and carry the member's id, if the first
generator stays behind the time of the second, and the second does not come round. -/
theorem ids_across_restart (ht₀ : (unixMilli now₀).toNat = t₀) (ht₁ : (unixMilli now₁).toNat = t₁)
    (hlt : t₀ < t₁) (hd : t₁ - t₀ < 2 ^ 40 - 1) (hn₀ : n₀ < 256 * (t₁ - t₀))
    (hn₁ : n₁ < 256 * (2 ^ 40 - (t₁ - t₀))) :
    ((newGenerator memberID now₀).ids n₀ ++ (newGenerator memberID now₁).ids n₁).Nodup ∧
      ∀ id ∈ (newGenerator memberID now₀).ids n₀ ++ (newGenerator memberID now₁).ids n₁,
        id >>> 48 = memberID.toUInt64 := by
  have h₀ := ids_toNat (n := n₀) (g := newGenerator memberID now₀) rfl
  have h₁ := ids_toNat (n := n₁) (g := newGenerator memberID now₁) rfl
  rw [newGenerator_suffix, ht₀] at h₀
  rw [newGenerator_suffix, ht₁] at h₁
  constructor
  · refine List.Nodup.of_map UInt64.toNat ?_
    rw [List.map_append, h₀, h₁]
    refine List.nodup_append.2 ⟨List.nodup_range.map_on ?_, List.nodup_range.map_on ?_, ?_⟩
    · intro i hi j hj heq
      rw [List.mem_range] at hi hj
      omega
    · intro i hi j hj heq
      rw [List.mem_range] at hi hj
      omega
    · simp only [List.mem_map, List.mem_range]
      rintro _ ⟨i, hi, rfl⟩ _ ⟨j, hj, rfl⟩
      omega
  · intro id hid
    rcases List.mem_append.1 hid with hid | hid
    · exact shiftRight_of_mem_ids (g := newGenerator memberID now₀) rfl hid
    · exact shiftRight_of_mem_ids (g := newGenerator memberID now₁) rfl hid

theorem ids_across_restart_ms :
    ((newGenerator 7 1000000).ids 3 ++ (newGenerator 7 2000000).ids 3).Nodup := by
  have h₀ : (unixMilli 1000000).toNat = 1 := by decide
  have h₁ : (unixMilli 2000000).toNat = 2 := by decide
  exact (ids_across_restart h₀ h₁ (by decide) (by decide) (by decide) (by decide)).1

end Windows

end EtcdCompat.Idutil
