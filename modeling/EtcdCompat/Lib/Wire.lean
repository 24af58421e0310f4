import Mathlib.Algebra.BigOperators.Group.List.Basic
import Mathlib.Algebra.GroupWithZero.Nat

/-!
# The wire format of messages

A message is a sequence of fields, each a tag and a value: a number as a varint, seven bits a byte
with the lowest first, or a string after its length. A reader keeps fields it does not know as they
are, and gives back what was written.
-/

namespace Wire

open List

abbrev Bytes := List (Fin 256)

inductive Error where
  | intOverflow
  | unexpectedEOF
  | endGroup
  | illegalTag
  | wrongWireType
  | illegalWireType
  | invalidLength
deriving DecidableEq, Repr

section Varint

def low (n : ℕ) : Fin 256 := ⟨n % 128, by omega⟩

def high (n : ℕ) : Fin 256 := ⟨n % 128 + 128, by omega⟩

/-- The varint of a number below `128 ^ w`. -/
def varintIn : ℕ → ℕ → Bytes
  | 0, _ => []
  | w + 1, n => if n < 128 then [low n] else high n :: varintIn w (n / 128)

def varint (n : ℕ) : Bytes := varintIn 10 n

/-- Reads a varint of at most `w` bytes. -/
def getVarintIn : ℕ → Bytes → Except Error (ℕ × Bytes)
  | 0, _ => .error .intOverflow
  | _ + 1, [] => .error .unexpectedEOF
  | w + 1, b :: rest =>
    if b.val < 128 then .ok (b.val, rest)
    else do
      let (n, rest) ← getVarintIn w rest
      .ok (b.val % 128 + 128 * n, rest)

/-- Reads a varint, of which a `uint64` keeps the low bits. -/
def getVarint (data : Bytes) : Except Error (ℕ × Bytes) := do
  let (n, rest) ← getVarintIn 10 data
  .ok (n % 18446744073709551616, rest)

theorem getVarintIn_varintIn : ∀ {w n : ℕ}, n < 128 ^ (w + 1) → ∀ rest,
    getVarintIn (w + 1) (varintIn (w + 1) n ++ rest) = .ok (n, rest) := by
  intro w
  induction w with
  | zero =>
    intro n hn rest
    rw [varintIn, if_pos (by omega)]
    simp [getVarintIn, low]
    rw [if_pos (by omega), Nat.mod_eq_of_lt (by omega)]
  | succ w ih =>
    intro n hn rest
    rw [varintIn]
    split_ifs with hlow
    · simp [getVarintIn, low]
      rw [if_pos (by omega), Nat.mod_eq_of_lt hlow]
    · have hrest := ih (show n / 128 < 128 ^ (w + 1) by rw [pow_succ] at hn; omega) rest
      rw [cons_append, getVarintIn, if_neg (by simp only [high]; omega), hrest]
      simp only [bind, Except.bind, high]
      congr 2
      omega

theorem getVarint_varint {n : ℕ} (hn : n < 18446744073709551616) (rest : Bytes) :
    getVarint (varint n ++ rest) = .ok (n, rest) := by
  unfold getVarint varint
  rw [getVarintIn_varintIn (w := 9) (by omega)]
  simp only [bind, Except.bind]
  rw [Nat.mod_eq_of_lt hn]

theorem length_varintIn : ∀ w n : ℕ, (varintIn w n).length ≤ w
  | 0, _ => Nat.le_refl 0
  | w + 1, n => by
    have ih := length_varintIn w (n / 128)
    unfold varintIn
    split_ifs
    · simp
    · rw [length_cons]
      omega

theorem length_varint (n : ℕ) : (varint n).length ≤ 10 := length_varintIn 10 n

theorem varint_of_lt [@NeZero ℕ Zero.ofOfNat0 256] {n : ℕ} (h : n < 128) :
    varint n = [Fin.ofNat 256 n] := by
  rw [varint, varintIn, if_pos h]
  exact congrArg (fun b => [b]) (Fin.ext (by simp only [low, Fin.ofNat]; omega))

theorem varint_ne_nil (n : ℕ) : varint n ≠ [] := by
  unfold varint varintIn
  split_ifs <;> simp

end Varint

section Skip

mutual

/-- The length of an unknown field. -/
def skip : ℕ → Bytes → Except Error ℕ
  | 0, _ => .error .unexpectedEOF
  | fuel + 1, data => do
    let (wire, rest) ← getVarint data
    match wire % 8 with
    | 0 => do
      let (_, rest) ← getVarint rest
      .ok (data.length - rest.length)
    | 1 => .ok (data.length - rest.length + 8)
    | 2 => do
      let (len, rest) ← getVarint rest
      if len ≥ 9223372036854775808 then .error .invalidLength
      else .ok (data.length - rest.length + len)
    | 3 => do
      let n ← skipGroup fuel rest
      .ok (data.length - rest.length + n)
    | 4 => .ok (data.length - rest.length)
    | 5 => .ok (data.length - rest.length + 4)
    | _ => .error .illegalWireType

/-- The length of the fields of a group, its end with them. -/
def skipGroup : ℕ → Bytes → Except Error ℕ
  | 0, _ => .error .unexpectedEOF
  | fuel + 1, data => do
    let (wire, rest) ← getVarint data
    if wire % 8 = 4 then .ok (data.length - rest.length)
    else
      let n ← skip fuel data
      let m ← skipGroup fuel (data.drop n)
      .ok (n + m)

end

end Skip

section Fields

variable {kind : ℕ → Option Kind} {f : ℕ × Value} {fs : List (ℕ × Value)}

inductive Kind where
  | varint
  | bytes
deriving DecidableEq, Repr

inductive Value where
  | num (n : ℕ)
  | bytes (b : Bytes)
  -- a field that is not known, with its tag
  | raw (b : Bytes)
deriving DecidableEq, Repr

/-- The number of a field, an `int32`. -/
def fieldNum (wire : ℕ) : ℤ :=
  let n : ℤ := wire / 8 % 4294967296
  if n ≥ 2147483648 then n - 4294967296 else n

/-- One field and what follows it. -/
def field (kind : ℕ → Option Kind) (data : Bytes) : Except Error ((ℕ × Value) × Bytes) := do
  let (wire, rest) ← getVarint data
  let num := fieldNum wire
  if wire % 8 = 4 then .error .endGroup
  else if num ≤ 0 then .error .illegalTag
  else match kind num.toNat with
    | some .varint =>
      if wire % 8 ≠ 0 then .error .wrongWireType
      else do
        let (n, rest) ← getVarint rest
        .ok ((num.toNat, .num n), rest)
    | some .bytes =>
      if wire % 8 ≠ 2 then .error .wrongWireType
      else do
        let (len, rest) ← getVarint rest
        if len ≥ 9223372036854775808 then .error .invalidLength
        else if len > rest.length then .error .unexpectedEOF
        else .ok ((num.toNat, .bytes (rest.take len)), rest.drop len)
    | none => do
      let n ← skip data.length data
      if n > data.length then .error .unexpectedEOF
      else .ok ((num.toNat, .raw (data.take n)), data.drop n)

/-- The fields of a message; each takes a byte at least. -/
def fieldsIn (kind : ℕ → Option Kind) : ℕ → Bytes → Except Error (List (ℕ × Value))
  | _, [] => .ok []
  | 0, _ => .error .unexpectedEOF
  | fuel + 1, data => do
    let (f, rest) ← field kind data
    let fs ← fieldsIn kind fuel rest
    .ok (f :: fs)

def fields (kind : ℕ → Option Kind) (data : Bytes) : Except Error (List (ℕ × Value)) :=
  fieldsIn kind data.length data

def putField : ℕ × Value → Bytes
  | (num, .num n) => varint (8 * num) ++ varint n
  | (num, .bytes b) => varint (8 * num + 2) ++ (varint b.length ++ b)
  | (_, .raw b) => b

def Known (kind : ℕ → Option Kind) : ℕ × Value → Prop
  | (num, .num n) =>
    0 < num ∧ num < 268435456 ∧ kind num = some .varint ∧ n < 18446744073709551616
  | (num, .bytes b) =>
    0 < num ∧ num < 268435456 ∧ kind num = some .bytes ∧ b.length < 9223372036854775808
  | (_, .raw _) => False

theorem fieldNum_tag {num k : ℕ} (hnum : num < 268435456) (hk : k < 8) :
    fieldNum (8 * num + k) = num := by
  unfold fieldNum
  simp only []
  split_ifs <;> omega

theorem field_putField (hf : Known kind f) (rest : Bytes) :
    field kind (putField f ++ rest) = .ok (f, rest) := by
  rcases f with ⟨num, n | b | b⟩
  · obtain ⟨hpos, hnum, hkind, hn⟩ := hf
    have hfn := fieldNum_tag hnum (show 0 < 8 by decide)
    rw [Nat.add_zero] at hfn
    simp only [putField, append_assoc, field]
    rw [getVarint_varint (by omega)]
    simp only [bind, Except.bind, hfn, Nat.mul_mod_right, Int.toNat_natCast, hkind]
    rw [if_neg (by decide), if_neg (by omega), if_neg (by simp), getVarint_varint hn]
  · obtain ⟨hpos, hnum, hkind, hb⟩ := hf
    have hfn := fieldNum_tag hnum (show 2 < 8 by decide)
    simp only [putField, append_assoc, field]
    rw [getVarint_varint (by omega)]
    simp only [bind, Except.bind, hfn, Nat.mul_add_mod, Int.toNat_natCast, hkind]
    rw [if_neg (by decide), if_neg (by omega), if_neg (by simp), getVarint_varint (by omega)]
    simp only []
    rw [if_neg (by omega), if_neg (by simp)]
    simp
  · exact hf.elim

theorem length_putField_le (hf : f ∈ fs) : (putField f).length ≤ (fs.flatMap putField).length := by
  obtain ⟨pre, post, rfl⟩ := append_of_mem hf
  rw [flatMap_append, flatMap_cons, length_append, length_append]
  omega

theorem length_bytes_le {num : ℕ} {b : Bytes} (hf : (num, Value.bytes b) ∈ fs) :
    b.length ≤ (fs.flatMap putField).length := by
  have hle := length_putField_le hf
  rw [putField, length_append, length_append] at hle
  omega

theorem putField_ne_nil (hf : Known kind f) : putField f ≠ [] := by
  rcases f with ⟨num, n | b | b⟩
  · simp [putField, varint_ne_nil]
  · simp [putField, varint_ne_nil]
  · exact hf.elim

theorem fieldsIn_putFields : ∀ {fs : List (ℕ × Value)} {fuel : ℕ},
    (∀ f ∈ fs, Known kind f) → fs.length ≤ fuel →
    fieldsIn kind fuel (fs.flatMap putField) = .ok fs
  | [], fuel, _, _ => by cases fuel <;> rfl
  | f :: fs, 0, _, hfuel => by simp at hfuel
  | f :: fs, fuel + 1, hfs, hfuel => by
    have hf := hfs f (by simp)
    have hfield := field_putField hf (fs.flatMap putField)
    have ih := fieldsIn_putFields (fun g hg => hfs g (mem_cons_of_mem _ hg))
      (show fs.length ≤ fuel by simpa using hfuel)
    rw [flatMap_cons]
    rcases hd : putField f ++ fs.flatMap putField with _ | ⟨b, data⟩
    · exact absurd (append_eq_nil_iff.1 hd).1 (putField_ne_nil hf)
    · rw [fieldsIn, ← hd, hfield]
      simp only [bind, Except.bind, ih]
      simp

theorem length_le_putFields (hfs : ∀ f ∈ fs, Known kind f) :
    fs.length ≤ (fs.flatMap putField).length := by
  rw [length_flatMap]
  have hlen := length_le_sum_of_one_le (fs.map fun f => (putField f).length) ?_
  · rwa [length_map] at hlen
  intro n hn
  obtain ⟨f, hf, rfl⟩ := mem_map.1 hn
  exact length_pos_iff.2 (putField_ne_nil (hfs f hf))

theorem fields_putFields (hfs : ∀ f ∈ fs, Known kind f) :
    fields kind (fs.flatMap putField) = .ok fs :=
  fieldsIn_putFields hfs (length_le_putFields hfs)

end Fields

end Wire
