import Mathlib.Data.Nat.Notation

/-!
# Byte strings
-/

namespace EtcdCompat

/-- `[]byte`, compared as `bytes.Compare` does. -/
abbrev Bytes := List (Fin 256)

/-- The one instance behind the literals of a byte. -/
instance (priority := high) byteNeZero : @NeZero ℕ Zero.ofOfNat0 256 := Nat.instNeZeroSucc

end EtcdCompat
