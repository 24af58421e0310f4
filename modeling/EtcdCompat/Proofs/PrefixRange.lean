import EtcdCompat.Client.Kv

/-!
# Ranges of a prefix

`getPrefix` raises the last byte of a prefix that can be raised. Between the prefix and that end lie
the keys with the prefix and no others; where every byte is `0xff` there is no such end, and every
key from the prefix on has it.
-/

namespace EtcdCompat.Clientv3

theorem cons_le_cons_iff {b c : Fin 256} {bs cs : Bytes} :
    b :: bs ≤ c :: cs ↔ b < c ∨ b = c ∧ bs ≤ cs := by
  rw [← not_lt, List.cons_lt_cons_iff, ← not_lt, not_or, not_and]
  grind

theorem isPrefix_iff_raised (pfx k : Bytes) :
    pfx <+: k ↔ pfx ≤ k ∧ ∀ stop ∈ raised pfx, k < stop := by
  induction pfx generalizing k with
  | nil => simp [raised, ← not_lt]
  | cons b bs ih =>
    rcases k with _ | ⟨c, cs⟩
    · simp [← not_lt]
    · rw [List.cons_prefix_cons, cons_le_cons_iff, ih, raised]
      rcases raised bs with _ | rest
      · split_ifs with hb
        · have hc : c < b + 1 ↔ c ≤ b := by
            rw [Fin.lt_def, Fin.val_add]
            omega
          simp [List.cons_lt_cons_iff, hc]
          grind
        · simp
          omega
      · simp [List.cons_lt_cons_iff]
        grind

theorem raised_ne (pfx : Bytes) : [] ∉ raised pfx ∧ [0] ∉ raised pfx := by
  induction pfx with
  | nil => simp [raised]
  | cons b bs ih =>
    rw [raised]
    rcases hbs : raised bs with _ | rest
    · split_ifs with hb
      · simp
        omega
      · simp
    · simp
      grind

theorem isPrefix_iff_inRange (pfx k : Bytes) :
    pfx <+: k ↔ InRange pfx (gteRange (some (getPrefix pfx))) k := by
  obtain ⟨hnil, hzero⟩ := raised_ne pfx
  rw [isPrefix_iff_raised]
  unfold getPrefix gteRange
  rcases hr : raised pfx with _ | stop
  · simp [noPrefixEnd, InRange]
  · have hz : stop ≠ [0] := fun h => hzero (h ▸ hr)
    have hn : stop ≠ [] := fun h => hnil (h ▸ hr)
    simp [InRange, hz, hn]

/-- The keys from a prefix to the end `WithPrefix` asks for are those with the prefix, a `0` byte
alone being no end, and so the server takes it. -/
theorem withPrefix_range (pfx k : Bytes) :
    (pfx <+: k ↔ pfx ≤ k ∧ (getPrefix pfx = noPrefixEnd ∨ k < getPrefix pfx)) ∧
      (pfx <+: k ↔ InRange pfx (gteRange (some (getPrefix pfx))) k) := by
  have hnil : getPrefix pfx ≠ [] := by
    unfold getPrefix
    rcases hr : raised pfx with _ | stop
    · simp [noPrefixEnd]
    · exact fun h => (raised_ne pfx).1 (h ▸ hr)
  refine ⟨?_, isPrefix_iff_inRange pfx k⟩
  rw [isPrefix_iff_inRange, gteRange]
  split_ifs with hz <;> simp_all [InRange, noPrefixEnd]

end EtcdCompat.Clientv3
