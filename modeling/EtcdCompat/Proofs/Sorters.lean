import EtcdCompat.Client.Kv

/-!
# Sorters and limits

The comparisons of the sorters subtract, which gives the order of the target as long as the numbers
are positive int64s. Where no sorting is asked for the limit is given to the store, with one more
for the flag: the answer is the same as with all pairs fetched.
-/

namespace EtcdCompat

open Contents

section Sorters

variable {less : KeyValue → KeyValue → Bool} {target : ℤ}

/-- The order of a sort target. -/
def SortLe (target : ℤ) (a b : KeyValue) : Prop :=
  if target = sortByKey then a.key ≤ b.key
  else if target = sortByVersion then a.version ≤ b.version
  else if target = sortByCreate then a.createRevision ≤ b.createRevision
  else if target = sortByMod then a.modRevision ≤ b.modRevision
  else a.value ≤ b.value

theorem SortLe.trans {a b c : KeyValue} (hab : SortLe target a b) (hbc : SortLe target b c) :
    SortLe target a c := by
  unfold SortLe at *
  split_ifs at * <;> exact le_trans hab hbc

theorem sortLe_total (target : ℤ) (a b : KeyValue) : SortLe target a b ∨ SortLe target b a := by
  unfold SortLe
  split_ifs <;> exact le_total _ _

/-- The numbers of a pair, as the sorters may subtract them. -/
structure KeyValue.Positive (kv : KeyValue) : Prop where
  version : 1 ≤ kv.version ∧ kv.version ≤ maxInt64
  createRevision : 1 ≤ kv.createRevision ∧ kv.createRevision ≤ maxInt64
  modRevision : 1 ≤ kv.modRevision ∧ kv.modRevision ≤ maxInt64

theorem wrapInt64_of_isInt64 {n : ℤ} (h : IsInt64 n) : wrapInt64 n = n := by
  unfold IsInt64 minInt64 maxInt64 at h
  unfold wrapInt64 minInt64
  omega

theorem wrapInt64_sub_neg_iff {a b : ℤ} (ha : 1 ≤ a ∧ a ≤ maxInt64) (hb : 1 ≤ b ∧ b ≤ maxInt64) :
    decide (wrapInt64 (a - b) < 0) = false ↔ b ≤ a := by
  unfold maxInt64 at ha hb
  rw [wrapInt64_of_isInt64 (by unfold IsInt64 minInt64 maxInt64; omega), decide_eq_false_iff_not]
  omega

theorem sorter_spec (hs : sorter target = some less) {a b : KeyValue} (ha : a.Positive)
    (hb : b.Positive) : less a b = false ↔ SortLe target b a := by
  unfold sorter at hs
  unfold SortLe
  split_ifs at hs ⊢ <;> cases hs
  · exact decide_eq_false_iff_not.trans not_lt
  · exact wrapInt64_sub_neg_iff ha.version hb.version
  · exact wrapInt64_sub_neg_iff ha.createRevision hb.createRevision
  · exact wrapInt64_sub_neg_iff ha.modRevision hb.modRevision
  · exact decide_eq_false_iff_not.trans not_lt

theorem Runtime.sort_pairwise (rt : Runtime) {kvs : List KeyValue} {R : KeyValue → KeyValue → Prop}
    (hless : ∀ a ∈ kvs, ∀ b ∈ kvs, (less b a = false ↔ R a b))
    (htrans : ∀ a b c, R a b → R b c → R a c) (htotal : ∀ a b, R a b ∨ R b a) :
    (rt.sort less kvs).Pairwise R := by
  have hsorted := rt.sort_sorted less kvs
    (fun a ha b hb c hc hab hbc => (hless a ha c hc).2
      (htrans a b c ((hless a ha b hb).1 hab) ((hless b hb c hc).1 hbc)))
    (fun a ha b hb => (htotal a b).imp (hless a ha b hb).2 (hless b hb a ha).2)
  have hmem : ∀ {a}, a ∈ rt.sort less kvs → a ∈ kvs := (rt.sort_perm less kvs).mem_iff.1
  exact hsorted.imp_of_mem fun {a b} ha hb hab => (hless a (hmem ha) b (hmem hb)).1 hab

end Sorters

section Requests

namespace RangeRequest

/-- The enumerations of the request hold one of their values. -/
def Valid (r : RangeRequest) : Prop :=
  r.sortOrder ∈ [sortNone, sortAscend, sortDescend]
    ∧ r.sortTarget ∈ [sortByKey, sortByVersion, sortByCreate, sortByMod, sortByValue]

instance (r : RangeRequest) : Decidable r.Valid := inferInstanceAs (Decidable (_ ∧ _))

/-- The order of the answer: by target in the direction asked for, by key without an order. -/
def Precedes (r : RangeRequest) (a b : KeyValue) : Prop :=
  if r.sortOrder = sortAscend then SortLe r.sortTarget a b
  else if r.sortOrder = sortDescend then SortLe r.sortTarget b a
  else a.key < b.key

end RangeRequest

theorem sortKVs_arranged (rt : Runtime) {r : RangeRequest} (hr : r.Valid) {kvs : List KeyValue}
    (hpos : ∀ kv ∈ kvs, kv.Positive) (hkeys : kvs.Pairwise (·.key < ·.key)) :
    ∃ kvs', sortKVs rt r kvs = .ok kvs' ∧ kvs'.Perm kvs ∧ kvs'.Pairwise r.Precedes := by
  obtain ⟨less, hless⟩ : ∃ less, sorter r.sortTarget = some less := by
    have htarget := hr.2
    simp at htarget
    rcases htarget with h | h | h | h | h <;> rw [h] <;> exact ⟨_, rfl⟩
  unfold sortKVs RangeRequest.Precedes
  rw [hless]
  split_ifs
  · exact ⟨_, rfl, rt.sort_perm _ _, rt.sort_pairwise
      (fun a ha b hb => sorter_spec hless (hpos b hb) (hpos a ha)) (fun _ _ _ => SortLe.trans)
      (sortLe_total _)⟩
  · exact ⟨_, rfl, rt.sort_perm _ _, rt.sort_pairwise
      (fun a ha b hb => sorter_spec hless (hpos a ha) (hpos b hb))
      (fun _ _ _ hab hbc => SortLe.trans hbc hab) fun a b => sortLe_total _ b a⟩
  · exact ⟨kvs, rfl, .refl _, hkeys⟩

end Requests

section Answers

theorem Kv.answer_kvs (rev limit : ℤ) (kvs : List KeyValue) : (Kv.answer rev limit kvs).kvs =
    if 0 < limit then kvs.take limit.toNat else kvs := by
  unfold Kv.answer
  split_ifs with hcut hlimit hlimit
  · rfl
  · exact absurd hcut.1 hlimit
  · have hle := not_lt.1 fun h => hcut ⟨hlimit, h⟩
    exact (List.take_of_length_le (show kvs.length ≤ limit.toNat by omega)).symm
  · rfl

theorem Kv.answer_more (rev limit : ℤ) (kvs : List KeyValue) :
    (Kv.answer rev limit kvs).more = true ↔ 0 < limit ∧ limit < kvs.length := by
  unfold Kv.answer
  by_cases hcut : limit > 0 ∧ kvs.length > limit
  · rw [if_pos hcut]
    exact iff_of_true rfl hcut
  · rw [if_neg hcut]
    exact iff_of_false Bool.false_ne_true hcut

theorem length_cut {limit : ℤ} (hpos : 0 < limit) (kvs : List KeyValue) :
    limit < (cut (limit + 1) kvs).length ↔ limit < kvs.length := by
  rw [cut, if_pos (by omega : limit + 1 > 0), List.length_take]
  omega

theorem Kv.answer_fetched {r : RangeRequest} (hlimit : IsInt64 r.limit) (rev : ℤ)
    (kvs : List KeyValue) : Kv.answer rev r.limit (cut (fetchLimit r) kvs)
      = Kv.answer rev r.limit kvs := by
  unfold fetchLimit
  simp only []
  split_ifs with horder hpos hpos
  · exact absurd hpos (lt_irrefl 0)
  · rfl
  · by_cases hmax : r.limit = maxInt64
    -- one more than the greatest limit wraps to a negative one, which is none
    · rw [hmax]
      rfl
    · have hwrap : wrapInt64 (r.limit + 1) = r.limit + 1 :=
        wrapInt64_of_isInt64 (by unfold IsInt64 minInt64 maxInt64 at *; omega)
      rw [hwrap]
      unfold Kv.answer
      rw [if_congr (and_congr_right fun h => length_cut h kvs) rfl rfl]
      split_ifs with hmore
      · rw [cut, if_pos (by omega : r.limit + 1 > 0), List.take_take,
          min_eq_left (by omega : r.limit.toNat ≤ (r.limit + 1).toNat)]
      · have hle : kvs.length ≤ (r.limit + 1).toNat := by
          omega
        rw [cut, if_pos (by omega : r.limit + 1 > 0), List.take_of_length_le hle]
  · rw [cut, if_neg hpos]

end Answers

end EtcdCompat
