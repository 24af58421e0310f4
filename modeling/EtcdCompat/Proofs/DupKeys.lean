import EtcdCompat.Server.Apply

/-!
# The check for duplicate keys

`checkRequestDupKeys` compares two positions among the keys of the puts, so it finds a put between
the key and the range end of a delete in either order. That is a key the delete takes, if the range
end is not below the key and is none of the two that mean no end.
-/

namespace EtcdCompat.V3rpc

open List OrdMap

variable {dr : DeleteRangeRequest}

def putKeys (reqs : List RequestUnion) : List Bytes := reqs.filterMap fun
  | .requestPut (some p) => some p.key
  | _ => none

/-- Two puts have one key, or a key is put and deleted. -/
def Overlaps (reqs : List RequestUnion) : Prop :=
  ¬ (putKeys reqs).Nodup ∨ ∃ dr, .requestDeleteRange (some dr) ∈ reqs
    ∧ ∃ k ∈ putKeys reqs, InRange dr.key (gteRange dr.rangeEnd) k

def Exact (reqs : List RequestUnion) : Prop :=
  checkRequestDupKeys reqs = .error .errDuplicateKey ↔ Overlaps reqs

/-- The check and the store read the range end of a delete in the same way. -/
def Plain (dr : DeleteRangeRequest) : Prop :=
  ∀ stop, dr.rangeEnd = some stop → stop ≠ [] ∧ stop ≠ [0] ∧ dr.key ≤ stop

/-- What the check takes for a put of a deleted key. -/
def Hit (dr : DeleteRangeRequest) (k : Bytes) : Prop := match dr.rangeEnd with
  | none => k = dr.key
  | some stop => ¬ (dr.key ≤ k ↔ stop ≤ k)

theorem searchStrings_ne_iff {x y : Bytes} : ∀ {a : List Bytes}, a.Pairwise (· < ·) →
    (searchStrings a x ≠ searchStrings a y ↔ ∃ k ∈ a, ¬ (x ≤ k ↔ y ≤ k))
  | [], _ => by simp [searchStrings]
  | k :: a, h => by
    obtain ⟨hk, ha⟩ := pairwise_cons.1 h
    have ih := searchStrings_ne_iff (x := x) (y := y) ha
    simp only [searchStrings, findIdx_cons, exists_mem_cons_iff] at ih ⊢
    by_cases hx : x ≤ k <;> by_cases hy : y ≤ k
    · have hnone : ¬ ∃ k' ∈ a, ¬ (x ≤ k' ↔ y ≤ k') := by
        rintro ⟨k', hk', hne⟩
        have hlt := (hk k' hk').le
        exact hne (by simp [hx.trans hlt, hy.trans hlt])
      simp [hx, hy, hnone]
    · simp [hx, hy]
    · simp [hx, hy]
    · simpa [hx, hy] using ih

theorem foldlM_putKey : ∀ {reqs : List RequestUnion} {keys : OrdMap Bytes Unit},
    ((putKeys reqs).Nodup ∧ (∀ k ∈ putKeys reqs, keys.find k = none)
      ∧ ∃ keys', reqs.foldlM putKey keys = .ok keys'
        ∧ ∀ k, (keys'.find k).isSome ↔ (keys.find k).isSome ∨ k ∈ putKeys reqs)
    ∨ ¬ ((putKeys reqs).Nodup ∧ ∀ k ∈ putKeys reqs, keys.find k = none)
      ∧ reqs.foldlM putKey keys = .error .errDuplicateKey
  | [], keys => .inl ⟨.nil, by simp [putKeys], keys, rfl, by simp [putKeys]⟩
  | requ :: reqs, keys => by
    by_cases hput : ∃ p, requ = .requestPut (some p)
    · obtain ⟨p, rfl⟩ := hput
      have hcons : putKeys (.requestPut (some p) :: reqs) = p.key :: putKeys reqs := rfl
      rw [hcons, nodup_cons, forall_mem_cons, foldlM_cons, putKey]
      by_cases hfind : (keys.find p.key).isSome
      · rw [if_pos hfind]
        refine .inr ⟨fun h => ?_, rfl⟩
        rw [h.2.1] at hfind
        cases hfind
      · rw [if_neg hfind]
        have hnone := Option.not_isSome_iff_eq_none.1 hfind
        have hdisj : (p.key ∉ putKeys reqs ∧ ∀ k ∈ putKeys reqs, keys.find k = none)
            ↔ ∀ k ∈ putKeys reqs, (keys.insert p.key ()).find k = none := by
          simp only [find_insert]
          refine ⟨fun h k hk => ?_, fun h => ⟨fun hp => ?_, fun k hk => ?_⟩⟩
          · rw [if_neg (ne_of_mem_of_not_mem hk h.1).symm]
            exact h.2 k hk
          · have := h _ hp
            rw [if_pos rfl] at this
            cases this
          · have := h k hk
            split_ifs at this
            exact this
        rcases @foldlM_putKey reqs (keys.insert p.key ()) with
          ⟨hnd, hnew, keys', hkeys', hmem⟩ | ⟨hno, herr⟩
        · obtain ⟨hp, hold⟩ := hdisj.2 hnew
          refine .inl ⟨⟨hp, hnd⟩, ⟨hnone, hold⟩, keys', hkeys', fun k => ?_⟩
          rw [hmem, find_insert, mem_cons]
          split_ifs with hk
          · simp [hk]
          · simp [Ne.symm hk]
        · exact .inr ⟨fun h => hno ⟨h.1.2, hdisj.1 ⟨h.1.1, h.2.2⟩⟩, herr⟩
    · have hcons : putKeys (requ :: reqs) = putKeys reqs := by
        rcases requ with _ | (_ | p) | _ | _ <;> try rfl
        exact absurd ⟨p, rfl⟩ hput
      have hstep : putKey keys requ = .ok keys := by
        rcases requ with _ | (_ | p) | _ | _ <;> try rfl
        exact absurd ⟨p, rfl⟩ hput
      rw [hcons, foldlM_cons, hstep]
      exact foldlM_putKey

theorem deleteOverlaps_cases (keys : OrdMap Bytes Unit) (requ : RequestUnion) :
    deleteOverlaps keys requ = .ok () ∨ deleteOverlaps keys requ = .error .errDuplicateKey := by
  rcases requ with _ | _ | (_ | dr) | _ <;> try exact .inl rfl
  simp only [deleteOverlaps]
  rcases dr.rangeEnd with _ | stop <;> simp only <;> split_ifs <;> simp

theorem deleteOverlaps_iff {keys : OrdMap Bytes Unit} {requ : RequestUnion} :
    deleteOverlaps keys requ = .error .errDuplicateKey ↔ ∃ dr,
      requ = .requestDeleteRange (some dr) ∧ ∃ k, (keys.find k).isSome ∧ Hit dr k := by
  rcases requ with _ | _ | (_ | dr) | _ <;> try simp [deleteOverlaps]
  have hmem : ∀ k, k ∈ keys.entries.map (·.1) ↔ (keys.find k).isSome := fun k => by
    simp only [mem_map, Prod.exists, mem_entries, Option.isSome_iff_exists]
    exact ⟨fun ⟨_, v, h, hk⟩ => ⟨v, hk ▸ h⟩, fun ⟨v, h⟩ => ⟨k, v, h, rfl⟩⟩
  have hsorted : (keys.entries.map (·.1)).Pairwise (· < ·) :=
    pairwise_map.2 keys.sorted
  simp only [Hit]
  rcases dr.rangeEnd with _ | stop
  · simp [Option.isSome_iff_ne_none]
  · have hne := searchStrings_ne_iff (x := dr.key) (y := stop) hsorted
    simp only [hmem] at hne
    simp only [← hne]
    split_ifs with h <;> simp [h]

theorem forM_eq_error_iff {f : RequestUnion → Except RpcError Unit} {e : RpcError}
    (hf : ∀ requ, f requ = .ok () ∨ f requ = .error e) : ∀ {reqs : List RequestUnion},
    reqs.forM f = .error e ↔ ∃ requ ∈ reqs, f requ = .error e
  | [] => by simp [List.forM, pure, Except.pure]
  | requ :: reqs => by
    rw [List.exists_mem_cons_iff, ← forM_eq_error_iff hf]
    rcases hf requ with h | h <;> simp [List.forM, h, bind, Except.bind]

theorem check_iff {reqs : List RequestUnion} :
    checkRequestDupKeys reqs = .error .errDuplicateKey ↔
      ¬ (putKeys reqs).Nodup ∨ ∃ dr, .requestDeleteRange (some dr) ∈ reqs
        ∧ ∃ k ∈ putKeys reqs, Hit dr k := by
  unfold checkRequestDupKeys
  rcases @foldlM_putKey reqs .empty with ⟨hnd, -, keys, hkeys, hmem⟩ | ⟨hno, herr⟩
  · simp at hmem
    have hhit : reqs.forM (deleteOverlaps keys) = .error .errDuplicateKey ↔ ∃ dr,
        .requestDeleteRange (some dr) ∈ reqs ∧ ∃ k ∈ putKeys reqs, Hit dr k := by
      simp only [forM_eq_error_iff (deleteOverlaps_cases keys), deleteOverlaps_iff, hmem]
      exact ⟨fun ⟨_, hr, dr, h, hk⟩ => ⟨dr, h ▸ hr, hk⟩, fun ⟨dr, hr, hk⟩ => ⟨_, hr, dr, rfl, hk⟩⟩
    simp only [hkeys, bind, Except.bind, hnd, not_true_eq_false, false_or, ← hhit]
    split_ifs with hempty
    · refine iff_of_false (fun h => (by cases h)) fun h => ?_
      obtain ⟨dr, -, k, hk, -⟩ := hhit.1 h
      rw [← hmem, Option.isSome_iff_exists] at hk
      obtain ⟨v, hv⟩ := hk
      have := mem_entries.2 hv
      rw [length_eq_zero_iff.1 hempty] at this
      cases this
    · rfl
  · have hdup : ¬ (putKeys reqs).Nodup := fun h => hno ⟨h, fun k _ => find_empty k⟩
    simp [herr, bind, Except.bind, hdup]

theorem hit_iff (h : Plain dr) (k : Bytes) :
    Hit dr k ↔ InRange dr.key (gteRange dr.rangeEnd) k := by
  unfold Hit
  rcases hend : dr.rangeEnd with _ | stop
  · rfl
  · obtain ⟨hnil, hzero, hle⟩ := h stop hend
    simp [gteRange, hzero, InRange, hnil]
    refine ⟨fun hne => ?_, fun ⟨hk, hlt⟩ hiff => absurd (hiff.1 hk) (not_le.2 hlt)⟩
    by_cases hk : stop ≤ k
    · exact absurd (iff_of_true (hle.trans hk) hk) hne
    · exact ⟨by_contra fun hk' => hne (iff_of_false hk' hk), not_le.1 hk⟩

def pair (k : Bytes) (dr : DeleteRangeRequest) : List RequestUnion :=
  [.requestPut (some { key := k }), .requestDeleteRange (some dr)]

theorem exact_pair_iff {k : Bytes} :
    Exact (pair k dr) ↔ (Hit dr k ↔ InRange dr.key (gteRange dr.rangeEnd) k) := by
  simp [Exact, check_iff, Overlaps, pair, putKeys]

theorem plain_of_exact (h : ∀ k, Exact (pair k dr)) : Plain dr := by
  intro stop hend
  simp only [exact_pair_iff, Hit, hend] at h
  -- if the range end means none, a key above both is deleted
  have hopen : stop ≠ [] ∧ stop ≠ [0] := by
    rw [← not_or]
    intro hstop
    have hgte : gteRange (some stop) = some [] := by
      rcases hstop with rfl | rfl <;> rfl
    have hk := h (max dr.key stop)
    rw [hgte] at hk
    exact hk.2 ⟨le_max_left _ _, .inl rfl⟩ (iff_of_true (le_max_left _ _) (le_max_right _ _))
  refine ⟨hopen.1, hopen.2, not_lt.1 fun hlt => ?_⟩
  -- a range end below the key is itself taken for a deleted key
  have hk := h stop
  rw [gteRange, if_neg (by simpa using hopen.2)] at hk
  exact absurd (hk.1 fun hiff => absurd (hiff.2 (le_refl stop)) (not_le.2 hlt)).1 (not_le.2 hlt)

end EtcdCompat.V3rpc
