import EtcdCompat.Client.Kv

/-!
# The contents of the service over its revisions

From one revision to the next a key is left as it is, removed, or given a pair of the new revision,
which keeps the creation of a key that was there. So a pair seen was there, unchanged, from its
modification on, and its key from its creation on.
-/

namespace EtcdCompat.Kv

/-- What a revision may do to a key. -/
def Change (rev : ℤ) (key : Bytes) (old new : Option KeyValue) : Prop :=
  new = old ∨ new = none ∨ ∃ kv, new = some kv ∧ kv.key = key ∧ kv.modRevision = rev ∧
    kv.createRevision = (old.map (·.createRevision)).getD rev

structure Wf (kv : Kv) : Prop where
  one_le : 1 ≤ kv.rev
  start : kv.past 1 = .empty
  change : ∀ r, 1 ≤ r → r < kv.rev → ∀ key,
    Change (r + 1) key ((kv.past r).find key) ((kv.past (r + 1)).find key)

def initial : Kv := {}

theorem initial_wf : initial.Wf :=
  ⟨le_rfl, rfl, fun _ h h' => absurd h (not_le.2 h')⟩

namespace Wf

variable {kv : Kv} {r r' : ℤ} {key : Bytes} {pair : KeyValue}

theorem pair_cases (hw : kv.Wf) (h1 : 1 ≤ r) (hr : r + 1 ≤ kv.rev)
    (hf : (kv.past (r + 1)).find key = some pair) : (kv.past r).find key = some pair ∨
      pair.key = key ∧ pair.modRevision = r + 1 ∧ (pair.createRevision = r + 1 ∨
        ∃ old, (kv.past r).find key = some old ∧ pair.createRevision = old.createRevision) := by
  rcases hw.change r h1 (by omega) key with hsame | hnone | ⟨new, hnew, hkey, hmod, hcreate⟩
  · exact .inl (hsame ▸ hf)
  · rw [hnone] at hf
    cases hf
  · obtain rfl := Option.some.inj (hnew.symm.trans hf)
    refine .inr ⟨hkey, hmod, ?_⟩
    rcases hold : (kv.past r).find key with _ | old
    · rw [hold] at hcreate
      exact .inl hcreate
    · rw [hold] at hcreate
      exact .inr ⟨old, rfl, hcreate⟩

theorem pair_spec (hw : kv.Wf) (h1 : 1 ≤ r) (hr : r ≤ kv.rev)
    (hf : (kv.past r).find key = some pair) : pair.key = key ∧ 2 ≤ pair.createRevision ∧
      pair.createRevision ≤ pair.modRevision ∧ pair.modRevision ≤ r := by
  induction r, h1 using Int.leInduction generalizing pair with
  | base =>
    rw [hw.start] at hf
    cases hf
  | succ r h1 ih =>
    rcases hw.pair_cases h1 hr hf with hsame | ⟨hkey, hmod, hcreate | ⟨old, hold, hcreate⟩⟩
    · obtain ⟨hkey, htwo, hle, hmod⟩ := ih (by omega) hsame
      exact ⟨hkey, htwo, hle, by omega⟩
    · exact ⟨hkey, by omega, by omega, by omega⟩
    · obtain ⟨-, htwo, hle, hmod'⟩ := ih (by omega) hold
      exact ⟨hkey, by omega, by omega, by omega⟩

theorem alive (hw : kv.Wf) (hr : r ≤ kv.rev) (hf : (kv.past r).find key = some pair)
    (h1 : 1 ≤ r) (hle : r' ≤ r) (hcreate : pair.createRevision ≤ r') :
    ∃ old, (kv.past r').find key = some old ∧ old.createRevision = pair.createRevision := by
  induction r, h1 using Int.leInduction generalizing pair with
  | base =>
    rw [hw.start] at hf
    cases hf
  | succ r h1 ih =>
    rcases hle.eq_or_lt with rfl | hlt
    · exact ⟨pair, hf, rfl⟩
    rcases hw.pair_cases h1 hr hf with hsame | ⟨-, -, hnew | ⟨old, hold, hnew⟩⟩
    · exact ih (by omega) hsame (by omega) hcreate
    · omega
    · obtain ⟨old', hold', heq⟩ := ih (by omega) hold (by omega) (by omega)
      exact ⟨old', hold', heq.trans hnew.symm⟩

theorem unmodified (hw : kv.Wf) (hr : r ≤ kv.rev) (hf : (kv.past r).find key = some pair)
    (h1 : 1 ≤ r) (hle : r' ≤ r) (hmod : pair.modRevision ≤ r') :
    (kv.past r').find key = some pair := by
  induction r, h1 using Int.leInduction with
  | base =>
    rw [hw.start] at hf
    cases hf
  | succ r h1 ih =>
    rcases hle.eq_or_lt with rfl | hlt
    · exact hf
    rcases hw.pair_cases h1 hr hf with hsame | ⟨-, hnew, -⟩
    · exact ih (by omega) hsame (by omega)
    · omega

theorem gone (hw : kv.Wf) (hdel : kv.deletedSince key pair.createRevision = true) :
    kv.contents.find key ≠ some pair := by
  intro hf
  obtain ⟨i, hi, hat⟩ := List.any_eq_true.1 hdel
  rw [List.mem_range] at hi
  have hnone := Option.isNone_iff_eq_none.1 (Bool.and_eq_true_iff.1 hat).2
  obtain ⟨old, hold, -⟩ := hw.alive le_rfl hf hw.one_le
    (show pair.createRevision + (i : ℤ) ≤ kv.rev by omega) (by omega)
  rw [hnone] at hold
  cases hold

end Wf

section Commit

variable {kv : Kv} {st : Contents × Bool}

def Extends (kv kv' : Kv) : Prop := kv.rev ≤ kv'.rev ∧ ∀ r ≤ kv.rev, kv'.past r = kv.past r

theorem Extends.refl (kv : Kv) : kv.Extends kv := ⟨le_rfl, fun _ _ => rfl⟩

theorem Extends.trans {kv' kv'' : Kv} (h : kv.Extends kv') (h' : kv'.Extends kv'') :
    kv.Extends kv'' :=
  ⟨h.1.trans h'.1, fun r hr => (h'.2 r (hr.trans h.1)).trans (h.2 r hr)⟩

theorem contents_commit (h : st.2 = false → st.1 = kv.contents) :
    (kv.commit st).contents = st.1 := by
  unfold commit contents
  split_ifs with hst
  · exact if_pos rfl
  · exact (h (Bool.eq_false_iff.2 hst)).symm

theorem extends_commit (kv : Kv) (st : Contents × Bool) : kv.Extends (kv.commit st) := by
  unfold commit
  split_ifs
  · refine ⟨by change kv.rev ≤ kv.rev + 1; omega, fun r hr => if_neg ?_⟩
    omega
  · exact .refl kv

theorem Wf.commit (hw : kv.Wf)
    (h : ∀ key, Change (kv.rev + 1) key (kv.contents.find key) (st.1.find key)) :
    (kv.commit st).Wf := by
  unfold Kv.commit
  split_ifs
  · have hone := hw.one_le
    refine ⟨by change 1 ≤ kv.rev + 1; omega, (if_neg (by omega)).trans hw.start,
      fun r h1 hr key => ?_⟩
    change r < kv.rev + 1 at hr
    change Change (r + 1) key ((if r = kv.rev + 1 then st.1 else kv.past r).find key)
      ((if r + 1 = kv.rev + 1 then st.1 else kv.past (r + 1)).find key)
    rw [if_neg (by omega)]
    rcases (show r ≤ kv.rev by omega).eq_or_lt with rfl | hlt
    · rw [if_pos rfl]
      exact h key
    · rw [if_neg (by omega)]
      exact hw.change r h1 hlt key
  · exact hw

end Commit

section Writes

variable {kv : Kv}

theorem change_put (c : Contents) (rev : ℤ) (key value : Bytes) (lease : ℤ) (k : Bytes) :
    Change rev k (c.find k) ((c.put rev key value lease).find k) := by
  unfold Contents.put
  rw [OrdMap.find_insert]
  split_ifs with hk
  · subst hk
    exact .inr (.inr ⟨_, rfl, rfl, rfl, rfl⟩)
  · exact .inl rfl

theorem change_deleteRange (c : Contents) (rev : ℤ) (key : Bytes) (stop : Option Bytes)
    (k : Bytes) : Change rev k (c.find k) ((c.deleteRange key stop).find k) := by
  unfold Contents.deleteRange
  rw [OrdMap.find_filter]
  split_ifs
  · exact .inl rfl
  · exact .inr (.inl rfl)

theorem Wf.put (hw : kv.Wf) (p : PutRequest) : (kv.put p).Wf :=
  hw.commit fun k => change_put _ _ _ _ _ k

theorem Wf.deleteRange (hw : kv.Wf) (dr : DeleteRangeRequest) : (kv.deleteRange dr).Wf :=
  hw.commit fun k => change_deleteRange _ _ _ _ k

theorem extends_put (kv : Kv) (p : PutRequest) : kv.Extends (kv.put p) := extends_commit _ _

theorem extends_deleteRange (kv : Kv) (dr : DeleteRangeRequest) :
    kv.Extends (kv.deleteRange dr) := extends_commit _ _

end Writes

section Read

def contentsOf (kv : Kv) (rev : ℤ) : Contents := if rev ≤ 0 then kv.contents else kv.past rev

theorem readAt_contents {kv : Kv} {rev : ℤ} (hrev : rev ≤ kv.rev) :
    kv.readAt (kv.contents, false) rev = kv.contentsOf rev := by
  unfold readAt contentsOf
  split_ifs with h h' h'
  · rfl
  · omega
  · omega
  · rfl

end Read

end EtcdCompat.Kv
