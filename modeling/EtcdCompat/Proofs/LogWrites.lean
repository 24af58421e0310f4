import EtcdCompat.Proofs.LogShows

/-!
# Writes to the log

Appending at an index cuts the log there. A leader's entries reach a follower as a part of the
leader's log, and `maybeAppend` leaves the follower with its own log, if that has them all, or else
with the leader's up to the last of them.
-/

namespace EtcdCompat

open List RaftLog

open Consensus (termAt)

namespace Shows

variable {l : RaftLog} {log stored : List Entry} {k : ℕ}

theorem getElem?_of_append {e : Entry} {es : List Entry} (hk : k ≤ log.length)
    (hidx : Indexed (log.take k ++ e :: es)) : e.index = k + 1 := by
  refine hidx k e ?_
  rw [getElem?_append_right (by simp), length_take_of_le hk]
  simp

variable (h : Shows l log stored)
include h

theorem append_eq {ents : List Entry} (hne : ents ≠ []) (hk : k ≤ log.length) (hd : l.dummy ≤ k)
    (hc : l.committed ≤ k) (hidx : Indexed (log.take k ++ ents)) :
    ∃ u, l.append ents = .ok { l with unstable := u } ∧ u.snapshot = l.unstable.snapshot ∧
      u.entries ≠ [] ∧ u.offset ≤ l.unstable.offset ∧
      Shows { l with unstable := u } (log.take k ++ ents) stored := by
  cases ents with
  | nil => exact absurd rfl hne
  | cons e es =>
    have he := getElem?_of_append hk hidx
    have hlen := h.length_entries
    have hpos := h.pos
    have hoff := h.offset
    have htake : (log.take k).length = k := length_take_of_le hk
    have hdum : l.unstable.snapshot = none → l.storage.ents0.index ≤ k := by
      intro hs
      simpa [dummy, hs] using hd
    have hpend : ∀ s, l.unstable.snapshot = some s → s.metadata.index ≤ k := by
      intro s hs
      simpa [dummy, hs] using hd
    have hshows : ∀ {o : ℕ} {us : List Entry}, 1 ≤ o → o ≤ l.unstable.offset → o ≤ k + 1 →
        us = (log.take k ++ e :: es).drop (o - 1) →
        (∀ s, l.unstable.snapshot = some s → o = s.metadata.index + 1) →
        Shows { l with unstable := { l.unstable with offset := o, entries := us } }
          (log.take k ++ e :: es) stored := by
      intro o us ho hle hlt hus hsnap
      have hlength : (log.take k ++ e :: es).length = k + (es.length + 1) := by
        rw [length_append, htake, length_cons]
      refine ⟨h.store, hidx, ho, ?_, hus, fun hs => ?_, fun hs => ?_, fun hs c hcc => ?_,
        fun hs hl => ?_, fun s hs => ⟨hsnap s hs, ?_⟩⟩
      · simp only
        omega
      · have := h.offset_le hs
        simp only
        omega
      · have := hdum hs
        simp only
        omega
      · have := hdum hs
        simp only at hcc
        have hck : c ≤ k := by omega
        rw [take_append_of_le_length (by omega), take_take, min_eq_left hck,
          h.common hs c (by omega)]
      · simp only at hl
        omega
      · have hsk := hpend s hs
        rw [(h.pending s hs).2, Consensus.termAt_prefix (prefix_append ..)
          (by rw [htake]; exact hsk), Consensus.termAt_take hsk]
    rw [append, if_neg (by omega)]
    simp only [Unstable.truncateAndAppend]
    rw [if_neg (by omega)]
    split_ifs with h1 h2
    · -- right after the last entry
      have hkl : k = log.length := by omega
      refine ⟨_, rfl, rfl, by simp, le_rfl, hshows hpos le_rfl (by omega) ?_
        fun s hs => (h.pending s hs).1⟩
      rw [h.entries, drop_append_of_le_length (by omega), hkl, take_length]
    · -- before the first unstable entry
      refine ⟨_, rfl, rfl, by simp, by simp only; omega, hshows (by omega) (by omega) he.le ?_
        fun s hs => ?_⟩
      · rw [he, Nat.add_sub_cancel, drop_append, htake, Nat.sub_self, drop_zero,
          drop_eq_nil_of_le htake.le, nil_append]
      · have := hpend s hs
        have := (h.pending s hs).1
        omega
    · -- within the unstable entries
      have hko : l.unstable.offset ≤ k + 1 := by omega
      rw [he, h.unstable_slice_eq le_rfl hko (by omega)]
      refine ⟨_, rfl, rfl, by simp, le_rfl, hshows hpos le_rfl hko ?_
        fun s hs => (h.pending s hs).1⟩
      rw [drop_append_of_le_length (by omega), drop_take,
        show k + 1 - l.unstable.offset = k - (l.unstable.offset - 1) by omega]

theorem commitTo_eq {c : ℕ} (hc : c ≤ log.length) :
    l.commitTo c = .ok { l with committed := max l.committed c } := by
  rw [commitTo, h.lastIndex_eq]
  split_ifs with h1 h2
  · omega
  · rw [max_eq_right h1.le]
  · rw [max_eq_left (by omega)]

theorem withCommitted (c : ℕ) : Shows { l with committed := c } log stored :=
  { h with }

theorem withApplied (i : ℕ) : Shows { l with applied := i } log stored :=
  { h with }

theorem restore {s : Snapshot} {log' : List Entry} (hlen : log'.length = s.metadata.index)
    (hidx : Indexed log') (hterm : s.metadata.term = termAt Entry.term log' s.metadata.index) :
    Shows (l.restore s) log' stored where
  store := h.store
  indexed := hidx
  pos := Nat.le_add_left ..
  offset := hlen.ge
  entries := (drop_eq_nil_of_le hlen.le).symm
  offset_le := nofun
  dummy_le := nofun
  common := nofun
  saved := nofun
  pending := by
    intro s' hs'
    cases hs'
    exact ⟨rfl, hterm⟩

end Shows

/-- Logs that have an entry of one term at one index are the same up to it, and terms start
at one. -/
structure Matches (log L : List Entry) : Prop where
  take : ∀ (j : ℕ) a b, log[j]? = some a → L[j]? = some b → a.term = b.term →
    log.take (j + 1) = L.take (j + 1)
  pos : ∀ e ∈ L, 0 < e.term

namespace Matches

variable {log L : List Entry} {i : ℕ}

theorem termAt_pos (h : Matches log L) (hi : 1 ≤ i) (hL : i ≤ L.length) :
    0 < termAt Entry.term L i := by
  obtain ⟨j, rfl⟩ := Nat.exists_eq_add_of_le' hi
  have hj := getElem?_eq_getElem (show j < L.length by omega)
  rw [Consensus.termAt_succ hj]
  exact h.pos _ (getElem_mem _)

theorem take_eq (h : Matches log L) (hL : i ≤ L.length)
    (ht : termAt Entry.term log i = termAt Entry.term L i) : log.take i = L.take i := by
  cases i with
  | zero => rfl
  | succ j =>
    have hj := getElem?_eq_getElem (show j < L.length by omega)
    have hpos := h.termAt_pos (Nat.succ_pos j) hL
    rw [Consensus.termAt_succ hj] at ht hpos
    cases hlog : log[j]? with
    | none =>
      simp [termAt, hlog] at ht
      omega
    | some a =>
      rw [Consensus.termAt_succ hlog] at ht
      exact h.take j a _ hlog hj ht

theorem termAt_eq (ht : L.take i <+: log) : termAt Entry.term log i =
    termAt Entry.term L i ∨ L.length < i := by
  rcases le_or_gt i L.length with hi | hi
  · left
    rw [Consensus.termAt_prefix ht (by rw [length_take_of_le hi]), Consensus.termAt_take le_rfl]
  · exact .inr hi

end Matches

namespace Shows

variable {l : RaftLog} {log stored L : List Entry}

theorem findConflict_eq (h : Shows l log stored) (hL : Indexed L) :
    ∀ {m idx : ℕ}, m ≤ L.length → l.dummy ≤ idx + 1 →
      (l.findConflict ((L.take m).drop idx) = .ok 0 ∧
        ∀ i, idx < i → i ≤ m → termAt Entry.term log i = termAt Entry.term L i) ∨
      ∃ ci, idx < ci ∧ ci ≤ m ∧ l.findConflict ((L.take m).drop idx) = .ok ci ∧
        (∀ i, idx < i → i < ci → termAt Entry.term log i = termAt Entry.term L i) ∧
        termAt Entry.term log ci ≠ termAt Entry.term L ci := by
  intro m idx hm
  obtain ⟨d, hd⟩ : ∃ d, d = m - idx := ⟨_, rfl⟩
  induction d generalizing idx with
  | zero =>
    intro _
    rw [drop_eq_nil_of_le (by rw [length_take_of_le hm]; omega)]
    exact .inl ⟨rfl, fun i h1 h2 => by omega⟩
  | succ d ih =>
    intro hdum
    have hlt : idx < L.length := by omega
    have hget := getElem?_eq_getElem hlt
    have hdrop : (L.take m).drop idx = L[idx] :: (L.take m).drop (idx + 1) := by
      rw [drop_eq_getElem_cons (by rw [length_take_of_le hm]; omega), getElem_take]
    have hmatch : l.matchTerm L[idx].index L[idx].term =
        .ok (termAt Entry.term log (idx + 1) == termAt Entry.term L (idx + 1)) := by
      rw [hL idx _ hget, h.matchTerm_eq _ hdum, Consensus.termAt_succ (f := Entry.term) hget]
    rw [hdrop, findConflict, hmatch]
    simp only [bind, Except.bind]
    by_cases heq : termAt Entry.term log (idx + 1) = termAt Entry.term L (idx + 1)
    · rw [if_pos (by simpa using heq)]
      have hstep : ∀ i, idx < i → (idx + 1 < i → termAt Entry.term log i =
          termAt Entry.term L i) → termAt Entry.term log i = termAt Entry.term L i := by
        intro i h1 h2
        rcases Nat.lt_or_eq_of_le h1 with h3 | rfl
        · exact h2 h3
        · exact heq
      rcases ih (show d = m - (idx + 1) by omega) (by omega) with
        ⟨h1, h2⟩ | ⟨ci, h1, h2, h3, h4, h5⟩
      · exact .inl ⟨h1, fun i hi hi' => hstep i hi fun h => h2 i h hi'⟩
      · exact .inr ⟨ci, by omega, h2, h3, fun i hi hi' => hstep i hi fun h => h4 i h hi', h5⟩
    · rw [if_neg (by simpa using heq)]
      refine .inr ⟨idx + 1, by omega, by omega, ?_, fun i h1 h2 => by omega, heq⟩
      rw [hL idx _ hget]
      rfl

open scoped Classical in
/-- What `maybeAppend` leaves of the log, for a part of the leader's log `L` that starts at or after
the committed index. -/
theorem appendFrom_eq (h : Shows l log stored) (hL : Indexed L) (hM : Matches log L) {m idx : ℕ}
    (hm : m ≤ L.length) (hidx : idx ≤ m) (hdum : l.dummy ≤ l.committed)
    (hci : l.committed ≤ idx) (hprev : log.take idx = L.take idx) :
    ∃ u, l.appendFrom idx ((L.take m).drop idx) = .ok { l with unstable := u } ∧
      u.snapshot = l.unstable.snapshot ∧ (u = l.unstable ∧ L.take m <+: log ∨
        u.entries ≠ [] ∧ ¬ L.take m <+: log) ∧ u.offset ≤ l.unstable.offset ∧
      Shows { l with unstable := u } (if L.take m <+: log then log else L.take m) stored ∧
      (if L.take m <+: log then log else L.take m).take idx = log.take idx := by
  rw [appendFrom]
  rcases h.findConflict_eq hL hm (by omega : l.dummy ≤ idx + 1) with
    ⟨h1, h2⟩ | ⟨ci, h1, h2, h3, h4, h5⟩
  · have hpre : L.take m <+: log := by
      have : log.take m = L.take m := by
        rcases Nat.lt_or_eq_of_le hidx with hlt | rfl
        · exact hM.take_eq hm (h2 m hlt le_rfl)
        · exact hprev
      rw [← this]
      exact take_prefix ..
    rw [h1]
    rw [if_pos hpre]
    exact ⟨l.unstable, rfl, rfl, .inl ⟨rfl, hpre⟩, le_rfl, h, rfl⟩
  · have hnot : ¬ L.take m <+: log := by
      intro hpre
      have hpre' : L.take ci <+: log := (take_prefix_take_left h2).trans hpre
      rcases Matches.termAt_eq hpre' with ht | ht
      · exact h5 ht
      · omega
    have hbefore : log.take (ci - 1) = L.take (ci - 1) := by
      rcases Nat.lt_or_ge idx (ci - 1) with hlt | hge
      · exact hM.take_eq (by omega) (h4 _ hlt (by omega))
      · rw [show ci - 1 = idx by omega]
        exact hprev
    have hlen' : ci - 1 ≤ log.length := by
      have := congrArg length hbefore
      rw [length_take_of_le (by omega : ci - 1 ≤ L.length), length_take] at this
      omega
    have hrest : ((L.take m).drop idx).drop (ci - (idx + 1)) = (L.take m).drop (ci - 1) := by
      rw [drop_drop, show idx + (ci - (idx + 1)) = ci - 1 by omega]
    have hjoin : log.take (ci - 1) ++ (L.take m).drop (ci - 1) = L.take m := by
      have := take_append_drop (ci - 1) (L.take m)
      rwa [take_take, min_eq_left (by omega), ← hbefore] at this
    have hne : (L.take m).drop (ci - 1) ≠ [] := by
      rw [Ne, drop_eq_nil_iff, length_take_of_le hm]
      omega
    obtain ⟨u, hu1, hu2, hu3, hu4, hu5⟩ := h.append_eq hne hlen' (by omega) (by omega)
      (by rw [hjoin]; exact hL.take m)
    rw [h3]
    simp only [bind, Except.bind]
    rw [if_neg (by omega), if_neg (by omega), if_neg (by omega), sliceFrom, if_neg (by
      rw [length_drop, length_take_of_le hm]; omega), hrest]
    simp only [if_neg hnot]
    rw [hjoin] at hu5
    refine ⟨u, hu1, hu2, .inr ⟨hu3, hnot⟩, hu4, hu5, ?_⟩
    rw [take_take, min_eq_left hidx, hprev]

end Shows

end EtcdCompat
