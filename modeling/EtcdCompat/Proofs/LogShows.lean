import EtcdCompat.Raft.Log
import EtcdCompat.Lib.Consensus.Invariant

/-!
# The log a node sees

A node's log is one list of entries from index one on, of which the storage holds a part and the
unstable entries the rest (`Shows`). What the storage holds is the stored log from its dummy entry
on (`Stores`). The reads of `RaftLog` are reads of that list.
-/

namespace EtcdCompat

open List RaftLog

open Consensus (termAt)

def Indexed (log : List Entry) : Prop := ∀ (j : ℕ) e, log[j]? = some e → e.index = j + 1

namespace Indexed

theorem of_prefix {log log' : List Entry} (h : Indexed log) (hp : log' <+: log) : Indexed log' :=
  fun j e he => h j e (hp.getElem?_some he)

theorem take {log : List Entry} (h : Indexed log) (i : ℕ) : Indexed (log.take i) :=
  h.of_prefix (List.take_prefix i log)

end Indexed

/-- The storage holds `log` from its dummy entry on. -/
structure Stores (ms : MemoryStorage) (log : List Entry) : Prop where
  dummy : ms.ents0.index ≤ log.length
  term : ms.ents0.term = termAt Entry.term log ms.ents0.index
  ents : ms.ents = log.drop ms.ents0.index

namespace Stores

variable {ms : MemoryStorage} {log : List Entry} {i : ℕ}

variable (h : Stores ms log)
include h

theorem lastIndex_eq : ms.lastIndex = log.length := by
  have := h.dummy
  rw [MemoryStorage.lastIndex, h.ents, length_drop]
  omega

theorem getElem? (hlo : ms.ents0.index ≤ i) (hhi : i ≤ log.length) :
    ((ms.ents0 :: ms.ents)[i - ms.ents0.index]?).map Entry.term =
      some (termAt Entry.term log i) := by
  obtain ⟨k, rfl⟩ := Nat.exists_eq_add_of_le hlo
  cases k with
  | zero => simp [h.term]
  | succ k =>
    have hk : ms.ents0.index + k < log.length := by omega
    rw [Nat.add_sub_cancel_left, getElem?_cons_succ, h.ents, getElem?_drop, ← Nat.add_assoc, termAt,
      getElem?_eq_getElem hk]
    rfl

theorem term_eq (hlo : ms.ents0.index ≤ i) (hhi : i ≤ log.length) :
    ms.term i = .ok (.ok (termAt Entry.term log i)) := by
  have hget := h.getElem? hlo hhi
  rw [MemoryStorage.term, if_neg (by omega)]
  cases he : (ms.ents0 :: ms.ents)[i - ms.ents0.index]? with
  | none => simp [he] at hget
  | some e =>
    rw [he] at hget
    simpa using hget

theorem entries_eq {lo hi maxSize : ℕ} (hlo : ms.ents0.index < lo) (hlt : lo < hi)
    (hhi : hi ≤ log.length + 1) : ms.entries lo hi maxSize =
      .ok (.ok (limitSize ((log.drop (lo - 1)).take (hi - lo)) maxSize)) := by
  have hne : ms.ents ≠ [] := by
    rw [h.ents, Ne, drop_eq_nil_iff]
    omega
  have hlast := h.lastIndex_eq
  rw [MemoryStorage.entries, if_neg (by omega), if_neg (by omega), if_neg hne, if_neg (by omega),
    h.ents, drop_drop, show ms.ents0.index + (lo - ms.ents0.index - 1) = lo - 1 by omega]

end Stores

namespace RaftLog

/-- The index before the first one of the log. -/
def dummy (l : RaftLog) : ℕ :=
  (l.unstable.snapshot.map (·.metadata.index)).getD l.storage.ents0.index

end RaftLog

/-- The node sees `log`, and its storage holds `stored`. -/
structure Shows (l : RaftLog) (log stored : List Entry) : Prop where
  store : Stores l.storage stored
  indexed : Indexed log
  pos : 1 ≤ l.unstable.offset
  offset : l.unstable.offset - 1 ≤ log.length
  entries : l.unstable.entries = log.drop (l.unstable.offset - 1)
  offset_le : l.unstable.snapshot = none → l.unstable.offset - 1 ≤ stored.length
  dummy_le : l.unstable.snapshot = none → l.storage.ents0.index ≤ log.length
  common : l.unstable.snapshot = none → ∀ c, c ≤ l.unstable.offset - 1 ∨ c ≤ l.storage.ents0.index →
    log.take c = stored.take c
  saved : l.unstable.snapshot = none → l.unstable.offset - 1 = log.length → stored = log
  pending : ∀ s, l.unstable.snapshot = some s → l.unstable.offset = s.metadata.index + 1 ∧
    s.metadata.term = termAt Entry.term log s.metadata.index

namespace Shows

variable {l : RaftLog} {log stored : List Entry} {i : ℕ} {lo hi : ℕ}

theorem length_entries (h : Shows l log stored) :
    l.unstable.entries.length = log.length - (l.unstable.offset - 1) := by
  rw [h.entries, length_drop]

theorem lastIndex_eq (h : Shows l log stored) : l.lastIndex = log.length := by
  have hlen := h.length_entries
  have hpos := h.pos
  have hoff := h.offset
  rw [lastIndex, Unstable.maybeLastIndex]
  split_ifs with hne
  · simp
    omega
  · cases hs : l.unstable.snapshot with
    | none =>
      simp
      rw [h.store.lastIndex_eq, h.saved hs (by omega)]
    | some s =>
      have := (h.pending s hs).1
      simp
      omega

theorem firstIndex_eq (l : RaftLog) : l.firstIndex = l.dummy + 1 := by
  rw [firstIndex, dummy, Unstable.maybeFirstIndex]
  cases l.unstable.snapshot <;> rfl

section

variable (h : Shows l log stored)
include h

theorem dummy_le_length : l.dummy ≤ log.length := by
  rw [dummy]
  cases hs : l.unstable.snapshot with
  | none => exact h.dummy_le hs
  | some s =>
    have := (h.pending s hs).1
    have := h.offset
    simp
    omega

theorem termAt_stored (hs : l.unstable.snapshot = none) (hi : i ≤ l.unstable.offset - 1) :
    termAt Entry.term stored i = termAt Entry.term log i := by
  have hstored : termAt Entry.term (stored.take (l.unstable.offset - 1)) i =
      termAt Entry.term stored i := Consensus.termAt_take hi
  rw [← hstored, ← h.common hs _ (.inl le_rfl), Consensus.termAt_take hi]

theorem maybeTerm_eq (hi : l.unstable.offset ≤ i) (hlen : i ≤ log.length) :
    l.unstable.maybeTerm i = .ok (some (termAt Entry.term log i)) := by
  have hentries := h.length_entries
  have hpos := h.pos
  rw [Unstable.maybeTerm, if_neg (by omega), Unstable.maybeLastIndex, if_pos (by omega)]
  simp only
  rw [if_neg (by omega)]
  obtain ⟨k, rfl⟩ := Nat.exists_eq_add_of_le hi
  obtain ⟨o, ho⟩ := Nat.exists_eq_add_of_le' hpos
  have hk : o + k < log.length := by omega
  rw [h.entries, getElem?_drop, show l.unstable.offset - 1 + (l.unstable.offset + k -
    l.unstable.offset) = o + k by omega, show l.unstable.offset + k = o + k + 1 by omega, termAt,
    getElem?_eq_getElem hk]
  rfl

theorem term_eq (hlo : l.dummy ≤ i) (hhi : i ≤ log.length) :
    l.term i = .ok (.ok (termAt Entry.term log i)) := by
  have hfirst := firstIndex_eq l
  have hlast := h.lastIndex_eq
  have hpos := h.pos
  rw [term, if_neg (by omega)]
  rcases lt_or_ge i l.unstable.offset with hi | hi
  · rw [dummy] at hlo
    cases hs : l.unstable.snapshot with
    | none =>
      rw [hs] at hlo
      rw [show l.unstable.maybeTerm i = .ok none by rw [Unstable.maybeTerm, if_pos hi, hs]]
      have hle := h.offset_le hs
      simp only [bind, Except.bind, pure, Except.pure]
      rw [h.store.term_eq hlo (by omega), h.termAt_stored hs (by omega)]
    | some s =>
      rw [hs] at hlo
      simp at hlo
      have hp := h.pending s hs
      have heq : s.metadata.index = i := by omega
      rw [show l.unstable.maybeTerm i = .ok (some s.metadata.term) by
        rw [Unstable.maybeTerm, if_pos hi, hs]
        simp [heq], hp.2, heq]
      rfl
  · rw [h.maybeTerm_eq hi hhi]
    rfl

theorem term_out (hi : i < l.dummy ∨ log.length < i) : l.term i = .ok (.ok 0) := by
  have hfirst := firstIndex_eq l
  have hlast := h.lastIndex_eq
  rw [term, if_pos (by omega)]
  rfl

end

theorem termAt_out {log : List Entry} (hi : log.length < i) : termAt Entry.term log i = 0 := by
  cases i with
  | zero => rfl
  | succ i => simp [termAt, getElem?_eq_none (by omega : log.length ≤ i)]

section

variable (h : Shows l log stored)
include h

theorem term_ge (hlo : l.dummy ≤ i) : l.term i = .ok (.ok (termAt Entry.term log i)) := by
  rcases le_or_gt i log.length with hi | hi
  · exact h.term_eq hlo hi
  · rw [h.term_out (.inr hi), termAt_out hi]

theorem matchTerm_eq (t : ℕ) (hlo : l.dummy ≤ i) :
    l.matchTerm i t = .ok (termAt Entry.term log i == t) := by
  rw [matchTerm, h.term_ge hlo]
  rfl

theorem lastTerm_eq : l.lastTerm = .ok (termAt Entry.term log log.length) := by
  rw [lastTerm, h.lastIndex_eq, h.term_eq h.dummy_le_length le_rfl]
  rfl

theorem isUpToDate_eq (lasti term : ℕ) :
    l.isUpToDate lasti term = .ok (decide (termAt Entry.term log log.length < term ∨
      term = termAt Entry.term log log.length ∧ log.length ≤ lasti)) := by
  rw [isUpToDate, h.lastTerm_eq, h.lastIndex_eq]
  rw [Bool.decide_or, Bool.decide_and]
  rfl

theorem unstable_slice_eq (hlo : l.unstable.offset ≤ lo) (hlt : lo ≤ hi)
    (hhi : hi ≤ log.length + 1) :
    l.unstable.slice lo hi = .ok ((log.drop (lo - 1)).take (hi - lo)) := by
  have hlen := h.length_entries
  have hpos := h.pos
  have hoff := h.offset
  rw [Unstable.slice, Unstable.mustCheckOutOfBounds, if_neg (by omega), if_neg (by omega),
    h.entries, drop_drop, show l.unstable.offset - 1 + (lo - l.unstable.offset) = lo - 1 by
      omega]
  rfl

theorem drop_take_stored (hs : l.unstable.snapshot = none) (hlo : 1 ≤ lo)
    (hhi : hi ≤ l.unstable.offset) :
    (stored.drop (lo - 1)).take (hi - lo) = (log.drop (lo - 1)).take (hi - lo) := by
  have hcut : ∀ k : List Entry, (k.drop (lo - 1)).take (hi - lo) =
      ((k.take (l.unstable.offset - 1)).drop (lo - 1)).take (hi - lo) := by
    intro k
    rw [drop_take, take_take, min_eq_left (by omega)]
  rw [hcut stored, hcut log, h.common hs _ (.inl le_rfl)]

theorem storedSlice_eq {lo hi maxSize : ℕ} (hlo : l.dummy < lo) (hlt : lo < hi) :
    l.storedSlice lo hi maxSize = .ok (.ok (if lo < l.unstable.offset then
      limitSize ((log.drop (lo - 1)).take (min hi l.unstable.offset - lo)) maxSize else [])) := by
  have hpos := h.pos
  rw [storedSlice]
  split_ifs with hoff
  · have hs : l.unstable.snapshot = none := by
      cases hs : l.unstable.snapshot with
      | none => rfl
      | some s =>
        have := (h.pending s hs).1
        simp [dummy, hs] at hlo
        omega
    have hd : l.storage.ents0.index < lo := by
      simpa only [dummy, hs, Option.map_none, Option.getD_none] using hlo
    have hle := h.offset_le hs
    rw [h.store.entries_eq hd (by omega) (by omega), h.drop_take_stored hs (by omega) (by omega)]
    rfl
  · rfl

/-- A slice is the start of the log between its bounds, and has an entry if there is one. -/
theorem slice_eq (maxSize : ℕ) (hlo : l.dummy < lo) (hlt : lo < hi) (hhi : hi ≤ log.length + 1) :
    ∃ es, l.slice lo hi maxSize = .ok (.ok es) ∧ es <+: (log.drop (lo - 1)).take (hi - lo) ∧
      es ≠ [] := by
  have hfirst := firstIndex_eq l
  have hlast := h.lastIndex_eq
  have hne : ∀ {k : ℕ}, 0 < k → (log.drop (lo - 1)).take k ≠ [] := by
    intro k hk
    rw [Ne, take_eq_nil_iff, drop_eq_nil_iff]
    omega
  rw [slice, mustCheckOutOfBounds, if_neg (by omega), if_neg (by omega), if_neg (by omega)]
  simp only [bind, Except.bind, pure, Except.pure]
  rw [if_neg (by omega), h.storedSlice_eq hlo hlt]
  rcases lt_or_ge lo l.unstable.offset with hoff | hoff
  · simp [hoff]
    set A := (log.drop (lo - 1)).take (min hi l.unstable.offset - lo) with hA
    have hpre := limitSize_isPrefix A maxSize
    have hAne : A ≠ [] := hne (by omega)
    have hApre : A <+: (log.drop (lo - 1)).take (hi - lo) := take_prefix_take_left (by omega)
    have hAlen : A.length ≤ min hi l.unstable.offset - lo := by
      rw [hA, length_take]
      omega
    split_ifs with hcut hhi'
    · exact ⟨_, rfl, hpre.trans hApre, limitSize_ne_nil hAne maxSize⟩
    · have hfull : limitSize A maxSize = A :=
        hpre.eq_of_length_le (by omega)
      have hmax : max lo l.unstable.offset = l.unstable.offset := by omega
      rw [hmax, h.unstable_slice_eq le_rfl (by omega) hhi, hfull]
      have hjoin : A ++ (log.drop (l.unstable.offset - 1)).take (hi - l.unstable.offset) =
          (log.drop (lo - 1)).take (hi - lo) := by
        rw [hA, show hi - lo = (min hi l.unstable.offset - lo) + (hi - l.unstable.offset) by omega,
          take_add, drop_drop, show lo - 1 + (min hi l.unstable.offset - lo) =
            l.unstable.offset - 1 by omega]
      simp only []
      rw [hjoin]
      exact ⟨_, rfl, limitSize_isPrefix .., limitSize_ne_nil (hne (by omega)) maxSize⟩
    · refine ⟨_, rfl, (limitSize_isPrefix ..).trans (hpre.trans hApre), ?_⟩
      exact limitSize_ne_nil (limitSize_ne_nil hAne maxSize) maxSize
  · have hmax : max lo l.unstable.offset = lo := by omega
    simp [not_lt.2 hoff]
    rw [if_pos (by omega), hmax, h.unstable_slice_eq hoff (by omega) hhi]
    exact ⟨_, rfl, limitSize_isPrefix .., limitSize_ne_nil (hne (by omega)) maxSize⟩

end

theorem slice_compacted {lo hi maxSize : ℕ} (hlo : lo ≤ l.dummy) (hlt : lo ≤ hi) :
    l.slice lo hi maxSize = .ok (.error .compacted) := by
  have hfirst := firstIndex_eq l
  rw [slice, mustCheckOutOfBounds, if_neg (by omega), if_pos (by omega)]
  rfl

theorem entries_cases (h : Shows l log stored) (i maxSize : ℕ) :
    (log.length < i ∧ l.entries i maxSize = .ok (.ok [])) ∨
    (i ≤ l.dummy ∧ l.entries i maxSize = .ok (.error .compacted)) ∨
    (l.dummy < i ∧ i ≤ log.length ∧ ∃ es, l.entries i maxSize = .ok (.ok es) ∧
      es <+: log.drop (i - 1) ∧ es ≠ []) := by
  have hd := h.dummy_le_length
  rw [RaftLog.entries, h.lastIndex_eq]
  rcases lt_or_ge log.length i with hi | hi
  · exact .inl ⟨hi, if_pos hi⟩
  · rw [if_neg (by omega)]
    rcases le_or_gt i l.dummy with hlo | hlo
    · exact .inr (.inl ⟨hlo, slice_compacted hlo (by omega)⟩)
    · obtain ⟨es, h1, h2, h3⟩ := h.slice_eq maxSize hlo (by omega : i < log.length + 1) le_rfl
      exact .inr (.inr ⟨hlo, hi, es, h1, h2.trans (List.take_prefix ..), h3⟩)

end Shows

end EtcdCompat
