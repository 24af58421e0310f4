import EtcdCompat.Lib.Outcome
import EtcdCompat.Raft.Driver

/-!
# The numbers of the entries in a log

As long as the entries of messages are numbered from the index they name, the entries of a node's
log stand at their own indices. Between two `Ready`s the log only moves on (`Moves`): the commit
index grows, and a snapshot taken over is above it.
-/

namespace EtcdCompat

open List RaftLog MemoryStorage

def Panic.isApplied : Panic → Bool
  | .appliedOutOfRange _ _ _ => true
  | _ => false

def Other (p : Panic) : Prop := p.isApplied = false

/-- A panic of the log itself: none of `appliedTo`, and no nil dereference. -/
def Panic.isMild : Panic → Bool
  | .appliedOutOfRange _ _ _ => false
  | .nilDereference => false
  | _ => true

def Mild (p : Panic) : Prop := p.isMild = true

theorem Mild.other {p : Panic} (h : Mild p) : Other p := by
  cases p <;> first | rfl | cases h

/-- The entries have the indices from `k` on. -/
def NumberedFrom (k : ℕ) (es : List Entry) : Prop := ∀ (j : ℕ) e, es[j]? = some e → e.index = k + j

namespace NumberedFrom

variable {k n : ℕ} {es es' : List Entry} {e : Entry}

theorem nil (k : ℕ) : NumberedFrom k [] := fun j e h => by simp at h

theorem head (h : NumberedFrom k (e :: es)) : e.index = k := h 0 e rfl

section

variable (h : NumberedFrom k es)
include h

theorem drop (n : ℕ) : NumberedFrom (k + n) (es.drop n) := by
  intro j e he
  rw [getElem?_drop] at he
  rw [h _ e he, Nat.add_assoc]

theorem take (n : ℕ) : NumberedFrom k (es.take n) := by
  intro j e he
  rw [getElem?_take] at he
  split_ifs at he
  exact h j e he

theorem of_isPrefix (hp : es' <+: es) : NumberedFrom k es' := by
  rw [prefix_iff_eq_take.1 hp]
  exact h.take _

theorem append (h' : NumberedFrom (k + es.length) es') : NumberedFrom k (es ++ es') := by
  intro j e he
  rcases lt_or_ge j es.length with hj | hj
  · rw [getElem?_append_left hj] at he
    exact h j e he
  · rw [getElem?_append_right hj] at he
    rw [h' _ e he]
    omega

end

theorem stamp (t : ℕ) : ∀ (k : ℕ) (es : List Entry), NumberedFrom k (Raft.stamp t k es)
  | k, [] => nil k
  | k, e :: es => by
    intro j e' he
    cases j with
    | zero =>
      cases he
      rfl
    | succ j =>
      rw [stamp t (k + 1) es j e' he]
      omega

theorem map_index (h : NumberedFrom k es) : es.map Entry.index = range' k es.length := by
  refine ext_getElem (by simp) fun j h₁ h₂ => ?_
  rw [getElem_map, getElem_range', Nat.one_mul]
  exact h j _ (getElem?_eq_getElem (by simpa using h₁))

end NumberedFrom

/-- The entries a leader sends follow the index the message names. -/
def Message.Numbered (m : Message) : Prop := m.type = .app → NumberedFrom (m.index + 1) m.entries

def MemoryStorage.Numbered (ms : MemoryStorage) : Prop := NumberedFrom (ms.ents0.index + 1) ms.ents

section Reads

theorem Unstable.maybeTerm_mild (u : Unstable) (i : ℕ) :
    Yields Mild (fun t => ∀ s, t = some s → u.offset ≤ i → i < u.offset + u.entries.length)
      (u.maybeTerm i) := by
  unfold Unstable.maybeTerm
  split_ifs with hi
  · cases u.snapshot with
    | none => exact fun _ h => by cases h
    | some s => exact fun _ _ h => absurd hi (not_lt.2 h)
  · split
    · exact fun _ h => by cases h
    · split_ifs
      · exact fun _ h => by cases h
      · split
        · rfl
        · rename_i e he
          intro _ _ _
          have := (List.getElem?_eq_some_iff.1 he).1
          omega

theorem MemoryStorage.term_mild (ms : MemoryStorage) (i : ℕ) :
    Yields Mild (fun _ => True) (ms.term i) := by
  unfold term
  simp only
  split_ifs
  · trivial
  · split
    · rfl
    · trivial

theorem RaftLog.term_mild (l : RaftLog) (i : ℕ) : Yields Mild (fun _ => True) (l.term i) := by
  unfold term
  simp only
  split_ifs
  · trivial
  · refine (Unstable.maybeTerm_mild l.unstable i).bind fun t _ => ?_
    cases t with
    | some t => trivial
    | none =>
      refine (MemoryStorage.term_mild l.storage i).bind fun r _ => ?_
      rcases r with e | t
      · cases e <;> trivial
      · trivial

theorem RaftLog.matchTerm_mild (l : RaftLog) (i t : ℕ) :
    Yields Mild (fun _ => True) (l.matchTerm i t) :=
  (l.term_mild i).bind fun r _ => by
    rcases r with e | t <;> trivial

theorem RaftLog.lastTerm_mild (l : RaftLog) : Yields Mild (fun _ => True) l.lastTerm :=
  (l.term_mild _).bind fun r _ => by
    rcases r with e | t
    · rfl
    · trivial

theorem RaftLog.isUpToDate_mild (l : RaftLog) (i t : ℕ) :
    Yields Mild (fun _ => True) (l.isUpToDate i t) :=
  l.lastTerm_mild.bind fun _ _ => True.intro

theorem RaftLog.findConflict_mild (l : RaftLog) :
    ∀ ents, Yields Mild (fun _ => True) (l.findConflict ents)
  | [] => True.intro
  | ne :: ents => (l.matchTerm_mild ne.index ne.term).bind fun b _ => by
    cases b with
    | true => exact l.findConflict_mild ents
    | false => trivial

/-- What a read from `lo` to `hi` gives: numbered entries of `src`, all of them if there is no
limit. -/
structure Sliced (src : Entry → Prop) (lo hi maxSize : ℕ) (es : List Entry) : Prop where
  numbered : NumberedFrom lo es
  length_le : es.length ≤ hi - lo
  whole : maxSize = noLimit → es.length = hi - lo
  mem : ∀ e ∈ es, src e

namespace Sliced

variable {src : Entry → Prop} {lo hi maxSize : ℕ} {es : List Entry}

theorem nil (maxSize : ℕ) (h : hi ≤ lo) : Sliced src lo hi maxSize [] :=
  ⟨.nil lo, Nat.zero_le _, fun _ => (Nat.sub_eq_zero_of_le h).symm, fun _ he => by cases he⟩

theorem limit (h : NumberedFrom lo es) (hlen : es.length = hi - lo) (hmem : ∀ e ∈ es, src e) :
    Sliced src lo hi maxSize (limitSize es maxSize) := by
  have hpre := limitSize_isPrefix es maxSize
  refine ⟨h.of_isPrefix hpre, hlen ▸ hpre.length_le, fun hm => ?_, fun e he => ?_⟩
  · rw [hm, limitSize_noLimit, hlen]
  · exact hmem e (hpre.subset he)

theorem index (h : Sliced src lo hi maxSize es) {e : Entry} (he : e ∈ es) :
    lo ≤ e.index ∧ e.index < hi := by
  obtain ⟨j, hj⟩ := List.mem_iff_getElem?.1 he
  have := h.numbered j e hj
  have := (List.getElem?_eq_some_iff.1 hj).1
  have := h.length_le
  omega

end Sliced

theorem MemoryStorage.entries_mild (ms : MemoryStorage) (lo hi maxSize : ℕ) :
    Yields Mild (fun r => ms.Numbered → ∀ es, r = .ok es → Sliced (· ∈ ms.ents) lo hi maxSize es)
      (ms.entries lo hi maxSize) := by
  unfold entries lastIndex
  simp only
  split_ifs with h1 h2 h3 h4
  · exact fun _ _ h => by cases h
  · rfl
  · exact fun _ _ h => by cases h
  · rfl
  · intro h es hes
    cases hes
    refine Sliced.limit ?_ ?_ fun e he => mem_of_mem_drop (mem_of_mem_take he)
    · have := (h.drop (lo - ms.ents0.index - 1)).take (hi - lo)
      rwa [show ms.ents0.index + 1 + (lo - ms.ents0.index - 1) = lo by omega] at this
    · rw [length_take, length_drop]
      omega

theorem Unstable.slice_mild (u : Unstable) (lo hi : ℕ) :
    Yields Mild (fun es => NumberedFrom u.offset u.entries →
      NumberedFrom lo es ∧ es.length = hi - lo ∧ es ⊆ u.entries) (u.slice lo hi) := by
  unfold Unstable.slice Unstable.mustCheckOutOfBounds
  split_ifs with h1 h2
  · rfl
  · rfl
  · refine fun h => ⟨?_, ?_, fun e he => mem_of_mem_drop (mem_of_mem_take he)⟩
    · have := (h.drop (lo - u.offset)).take (hi - lo)
      rwa [show u.offset + (lo - u.offset) = lo by omega] at this
    · rw [length_take, length_drop]
      omega

/-- The entries of a log stand at their indices. -/
structure RaftLog.Numbered (l : RaftLog) : Prop where
  stored : l.storage.Numbered
  unstable : NumberedFrom l.unstable.offset l.unstable.entries

def RaftLog.Has (l : RaftLog) (e : Entry) : Prop := e ∈ l.unstable.entries ∨
  e ∈ l.storage.ents ∧ l.firstIndex ≤ e.index ∧ e.index ≤ l.lastIndex ∧ e.index < l.unstable.offset

theorem RaftLog.storedSlice_mild (l : RaftLog) (lo hi maxSize : ℕ) :
    Yields Mild (fun r => l.Numbered → ∀ es, r = .ok es →
      Sliced (· ∈ l.storage.ents) lo (min hi l.unstable.offset) maxSize es)
      (l.storedSlice lo hi maxSize) := by
  unfold storedSlice
  split_ifs with hlo
  · refine (l.storage.entries_mild lo (min hi l.unstable.offset) maxSize).bind fun r hr => ?_
    rcases r with e | es
    · cases e <;> first | exact fun _ _ h => by cases h | rfl
    · exact fun h => hr h.stored
  · intro _ es hes
    cases hes
    exact .nil maxSize (by omega)

theorem RaftLog.mustCheckOutOfBounds_mild (l : RaftLog) (lo hi : ℕ) :
    Yields Mild (fun r => ∀ u, r = .ok u → lo ≤ hi ∧ l.firstIndex ≤ lo ∧
      hi ≤ l.firstIndex + (l.lastIndex + 1 - l.firstIndex)) (l.mustCheckOutOfBounds lo hi) := by
  unfold mustCheckOutOfBounds
  split_ifs with h1 h2 h3
  · rfl
  · exact fun _ h => by cases h
  · rfl
  · exact fun _ _ => ⟨not_lt.1 h1, not_lt.1 h2, not_lt.1 h3⟩

theorem RaftLog.slice_mild (l : RaftLog) (lo hi maxSize : ℕ) :
    Yields Mild (fun r => l.Numbered → ∀ es, r = .ok es → Sliced l.Has lo hi maxSize es)
      (l.slice lo hi maxSize) := by
  refine (l.mustCheckOutOfBounds_mild lo hi).bind fun r hr => ?_
  rcases r with e | u
  · exact fun _ _ h => by cases h
  obtain ⟨hle, hfirst, hlast⟩ := hr u rfl
  by_cases heq : lo = hi
  · rw [if_pos heq]
    intro _ es hes
    cases hes
    exact .nil maxSize (by omega)
  rw [if_neg heq]
  refine (l.storedSlice_mild lo hi maxSize).bind fun r hr => ?_
  rcases r with e | ents
  · exact fun _ _ h => by cases h
  have hhas : l.Numbered → ∀ e ∈ ents, l.Has e := fun h e he => by
    have := (hr h ents rfl).index he
    exact .inr ⟨(hr h ents rfl).mem e he, by omega, by omega, by omega⟩
  simp only
  by_cases hstop : lo < l.unstable.offset ∧ ents.length < min hi l.unstable.offset - lo
  · rw [if_pos hstop]
    intro h es hes
    cases hes
    obtain ⟨hnum, hmax, hlen, -⟩ := hr h ents rfl
    exact ⟨hnum, by omega, fun hm => absurd (hlen hm) (by omega), hhas h⟩
  rw [if_neg hstop]
  split_ifs with hoff
  · refine (l.unstable.slice_mild (max lo l.unstable.offset) hi).bind fun us hus => ?_
    intro h es hes
    cases hes
    obtain ⟨hnum, hmax, -⟩ := hr h ents rfl
    obtain ⟨hnum', hlen', hsub⟩ := hus h.unstable
    have hjoin : lo + ents.length = max lo l.unstable.offset := by omega
    refine Sliced.limit (hnum.append (hjoin ▸ hnum')) ?_ fun e he => ?_
    · rw [length_append, hlen']
      omega
    · exact (mem_append.1 he).elim (hhas h e) fun he => .inl (hsub he)
  · intro h es hes
    cases hes
    obtain ⟨hnum, hmax, -⟩ := hr h ents rfl
    exact Sliced.limit hnum (by omega) (hhas h)

theorem RaftLog.entries_mild (l : RaftLog) (i maxSize : ℕ) :
    Yields Mild (fun r => l.Numbered → ∀ es, r = .ok es →
      Sliced l.Has i (l.lastIndex + 1) maxSize es) (l.entries i maxSize) := by
  unfold entries
  split_ifs with hi
  · intro _ es hes
    cases hes
    exact .nil maxSize (by omega)
  · exact l.slice_mild i _ maxSize

theorem RaftLog.Numbered.nextEnts {l : RaftLog} (h : l.Numbered) :
    Yields Mild (fun es => NumberedFrom (max (l.applied + 1) l.firstIndex) es
      ∧ es.length = l.committed + 1 - max (l.applied + 1) l.firstIndex) l.nextEnts := by
  unfold RaftLog.nextEnts
  simp only
  split_ifs with hlt
  · refine (l.slice_mild _ _ noLimit).bind fun r hr => ?_
    rcases r with e | es
    · rfl
    · exact ⟨(hr h es rfl).numbered, (hr h es rfl).whole rfl⟩
  · exact ⟨.nil _, by simp; omega⟩

end Reads

section Writes

theorem Unstable.truncateAndAppend_mild (u : Unstable) (ents : List Entry) :
    Yields Mild (fun u' => u'.snapshot = u.snapshot ∧ u'.offset ≤ u.offset ∧ ∀ k,
      NumberedFrom u.offset u.entries → NumberedFrom k ents → NumberedFrom u'.offset u'.entries)
      (u.truncateAndAppend ents) := by
  unfold Unstable.truncateAndAppend
  rcases ents with _ | ⟨e, es⟩
  · rfl
  simp only
  split_ifs with h0 heq hlt
  · rfl
  · exact ⟨rfl, le_rfl, fun k hu hents => hu.append (heq ▸ hents.head.symm ▸ hents)⟩
  · exact ⟨rfl, by simp only; omega, fun k _ hents => hents.head.symm ▸ hents⟩
  · refine (u.slice_mild u.offset e.index).bind fun kept hkept =>
      ⟨rfl, le_rfl, fun k hu hents => (hkept hu).1.append ?_⟩
    have hk := hents.head
    rwa [(hkept hu).2.1, show u.offset + (e.index - u.offset) = k by omega]

/-- How a log moves on between two `Ready`s. -/
structure RaftLog.Moves (l l' : RaftLog) : Prop where
  storage : l'.storage = l.storage
  applied : l'.applied = l.applied
  committed : l.committed ≤ l'.committed
  unstable : NumberedFrom l'.unstable.offset l'.unstable.entries
  snapshot : l'.unstable.snapshot = l.unstable.snapshot ∧ l'.unstable.offset ≤ l.unstable.offset ∨
    ∃ s, l'.unstable.snapshot = some s ∧ l.committed < s.metadata.index ∧
      s.metadata.index ≤ l'.committed ∧ l'.unstable.offset ≤ s.metadata.index + 1

namespace RaftLog

variable {l l' l'' : RaftLog}

namespace Moves

theorem refl (h : l.Numbered) : Moves l l := ⟨rfl, rfl, le_rfl, h.unstable, .inl ⟨rfl, le_rfl⟩⟩

theorem numbered (h : Moves l l') (hl : l.Numbered) : l'.Numbered :=
  ⟨h.storage ▸ hl.stored, h.unstable⟩

theorem trans (h : Moves l l') (h' : Moves l' l'') : Moves l l'' := by
  refine ⟨h'.storage.trans h.storage, h'.applied.trans h.applied, h.committed.trans h'.committed,
    h'.unstable, ?_⟩
  have hc := h.committed
  have hc' := h'.committed
  rcases h'.snapshot with ⟨hs', ho'⟩ | ⟨s, hs, h1, h2, h3⟩
  · rcases h.snapshot with ⟨hs, ho⟩ | ⟨s, hs, h1, h2, h3⟩
    · exact .inl ⟨hs'.trans hs, ho'.trans ho⟩
    · exact .inr ⟨s, hs'.trans hs, h1, by omega, by omega⟩
  · exact .inr ⟨s, hs, by omega, h2, h3⟩

theorem commit (hl : l.Numbered) {n : ℕ} (hn : l.committed ≤ n) :
    Moves l { l with committed := n } :=
  ⟨rfl, rfl, hn, hl.unstable, .inl ⟨rfl, le_rfl⟩⟩

theorem restore {s : Snapshot} (hs : l.committed < s.metadata.index) : Moves l (l.restore s) :=
  ⟨rfl, rfl, hs.le, .nil _, .inr ⟨s, rfl, hs, le_rfl, le_rfl⟩⟩

end Moves

theorem append_mild (l : RaftLog) (ents : List Entry) :
    Yields Mild (fun l' => ∀ k, l.Numbered → NumberedFrom k ents → Moves l l') (l.append ents) := by
  unfold append
  rcases ents with _ | ⟨e, es⟩
  · exact fun _ h _ => .refl h
  simp only
  split_ifs
  · rfl
  · refine (l.unstable.truncateAndAppend_mild (e :: es)).bind fun u hu => ?_
    exact fun k h hents => ⟨rfl, rfl, le_rfl, hu.2.2 k h.unstable hents, .inl ⟨hu.1, hu.2.1⟩⟩

/-- Only the commit index of the log is another. -/
def Commits (l l' : RaftLog) : Prop := ∃ n, l.committed ≤ n ∧ l' = { l with committed := n }

theorem Commits.moves (h : Commits l l') (hl : l.Numbered) : Moves l l' := by
  obtain ⟨n, hn, rfl⟩ := h
  exact .commit hl hn

theorem commitTo_mild (l : RaftLog) (i : ℕ) : Yields Mild (Commits l) (l.commitTo i) := by
  unfold commitTo
  split_ifs with hlt hlast
  · rfl
  · exact ⟨i, hlt.le, rfl⟩
  · exact ⟨_, le_rfl, rfl⟩

theorem maybeCommit_mild (l : RaftLog) (maxIndex term : ℕ) :
    Yields Mild (fun r => Commits l r.2) (l.maybeCommit maxIndex term) := by
  unfold maybeCommit
  split_ifs
  · refine (l.term_mild maxIndex).bind fun r _ => ?_
    have hzero : Yields Mild (fun _ => True) (zeroTermOnErrCompacted r) := by
      rcases r with e | t
      · cases e <;> trivial
      · trivial
    refine hzero.bind fun t _ => ?_
    split_ifs
    · exact (l.commitTo_mild maxIndex).bind fun l' h' => h'
    · exact ⟨_, le_rfl, rfl⟩
  · exact ⟨_, le_rfl, rfl⟩

theorem appendFrom_mild (l : RaftLog) (index : ℕ) (ents : List Entry) :
    Yields Mild (fun l' => l.Numbered → NumberedFrom (index + 1) ents → Moves l l')
      (l.appendFrom index ents) := by
  refine (l.findConflict_mild ents).bind fun ci _ => ?_
  split_ifs
  · exact fun h _ => .refl h
  · rfl
  · rfl
  · have hslice : Yields Mild (fun es => NumberedFrom (index + 1) ents →
        NumberedFrom (index + 1 + (ci - (index + 1))) es) (sliceFrom ents (ci - (index + 1))) := by
      unfold sliceFrom
      split_ifs
      · rfl
      · exact fun hents => hents.drop _
    exact hslice.bind fun es hes => (l.append_mild es).mono fun _ h hl hents =>
      h _ hl (hes hents)

theorem maybeAppend_mild (l : RaftLog) (index logTerm committed : ℕ) (ents : List Entry) :
    Yields Mild (fun r => ∀ x, r = some x → l.Numbered → NumberedFrom (index + 1) ents →
      Moves l x.2) (l.maybeAppend index logTerm committed ents) := by
  unfold maybeAppend
  refine (l.matchTerm_mild index logTerm).bind fun b _ => ?_
  split_ifs
  · refine (l.appendFrom_mild index ents).bind fun l₁ h₁ => ?_
    refine (l₁.commitTo_mild _).bind fun l₂ h₂ => ?_
    intro x hx hl hents
    cases hx
    exact (h₁ hl hents).trans (h₂.moves ((h₁ hl hents).numbered hl))
  · exact fun x hx => by cases hx

end RaftLog

end Writes

end EtcdCompat
