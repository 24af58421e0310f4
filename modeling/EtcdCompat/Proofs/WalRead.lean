import EtcdCompat.Proofs.WalJournal
import Mathlib.Data.List.Chain

/-!
# Reading a write-ahead log

`ReadAll` of files is a fold over their records (`openReadAll_render`). Its slice of entries is an
array with every entry put at its place, so long as no entry lies more than one above all that were
read before it; a slice without spare capacity is out of its bounds otherwise. Which segments are
read depends on their names alone.
-/

namespace EtcdCompat.Wal

open List

open Overwrite

section Slice

variable {g : Growth} {sl : EntrySlice} {arr : List Entry} {k n : ℕ}

/-- Slices grow to what is needed. -/
def Growth.exact : Growth := ⟨fun _ n => n, fun _ n => Nat.le_refl n⟩

/-- A slice with what was put in its array, and nothing else where slices grow to what is needed. -/
def EntrySlice.Holds (g : Growth) (sl : EntrySlice) (arr : List Entry) (n : ℕ) : Prop :=
  sl.len = n ∧ n ≤ arr.length ∧ ∃ pad, sl.arr = arr ++ pad ∧ (g = .exact → pad = [])

theorem EntrySlice.Holds.toList (h : sl.Holds g arr n) : sl.toList = arr.take n := by
  obtain ⟨hlen, hn, pad, harr, -⟩ := h
  rw [EntrySlice.toList, hlen, harr, take_append_of_le_length hn]

theorem EntrySlice.Holds.appendAt (h : sl.Holds g arr n) (hk : k ≤ arr.length) (e : Entry) :
    ∃ sl', sl.appendAt g k e = some sl' ∧ sl'.Holds g (place arr k e) (k + 1) := by
  obtain ⟨-, -, pad, harr, hpad⟩ := h
  have hlen := length_place hk e
  unfold EntrySlice.appendAt
  rw [if_neg (by rw [harr, length_append]; omega)]
  split_ifs with hlt
  · refine ⟨_, rfl, rfl, by rw [hlen]; omega, ?_⟩
    rw [harr]
    by_cases hka : k < arr.length
    · refine ⟨pad, ?_, hpad⟩
      rw [set_append_left _ _ hka, place, if_pos hka]
    · have hk' : k = arr.length := by omega
      rcases pad with _ | ⟨p, pad⟩
      · rw [harr, append_nil] at hlt
        exact absurd hlt hka
      · refine ⟨pad, ?_, fun hg => ?_⟩
        · rw [set_append_right _ _ (by omega), place, if_neg hka, hk', Nat.sub_self]
          simp
        · cases hpad hg
  · rw [harr, length_append] at hlt
    have hpad0 : pad = [] := length_eq_zero_iff.1 (by omega)
    have hk' : k = arr.length := by omega
    rw [hpad0, append_nil] at harr
    refine ⟨_, rfl, rfl, by rw [hlen]; omega,
      replicate (g.grow sl.arr.length (k + 1) - (k + 1)) {}, ?_, fun hg => ?_⟩
    · rw [harr, place, if_neg (by omega), append_assoc, singleton_append]
    · simp [hg, Growth.exact]

theorem EntrySlice.Holds.appendAt_none (h : sl.Holds .exact arr n) (hk : arr.length < k)
    (e : Entry) : sl.appendAt .exact k e = none := by
  obtain ⟨-, -, pad, harr, hpad⟩ := h
  unfold EntrySlice.appendAt
  rw [if_pos (by rw [harr, hpad rfl, append_nil]; omega)]

end Slice

section Records

variable {g : Growth} {start : Snap} {md : Option Bytes} {xs : List Saved} {c c' : UInt32}
  {x : Saved}

/-- `readRecord` of what a record says. -/
def readSaved (g : Growth) (start : Snap) (acc : ReadState) : Saved → Except Stop ReadState
  | .crc => .ok acc
  | .metadata data =>
    if acc.metadata ≠ none ∧ acc.metadata ≠ data then .error (.error .metadataConflict)
    else .ok { acc with metadata := data }
  | .entry e =>
    if e.index > start.index then
      match acc.ents.appendAt g (e.index - start.index - 1) e with
      | none => .error .panic
      | some ents => .ok { acc with ents, enti := e.index }
    else .ok { acc with enti := e.index }
  | .state state => .ok { acc with state }
  | .snapshot snap =>
    if snap.index = start.index then
      if snap.term ≠ start.term then .error (.error .snapshotMismatch)
      else .ok { acc with found := true }
    else .ok acc

theorem readRecord_item (h : x.Typed) (acc : ReadState) (c : UInt32) :
    readRecord g start acc (recordOf c x.item) = readSaved g start acc x := by
  unfold readRecord
  rcases x with _ | data | e | st | s
  · rfl
  · rfl
  · have hdata := h.2.2
    have hread := unmarshalEntry_marshalEntry h.1 h.2.1 (by omega)
    simp [Saved.item, recordOf, hread]
    rfl
  · simp only [Saved.item, recordOf, Option.getD_some, unmarshalState_marshalState h]
    rfl
  · simp only [Saved.item, recordOf, Option.getD_some, unmarshalSnap_marshalSnap h]
    rfl

theorem crc_items : ∀ i ∈ xs.map Saved.item, i.1 = .crc → i.2 = none := by
  intro i hi
  obtain ⟨x, -, rfl⟩ := mem_map.1 hi
  cases x <;> simp [Saved.item]

theorem Reads.readLoop {recs : List Record} {d d' : Decoder} (h : Reads recs d d') (g : Growth)
    (start : Snap) (fuel : ℕ) (acc : ReadState) : Wal.readLoop g start (recs.length + fuel) d acc
      = (recs.foldlM (readRecord g start) acc).bind fun acc => Wal.readLoop g start fuel d' acc :=
        by
  induction h generalizing acc with
  | nil d =>
    rw [length_nil, Nat.zero_add]
    rfl
  | cons hnext _ ih =>
    rw [length_cons, Nat.add_right_comm, Wal.readLoop, hnext, foldlM_cons]
    simp only [bind]
    rcases readRecord g start acc _ with e | acc'
    · rfl
    · exact ih acc'

theorem foldlM_recordsOf : ∀ {xs : List Saved} (c : UInt32) (acc : ReadState),
    (∀ x ∈ xs, x.Typed) → (recordsOf c (xs.map Saved.item)).foldlM (readRecord g start) acc
      = xs.foldlM (readSaved g start) acc
  | [], _, _, _ => rfl
  | x :: xs, c, acc, htyped => by
    rw [map_cons, recordsOf, foldlM_cons, foldlM_cons, readRecord_item (htyped x (by simp))]
    refine congrArg _ (funext fun acc' => ?_)
    exact foldlM_recordsOf _ acc' fun y hy => htyped y (by simp [hy])

theorem readLoop_small (tail : Bytes) (fuel : ℕ) (acc : ReadState) (htyped : ∀ x ∈ xs, x.Typed)
    (hsmall : ∀ rec ∈ recordsOf c (xs.map Saved.item), Small rec)
    (hsync : Synced c c' (xs.map Saved.item)) :
    Wal.readLoop g start (xs.length + fuel) ⟨(encodeAll c (xs.map Saved.item)).1 ++ tail, c'⟩ acc
      = (xs.foldlM (readSaved g start) acc).bind fun acc =>
        Wal.readLoop g start fuel ⟨tail, crcRead c c' (xs.map Saved.item)⟩ acc := by
  have hread := (reads_small tail hsmall crc_items hsync).readLoop g start fuel acc
  rwa [length_recordsOf, length_map, foldlM_recordsOf c acc htyped] at hread

theorem readLoop_nil (fuel : ℕ) (c : UInt32) (acc : ReadState) :
    readLoop g start (fuel + 1) ⟨[], c⟩ acc = .ok (acc, c) := rfl

theorem readLoop_large (htyped : x.Typed) (hlarge : ¬ Small (recordOf c x.item)) (rest : Bytes)
    (fuel : ℕ) (acc : ReadState) :
    readLoop g start (fuel + 1) ⟨(encode c x.item.1 x.item.2).1 ++ rest, c'⟩ acc
      = .error (.error .maxEntrySizeLimitExceeded) := by
  rw [readLoop, next_large (htyped.fitsInt c) hlarge]

end Records

section Fold

variable {g : Growth} {start : Snap} {md : Option Bytes} {xs : List Saved} {acc : ReadState}
  {ys : List Saved}

def Matched (start : Snap) (xs : List Saved) : Prop :=
  ∀ s, .snapshot s ∈ xs → s.index = start.index → s.term = start.term

theorem matched_iff : Matched start xs ↔ ∀ s ∈ xs.filterMap Saved.snapshot?,
    s.index = start.index → s.term = start.term := by
  have hmem : ∀ s, s ∈ xs.filterMap Saved.snapshot? ↔ .snapshot s ∈ xs := fun s => by
    rw [mem_filterMap]
    refine ⟨fun ⟨x, hx, hs⟩ => ?_, fun hs => ⟨_, hs, rfl⟩⟩
    cases x <;> cases hs
    exact hx
  simp only [Matched, hmem]

instance : Decidable (Matched start xs) := decidable_of_iff' _ matched_iff

def MetadataOf (md : Option Bytes) (xs : List Saved) : Prop := ∀ data,
    .metadata data ∈ xs → data = md

/-- What has been read of records. -/
structure HasRead (g : Growth) (start : Snap) (md : Option Bytes) (xs : List Saved)
    (acc : ReadState) : Prop where
  metadata : acc.metadata = none ∨ acc.metadata = md
  metadata_mem : .metadata md ∈ xs → acc.metadata = md
  state : acc.state = lastState xs
  ents : acc.ents.Holds g (placed Entry.index start.index (entries xs))
    (placedLen Entry.index start.index (entries xs))
  enti : acc.enti = ((entries xs).getLast?.map Entry.index).getD 0
  found : acc.found = true ↔ ∃ s, .snapshot s ∈ xs ∧ s.index = start.index

theorem HasRead.nil (g : Growth) (start : Snap) (md : Option Bytes) :
    HasRead g start md [] {} where
  metadata := .inl rfl
  metadata_mem := by simp
  state := rfl
  ents := ⟨rfl, Nat.le_refl 0, [], rfl, fun _ => rfl⟩
  enti := rfl
  found := by simp

theorem HasRead.found_iff (h : HasRead g start md xs acc) (hmatch : Matched start xs) :
    acc.found = true ↔ .snapshot start ∈ xs := by
  refine h.found.trans ⟨fun ⟨s, hs, hindex⟩ => ?_, fun hs => ⟨start, hs, rfl⟩⟩
  have hterm := hmatch s hs hindex
  rcases s with ⟨i, t⟩
  rcases start with ⟨i', t'⟩
  obtain rfl : i = i' := hindex
  obtain rfl : t = t' := hterm
  exact hs

theorem entries_concat (xs : List Saved) (x : Saved) :
    entries (xs ++ [x]) = entries xs ++ x.entry?.toList := by
  cases x <;> simp [entries, Saved.entry?]

theorem lastState_concat (xs : List Saved) (x : Saved) :
    lastState (xs ++ [x]) = x.state?.getD (lastState xs) := by
  cases x <;> simp [lastState, Saved.state?]

theorem HasRead.step (h : HasRead g start md xs acc) {x : Saved}
    (hsteady : Steady Entry.index start.index (entries (xs ++ [x])))
    (hmeta : MetadataOf md (xs ++ [x])) (hmatch : Matched start (xs ++ [x])) :
    ∃ acc', readSaved g start acc x = .ok acc' ∧ HasRead g start md (xs ++ [x]) acc' := by
  rcases x with _ | data | e | st | s
  · refine ⟨acc, rfl, h.metadata, by simpa using h.metadata_mem, ?_, ?_, ?_, ?_⟩
    · simpa [lastState_concat, Saved.state?] using h.state
    · simpa [entries_concat, Saved.entry?] using h.ents
    · simpa [entries_concat, Saved.entry?] using h.enti
    · simpa using h.found
  · have hdata : data = md := hmeta data (by simp)
    refine ⟨{ acc with metadata := data }, ?_, .inr hdata, fun _ => hdata, ?_, ?_, ?_, ?_⟩
    · rw [readSaved, if_neg]
      rintro ⟨h0, h1⟩
      exact h1 (hdata ▸ h.metadata.resolve_left h0)
    · simpa [lastState_concat, Saved.state?] using h.state
    · simpa [entries_concat, Saved.entry?] using h.ents
    · simpa [entries_concat, Saved.entry?] using h.enti
    · simpa using h.found
  · rw [entries_concat] at hsteady
    obtain ⟨hsteady, hstep, -⟩ := (steady_append _).1 hsteady
    obtain ⟨hlen, -⟩ := hsteady.getElem_placed
    have htop := le_top Entry.index start.index (entries xs)
    have hmem : .metadata md ∈ xs ++ [.entry e] → acc.metadata = md := fun hmem =>
      h.metadata_mem (by simpa using hmem)
    by_cases hlt : e.index > start.index
    · obtain ⟨sl, hsl, hholds⟩ := h.ents.appendAt
        (show e.index - start.index - 1 ≤ _ by rw [hlen]; omega) e
      refine ⟨{ acc with ents := sl, enti := e.index }, ?_, h.metadata, hmem, ?_, ?_, ?_, ?_⟩
      · rw [readSaved, if_pos hlt, hsl]
      · simpa [lastState_concat, Saved.state?] using h.state
      · rw [entries_concat, Saved.entry?, Option.toList_some, placed_concat, placedLen_concat, put,
          putLen, if_pos hlt, if_pos hlt]
        convert hholds using 1
        omega
      · simp [entries_concat, Saved.entry?]
      · simpa using h.found
    · refine ⟨{ acc with enti := e.index }, ?_, h.metadata, hmem, ?_, ?_, ?_, ?_⟩
      · rw [readSaved, if_neg hlt]
      · simpa [lastState_concat, Saved.state?] using h.state
      · rw [entries_concat, Saved.entry?, Option.toList_some, placed_concat, placedLen_concat, put,
          putLen, if_neg hlt, if_neg hlt]
        exact h.ents
      · simp [entries_concat, Saved.entry?]
      · simpa using h.found
  · refine ⟨{ acc with state := st }, rfl, h.metadata, by simpa using h.metadata_mem, ?_, ?_, ?_,
      ?_⟩
    · simp [lastState_concat, Saved.state?]
    · simpa [entries_concat, Saved.entry?] using h.ents
    · simpa [entries_concat, Saved.entry?] using h.enti
    · simpa using h.found
  · by_cases hindex : s.index = start.index
    · refine ⟨{ acc with found := true }, ?_, h.metadata, by simpa using h.metadata_mem, ?_, ?_, ?_,
        ?_⟩
      · rw [readSaved, if_pos hindex, if_neg]
        exact not_not.2 (hmatch s (by simp) hindex)
      · simpa [lastState_concat, Saved.state?] using h.state
      · simpa [entries_concat, Saved.entry?] using h.ents
      · simpa [entries_concat, Saved.entry?] using h.enti
      · exact ⟨fun _ => ⟨s, by simp, hindex⟩, fun _ => rfl⟩
    · refine ⟨acc, ?_, h.metadata, by simpa using h.metadata_mem, ?_, ?_, ?_, ?_⟩
      · rw [readSaved, if_neg hindex]
      · simpa [lastState_concat, Saved.state?] using h.state
      · simpa [entries_concat, Saved.entry?] using h.ents
      · simpa [entries_concat, Saved.entry?] using h.enti
      · rw [h.found]
        refine exists_congr fun t => ⟨fun ht => ⟨by simp [ht.1], ht.2⟩, fun ht => ⟨?_, ht.2⟩⟩
        rcases mem_append.1 ht.1 with hmem | hmem
        · exact hmem
        · cases mem_singleton.1 hmem
          exact absurd ht.2 hindex

theorem Matched.of_append (h : Matched start (xs ++ ys)) : Matched start xs :=
  fun s hs => h s (mem_append_left _ hs)

theorem MetadataOf.of_append (h : MetadataOf md (xs ++ ys)) : MetadataOf md xs :=
  fun data hdata => h data (mem_append_left _ hdata)

theorem foldlM_concat (f : ReadState → Saved → Except Stop ReadState) (xs : List Saved) (x : Saved)
    (acc : ReadState) : (xs ++ [x]).foldlM f acc = (xs.foldlM f acc).bind fun acc => f acc x := by
  rw [foldlM_append]
  refine congrArg _ (funext fun acc => ?_)
  rw [foldlM_cons]
  rcases f acc x <;> rfl

theorem readSaved_ok (hsteady : Steady Entry.index start.index (entries xs))
    (hmeta : MetadataOf md xs) (hmatch : Matched start xs) :
    ∃ acc, xs.foldlM (readSaved g start) {} = .ok acc ∧ HasRead g start md xs acc := by
  induction xs using reverseRecOn with
  | nil => exact ⟨{}, rfl, .nil g start md⟩
  | append_singleton xs x ih =>
    have hprev : Steady Entry.index start.index (entries xs) := by
      rw [entries_concat] at hsteady
      exact ((steady_append _).1 hsteady).1
    obtain ⟨acc, hacc, hread⟩ := ih hprev hmeta.of_append hmatch.of_append
    obtain ⟨acc', hacc', hread'⟩ := hread.step hsteady hmeta hmatch
    refine ⟨acc', ?_, hread'⟩
    rw [foldlM_concat, hacc]
    exact hacc'

theorem readSaved_jump (hsteady : ¬ Steady Entry.index start.index (entries xs))
    (hmeta : MetadataOf md xs) (hmatch : Matched start xs) :
    xs.foldlM (readSaved .exact start) {} = .error .panic := by
  induction xs using reverseRecOn with
  | nil => exact absurd trivial hsteady
  | append_singleton xs x ih =>
    rw [foldlM_concat]
    by_cases hprev : Steady Entry.index start.index (entries xs)
    · obtain ⟨acc, hacc, hread⟩ := readSaved_ok (g := .exact) hprev hmeta.of_append
        hmatch.of_append
      obtain ⟨hlen, -⟩ := hprev.getElem_placed
      have htop := le_top Entry.index start.index (entries xs)
      rw [entries_concat, steady_append, not_and] at hsteady
      rcases x with _ | data | e | st | s <;> try exact absurd trivial (hsteady hprev)
      have hjump : ¬ e.index ≤ top Entry.index start.index (entries xs) + 1 := fun h =>
        hsteady hprev ⟨h, trivial⟩
      rw [hacc]
      simp only [Except.bind, readSaved]
      rw [if_pos (by omega), hread.ents.appendAt_none (by rw [hlen]; omega)]
    · rw [ih hprev hmeta.of_append hmatch.of_append]
      rfl

theorem matched_of_ok (h : xs.foldlM (readSaved g start) {} = .ok acc) : Matched start xs := by
  induction xs using reverseRecOn generalizing acc with
  | nil => simp [Matched]
  | append_singleton xs x ih =>
    rw [foldlM_concat] at h
    rcases hxs : xs.foldlM (readSaved g start) {} with e | acc' <;> rw [hxs] at h
    · cases h
    · intro s hs hindex
      rcases mem_append.1 hs with hs | hs
      · exact ih hxs s hs hindex
      · by_contra hne
        rw [← mem_singleton.1 hs, Except.bind, readSaved, if_pos hindex, if_pos hne] at h
        cases h

theorem readSaved_safe (hmeta : MetadataOf md xs)
    (hsteady : ∀ pre, pre <+: xs → Matched start pre →
      Steady Entry.index start.index (entries pre)) :
    xs.foldlM (readSaved g start) {} ≠ .error .panic := by
  induction xs using reverseRecOn with
  | nil => intro h; cases h
  | append_singleton xs x ih =>
    rw [foldlM_concat]
    by_cases hmatch : Matched start xs
    · have hprev := hsteady xs (prefix_append ..) hmatch
      obtain ⟨acc, hacc, hread⟩ := readSaved_ok (g := g) hprev hmeta.of_append hmatch
      rw [hacc]
      by_cases hmatch' : Matched start (xs ++ [x])
      · obtain ⟨acc', hacc', -⟩ := hread.step (hsteady _ (prefix_refl _) hmatch') hmeta hmatch'
        intro h
        rw [Except.bind, hacc'] at h
        cases h
      · rcases x with _ | data | e | st | s <;>
          try exact absurd (fun t ht => hmatch t (by simpa using ht)) hmatch'
        have hbad : s.index = start.index ∧ s.term ≠ start.term := by
          by_contra hgood
          refine hmatch' fun t ht hindex => ?_
          rcases mem_append.1 ht with ht | ht
          · exact hmatch t ht hindex
          · cases mem_singleton.1 ht
            exact not_not.1 fun hne => hgood ⟨hindex, hne⟩
        simp only [Except.bind, readSaved]
        rw [if_pos hbad.1, if_pos hbad.2]
        intro h
        cases h
    · have hxs := ih hmeta.of_append fun pre hpre =>
        hsteady pre (hpre.trans (prefix_append ..))
      rcases hf : xs.foldlM (readSaved g start) {} with e | acc
      · rw [hf] at hxs
        exact hxs
      · exact absurd (matched_of_ok hf) hmatch

end Fold

section Open

variable {α : Type*} {ix : α → ℕ} {i : ℕ} {fs : List WalFile}

theorem searchIndex_none {l : List α} (h : ∀ a ∈ l, i < ix a) : searchIndex ix l i = none := by
  induction l with
  | nil => rfl
  | cons a l ih =>
    rw [searchIndex, ih fun b hb => h b (by simp [hb])]
    rw [if_neg (by have := h a (by simp); omega)]

theorem searchIndex_append {a : α} {post : List α} (ha : ix a ≤ i) (hpost : ∀ b ∈ post, i < ix b) :
    ∀ pre, searchIndex ix (pre ++ a :: post) i = some (a :: post)
  | [] => by
    rw [nil_append, searchIndex, searchIndex_none hpost]
    rw [if_pos ha]
  | b :: pre => by rw [cons_append, searchIndex, searchIndex_append ha hpost pre]

theorem exists_last_le : ∀ {l : List α}, (∃ a ∈ l, ix a ≤ i) →
    ∃ pre a post, l = pre ++ a :: post ∧ ix a ≤ i ∧ ∀ b ∈ post, i < ix b
  | [], h => by simp at h
  | a :: l, h => by
    by_cases hl : ∃ b ∈ l, ix b ≤ i
    · obtain ⟨pre, b, post, rfl, hb, hpost⟩ := exists_last_le hl
      exact ⟨a :: pre, b, post, rfl, hb, hpost⟩
    · refine ⟨[], a, l, rfl, ?_, fun b hb => not_le.1 fun hle => hl ⟨b, hb, hle⟩⟩
      obtain ⟨b, hb, hle⟩ := h
      rcases mem_cons.1 hb with rfl | hb
      · exact hle
      · exact absurd ⟨b, hb, hle⟩ hl

theorem map_renderFiles : ∀ (segs : List Segment) (c : UInt32),
    (renderFiles c segs).1.map (fun f => (f.seq, f.index)) = segs.map fun seg => (seg.seq,
      seg.index)
  | [], _ => rfl
  | seg :: segs, c => by simp [renderFiles, map_renderFiles segs]

theorem appendLast_append (hne : fs ≠ []) {gs : List WalFile} (bytes : Bytes) :
    appendLast (gs ++ fs) bytes = gs ++ appendLast fs bytes := by
  obtain ⟨fs, f, rfl⟩ := (eq_nil_or_concat fs).resolve_left hne
  rw [concat_eq_append, ← append_assoc, appendLast_concat, appendLast_concat, append_assoc]

theorem map_appendLast (fs : List WalFile) (bytes : Bytes) :
    (appendLast fs bytes).map (fun f => (f.seq, f.index)) = fs.map fun f => (f.seq, f.index) := by
  rcases eq_nil_or_concat fs with rfl | ⟨fs, f, rfl⟩
  · rfl
  · rw [concat_eq_append, appendLast_concat, map_append, map_append]
    rfl

theorem flatMap_appendLast (hne : fs ≠ []) (bytes : Bytes) :
    (appendLast fs bytes).flatMap WalFile.bytes = fs.flatMap WalFile.bytes ++ bytes := by
  obtain ⟨fs, f, rfl⟩ := (eq_nil_or_concat fs).resolve_left hne
  rw [concat_eq_append, appendLast_concat]
  simp

theorem appendLast_nil (fs : List WalFile) : appendLast fs [] = fs := by
  rcases eq_nil_or_concat fs with rfl | ⟨fs, f, rfl⟩
  · rfl
  · rw [concat_eq_append, appendLast_concat, append_nil]

theorem isValidSeq_range' : ∀ {files : List WalFile} {a last : ℕ},
    files.map WalFile.seq = range' a files.length → last = 0 ∨ last + 1 = a →
    isValidSeq last files = true
  | [], _, _, _, _ => rfl
  | f :: fs, a, last, h, hlast => by
    rw [map_cons, length_cons, range'_succ, cons.injEq] at h
    rw [isValidSeq, if_neg (by omega)]
    exact isValidSeq_range' h.2 (.inr (by rw [h.1]))

namespace Journal

variable {j : Journal}

def skipped (j : Journal) (index : ℕ) : List Segment :=
  j.segments.take (j.segments.length - (j.opened index).length)

theorem Wf.opened (h : j.Wf) (index : ℕ) : ∃ seg post, j.segments = j.skipped index ++ seg :: post
    ∧ j.opened index = seg :: post ∧ seg.index ≤ index ∧ ∀ s ∈ post, index < s.index := by
  obtain ⟨seg₀, segs, hsegs, hindex⟩ := h.first
  obtain ⟨pre, seg, post, heq, hseg, hpost⟩ := exists_last_le
    (show ∃ seg ∈ j.segments, seg.index ≤ index from ⟨seg₀, by rw [hsegs]; simp, by omega⟩)
  have hopen : j.opened index = seg :: post := by
    rw [Journal.opened, heq, searchIndex_append hseg hpost]
    rfl
  refine ⟨seg, post, ?_, hopen, hseg, hpost⟩
  rw [skipped, hopen, heq, length_append, Nat.add_sub_cancel, take_left]

theorem Wf.records_opened (h : j.Wf) (index : ℕ) :
    j.all = records (j.skipped index) ++ records (j.opened index) := by
  obtain ⟨seg, post, hsegs, hopen, -⟩ := h.opened index
  rw [Journal.all, hopen, hsegs, records, flatMap_append]
  rfl

def crcAt (j : Journal) (index : ℕ) : UInt32 := (renderFiles 0 (j.skipped index)).2

def items (j : Journal) (index : ℕ) : List Item := (records (j.opened index)).map Saved.item

theorem Wf.synced (h : j.Wf) (index : ℕ) : Synced (j.crcAt index) 0 (j.items index) := by
  obtain ⟨seg, post, hsegs, hopen, -⟩ := h.opened index
  obtain ⟨xs, hxs⟩ := h.heads seg (by rw [hsegs]; simp)
  refine .inr ⟨rfl, fun i is heq => ?_⟩
  simp [items, hopen, records, hxs] at heq
  rw [← heq.1]
  rfl

theorem Wf.crc (h : j.Wf) (index : ℕ) :
    crcRead (j.crcAt index) 0 (j.items index) = j.render.crc := by
  obtain ⟨seg, post, hsegs, hopen, -⟩ := h.opened index
  obtain ⟨xs, hxs⟩ := h.heads seg (by rw [hsegs]; simp)
  have hne : j.items index ≠ [] := by
    simp [items, hopen, records, flatMap_cons, hxs]
  have hcrc : j.render.crc = (renderFiles (j.crcAt index) (seg :: post)).2 := by
    rw [render, hsegs, renderFiles_append]
    rfl
  rw [crcRead, if_neg hne, hcrc, renderFiles_snd, items, hopen]

theorem Wf.openReadAll (h : j.Wf) (g : Growth) (snap : Snap) (tail : Bytes) :
    Wal.openReadAll g (appendLast j.render.files tail) snap
      = (readLoop g snap
          (((encodeAll (j.crcAt snap.index) (j.items snap.index)).1 ++ tail).length + 1)
          ⟨(encodeAll (j.crcAt snap.index) (j.items snap.index)).1 ++ tail, 0⟩ {}).bind fun r =>
        if !r.1.found then .error (.error .snapshotNotFound)
        else .ok ({ files := appendLast j.render.files tail, metadata := r.1.metadata
                    enti := r.1.enti, crc := r.2, seq := j.cur.seq },
          r.1.state, r.1.ents.toList) := by
  obtain ⟨seg, post, hsegs, hopen, hseg, hpost⟩ := h.opened snap.index
  have hmap := map_renderFiles (j.opened snap.index) (j.crcAt snap.index)
  have hne : (renderFiles (j.crcAt snap.index) (j.opened snap.index)).1 ≠ [] := by
    intro h0
    rw [h0, hopen] at hmap
    cases hmap
  have hfiles : appendLast j.render.files tail = (renderFiles 0 (j.skipped snap.index)).1
      ++ appendLast (renderFiles (j.crcAt snap.index) (j.opened snap.index)).1 tail := by
    rw [← appendLast_append hne, hopen, render, hsegs, renderFiles_append]
    rfl
  rw [← map_appendLast _ tail] at hmap
  have hsearch : searchIndex WalFile.index (appendLast j.render.files tail) snap.index
      = some (appendLast (renderFiles (j.crcAt snap.index) (j.opened snap.index)).1 tail) := by
    rw [hfiles]
    rcases hf : appendLast (renderFiles (j.crcAt snap.index) (j.opened snap.index)).1 tail
      with _ | ⟨f, fs⟩ <;> rw [hf, hopen] at hmap
    · cases hmap
    · rw [map_cons, map_cons, cons.injEq, Prod.mk.injEq] at hmap
      refine searchIndex_append (by rw [hmap.1.2]; exact hseg) (fun b hb => ?_) _
      have hmem : (b.seq, b.index) ∈ fs.map fun f => (f.seq, f.index) :=
        mem_map_of_mem (f := fun f : WalFile => (f.seq, f.index)) hb
      rw [hmap.2, mem_map] at hmem
      obtain ⟨s, hs, heq⟩ := hmem
      rw [← (Prod.mk.inj heq).2]
      exact hpost s hs
  have hvalid : isValidSeq 0
      (appendLast (renderFiles (j.crcAt snap.index) (j.opened snap.index)).1 tail) = true := by
    refine isValidSeq_range' (a := (j.skipped snap.index).length) ?_ (.inl rfl)
    have hlen := congrArg length hmap
    rw [length_map, length_map] at hlen
    have hseqs := h.seqs
    rw [hsegs, ← hopen, map_append, length_append, range_eq_range', ← range'_append_1] at hseqs
    have hright := (append_inj hseqs (by simp)).2
    rw [Nat.zero_add] at hright
    rw [hlen, ← hright]
    have hfst := congrArg (map Prod.fst) hmap
    rwa [map_map, map_map] at hfst
  have hseq : ((appendLast j.render.files tail).getLast?.map WalFile.seq).getD 0 = j.cur.seq := by
    rw [render, segments, renderFiles_append]
    simp [renderFiles, appendLast_concat]
  unfold Wal.openReadAll
  rw [hsearch]
  simp [hvalid, flatMap_appendLast hne, flatMap_renderFiles, hseq]
  rfl

end Journal

end Open

section Locks

variable {α : Type*} {ix : α → ℕ} {locks read : List α} {i j : ℕ}

theorem searchIndex_suffix {l : List α} (h : searchIndex ix l i = some read) : read <:+ l := by
  induction l with
  | nil => cases h
  | cons a l ih =>
    rw [searchIndex] at h
    split at h
    · cases h
      exact (ih ‹_›).trans (suffix_cons ..)
    · split_ifs at h
      cases h
      exact suffix_rfl

theorem searchIndex_of_mem {pre l : List α} (hl : ∃ a ∈ l, ix a ≤ i)
    (h : searchIndex ix (pre ++ l) i = some read) : read <:+ l := by
  obtain ⟨mid, a, post, rfl, ha, hpost⟩ := exists_last_le hl
  rw [← append_assoc, searchIndex_append ha hpost] at h
  cases h
  exact suffix_append ..

/-- Of the segments that are read at an index no lower than the given one, none that is locked is
released, so if all are locked those that are read stay so. -/
theorem releaseLockTo_keeps {pre : List α} (hij : i ≤ j)
    (h : searchIndex ix (pre ++ locks) j = some read) :
    (∀ f ∈ read, f ∈ locks → f ∈ releaseLockTo ix locks i) ∧
      (pre = [] → read <:+ releaseLockTo ix locks i) := by
  rw [releaseLockTo]
  split_ifs with h0
  · refine ⟨fun f _ hf => hf, fun hpre => ?_⟩
    subst hpre
    exact searchIndex_suffix h
  · set k := locks.findIdx (fun l => i ≤ ix l)
    have hk : k ≤ locks.length := List.findIdx_le_length
    have hlt : k - 1 < locks.length := by omega
    have hbelow : ix (locks.get ⟨k - 1, hlt⟩) < i := by
      simpa using List.not_of_lt_findIdx (show k - 1 < k by omega)
    have hread : read <:+ locks.drop (k - 1) := by
      rw [← List.take_append_drop (k - 1) locks, ← List.append_assoc] at h
      refine searchIndex_of_mem ⟨locks.get ⟨k - 1, hlt⟩, ?_, (hbelow.trans_le hij).le⟩ h
      rw [List.drop_eq_getElem_cons hlt]
      exact List.mem_cons_self
    exact ⟨fun f hf _ => hread.subset hf, fun _ => hread⟩

theorem releaseLockTo_keeps_truncated : searchIndex id ([] ++ [0, 8, 3, 12]) 9 = some [3, 12] ∧
    [3, 12] <:+ releaseLockTo id [0, 8, 3, 12] 9 := by
  have hread : searchIndex id ([] ++ [0, 8, 3, 12]) 9 = some [3, 12] := by decide
  exact ⟨hread, (releaseLockTo_keeps (le_refl 9) hread).2 rfl⟩

end Locks

section Gaps

variable {files opened : List WalFile} {snap : Snap}

def Consecutive (fs : List WalFile) : Prop := fs.IsChain fun f g => g.seq = f.seq + 1

theorem isValidSeq_iff {last : ℕ} {fs : List WalFile} : isValidSeq last fs = true ↔
    (∀ f ∈ fs.head?, last = 0 ∨ f.seq = last + 1) ∧
      fs.IsChain fun f g => f.seq = 0 ∨ g.seq = f.seq + 1 := by
  induction fs generalizing last with
  | nil => simp [isValidSeq]
  | cons f fs ih =>
    rw [isValidSeq, isChain_cons, ← ih]
    split_ifs with h
    · simp
      omega
    · simp
      omega

theorem openReadAll_of_openAtIndex {g : Growth} {e : WalError}
    (h : openAtIndex files snap = .error e) : openReadAll g files snap = .error (.error e) := by
  unfold openAtIndex at h
  unfold openReadAll
  split at h
  · cases h
    rfl
  · split_ifs at h with hv
    cases h
    simp [hv]

/-- Segments with a gap are refused unless every gap comes right after a segment numbered 0: the
last number seen is 0 also where none was. -/
theorem openAtIndex_gap_iff (h : searchIndex WalFile.index files snap.index = some opened) :
    (¬ Consecutive opened → openAtIndex files snap = .error .fileNotFound) ↔
      (¬ Consecutive opened → ¬ opened.IsChain fun f g => f.seq = 0 ∨ g.seq = f.seq + 1) := by
  have hvalid : isValidSeq 0 opened = true ↔
      opened.IsChain fun f g => f.seq = 0 ∨ g.seq = f.seq + 1 := by
    rw [isValidSeq_iff]
    simp
  rw [← hvalid]
  simp [openAtIndex, h]

theorem openAtIndex_gap_refused :
    openAtIndex [⟨1, 0, []⟩, ⟨3, 8, []⟩] ⟨5, 1⟩ = .error .fileNotFound :=
  (openAtIndex_gap_iff rfl).2 (fun _ => by decide) (by unfold Consecutive; decide)

theorem openAtIndex_gap_missed :
    searchIndex WalFile.index [⟨0, 0, []⟩, ⟨2, 8, []⟩] 5 = some [⟨0, 0, []⟩, ⟨2, 8, []⟩] ∧
    ¬ Consecutive [⟨0, 0, []⟩, ⟨2, 8, []⟩] ∧
      openAtIndex [⟨0, 0, []⟩, ⟨2, 8, []⟩] ⟨5, 1⟩ = .ok [⟨0, 0, []⟩, ⟨2, 8, []⟩] := by
  unfold Consecutive
  decide

end Gaps

end EtcdCompat.Wal
