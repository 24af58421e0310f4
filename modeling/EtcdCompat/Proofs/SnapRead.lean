import EtcdCompat.Proofs.MsgAppRoundTrip
import EtcdCompat.Snap.Snapshotter
import Mathlib.Data.Prod.Lex

/-!
# Saved snapshots are read

`Read` takes a checksum of zero for a missing one. Every other snapshot that was saved is read, and
`Load` returns it unless it accepts a file with a later name.
-/

namespace EtcdCompat.Snap

open List

open Rafthttp

theorem Saved.unmarshal_marshal (crc : UInt32) {d : Bytes} (hd : d.length < 9223372036854775808) :
    unmarshal (marshal ⟨crc, some d⟩) = .ok ⟨crc, some d⟩ := by
  have hput : marshal ⟨crc, some d⟩ =
      [(1, .num crc.toNat), (2, .bytes d)].flatMap Wire.putField := by
    simp [marshal, Wire.putField, Wire.varint_of_lt]
  unfold unmarshal
  rw [hput, Wire.fields_putFields]
  · simp [bind, Except.bind, set]
  · intro f hf
    rcases mem_pair.1 hf with rfl | rfl
    · exact Wal.known_num (crc.toNat_lt.trans (by decide))
    · exact ⟨by decide, by decide, rfl, hd⟩

variable {crc32 : Bytes → UInt32} {s : Snapshot} {dir : Dir}

theorem read_saved_iff (hs : TypedSnapshot s)
    (hlen : (marshalSnapshot s).length < 9223372036854775808) :
    read crc32 (Saved.marshal ⟨crc32 (marshalSnapshot s), some (marshalSnapshot s)⟩) = .ok s ↔
      crc32 (marshalSnapshot s) ≠ 0 := by
  have hdata : marshalSnapshot s ≠ [] := by simp [marshalSnapshot]
  unfold read
  rw [if_neg (by simp [Saved.marshal]), Saved.unmarshal_marshal _ hlen]
  simp [hdata]
  by_cases h0 : crc32 (marshalSnapshot s) = 0
  · simp [h0]
  · simp [h0, unmarshalSnapshot_marshalSnapshot hs hlen, Except.mapError]

/-- The newest of the files that `Read` accepts. -/
def newest (crc32 : Bytes → UInt32) (files : List (Bytes × Bytes)) : Option Snapshot :=
  files.findSome? fun f => (read crc32 f.2).toOption

theorem loadFiles_eq : ∀ (files : List (Bytes × Bytes)) (dir : Dir),
    (loadFiles crc32 dir files).2 = (newest crc32 files).elim (.error .noSnapshot) .ok
  | [], _ => rfl
  | (name, b) :: files, dir => by
    rw [loadFiles, newest, findSome?_cons]
    rcases read crc32 b with e | s
    · exact loadFiles_eq files (renameBroken dir name)
    · rfl

def later (dir : Dir) (name : Bytes) : List (Bytes × Bytes) :=
  (snapFiles dir).filter fun f => name < f.1

theorem snapFiles_eq {name b : Bytes} (hname : snapSuffix <:+ name) (hb : dir.find name = some b) :
    ∃ older, snapFiles dir = later dir name ++ (name, b) :: older := by
  have hsorted : (snapFiles dir).Pairwise fun f g => g.1 < f.1 :=
    pairwise_reverse.2 (dir.sorted.filter _)
  have hmem : (name, b) ∈ snapFiles dir := mem_reverse.2
    (mem_filter.2 ⟨OrdMap.mem_entries.2 hb, isSuffixOf_iff_suffix.2 hname⟩)
  obtain ⟨newer, older, h⟩ := append_of_mem hmem
  rw [later, h]
  rw [h] at hsorted
  obtain ⟨-, hold, hnew⟩ := pairwise_append.1 hsorted
  have holder := (pairwise_cons.1 hold).1
  refine ⟨older, ?_⟩
  rw [filter_append, filter_eq_self.2, filter_eq_nil_iff.2, append_nil]
  · intro f hf
    rcases mem_cons.1 hf with rfl | hf
    · simp
    · simpa using (holder f hf).le
  · exact fun f hf => decide_eq_true (hnew f hf _ mem_cons_self)

theorem load_eq {name b : Bytes} (hname : snapSuffix <:+ name) (hb : dir.find name = some b)
    (hok : read crc32 b = .ok s) :
    (load crc32 dir).2 = .ok ((newest crc32 (later dir name)).getD s) := by
  obtain ⟨older, hfiles⟩ := snapFiles_eq hname hb
  rw [load, loadFiles_eq, hfiles, newest, newest, findSome?_append, findSome?_cons, hok]
  cases (later dir name).findSome? fun f => (read crc32 f.2).toOption <;> rfl

theorem hex_append_lt_iff (x y : Bytes) : ∀ w a b : ℕ, hex w a ++ x < hex w b ++ y ↔
    a % 16 ^ w < b % 16 ^ w ∨ a % 16 ^ w = b % 16 ^ w ∧ x < y
  | 0, a, b => by simp [hex, Nat.mod_one]
  | w + 1, a, b => by
    have hpos : 0 < 16 ^ w := by positivity
    have hdigit : ∀ d < 16, ∀ e < 16, (hexDigit d < hexDigit e ↔ d < e) ∧
        (hexDigit d = hexDigit e ↔ d = e) := by decide
    obtain ⟨h1, h2⟩ := hdigit _ (Nat.mod_lt (a / 16 ^ w) (by decide)) _
      (Nat.mod_lt (b / 16 ^ w) (by decide))
    rw [hex, hex, cons_append, cons_append, cons_lt_cons_iff, h1, h2, hex_append_lt_iff x y w a b,
      pow_succ, Nat.mod_mul, Nat.mod_mul]
    have hlt := @BigEndian.digits_lt_iff _ _ _ (a / 16 ^ w % 16) (b / 16 ^ w % 16)
      (Nat.mod_lt a hpos) (Nat.mod_lt b hpos)
    have hgt := @BigEndian.digits_lt_iff _ _ _ (b / 16 ^ w % 16) (a / 16 ^ w % 16)
      (Nat.mod_lt b hpos) (Nat.mod_lt a hpos)
    grind

/-- Terms first, then indices. -/
def order (s : Snapshot) : ℕ ×ₗ ℕ := toLex (s.metadata.term, s.metadata.index)

theorem fname_lt_iff {s' : Snapshot} (hs : TypedSnapshot s) (hs' : TypedSnapshot s') :
    fname s < fname s' ↔ order s < order s' := by
  have hmod : ∀ {n : ℕ}, Wal.IsUInt64 n → n % 16 ^ 16 = n := fun h =>
    Nat.mod_eq_of_lt (show _ < 16 ^ 16 from h)
  unfold fname
  rw [hex_append_lt_iff, cons_lt_cons_iff, hex_append_lt_iff, hmod hs.term, hmod hs'.term,
    hmod hs.index, hmod hs'.index]
  simp [order, Prod.Lex.toLex_lt_toLex]

/-- A snapshot that was saved is read from its file, and is loaded whatever became of the other
files, exactly if its checksum is not zero and no other one is accepted from a later file. -/
theorem saved_loaded_iff (hs : TypedSnapshot s)
    (hlen : (marshalSnapshot s).length < 9223372036854775808) (hne : isEmptySnap s = false)
    {dir₀ : Dir} (hsaved : dir.find (fname s) = (saveSnap crc32 dir₀ s).find (fname s)) :
    ((∃ b, dir.find (fname s) = some b ∧ read crc32 b = .ok s) ∧ (load crc32 dir).2 = .ok s ↔
      crc32 (marshalSnapshot s) ≠ 0 ∧ ∀ s', newest crc32 (later dir (fname s)) = some s' → s' = s) ∧
    ∀ s', TypedSnapshot s' → (fname s < fname s' ↔ order s < order s') := by
  refine ⟨?_, fun s' => fname_lt_iff hs⟩
  rw [saveSnap, hne, if_neg Bool.false_ne_true, save, OrdMap.find_insert_self] at hsaved
  have hread := @read_saved_iff crc32 s hs hlen
  have hname : snapSuffix <:+ fname s :=
    (List.suffix_append ..).trans ((List.suffix_cons ..).trans (List.suffix_append ..))
  by_cases h0 : crc32 (marshalSnapshot s) = 0
  · refine iff_of_false (fun h => ?_) fun h => h.1 h0
    obtain ⟨⟨b, hb, hok⟩, -⟩ := h
    exact hread.1 (Option.some.inj (hsaved.symm.trans hb) ▸ hok) h0
  · have hok := hread.2 h0
    rw [load_eq hname hsaved hok]
    rcases newest crc32 (later dir (fname s)) with _ | s'
    · simp [h0, hsaved, hok]
    · simp [h0, hsaved, hok]

/-- A snapshot without data, and one whose checksum is zero. -/
def plainSnap : Snapshot := { metadata := { index := 1, term := 1 } }

def zeroSnap : Snapshot := { plainSnap with data := some [152, 144, 252, 56] }

open Wal (Crc.update)

theorem saved_loaded_plain :
    (load (Crc.update 0) (saveSnap (Crc.update 0) .empty plainSnap)).2 = .ok plainSnap := by
  have hlater : newest (Crc.update 0) (later (saveSnap (Crc.update 0) .empty plainSnap)
      (fname plainSnap)) = none := by decide +kernel
  refine ((saved_loaded_iff ⟨by decide, by decide, by decide⟩ (by decide) rfl rfl).1.2
    ⟨by decide +kernel, fun s' h => ?_⟩).2
  rw [hlater] at h
  cases h

theorem saved_not_loaded : isEmptySnap zeroSnap = false ∧
    (∃ b, (saveSnap (Crc.update 0) .empty zeroSnap).find (fname zeroSnap) = some b ∧
      read (Crc.update 0) b = .error .emptySnapshot) ∧
    (load (Crc.update 0) (saveSnap (Crc.update 0) .empty zeroSnap)).2 = .error .noSnapshot :=
  ⟨rfl, ⟨_, OrdMap.find_insert_self .., by decide +kernel⟩, by decide +kernel⟩

end EtcdCompat.Snap
