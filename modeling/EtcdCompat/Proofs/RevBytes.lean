import EtcdCompat.Proofs.LeasePersist

/-!
# The bytes of revision keys

A key of the key bucket is the big-endian bytes of the main revision, a `_`, those of the sub
revision and the tombstone mark if any. For revisions that are not negative the order of the bytes
is that of `RevKey`, and the ends of the walks, some shorter than a key, cut it where they should.
-/

namespace EtcdCompat

open List BigEndian

section Keys

def revBytesLen : ℕ := 17

def markTombstone : Fin 256 := 116

def revToBytes (rev : Revision) : Bytes := int64ToBytes rev.main ++ 95 :: int64ToBytes rev.sub

def bytesToRev (bytes : Bytes) : Revision :=
  ⟨wrapInt64 (BigEndian.decode (bytes.take 8)),
    wrapInt64 (BigEndian.decode ((bytes.drop 9).take 8))⟩

/-- `none` is the panic on bytes that are not those of a revision. -/
def appendMarkTombstone (b : Bytes) : Option Bytes :=
  if b.length ≠ revBytesLen then none else some (b ++ [markTombstone])

def isTombstone (b : Bytes) : Bool :=
  b.length = revBytesLen + 1 ∧ b[revBytesLen]? = some markTombstone

def RevKey.toBytes (k : RevKey) : Bytes :=
  revToBytes k.rev ++ if k.mark then [markTombstone] else []

/-- The keys of a walk over the bucket. -/
def Within (walk : Bytes × Bytes) (key : Bytes) : Prop := walk.1 ≤ key ∧ key < walk.2

/-- `revBytesRange`. A number one above the largest `int64` has the bytes of the one it wraps to. -/
def revWalk (rev : Revision) : Bytes × Bytes :=
  (revToBytes rev, revToBytes ⟨rev.main, rev.sub + 1⟩)

/-- The walk of a batch of `scheduleCompaction`, with the last revision of the batch before. -/
def compactionWalk (last : Option Revision) (compactMainRev : ℤ) : Bytes × Bytes :=
  (match last with
    | none => List.replicate revBytesLen 0
    | some rev => revToBytes ⟨rev.main, rev.sub + 1⟩, int64ToBytes (compactMainRev + 1))

/-- The walk of `syncWatchers`. -/
def syncWalk (minRev curRev : ℤ) : Bytes × Bytes :=
  (revToBytes ⟨minRev, 0⟩, revToBytes ⟨curRev + 1, 0⟩)

end Keys

section Order

variable {c : ℤ} {k k' : RevKey} {rev : Revision}

/-- The conversion of an `int64`. -/
def uint64 (n : ℤ) : ℤ := n % 18446744073709551616

theorem length_int64ToBytes (a : ℤ) : (int64ToBytes a).length = 8 := length_encode 8 _

theorem RevKey.toBytes_eq (k : RevKey) : k.toBytes = int64ToBytes k.rev.main ++
    95 :: (int64ToBytes k.rev.sub ++ if k.mark then [markTombstone] else []) := by
  simp [RevKey.toBytes, revToBytes]

theorem RevKey.toBytes_lt_iff : k.toBytes < k'.toBytes ↔
    uint64 k.rev.main < uint64 k'.rev.main ∨ uint64 k.rev.main = uint64 k'.rev.main ∧
      (uint64 k.rev.sub < uint64 k'.rev.sub ∨
        uint64 k.rev.sub = uint64 k'.rev.sub ∧ k.mark < k'.mark) := by
  have hmark : (if k.mark then [markTombstone] else []) < (if k'.mark then [markTombstone] else [])
      ↔ k.mark < k'.mark := by
    cases k.mark <;> cases k'.mark <;> decide
  rw [toBytes_eq, toBytes_eq, append_lt_append_iff (by simp [length_int64ToBytes]),
    cons_lt_cons_iff, append_lt_append_iff (by simp [length_int64ToBytes]), hmark]
  simp [int64ToBytes_lt_iff, int64ToBytes_eq_iff, uint64]

theorem RevKey.toBytes_lt_plain : k.toBytes < revToBytes rev ↔
    uint64 k.rev.main < uint64 rev.main ∨
      uint64 k.rev.main = uint64 rev.main ∧ uint64 k.rev.sub < uint64 rev.sub := by
  have hplain : revToBytes rev = (⟨rev, false⟩ : RevKey).toBytes := by simp [RevKey.toBytes]
  have hmark : ¬ k.mark < false := by cases k.mark <;> decide
  rw [hplain, toBytes_lt_iff]
  simp [hmark]

/-- An end of eight bytes alone is below every key of its main revision. -/
theorem RevKey.toBytes_lt_main : k.toBytes < int64ToBytes c ↔ uint64 k.rev.main < uint64 c := by
  rw [toBytes_eq, ← append_nil (int64ToBytes c),
    append_lt_append_iff (by simp [length_int64ToBytes]), int64ToBytes_lt_iff]
  simp [uint64]

/-- The zero bytes a compaction starts from have no `_`. -/
theorem RevKey.zero_le_toBytes (k : RevKey) : replicate revBytesLen 0 ≤ k.toBytes := by
  have hz : replicate revBytesLen 0 = int64ToBytes 0 ++ 0 :: int64ToBytes 0 := by decide
  rw [hz, toBytes_eq, ← not_lt, append_lt_append_iff (by simp [length_int64ToBytes]),
    cons_lt_cons_iff, int64ToBytes_lt_iff]
  simp
  omega

end Order

section Inverse

variable {a : ℤ} {k : RevKey}

theorem wrapInt64_decode (ha : IsInt64 a) :
    wrapInt64 (decode (int64ToBytes a)) = a := by
  rw [int64ToBytes, decode_encode (uint64_lt a)]
  unfold IsInt64 minInt64 maxInt64 at ha
  unfold wrapInt64 minInt64
  omega

theorem bytesToRev_toBytes (hm : IsInt64 k.rev.main) (hs : IsInt64 k.rev.sub) :
    bytesToRev k.toBytes = k.rev := by
  have hl := length_int64ToBytes
  rw [bytesToRev, RevKey.toBytes_eq, take_left' (hl _),
    show 9 = (int64ToBytes k.rev.main).length + 1 by rw [hl], drop_length_add_append,
    drop_succ_cons, drop_zero, take_left' (hl _), wrapInt64_decode hm,
    wrapInt64_decode hs]

theorem isTombstone_toBytes (k : RevKey) : isTombstone k.toBytes = k.mark := by
  have hl := length_int64ToBytes
  rw [isTombstone, RevKey.toBytes, revToBytes]
  cases k.mark <;> simp [hl, revBytesLen]

theorem toBytes_of_marks (k : RevKey) : (if k.mark then appendMarkTombstone (revToBytes k.rev)
    else some (revToBytes k.rev)) = some k.toBytes := by
  have hlen : (revToBytes k.rev).length = revBytesLen := by
    simp [revToBytes, length_int64ToBytes, revBytesLen]
  rw [RevKey.toBytes, appendMarkTombstone]
  split_ifs <;> simp_all

end Inverse

/-- The `int64`s that are not negative. -/
def Nonneg (a : ℤ) : Prop := 0 ≤ a ∧ a ≤ maxInt64

def Revision.Nonneg (rev : Revision) : Prop :=
  EtcdCompat.Nonneg rev.main ∧ EtcdCompat.Nonneg rev.sub

/-- The bytes of the keys, marked or not, are in the order of the keys and give the revision back,
and the walks over the bucket meet the keys of the revision, those up to the one to compact at after
the last batch, and those a watcher has to see. -/
theorem revision_keys_embed {k k' : RevKey} {rev : Revision} {lo hi : ℤ} (hk : k.rev.Nonneg)
    (hk' : k'.rev.Nonneg) (hrev : rev.Nonneg) (hlo : Nonneg lo) (hhi : Nonneg hi) :
    ((if k.mark then appendMarkTombstone (revToBytes k.rev) else some (revToBytes k.rev))
      = some k.toBytes ∧ bytesToRev k.toBytes = k.rev ∧ isTombstone k.toBytes = k.mark) ∧
    (k.toBytes < k'.toBytes ↔ k.rev < k'.rev ∨ k.rev = k'.rev ∧ k.mark < k'.mark) ∧
    (Within (revWalk rev) k.toBytes ↔ k.rev = rev) ∧
    (Within (compactionWalk none hi) k.toBytes ↔ k.rev.main ≤ hi) ∧
    (Within (compactionWalk (some rev) hi) k.toBytes ↔ rev < k.rev ∧ k.rev.main ≤ hi) ∧
    (Within (syncWalk lo hi) k.toBytes ↔ lo ≤ k.rev.main ∧ k.rev.main ≤ hi) := by
  have hstart := k.zero_le_toBytes
  obtain ⟨⟨m, s⟩, t⟩ := k
  obtain ⟨⟨m', s'⟩, t'⟩ := k'
  obtain ⟨x, y⟩ := rev
  simp only [Revision.Nonneg, Nonneg, maxInt64] at hk hk' hrev hlo hhi
  have hinv : IsInt64 m ∧ IsInt64 s := by
    unfold IsInt64 minInt64 maxInt64
    omega
  refine ⟨⟨toBytes_of_marks _, bytesToRev_toBytes hinv.1 hinv.2, isTombstone_toBytes _⟩, ?_, ?_, ?_,
    ?_, ?_⟩
  · simp only [RevKey.toBytes_lt_iff, Revision.lt_iff, Revision.mk.injEq, uint64]
    by_cases ht : t < t'
    all_goals simp [ht]
    all_goals omega
  · simp only [Within, revWalk, ← not_lt, RevKey.toBytes_lt_plain, Revision.mk.injEq, uint64]
    omega
  · simp [Within, compactionWalk, hstart, RevKey.toBytes_lt_main, uint64]
    omega
  · simp only [Within, compactionWalk, ← not_lt, RevKey.toBytes_lt_plain, RevKey.toBytes_lt_main,
      Revision.lt_iff, uint64]
    omega
  · simp only [Within, syncWalk, ← not_lt, RevKey.toBytes_lt_plain, uint64]
    omega

theorem revision_keys_embed_tombstone : Revision.Nonneg ⟨5, 1⟩ ∧
    Within (revWalk ⟨5, 1⟩) (⟨⟨5, 1⟩, true⟩ : RevKey).toBytes := by
  have h : (⟨⟨5, 1⟩, true⟩ : RevKey).rev.Nonneg := ⟨⟨by decide, by decide⟩, by decide, by decide⟩
  exact ⟨h, (revision_keys_embed h h h h.1 h.1).2.2.1.2 rfl⟩

end EtcdCompat
