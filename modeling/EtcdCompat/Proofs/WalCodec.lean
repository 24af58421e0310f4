import EtcdCompat.Wal.Record

/-!
# Records of the write-ahead log, written and read

What the encoder writes of a record the decoder reads back, as long as it is below the decoder's
size limit. The checksum of a decoder follows that of the encoder, and one that begins with a
segment in the middle takes it from the record at the head of the segment.
-/

namespace EtcdCompat.Wal

open List Wire Decoder

section Message

theorem Crc.update_nil (c : UInt32) : Crc.update c [] = c := by simp [Crc.update]

namespace Record

variable {type : RecordType} {crc : UInt32} {data : Option Bytes}

def fieldsOf (type : RecordType) (crc : UInt32) (data : Option Bytes) : List (ℕ × Wire.Value) :=
  (1, .num type.code) :: (2, .num crc.toNat) :: (data.map fun d => (3, .bytes d)).toList

theorem code_mod (type : RecordType) :
    ((type.code : ℤ) % 18446744073709551616).toNat = type.code := by
  cases type <;> rfl

theorem marshal_eq (type : RecordType) (crc : UInt32) (data : Option Bytes) :
    marshal { type := type.code, crc, data } = (fieldsOf type crc data).flatMap putField := by
  unfold marshal fieldsOf
  simp [code_mod]
  rcases data with _ | d
  · simp [putField, varint_of_lt]
  · simp [putField, varint_of_lt]

theorem size_eq (rec : Record) : rec.size = rec.marshal.length := by
  unfold size marshal sov
  rcases rec.data with _ | d <;> simp <;> omega

variable (hdata : ∀ d, data = some d → d.length < 9223372036854775808)
include hdata

theorem known_fieldsOf : ∀ f ∈ fieldsOf type crc data, Known kind f := by
  intro f hf
  simp only [fieldsOf, mem_cons] at hf
  rcases hf with rfl | rfl | hf
  · refine ⟨by decide, by decide, rfl, ?_⟩
    cases type <;> decide
  · refine ⟨by decide, by decide, rfl, ?_⟩
    have := crc.toNat_lt
    omega
  · rcases data with _ | d
    · simp at hf
    · simp at hf
      rw [hf]
      exact ⟨by decide, by decide, rfl, hdata d rfl⟩

theorem unmarshal_marshal : unmarshal (marshal { type := type.code, crc, data })
      = .ok { type := type.code, crc, data } := by
  unfold unmarshal
  rw [marshal_eq, fields_putFields (known_fieldsOf hdata)]
  have htype : toInt64 type.code = type.code := by cases type <;> rfl
  rcases data with _ | d
  · simp [bind, Except.bind, fieldsOf, set, htype]
  · simp [bind, Except.bind, fieldsOf, set, htype]

end Record

end Message

section Stream

variable {type : RecordType} {data : Option Bytes} {c c' : UInt32} {rest : Bytes} {i : Item}

/-- What is written and what a decoder is given. -/
abbrev Item := RecordType × Option Bytes

/-- The record the encoder makes of an item. -/
def recordOf (c : UInt32) (i : Item) : Record :=
  { type := i.1.code, crc := Crc.update c (i.2.getD []), data := i.2 }

theorem recordOf_type_iff : (recordOf c i).type = RecordType.crc.code ↔ i.1 = .crc := by
  rcases i with ⟨type, data⟩
  cases type <;> simp [recordOf, RecordType.code]

def recordsOf (c : UInt32) : List Item → List Record
  | [] => []
  | i :: is => recordOf c i :: recordsOf (recordOf c i).crc is

def crcAfter (c : UInt32) (is : List Item) : UInt32 := (encodeAll c is).2

theorem encode_eq (c : UInt32) (i : Item) : encode c i.1 i.2
    = (LittleEndian.encode 8 (recordOf c i).size ++ (recordOf c i).marshal,
      (recordOf c i).crc) := by
  rw [Record.size_eq]
  rfl

theorem readInt64_encode {n : ℕ} (hn : n < 9223372036854775808) (rest : Bytes) :
    readInt64 (LittleEndian.encode 8 n ++ rest) = .ok (n, rest) := by
  have hlen := LittleEndian.length_encode 8 n
  unfold readInt64
  rw [if_neg (by rw [← length_eq_zero_iff, length_append]; omega),
    if_neg (by rw [length_append]; omega), take_left' hlen, drop_left' hlen,
    LittleEndian.decode_encode (by omega), Record.toInt64, if_neg (by omega)]

/-- A record whose length is an `int`. -/
def FitsInt (rec : Record) : Prop := rec.size < 9223372036854775808

/-- A record the decoder takes. -/
def Small (rec : Record) : Prop := (rec.size : ℤ) < maxWALEntrySizeLimit

instance (rec : Record) : Decidable (Small rec) := inferInstanceAs (Decidable (_ < _))

theorem Small.fitsInt {rec : Record} (h : Small rec) : FitsInt rec := by
  unfold Small maxWALEntrySizeLimit at h
  unfold FitsInt
  omega

theorem decode_large (hs : FitsInt (recordOf c i)) (hl : ¬ Small (recordOf c i)) :
    decode ⟨(encode c i.1 i.2).1 ++ rest, c'⟩ = .error .maxEntrySizeLimitExceeded := by
  unfold decode
  rw [encode_eq, append_assoc, readInt64_encode hs]
  simp only [bind, Except.bind]
  rw [if_pos (.inr (not_lt.1 hl))]

theorem decode_small (hs : Small (recordOf c i)) : decode ⟨(encode c i.1 i.2).1 ++ rest, c'⟩
      = if i.1 = .crc then .ok (recordOf c i, ⟨rest, c'⟩)
        else if Crc.update c (i.2.getD []) = Crc.update c' (i.2.getD []) then
          .ok (recordOf c i, ⟨rest, Crc.update c' (i.2.getD [])⟩)
        else .error .recordCrcMismatch := by
  have hlen : (recordOf c i).marshal.length = (recordOf c i).size := (Record.size_eq _).symm
  have hdata : ∀ d, i.2 = some d → d.length < 9223372036854775808 := fun d hd => by
    have hfits := hs.fitsInt
    simp only [FitsInt, Record.size, recordOf, hd] at hfits
    omega
  have hun : Record.unmarshal (recordOf c i).marshal = .ok (recordOf c i) :=
    Record.unmarshal_marshal hdata
  unfold decode
  rw [encode_eq, append_assoc, readInt64_encode hs.fitsInt]
  simp only [bind, Except.bind, Int.toNat_natCast]
  rw [if_neg (by unfold Small at hs; omega), if_neg (by rw [length_append]; omega), take_left' hlen,
    drop_left' hlen, hun]
  simp only [recordOf_type_iff]
  rfl

/-- The decoder has the checksum of the encoder, or is new and before a segment. -/
def Synced (c c' : UInt32) (is : List Item) : Prop :=
  c' = c ∨ c' = 0 ∧ ∀ i is', is = i :: is' → i.1 = .crc

theorem Synced.of_append {is is' : List Item} (hs : Synced c c' (is ++ is')) :
    Synced c c' is :=
  hs.imp id fun h => ⟨h.1, fun i js heq => h.2 i (js ++ is') (by rw [heq, cons_append])⟩

theorem next_large (hs : FitsInt (recordOf c i)) (hl : ¬ Small (recordOf c i)) :
    Decoder.next ⟨(encode c i.1 i.2).1 ++ rest, c'⟩ = .error .maxEntrySizeLimitExceeded := by
  rw [Decoder.next, decode_large hs hl]
  rfl

theorem drain_error {d : Decoder} {e : WalError} (h : d.next = .error e) (fuel : ℕ) :
    d.drain (fuel + 1) = ([], e) := by
  rw [drain, h]

theorem next_small {is : List Item} (hs : Small (recordOf c i)) (hsync : Synced c c' (i :: is))
    (hcrc : i.1 = .crc → i.2 = none) (rest : Bytes) :
    Decoder.next ⟨(encode c i.1 i.2).1 ++ rest, c'⟩
      = .ok (recordOf c i, ⟨rest, (recordOf c i).crc⟩) := by
  unfold Decoder.next
  rw [decode_small hs]
  by_cases htype : i.1 = .crc
  · have hc : (recordOf c i).crc = c := by
      simp [recordOf, hcrc htype, Crc.update_nil]
    rw [if_pos htype]
    simp only [bind, Except.bind, recordOf_type_iff, htype, if_true, hc]
    rw [if_neg]
    rintro ⟨h0, hne⟩
    rcases hsync with rfl | ⟨rfl, -⟩
    · exact hne rfl
    · exact h0 rfl
  · have hc : c' = c := by
      rcases hsync with h | ⟨-, h⟩
      · exact h
      · exact absurd (h i is rfl) htype
    rw [if_neg htype, hc, if_pos rfl]
    simp only [bind, Except.bind, recordOf_type_iff, htype, if_false]
    rfl

theorem encodeAll_cons (c : UInt32) (i : Item) (is : List Item) : encodeAll c (i :: is)
    = ((encode c i.1 i.2).1 ++ (encodeAll (recordOf c i).crc is).1,
      crcAfter (recordOf c i).crc is) := rfl

theorem crcAfter_cons (c : UInt32) (i : Item) (is : List Item) :
    crcAfter c (i :: is) = crcAfter (recordOf c i).crc is := rfl

theorem encodeAll_append : ∀ (is is' : List Item) (c : UInt32), encodeAll c (is ++ is')
    = ((encodeAll c is).1 ++ (encodeAll (crcAfter c is) is').1, crcAfter (crcAfter c is) is')
  | [], _, _ => rfl
  | i :: is, is', c => by
    rw [cons_append, encodeAll_cons, encodeAll_cons, crcAfter, encodeAll_append is is',
      append_assoc]
    rfl

theorem recordsOf_append : ∀ (is is' : List Item) (c : UInt32),
    recordsOf c (is ++ is') = recordsOf c is ++ recordsOf (crcAfter c is) is'
  | [], _, _ => rfl
  | i :: is, is', c => by
    simp [recordsOf, recordsOf_append is is', crcAfter_cons]

theorem map_recordsOf : ∀ (is : List Item) (c : UInt32),
    (recordsOf c is).map (fun rec => (rec.type, rec.data))
      = is.map fun i => ((i.1.code : ℤ), i.2)
  | [], _ => rfl
  | i :: is, c => by
    rw [recordsOf, map_cons, map_cons, map_recordsOf is]
    rfl

theorem encodeSegments_eq : ∀ (segs : List (List Item)) (c : UInt32),
    encodeSegments c segs = encodeAll c segs.flatten
  | [], _ => rfl
  | is :: segs, c => by
    have ih := encodeSegments_eq segs (crcAfter c is)
    rw [flatten_cons, encodeAll_append]
    simp only [encodeSegments, crcAfter] at ih ⊢
    rw [ih]

def crcRead (c c' : UInt32) (is : List Item) : UInt32 := if is = [] then c' else crcAfter c is

theorem crcRead_cons (c c' : UInt32) (i : Item) (is : List Item) :
    crcRead c c' (i :: is) = crcRead (recordOf c i).crc (recordOf c i).crc is := by
  rcases is with _ | ⟨j, is⟩ <;> rfl

/-- A decoder reads records and is left as another. -/
inductive Reads : List Record → Decoder → Decoder → Prop where
  | nil (d : Decoder) : Reads [] d d
  | cons {rec : Record} {recs : List Record} {d d' d'' : Decoder} :
    d.next = .ok (rec, d') → Reads recs d' d'' → Reads (rec :: recs) d d''

theorem reads_small : ∀ {is : List Item} {c c' : UInt32} (tail : Bytes),
    (∀ rec ∈ recordsOf c is, Small rec) → (∀ i ∈ is, i.1 = .crc → i.2 = none) → Synced c c' is →
    Reads (recordsOf c is) ⟨(encodeAll c is).1 ++ tail, c'⟩ ⟨tail, crcRead c c' is⟩
  | [], c, c', tail, _, _, _ => .nil _
  | i :: is, c, c', tail, hsmall, hcrc, hsync => by
    have hnext := next_small (hsmall _ (by simp [recordsOf])) hsync (hcrc i (by simp))
      ((encodeAll (recordOf c i).crc is).1 ++ tail)
    rw [encodeAll_cons, append_assoc, crcRead_cons]
    exact .cons hnext (reads_small tail (fun rec h => hsmall rec (by simp [recordsOf, h]))
      (fun j hj => hcrc j (mem_cons_of_mem _ hj)) (.inl rfl))

theorem Reads.drain {recs : List Record} {d d' : Decoder} (h : Reads recs d d') (fuel : ℕ) :
    d.drain (recs.length + fuel)
      = (recs ++ (d'.drain fuel).1, (d'.drain fuel).2) := by
  induction h with
  | nil d => simp
  | cons hnext _ ih =>
    rw [length_cons, Nat.add_right_comm, Decoder.drain, hnext]
    simp [ih]

theorem length_recordsOf : ∀ (is : List Item) (c : UInt32), (recordsOf c is).length = is.length
  | [], _ => rfl
  | i :: is, c => by rw [recordsOf, length_cons, length_cons, length_recordsOf is]

theorem length_encode (c : UInt32) (i : Item) : 8 ≤ (encode c i.1 i.2).1.length := by
  rw [encode_eq, length_append, LittleEndian.length_encode]
  omega

theorem length_le_encodeAll : ∀ (is : List Item) (c : UInt32),
    is.length ≤ (encodeAll c is).1.length
  | [], _ => by simp
  | i :: is, c => by
    have h1 := length_encode c i
    have h2 := length_le_encodeAll is (recordOf c i).crc
    rw [encodeAll_cons, length_append, length_cons]
    omega

theorem drain_nil (fuel : ℕ) (c : UInt32) : drain (fuel + 1) ⟨[], c⟩ = ([], .eof) := rfl

theorem exists_first_large : ∀ {is : List Item} {c : UInt32},
    (¬ ∀ rec ∈ recordsOf c is, Small rec) → ∃ pre i post, is = pre ++ i :: post
      ∧ (∀ rec ∈ recordsOf c pre, Small rec) ∧ ¬ Small (recordOf (crcAfter c pre) i)
  | [], c, h => by simp [recordsOf] at h
  | i :: is, c, h => by
    by_cases hi : Small (recordOf c i)
    · have htail : ¬ ∀ rec ∈ recordsOf (recordOf c i).crc is, Small rec := fun hall =>
        h fun rec hrec => by
          rcases mem_cons.1 hrec with rfl | hrec
          · exact hi
          · exact hall rec hrec
      obtain ⟨pre, j, post, rfl, hpre, hj⟩ := exists_first_large htail
      refine ⟨i :: pre, j, post, rfl, fun rec hrec => ?_, hj⟩
      rcases mem_cons.1 hrec with rfl | hrec
      · exact hi
      · exact hpre rec hrec
    · exact ⟨[], i, is, rfl, by simp [recordsOf], hi⟩

end Stream

theorem size_bounds (c : UInt32) (i : Item) : (i.2.getD []).length < (recordOf c i).size
    ∧ (recordOf c i).size ≤ (i.2.getD []).length + 33 := by
  have hsov : ∀ n, Record.sov n ≤ 10 := length_varint
  have h1 := hsov ((i.1.code : ℤ) % 18446744073709551616).toNat
  have h2 := hsov (Crc.update c (i.2.getD [])).toNat
  have h3 := hsov (i.2.getD []).length
  unfold Record.size recordOf
  rcases hd : i.2 with _ | d <;> rw [hd] at h2 h3 <;>
    simp at h2 h3 ⊢ <;> omega

section Whole

variable {c : UInt32} {is : List Item}

theorem decodeAll_small (hstart : Synced c 0 is) (hcrc : ∀ i ∈ is, i.1 = .crc → i.2 = none)
    (hsmall : ∀ rec ∈ recordsOf c is, Small rec) :
    decodeAll ⟨(encodeAll c is).1, 0⟩ = (recordsOf c is, .eof) := by
  have hlen := length_le_encodeAll is c
  obtain ⟨fuel, hfuel⟩ : ∃ fuel, (encodeAll c is).1.length + 1 = is.length + (fuel + 1) :=
    ⟨(encodeAll c is).1.length - is.length, by omega⟩
  have hread := (reads_small [] hsmall hcrc hstart).drain (fuel + 1)
  rw [append_nil, length_recordsOf, ← hfuel, drain_nil, append_nil] at hread
  exact hread

theorem decodeAll_large (hstart : Synced c 0 is) (hcrc : ∀ i ∈ is, i.1 = .crc → i.2 = none)
    (hfits : ∀ rec ∈ recordsOf c is, FitsInt rec) (hlarge : ¬ ∀ rec ∈ recordsOf c is, Small rec) :
    (decodeAll ⟨(encodeAll c is).1, 0⟩).2 = .maxEntrySizeLimitExceeded := by
  obtain ⟨pre, i, post, rfl, hpre, hi⟩ := exists_first_large hlarge
  have hlen := length_le_encodeAll (pre ++ i :: post) c
  rw [length_append] at hlen
  obtain ⟨fuel, hfuel⟩ : ∃ fuel, (encodeAll c (pre ++ i :: post)).1.length + 1
      = pre.length + (fuel + 1) :=
    ⟨(encodeAll c (pre ++ i :: post)).1.length - pre.length, by omega⟩
  have hfits : FitsInt (recordOf (crcAfter c pre) i) :=
    hfits _ (by rw [recordsOf_append]; simp [recordsOf])
  have hread := reads_small ((encode (crcAfter c pre) i.1 i.2).1
    ++ (encodeAll (recordOf (crcAfter c pre) i).crc post).1) hpre
    (fun j hj => hcrc j (mem_append_left _ hj)) hstart.of_append
  rw [decodeAll, hfuel, encodeAll_append, encodeAll_cons, ← length_recordsOf pre c, hread.drain,
    drain_error (next_large hfits hi)]

theorem decodeAll_encodeSegments_iff {segs : List (List Item)}
    (hstart : Synced c 0 segs.flatten) (hcrc : ∀ i ∈ segs.flatten, i.1 = .crc → i.2 = none)
    (hfits : ∀ rec ∈ recordsOf c segs.flatten, FitsInt rec) :
    ((Decoder.decodeAll ⟨(encodeSegments c segs).1, 0⟩).1.map (fun rec => (rec.type, rec.data))
        = segs.flatten.map (fun i => ((i.1.code : ℤ), i.2))
      ∧ (Decoder.decodeAll ⟨(encodeSegments c segs).1, 0⟩).2 = .eof)
      ↔ ∀ rec ∈ recordsOf c segs.flatten, (rec.size : ℤ) < maxWALEntrySizeLimit := by
  rw [encodeSegments_eq]
  constructor
  · intro ⟨_, hend⟩
    by_contra hlarge
    rw [decodeAll_large hstart hcrc hfits hlarge] at hend
    cases hend
  · intro hall
    rw [decodeAll_small hstart hcrc hall]
    exact ⟨map_recordsOf _ c, rfl⟩

/-- Two segments. -/
theorem decodeAll_two_segments :
    (Decoder.decodeAll ⟨(encodeSegments 0 [[(.crc, none), (.metadata, some [1])],
        [(.crc, none), (.metadata, some [1]), (.entry, some [])]]).1, 0⟩).1.map
        (fun rec => (rec.type, rec.data))
      = [(4, none), (1, some [1]), (4, none), (1, some [1]), (2, some [])]
    ∧ (Decoder.decodeAll ⟨(encodeSegments 0 [[(.crc, none), (.metadata, some [1])],
        [(.crc, none), (.metadata, some [1]), (.entry, some [])]]).1, 0⟩).2 = .eof := by
  have hsize : ∀ rec ∈ recordsOf 0 [[(.crc, none), (.metadata, some [1])],
      [(.crc, none), (.metadata, some [1]), (.entry, some [])]].flatten, rec.size < 100 := by
    decide +kernel
  refine (decodeAll_encodeSegments_iff (.inl rfl) (by decide) fun rec hrec => ?_).2 fun rec hrec =>
    ?_
  · have := hsize rec hrec
    unfold FitsInt
    omega
  · have := hsize rec hrec
    unfold maxWALEntrySizeLimit
    omega

/-- An entry as large as the limit is written and not read. -/
theorem decodeAll_large_entry : ∃ data : Bytes, data.length = 10485760
    ∧ (Decoder.decodeAll ⟨(encodeSegments 0 [[(.crc, none), (.entry, some data)]]).1, 0⟩).2
      = .maxEntrySizeLimitExceeded := by
  refine ⟨List.replicate 10485760 0, List.length_replicate .., ?_⟩
  generalize hdata : List.replicate 10485760 (0 : Fin 256) = data
  have hlen : data.length = 10485760 := by rw [← hdata, List.length_replicate]
  rw [encodeSegments_eq]
  have hentry := size_bounds 0 (.entry, some data)
  rw [Option.getD_some, hlen] at hentry
  refine decodeAll_large (.inl rfl) (by simp) (fun rec hrec => ?_) fun hall => ?_
  · simp [recordsOf] at hrec
    rcases hrec with rfl | rfl
    · have hhead := (size_bounds 0 (.crc, none)).2
      rw [Option.getD_none, List.length_nil] at hhead
      unfold FitsInt
      omega
    · have hc : (recordOf 0 (.crc, none)).crc = 0 := Crc.update_nil 0
      rw [hc]
      unfold FitsInt
      omega
  · have hsmall := hall (recordOf 0 (.entry, some data)) (by
      have hc : (recordOf 0 (.crc, none)).crc = 0 := Crc.update_nil 0
      simp [recordsOf, hc])
    unfold Small maxWALEntrySizeLimit at hsmall
    omega

end Whole

end EtcdCompat.Wal
