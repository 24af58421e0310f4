import EtcdCompat.Proofs.WalJournal
import EtcdCompat.Rafthttp.MsgAppV2

/-!
# What the peers write to a `msgAppV2` stream is read

Encoder and decoder keep the same term and index: a message that is written without them moves both
indices by its entries; one written whole sets both from the same fields. So a decoder in step with
the encoder reads the message that was written, and is in step after.
-/

namespace EtcdCompat.Rafthttp

open List Wire MsgAppV2Encoder

open Wal

section Messages

variable {s : Snapshot} {e : Entry}

def confStateFields (cs : ConfState) : List (ℕ × Wire.Value) := cs.nodes.map fun n => (1, .num n)

theorem marshalConfState_eq (cs : ConfState) :
    marshalConfState cs = (confStateFields cs).flatMap putField := by
  unfold marshalConfState confStateFields
  rw [flatMap_map]
  rfl

theorem foldl_setConfState (cs : ConfState) : ∀ ns : List ℕ,
    (ns.map fun n => (1, Value.num n)).foldl setConfState cs = ⟨cs.nodes ++ ns⟩
  | [] => by simp
  | n :: ns => by
    rw [map_cons, foldl_cons, foldl_setConfState]
    simp [setConfState]

theorem unmarshalConfState_marshalConfState {cs : ConfState} (h : ∀ n ∈ cs.nodes, IsUInt64 n) :
    unmarshalConfState {} (marshalConfState cs) = .ok cs := by
  unfold unmarshalConfState
  rw [marshalConfState_eq, fields_putFields]
  · exact congrArg Except.ok (foldl_setConfState {} cs.nodes)
  · intro f hf
    obtain ⟨n, hn, rfl⟩ := mem_map.1 hf
    exact known_num (h n hn)

def metadataFields (md : SnapshotMetadata) : List (ℕ × Wire.Value) :=
  [(1, .bytes (marshalConfState md.confState)), (2, .num md.index), (3, .num md.term)]

theorem marshalMetadata_eq (md : SnapshotMetadata) :
    marshalMetadata md = (metadataFields md).flatMap putField := by
  simp [marshalMetadata, metadataFields, putField, varint_of_lt]

/-- A snapshot whose numbers are `uint64`s. -/
structure TypedSnapshot (s : Snapshot) : Prop where
  nodes : ∀ n ∈ s.metadata.confState.nodes, IsUInt64 n
  index : IsUInt64 s.metadata.index
  term : IsUInt64 s.metadata.term

theorem unmarshalMetadata_marshalMetadata (h : TypedSnapshot s)
    (hlen : (marshalMetadata s.metadata).length < 9223372036854775808) :
    unmarshalMetadata {} (marshalMetadata s.metadata) = .ok s.metadata := by
  have hcs := unmarshalConfState_marshalConfState h.nodes
  rw [marshalMetadata_eq] at hlen
  unfold unmarshalMetadata
  rw [marshalMetadata_eq, fields_putFields]
  · simp [bind, Except.bind, metadataFields, setMetadata, hcs]
    rfl
  · intro f hf
    simp [metadataFields] at hf
    rcases hf with rfl | rfl | rfl
    · exact ⟨by decide, by decide, rfl,
        (length_bytes_le mem_cons_self).trans_lt hlen⟩
    · exact known_num h.index
    · exact known_num h.term

def snapshotFields (s : Snapshot) : List (ℕ × Wire.Value) :=
  (s.data.map fun d => (1, .bytes d)).toList ++ [(2, .bytes (marshalMetadata s.metadata))]

theorem marshalSnapshot_eq (s : Snapshot) :
    marshalSnapshot s = (snapshotFields s).flatMap putField := by
  rcases hd : s.data with _ | d <;>
    simp [marshalSnapshot, snapshotFields, hd, putField, varint_of_lt]

theorem unmarshalSnapshot_marshalSnapshot (h : TypedSnapshot s)
    (hlen : (marshalSnapshot s).length < 9223372036854775808) :
    unmarshalSnapshot {} (marshalSnapshot s) = .ok s := by
  rw [marshalSnapshot_eq] at hlen
  have hmem : (2, Value.bytes (marshalMetadata s.metadata)) ∈ snapshotFields s := by
    simp [snapshotFields]
  have hmd := unmarshalMetadata_marshalMetadata h ((length_bytes_le hmem).trans_lt hlen)
  unfold unmarshalSnapshot
  rw [marshalSnapshot_eq, fields_putFields]
  · rcases s with ⟨_ | d, md⟩ <;> simp [bind, Except.bind, snapshotFields, setSnapshot, hmd] <;> rfl
  · intro f hf
    have hbytes : ∀ {b num}, f = (num, Value.bytes b) → b.length < 9223372036854775808 := by
      rintro b num rfl
      exact (length_bytes_le hf).trans_lt hlen
    rcases hd : s.data with _ | d <;> simp [snapshotFields, hd] at hf
    · rw [hf]
      exact ⟨by decide, by decide, rfl, hbytes hf⟩
    · rcases hf with hf | hf <;> rw [hf] <;> exact ⟨by decide, by decide, rfl, hbytes hf⟩

def messageFields (m : Message) : List (ℕ × Wire.Value) :=
  [(1, .num (messageCode m.type)), (2, .num m.to_), (3, .num m.from_), (4, .num m.term),
    (5, .num m.logTerm), (6, .num m.index)]
    ++ m.entries.map (fun e => (7, .bytes (marshalEntry e)))
    ++ [(8, .num m.commit), (9, .bytes (marshalSnapshot m.snapshot)),
      (10, .num (if m.reject then 1 else 0)), (11, .num m.rejectHint)]

theorem marshalMessage_eq (m : Message) :
    marshalMessage m = (messageFields m).flatMap putField := by
  simp [marshalMessage, messageFields, putField, flatMap_map, varint_of_lt]

/-- A message whose numbers are `uint64`s, and that fits in memory. -/
structure TypedMessage (m : Message) : Prop where
  to_ : IsUInt64 m.to_
  from_ : IsUInt64 m.from_
  term : IsUInt64 m.term
  logTerm : IsUInt64 m.logTerm
  index : IsUInt64 m.index
  entries : ∀ e ∈ m.entries, IsUInt64 e.term ∧ IsUInt64 e.index
  commit : IsUInt64 m.commit
  snapshot : TypedSnapshot m.snapshot
  rejectHint : IsUInt64 m.rejectHint
  length : (marshalMessage m).length < 9223372036854775808

variable {m : Message}

theorem TypedMessage.bytes (h : TypedMessage m) {num : ℕ} {b : Bytes}
    (hf : (num, Value.bytes b) ∈ messageFields m) : b.length < 9223372036854775808 := by
  have hlen := h.length
  rw [marshalMessage_eq] at hlen
  exact (length_bytes_le hf).trans_lt hlen

theorem mem_entry_field (he : e ∈ m.entries) :
    (7, Value.bytes (marshalEntry e)) ∈ messageFields m := by
  unfold messageFields
  simp only [mem_append, mem_map]
  exact .inl (.inr ⟨e, he, rfl⟩)

theorem TypedMessage.entry (h : TypedMessage m) (he : e ∈ m.entries) :
    (marshalEntry e).length < 9223372036854775808
      ∧ unmarshalEntry (marshalEntry e) = .ok e := by
  have hlen := h.bytes (mem_entry_field he)
  obtain ⟨hterm, hindex⟩ := h.entries e he
  refine ⟨hlen, unmarshalEntry_marshalEntry hterm hindex ?_⟩
  rcases hd : e.data with _ | d
  · decide
  · rw [marshalEntry_eq] at hlen
    have hmem : (4, Value.bytes d) ∈ entryFields e := by
      simp [entryFields, hd]
    exact (length_bytes_le hmem).trans_lt hlen

theorem TypedMessage.known (h : TypedMessage m) :
    ∀ f ∈ messageFields m, Known messageKind f := by
  intro f hf
  have hbytes : ∀ {b num}, f = (num, Value.bytes b) → b.length < 9223372036854775808 := by
    rintro b num rfl
    exact h.bytes hf
  simp only [messageFields, mem_append, mem_cons, not_mem_nil, or_false, mem_map] at hf
  rcases hf with ((rfl | rfl | rfl | rfl | rfl | rfl) | ⟨e, -, rfl⟩) | rfl | rfl | rfl | rfl
  · refine known_num ?_
    cases m.type <;> decide
  · exact known_num h.to_
  · exact known_num h.from_
  · exact known_num h.term
  · exact known_num h.logTerm
  · exact known_num h.index
  · exact ⟨by decide, by decide, rfl, hbytes rfl⟩
  · exact known_num h.commit
  · exact ⟨by decide, by decide, rfl, hbytes rfl⟩
  · refine known_num ?_
    split_ifs <;> decide
  · exact known_num h.rejectHint

theorem foldlM_entries : ∀ {ents : List Entry} (m : Message),
    (∀ e ∈ ents, unmarshalEntry (marshalEntry e) = .ok e) →
    (ents.map fun e => (7, Value.bytes (marshalEntry e))).foldlM setMessage m
      = .ok { m with entries := m.entries ++ ents }
  | [], m, _ => by
    rw [append_nil]
    rfl
  | e :: ents, m, h => by
    rw [map_cons, foldlM_cons]
    simp only [setMessage, h e mem_cons_self, bind, Except.bind]
    have ih := foldlM_entries { m with entries := m.entries ++ [e] }
      fun e' he' => h e' (mem_cons_of_mem _ he')
    simp at ih
    exact ih

theorem messageType_messageCode (t : MessageType) : messageType (messageCode t) = t := by
  cases t <;> rfl

theorem unmarshalMessage_marshalMessage (h : TypedMessage m) :
    unmarshalMessage (marshalMessage m) = .ok m := by
  have hmem : (9, Value.bytes (marshalSnapshot m.snapshot)) ∈ messageFields m := by
    simp [messageFields]
  have hsnap := unmarshalSnapshot_marshalSnapshot h.snapshot (h.bytes hmem)
  have hents := fun (m' : Message) => foldlM_entries m' fun e he => (h.entry he).2
  unfold unmarshalMessage
  rw [marshalMessage_eq, fields_putFields h.known]
  simp only [bind, Except.bind, messageFields, foldlM_append, foldlM_cons, foldlM_nil, setMessage,
    pure, Except.pure, hents, hsnap, messageType_messageCode]
  rcases m with ⟨type, to_, from_, term, logTerm, index, ents, commit, snap, reject, hint⟩
  cases reject <;> rfl

end Messages

section Stream

variable {enc : MsgAppV2Encoder} {dec : MsgAppV2Decoder} {m : Message} {rest : Bytes}

theorem readFull_append (b rest : Bytes) : readFull b.length (b ++ rest) = .ok (b, rest) := by
  unfold readFull
  by_cases hzero : b.length = 0
  · rw [if_pos hzero, length_eq_zero_iff.1 hzero]
    rfl
  · have hne : b ++ rest ≠ [] := fun hnil => hzero (by
      rw [(append_eq_nil_iff.1 hnil).1]
      rfl)
    rw [if_neg hzero, if_neg hne, if_neg (by rw [length_append]; omega), take_left, drop_left]

theorem readUint64_putUint64 {n : ℕ} (hn : IsUInt64 n) (rest : Bytes) :
    readUint64 (putUint64 n ++ rest) = .ok (n, rest) := by
  have hread := readFull_append (putUint64 n) rest
  rw [show (putUint64 n).length = 8 from BigEndian.length_encode 8 n] at hread
  unfold readUint64
  rw [hread]
  simp only [bind, Except.bind]
  rw [putUint64, BigEndian.decode_encode (show n < 256 ^ 8 from hn)]

theorem readSlice_append {b : Bytes} (hb : b.length < 9223372036854775808) (rest : Bytes) :
    readSlice b.length (b ++ rest) = .ok (b, rest) := by
  rw [readSlice, if_neg (by omega), readFull_append]

theorem decodeEntries_putEntries : ∀ {ents : List Entry} (index : ℕ) (rest : Bytes),
    (∀ e ∈ ents, (marshalEntry e).length < 9223372036854775808
      ∧ unmarshalEntry (marshalEntry e) = .ok e) →
    MsgAppV2Decoder.decodeEntries ents.length index (putEntries ents ++ rest)
      = .ok (ents, ents.foldl (fun index _ => succ64 index) index, rest)
  | [], _, _, _ => rfl
  | e :: ents, index, rest, h => by
    obtain ⟨hlen, hread⟩ := h e mem_cons_self
    have hn : IsUInt64 (marshalEntry e).length := by
      unfold IsUInt64
      omega
    have ih := decodeEntries_putEntries (succ64 index) rest
      fun e' he' => h e' (mem_cons_of_mem _ he')
    have hput : putEntries (e :: ents) ++ rest
        = putUint64 (marshalEntry e).length
          ++ (marshalEntry e ++ (putEntries ents ++ rest)) := by
      simp [putEntries]
    rw [hput, length_cons, MsgAppV2Decoder.decodeEntries, readUint64_putUint64 hn]
    simp only [bind, Except.bind, readSlice_append hlen, hread, mustUnmarshal, ih]
    rfl

/-- What a peer writes to the stream: link heartbeats, and the `MsgApp` messages `sendAppend`
makes. -/
def Streamed (local_ remote : ℕ) (m : Message) : Prop :=
  m = linkHeartbeatMessage ∨ m.type = .app ∧ m.from_ = remote ∧ m.to_ = local_ ∧ m.snapshot = {}
    ∧ m.reject = false ∧ m.rejectHint = 0 ∧ TypedMessage m

/-- The decoder has the term and index of the encoder. -/
def InStep (enc : MsgAppV2Encoder) (dec : MsgAppV2Decoder) : Prop :=
  dec.term = enc.term ∧ dec.index = enc.index

theorem length_entries (h : TypedMessage m) : m.entries.length < 9223372036854775808 := by
  have hlen := h.length
  have hle : m.entries.length ≤ (messageFields m).length := by
    simp [messageFields]
    omega
  have hfields := length_le_putFields h.known
  rw [← marshalMessage_eq] at hfields
  omega

theorem decode_heartbeat (dec : MsgAppV2Decoder) (rest : Bytes) :
    dec.decode (msgTypeLinkHeartbeat :: rest) = .ok (linkHeartbeatMessage, dec, rest) := rfl

theorem decode_appEntries (h : TypedMessage m) (dec : MsgAppV2Decoder) (rest : Bytes) :
    dec.decode (msgTypeAppEntries :: (putUint64 m.entries.length
      ++ (putEntries m.entries ++ (putUint64 m.commit ++ rest))))
      = .ok ({ type := .app, from_ := dec.remote, to_ := dec.local_, term := dec.term,
               logTerm := dec.term, index := dec.index, entries := m.entries, commit := m.commit },
          { dec with index := m.entries.foldl (fun index _ => succ64 index) dec.index }, rest) := by
  have hlen := length_entries h
  have hn : IsUInt64 m.entries.length := by
    unfold IsUInt64
    omega
  have hents := decodeEntries_putEntries dec.index (putUint64 m.commit ++ rest)
    fun e he => h.entry he
  rw [MsgAppV2Decoder.decode, if_neg (by decide), if_pos rfl, readUint64_putUint64 hn]
  simp only [bind, Except.bind]
  rw [if_neg (not_le.2 hlen), hents]
  simp only []
  rw [readUint64_putUint64 h.commit]

theorem decode_app (h : TypedMessage m) (dec : MsgAppV2Decoder) (rest : Bytes) :
    dec.decode (msgTypeApp :: (putUint64 (marshalMessage m).length ++ (marshalMessage m ++ rest)))
      = .ok (m, { dec with term := m.term, index := lastIndex m }, rest) := by
  have hlen := h.length
  have hn : IsUInt64 (marshalMessage m).length := by
    unfold IsUInt64
    omega
  rw [MsgAppV2Decoder.decode, if_neg (by decide), if_neg (by decide), if_pos rfl,
    readUint64_putUint64 hn]
  simp only [bind, Except.bind]
  rw [readSlice_append hlen]
  simp only []
  rw [unmarshalMessage_marshalMessage h]
  rfl

theorem decode_encode (hstep : InStep enc dec) (hm : Streamed dec.local_ dec.remote m)
    (rest : Bytes) : dec.decode ((enc.encode m).1 ++ rest)
      = .ok (m, { dec with term := (enc.encode m).2.term, index := (enc.encode m).2.index }, rest)
    := by
  obtain ⟨hterm, hindex⟩ := hstep
  unfold MsgAppV2Encoder.encode
  rcases hm with rfl | ⟨htype, hfrom, hto, hsnap, hreject, hhint, htyped⟩
  · rw [if_pos (by decide), singleton_append, decode_heartbeat, ← hterm, ← hindex]
  have hheart : ¬ isLinkHeartbeatMessage m = true := by
    simp [isLinkHeartbeatMessage, htype]
  rw [if_neg hheart]
  by_cases hfull : enc.index = m.index ∧ enc.term = m.logTerm ∧ m.logTerm = m.term
  · rw [if_pos hfull]
    simp
    rw [decode_appEntries htyped]
    obtain ⟨h1, h2, h3⟩ := hfull
    rcases m with ⟨type, to_, from_, term, logTerm, index, ents, commit, snap, reject, hint⟩
    simp only [] at htype hfrom hto hsnap hreject hhint h1 h2 h3
    subst htype hfrom hto hsnap hreject hhint h3
    rw [hterm, hindex, h1, h2]
  · rw [if_neg hfull]
    simp
    rw [decode_app htyped]

theorem decodeMany_encodeAll : ∀ {ms : List Message} {enc : MsgAppV2Encoder}
    {dec : MsgAppV2Decoder}, InStep enc dec → (∀ m ∈ ms, Streamed dec.local_ dec.remote m) →
    ∀ rest : Bytes, dec.decodeMany ms.length ((enc.encodeAll ms).1 ++ rest)
      = .ok (ms, { dec with
          term := (enc.encodeAll ms).2.term, index := (enc.encodeAll ms).2.index }, rest)
  | [], enc, dec, hstep, _, rest => by
    obtain ⟨hterm, hindex⟩ := hstep
    change Except.ok ([], dec, rest) = _
    rw [show (enc.encodeAll []).2 = enc from rfl, ← hterm, ← hindex]
  | m :: ms, enc, dec, hstep, hms, rest => by
    have hone := decode_encode hstep (hms m mem_cons_self)
      (((enc.encode m).2.encodeAll ms).1 ++ rest)
    have hrest := @decodeMany_encodeAll ms (enc.encode m).2
      { dec with term := (enc.encode m).2.term, index := (enc.encode m).2.index } ⟨rfl, rfl⟩
      (fun m' hm' => hms m' (mem_cons_of_mem _ hm')) rest
    have hbytes : (enc.encodeAll (m :: ms)).1
        = (enc.encode m).1 ++ ((enc.encode m).2.encodeAll ms).1 := rfl
    rw [hbytes, append_assoc, length_cons, MsgAppV2Decoder.decodeMany, hone]
    simp only [bind, Except.bind, hrest]
    rfl

theorem msgAppV2_round_trip {local_ remote : ℕ} {ms : List Message}
    (hms : ∀ m ∈ ms, Streamed local_ remote m) (rest : Bytes) :
    MsgAppV2Decoder.decodeMany ms.length { local_, remote }
        ((MsgAppV2Encoder.encodeAll {} ms).1 ++ rest)
      = .ok (ms, ⟨local_, remote, (MsgAppV2Encoder.encodeAll {} ms).2.term,
        (MsgAppV2Encoder.encodeAll {} ms).2.index⟩, rest) :=
  @decodeMany_encodeAll ms {} { local_, remote } ⟨rfl, rfl⟩ hms rest

def oneEntry (index : ℕ) : Message :=
  { type := .app, to_ := 1, from_ := 2, term := 1, logTerm := 1, index, commit := 3,
    entries := [{ term := 1, index := index + 1, data := some [7] }] }

/-- The second message is written without its term and index. -/
theorem msgAppV2_round_trip_replicate :
    MsgAppV2Decoder.decodeMany 3 { local_ := 1, remote := 2 }
        ((MsgAppV2Encoder.encodeAll {} [oneEntry 3, linkHeartbeatMessage, oneEntry 4]).1 ++ [])
      = .ok ([oneEntry 3, linkHeartbeatMessage, oneEntry 4],
        { local_ := 1, remote := 2, term := 1, index := 5 }, [])
    ∧ (MsgAppV2Encoder.encode ⟨1, 4⟩ (oneEntry 4)).1.head? = some msgTypeAppEntries := by
  have hsmall : ∀ index, index ∈ [3, 4] → Streamed 1 2 (oneEntry index) := by
    intro index hindex
    simp at hindex
    have hnodes : TypedSnapshot {} := ⟨fun n hn => (by cases hn), by decide, by decide⟩
    rcases hindex with rfl | rfl
    · exact .inr ⟨rfl, rfl, rfl, rfl, rfl, rfl, by decide, by decide, by decide, by decide,
        by decide, by decide, by decide, hnodes, by decide, by decide +kernel⟩
    · exact .inr ⟨rfl, rfl, rfl, rfl, rfl, rfl, by decide, by decide, by decide, by decide,
        by decide, by decide, by decide, hnodes, by decide, by decide +kernel⟩
  have hms : ∀ m ∈ [oneEntry 3, linkHeartbeatMessage, oneEntry 4], Streamed 1 2 m := by
    intro m hm
    simp at hm
    rcases hm with rfl | rfl | rfl
    · exact hsmall 3 (by decide)
    · exact .inl rfl
    · exact hsmall 4 (by decide)
  have hend : (MsgAppV2Encoder.encodeAll {} [oneEntry 3, linkHeartbeatMessage, oneEntry 4]).2
      = ⟨1, 5⟩ := by decide +kernel
  have htrip := msgAppV2_round_trip hms []
  rw [hend] at htrip
  exact ⟨htrip, by decide +kernel⟩

end Stream

end EtcdCompat.Rafthttp
