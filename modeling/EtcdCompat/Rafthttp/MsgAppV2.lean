import EtcdCompat.Wal.Wal

/-!
# The `msgAppV2` stream

`raftpb.Message` on the wire, and the encoder and decoder of the stream between two peers. Both keep
the term and index that the next message of a replicating leader would have, and a message that does
have them is written without them.
-/

namespace EtcdCompat.Rafthttp

open Wal
open Wire (varint)

section Messages

def marshalConfState (cs : ConfState) : Bytes := cs.nodes.flatMap fun num => 0x08 :: varint num

def marshalMetadata (md : SnapshotMetadata) : Bytes :=
  0x0a :: varint (marshalConfState md.confState).length ++ marshalConfState md.confState
    ++ 0x10 :: varint md.index ++ 0x18 :: varint md.term

def marshalSnapshot (s : Snapshot) : Bytes :=
  (match s.data with
    | none => []
    | some data => 0x0a :: varint data.length ++ data)
    ++ 0x12 :: varint (marshalMetadata s.metadata).length ++ marshalMetadata s.metadata

def messageCode : MessageType → ℕ
  | .hup => 0
  | .beat => 1
  | .prop => 2
  | .app => 3
  | .appResp => 4
  | .vote => 5
  | .voteResp => 6
  | .snap => 7
  | .heartbeat => 8
  | .heartbeatResp => 9
  | .unreachable => 10
  | .snapStatus => 11
  | .checkQuorum => 12

def messageType : ℕ → MessageType
  | 1 => .beat
  | 2 => .prop
  | 3 => .app
  | 4 => .appResp
  | 5 => .vote
  | 6 => .voteResp
  | 7 => .snap
  | 8 => .heartbeat
  | 9 => .heartbeatResp
  | 10 => .unreachable
  | 11 => .snapStatus
  | 12 => .checkQuorum
  | _ => .hup

def marshalMessage (m : Message) : Bytes :=
  0x08 :: varint (messageCode m.type) ++ 0x10 :: varint m.to_ ++ 0x18 :: varint m.from_
    ++ 0x20 :: varint m.term ++ 0x28 :: varint m.logTerm ++ 0x30 :: varint m.index
    ++ m.entries.flatMap (fun e => 0x3a :: varint (marshalEntry e).length ++ marshalEntry e)
    ++ 0x40 :: varint m.commit
    ++ 0x4a :: varint (marshalSnapshot m.snapshot).length ++ marshalSnapshot m.snapshot
    ++ 0x50 :: varint (if m.reject then 1 else 0) ++ 0x58 :: varint m.rejectHint

def confStateKind : ℕ → Option Wire.Kind
  | 1 => some .varint
  | _ => none

def metadataKind : ℕ → Option Wire.Kind
  | 1 => some .bytes
  | 2 => some .varint
  | 3 => some .varint
  | _ => none

def snapshotKind : ℕ → Option Wire.Kind
  | 1 => some .bytes
  | 2 => some .bytes
  | _ => none

def messageKind (num : ℕ) : Option Wire.Kind :=
  if num = 7 ∨ num = 9 then some .bytes
  else if 1 ≤ num ∧ num ≤ 11 then some .varint
  else none

def setConfState (cs : ConfState) : ℕ × Wire.Value → ConfState
  | (1, .num n) => ⟨cs.nodes ++ [n]⟩
  | _ => cs

/-- `Unmarshal` of a `ConfState` that may have nodes already, as those below. -/
def unmarshalConfState (cs : ConfState) (data : Bytes) : Except Wire.Error ConfState := do
  .ok ((← Wire.fields confStateKind data).foldl setConfState cs)

def setMetadata (md : SnapshotMetadata) : ℕ × Wire.Value → Except Wire.Error SnapshotMetadata
  | (1, .bytes b) => do .ok { md with confState := ← unmarshalConfState md.confState b }
  | (2, .num n) => .ok { md with index := n }
  | (3, .num n) => .ok { md with term := n }
  | _ => .ok md

def unmarshalMetadata (md : SnapshotMetadata) (data : Bytes) :
    Except Wire.Error SnapshotMetadata := do
  (← Wire.fields metadataKind data).foldlM setMetadata md

def setSnapshot (s : Snapshot) : ℕ × Wire.Value → Except Wire.Error Snapshot
  | (1, .bytes b) => .ok { s with data := some b }
  | (2, .bytes b) => do .ok { s with metadata := ← unmarshalMetadata s.metadata b }
  | _ => .ok s

def unmarshalSnapshot (s : Snapshot) (data : Bytes) : Except Wire.Error Snapshot := do
  (← Wire.fields snapshotKind data).foldlM setSnapshot s

def setMessage (m : Message) : ℕ × Wire.Value → Except Wire.Error Message
  | (1, .num n) => .ok { m with type := messageType n }
  | (2, .num n) => .ok { m with to_ := n }
  | (3, .num n) => .ok { m with from_ := n }
  | (4, .num n) => .ok { m with term := n }
  | (5, .num n) => .ok { m with logTerm := n }
  | (6, .num n) => .ok { m with index := n }
  | (7, .bytes b) => do .ok { m with entries := m.entries ++ [← unmarshalEntry b] }
  | (8, .num n) => .ok { m with commit := n }
  | (9, .bytes b) => do .ok { m with snapshot := ← unmarshalSnapshot m.snapshot b }
  | (10, .num n) => .ok { m with reject := n ≠ 0 }
  | (11, .num n) => .ok { m with rejectHint := n }
  | _ => .ok m

def unmarshalMessage (data : Bytes) : Except Wire.Error Message := do
  (← Wire.fields messageKind data).foldlM setMessage { type := .hup }

end Messages

def msgTypeLinkHeartbeat : Fin 256 := 0

def msgTypeAppEntries : Fin 256 := 1

def msgTypeApp : Fin 256 := 2

def linkHeartbeatMessage : Message := { type := .heartbeat }

def isLinkHeartbeatMessage (m : Message) : Bool :=
  m.type = .heartbeat ∧ m.from_ = 0 ∧ m.to_ = 0

def succ64 (n : ℕ) : ℕ := (n + 1) % 18446744073709551616

def lastIndex (m : Message) : ℕ := (m.entries.getLast?.map (·.index)).getD m.index

section Encoder

structure MsgAppV2Encoder where
  term : ℕ := 0
  index : ℕ := 0
deriving DecidableEq, Repr

def putUint64 (n : ℕ) : Bytes := BigEndian.encode 8 n

namespace MsgAppV2Encoder

def putEntries (ents : List Entry) : Bytes :=
  ents.flatMap fun e => putUint64 (marshalEntry e).length ++ marshalEntry e

/-- `encode`: what it writes, and the encoder it leaves. -/
def encode (enc : MsgAppV2Encoder) (m : Message) : Bytes × MsgAppV2Encoder :=
  if isLinkHeartbeatMessage m then ([msgTypeLinkHeartbeat], enc)
  else if enc.index = m.index ∧ enc.term = m.logTerm ∧ m.logTerm = m.term then
    (msgTypeAppEntries :: putUint64 m.entries.length ++ putEntries m.entries ++ putUint64 m.commit,
      { enc with index := m.entries.foldl (fun index _ => succ64 index) enc.index })
  else
    (msgTypeApp :: putUint64 (marshalMessage m).length ++ marshalMessage m,
      ⟨m.term, lastIndex m⟩)

def encodeAll (enc : MsgAppV2Encoder) : List Message → Bytes × MsgAppV2Encoder
  | [] => ([], enc)
  | m :: ms =>
    let (bytes, enc) := enc.encode m
    let (bytes', enc) := encodeAll enc ms
    (bytes ++ bytes', enc)

end MsgAppV2Encoder

end Encoder

section Decoder

inductive StreamError where
  | eof
  | unexpectedEOF
  | parseType (typ : Fin 256)
  -- panics: the length of a slice out of range, and `pbutil.MustUnmarshal`
  | makeslice
  | mustUnmarshal (e : Wire.Error)
deriving DecidableEq, Repr

/-- `io.ReadFull` into a slice of length `n`. -/
def readFull (n : ℕ) (r : Bytes) : Except StreamError (Bytes × Bytes) :=
  if n = 0 then .ok ([], r)
  else if r = [] then .error .eof
  else if r.length < n then .error .unexpectedEOF
  else .ok (r.take n, r.drop n)

def readUint64 (r : Bytes) : Except StreamError (ℕ × Bytes) := do
  let (buf, r) ← readFull 8 r
  .ok (BigEndian.decode buf, r)

/-- A slice as long as a `uint64` that was read. -/
def readSlice (size : ℕ) (r : Bytes) : Except StreamError (Bytes × Bytes) :=
  if size ≥ 9223372036854775808 then .error .makeslice else readFull size r

def mustUnmarshal {α : Type} : Except Wire.Error α → Except StreamError α
  | .ok x => .ok x
  | .error e => .error (.mustUnmarshal e)

structure MsgAppV2Decoder where
  local_ : ℕ
  remote : ℕ
  term : ℕ := 0
  index : ℕ := 0
deriving DecidableEq, Repr

namespace MsgAppV2Decoder

/-- The loop over the entries: they, the index they leave and what is left of the stream. -/
def decodeEntries : ℕ → ℕ → Bytes → Except StreamError (List Entry × ℕ × Bytes)
  | 0, index, r => .ok ([], index, r)
  | l + 1, index, r => do
    let (size, r) ← readUint64 r
    let (buf, r) ← readSlice size r
    let e ← mustUnmarshal (unmarshalEntry buf)
    let (ents, index, r) ← decodeEntries l (succ64 index) r
    .ok (e :: ents, index, r)

/-- `decode`: the message, the decoder it leaves and what is left of the stream. -/
def decode (dec : MsgAppV2Decoder) (r : Bytes) :
    Except StreamError (Message × MsgAppV2Decoder × Bytes) :=
  match r with
  | [] => .error .eof
  | typ :: r =>
    if typ = msgTypeLinkHeartbeat then .ok (linkHeartbeatMessage, dec, r)
    else if typ = msgTypeAppEntries then do
      let (l, r) ← readUint64 r
      if l ≥ 9223372036854775808 then .error .makeslice
      else do
        let (ents, index, r) ← decodeEntries l dec.index r
        let (commit, r) ← readUint64 r
        .ok ({ type := .app, from_ := dec.remote, to_ := dec.local_, term := dec.term,
               logTerm := dec.term, index := dec.index, entries := ents, commit },
          { dec with index }, r)
    else if typ = msgTypeApp then do
      let (size, r) ← readUint64 r
      let (buf, r) ← readSlice size r
      let m ← mustUnmarshal (unmarshalMessage buf)
      .ok (m, { dec with term := m.term, index := lastIndex m }, r)
    else .error (.parseType typ)

/-- `n` messages of the stream. -/
def decodeMany : ℕ → MsgAppV2Decoder → Bytes →
    Except StreamError (List Message × MsgAppV2Decoder × Bytes)
  | 0, dec, r => .ok ([], dec, r)
  | n + 1, dec, r => do
    let (m, dec, r) ← dec.decode r
    let (ms, dec, r) ← decodeMany n dec r
    .ok (m :: ms, dec, r)

end MsgAppV2Decoder

end Decoder

end EtcdCompat.Rafthttp
