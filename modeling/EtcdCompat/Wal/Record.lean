import EtcdCompat.Basic
import EtcdCompat.Lib.Endian
import EtcdCompat.Lib.Wire

/-!
# Records of the write-ahead log

`walpb.Record` and the `encoder` and `decoder` of its stream: a record is written after its length,
with the checksum of all data so far, which a record of type `crcType` carries to the next segment.
A read that stops within a record is `unexpectedEOF`.
-/

namespace EtcdCompat.Wal

namespace Crc

/-- One bit of the table of `crc32.Castagnoli`. -/
def bitStep (c : UInt32) : UInt32 :=
  if c &&& 1 = 1 then (c >>> 1) ^^^ 0x82f63b78 else c >>> 1

def table (i : UInt32) : UInt32 := bitStep (bitStep (bitStep (bitStep
  (bitStep (bitStep (bitStep (bitStep i)))))))

def byteStep (c : UInt32) (b : Fin 256) : UInt32 :=
  table ((c ^^^ UInt32.ofNat b.val) &&& 0xff) ^^^ (c >>> 8)

/-- `crc32.Update`. -/
def update (c : UInt32) (p : Bytes) : UInt32 := ~~~ p.foldl byteStep (~~~ c)

end Crc

inductive RecordType where
  | metadata
  | entry
  | state
  | crc
  | snapshot
deriving DecidableEq, Repr

def RecordType.code : RecordType → ℕ
  | .metadata => 1
  | .entry => 2
  | .state => 3
  | .crc => 4
  | .snapshot => 5

/-- `walpb.Record`. -/
structure Record where
  type : ℤ := 0
  crc : UInt32 := 0
  /-- `none` is the nil slice. -/
  data : Option Bytes := none
  /-- `XXX_unrecognized`. -/
  unrecognized : Bytes := []
deriving DecidableEq, Repr

namespace Record

def marshal (rec : Record) : Bytes :=
  0x08 :: Wire.varint (rec.type % 18446744073709551616).toNat
    ++ 0x10 :: Wire.varint rec.crc.toNat
    ++ (match rec.data with
      | none => []
      | some data => 0x1a :: Wire.varint data.length ++ data)
    ++ rec.unrecognized

def sov (x : ℕ) : ℕ := (Wire.varint x).length

def size (rec : Record) : ℕ :=
  1 + sov (rec.type % 18446744073709551616).toNat + (1 + sov rec.crc.toNat)
    + (match rec.data with
      | none => 0
      | some data => 1 + data.length + sov data.length)
    + rec.unrecognized.length

def kind : ℕ → Option Wire.Kind
  | 1 => some .varint
  | 2 => some .varint
  | 3 => some .bytes
  | _ => none

/-- The `int64` with the bits of a `uint64`. -/
def toInt64 (n : ℕ) : ℤ := if n ≥ 9223372036854775808 then n - 18446744073709551616 else n

def set (rec : Record) : ℕ × Wire.Value → Record
  | (1, .num n) => { rec with type := toInt64 n }
  | (2, .num n) => { rec with crc := UInt32.ofNat n }
  | (3, .bytes b) => { rec with data := some b }
  | (_, .raw b) => { rec with unrecognized := rec.unrecognized ++ b }
  | _ => rec

def unmarshal (data : Bytes) : Except Wire.Error Record := do
  let fs ← Wire.fields kind data
  .ok (fs.foldl set {})

end Record

inductive WalError where
  | eof
  | unexpectedEOF
  | maxEntrySizeLimitExceeded
  | proto (e : Wire.Error)
  -- `walpb.ErrCRCMismatch`, of a record
  | recordCrcMismatch
  -- `wal.ErrCRCMismatch`, between segments
  | crcMismatch
  | metadataConflict
  | snapshotMismatch
  | snapshotNotFound
  | fileNotFound
  | unexpectedBlockType (type : ℤ)
deriving DecidableEq, Repr

section Encoder

/-- `encoder.encode` of a record of some type and data: the bytes it writes after the checksum so
far, and the checksum it leaves. -/
def encode (crc : UInt32) (type : RecordType) (data : Option Bytes) : Bytes × UInt32 :=
  let crc := Crc.update crc (data.getD [])
  let data := Record.marshal { type := type.code, crc, data }
  (LittleEndian.encode 8 data.length ++ data, crc)

/-- The bytes and the checksum that one encoder leaves. -/
def encodeAll (crc : UInt32) : List (RecordType × Option Bytes) → Bytes × UInt32
  | [] => ([], crc)
  | (type, data) :: recs =>
    let (bytes, crc) := encode crc type data
    let (bytes', crc) := encodeAll crc recs
    (bytes ++ bytes', crc)

/-- Segments, each by a new encoder that is given the checksum the last one left. -/
def encodeSegments (crc : UInt32) : List (List (RecordType × Option Bytes)) → Bytes × UInt32
  | [] => ([], crc)
  | recs :: segs =>
    let (bytes, crc) := encodeAll crc recs
    let (bytes', crc) := encodeSegments crc segs
    (bytes ++ bytes', crc)

end Encoder

section Decoder

def maxWALEntrySizeLimit : ℤ := 10 * 1024 * 1024

structure Decoder where
  rest : Bytes
  crc : UInt32 := 0

def readInt64 (data : Bytes) : Except WalError (ℤ × Bytes) :=
  if data = [] then .error .eof
  else if data.length < 8 then .error .unexpectedEOF
  else .ok (Record.toInt64 (LittleEndian.decode (data.take 8)), data.drop 8)

namespace Decoder

def decode (d : Decoder) : Except WalError (Record × Decoder) := do
  let (l, rest) ← readInt64 d.rest
  if l < 0 ∨ l ≥ maxWALEntrySizeLimit then .error .maxEntrySizeLimitExceeded
  else if rest.length < l.toNat then .error .unexpectedEOF
  else match Record.unmarshal (rest.take l.toNat) with
    | .error .unexpectedEOF => .error .unexpectedEOF
    | .error e => .error (.proto e)
    | .ok rec =>
      if rec.type = RecordType.crc.code then .ok (rec, { d with rest := rest.drop l.toNat })
      else
        let crc := Crc.update d.crc (rec.data.getD [])
        if rec.crc = crc then .ok (rec, ⟨rest.drop l.toNat, crc⟩) else .error .recordCrcMismatch

/-- A record of the loops of `ReadAll` and `Repair`, with what both do at one of type `crcType`. -/
def next (d : Decoder) : Except WalError (Record × Decoder) := do
  let (rec, d) ← d.decode
  if rec.type = RecordType.crc.code then
    -- a new decoder has nothing to check against
    if d.crc ≠ 0 ∧ rec.crc ≠ d.crc then .error .crcMismatch
    else .ok (rec, { d with crc := rec.crc })
  else .ok (rec, d)

/-- Reads records until there is an error. -/
def drain : ℕ → Decoder → List Record × WalError
  | 0, _ => ([], .unexpectedEOF)
  | fuel + 1, d => match d.next with
    | .error e => ([], e)
    | .ok (rec, d) =>
      let (recs, e) := drain fuel d
      (rec :: recs, e)

/-- Every record takes eight bytes at least. -/
def decodeAll (d : Decoder) : List Record × WalError := d.drain (d.rest.length + 1)

end Decoder

end Decoder

end EtcdCompat.Wal
