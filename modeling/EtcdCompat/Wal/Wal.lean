import EtcdCompat.Raft.Types
import EtcdCompat.Wal.Record

/-!
# The write-ahead log

`wal.WAL` as the files of its directory, what `Save`, `SaveSnapshot` and `cut` write to them, and
how they are read: `Open` at a snapshot with `ReadAll`, `Repair` of the last file, and `readWAL`,
which does all of it. A file is given by the sequence number and the index in its name.
-/

namespace EtcdCompat.Wal

/-- `walpb.Snapshot`. -/
structure Snap where
  index : ℕ := 0
  term : ℕ := 0
deriving DecidableEq, Repr

section Messages

open Wire (varint)

def marshalSnap (s : Snap) : Bytes := 0x08 :: varint s.index ++ 0x10 :: varint s.term

def marshalState (st : HardState) : Bytes :=
  0x08 :: varint st.term ++ 0x10 :: varint st.vote ++ 0x18 :: varint st.commit

def entryCode : EntryType → ℕ
  | .normal => 0
  | .confChange => 1

def marshalEntry (e : Entry) : Bytes :=
  0x08 :: varint (entryCode e.type) ++ 0x10 :: varint e.term ++ 0x18 :: varint e.index
    ++ match e.data with
      | none => []
      | some data => 0x22 :: varint data.length ++ data

def snapKind : ℕ → Option Wire.Kind
  | 1 => some .varint
  | 2 => some .varint
  | _ => none

def stateKind : ℕ → Option Wire.Kind
  | 1 => some .varint
  | 2 => some .varint
  | 3 => some .varint
  | _ => none

def entryKind : ℕ → Option Wire.Kind
  | 1 => some .varint
  | 2 => some .varint
  | 3 => some .varint
  | 4 => some .bytes
  | _ => none

def Snap.set (s : Snap) : ℕ × Wire.Value → Snap
  | (1, .num n) => { s with index := n }
  | (2, .num n) => { s with term := n }
  | _ => s

def setState (st : HardState) : ℕ × Wire.Value → HardState
  | (1, .num n) => { st with term := n }
  | (2, .num n) => { st with vote := n }
  | (3, .num n) => { st with commit := n }
  | _ => st

/-- There are no entries of other types. -/
def setEntry (e : Entry) : ℕ × Wire.Value → Entry
  | (1, .num n) => { e with type := if n = 1 then .confChange else .normal }
  | (2, .num n) => { e with term := n }
  | (3, .num n) => { e with index := n }
  | (4, .bytes b) => { e with data := some b }
  | _ => e

def unmarshalSnap (data : Bytes) : Except Wire.Error Snap := do
  .ok ((← Wire.fields snapKind data).foldl Snap.set {})

def unmarshalState (data : Bytes) : Except Wire.Error HardState := do
  .ok ((← Wire.fields stateKind data).foldl setState {})

def unmarshalEntry (data : Bytes) : Except Wire.Error Entry := do
  .ok ((← Wire.fields entryKind data).foldl setEntry {})

end Messages

structure WalFile where
  seq : ℕ
  index : ℕ
  bytes : Bytes
deriving DecidableEq, Repr

/-- A `WAL` in append mode. It writes to the last file. -/
structure WAL where
  files : List WalFile
  metadata : Option Bytes
  state : HardState := {}
  seq : ℕ := 0
  enti : ℕ := 0
  /-- The checksum of its encoder. -/
  crc : UInt32 := 0

def appendLast : List WalFile → Bytes → List WalFile
  | [], _ => []
  | [f], bytes => [{ f with bytes := f.bytes ++ bytes }]
  | f :: fs, bytes => f :: appendLast fs bytes

namespace WAL

section Write

/-- `w.encoder.encode`. -/
def encode (w : WAL) (type : RecordType) (data : Option Bytes) : WAL :=
  let (bytes, crc) := Wal.encode w.crc type data
  { w with files := appendLast w.files bytes, crc }

/-- The checksum given to `saveCrc` is that of the encoder. -/
def saveCrc (w : WAL) : WAL := w.encode .crc none

def saveEntry (w : WAL) (e : Entry) : WAL :=
  { w.encode .entry (some (marshalEntry e)) with enti := e.index }

def saveState (w : WAL) (st : HardState) : WAL :=
  if st = {} then w
  else { w with state := st }.encode .state (some (marshalState st))

/-- `Save` without the cut of a segment that is full. -/
def save (w : WAL) (st : HardState) (ents : List Entry) : WAL :=
  if st = {} ∧ ents = [] then w
  else (ents.foldl saveEntry w).saveState st

def saveSnapshot (w : WAL) (e : Snap) : WAL :=
  let w := w.encode .snapshot (some (marshalSnap e))
  { w with enti := if w.enti < e.index then e.index else w.enti }

def cut (w : WAL) : WAL :=
  let file : WalFile := ⟨w.seq + 1, w.enti + 1, []⟩
  let w := { w with files := w.files ++ [file], seq := w.seq + 1 }
  let w := w.saveCrc.encode .metadata w.metadata
  w.saveState w.state

def create (metadata : Option Bytes) : WAL :=
  ((saveCrc { files := [⟨0, 0, []⟩], metadata }).encode .metadata metadata).saveSnapshot {}

inductive Op where
  | save (st : HardState) (ents : List Entry)
  | saveSnapshot (e : Snap)
  | cut

def step (w : WAL) : Op → WAL
  | .save st ents => w.save st ents
  | .saveSnapshot e => w.saveSnapshot e
  | .cut => w.cut

end Write

end WAL

section Read

inductive Stop where
  | error (e : WalError)
  -- a slice out of its bounds, or `pbutil.MustUnmarshal`
  | panic
  -- `plog.Fatalf`
  | fatal
deriving DecidableEq, Repr

/-- The capacity `append` gives a slice that has to grow, by what it had and the length it needs. -/
structure Growth where
  grow : ℕ → ℕ → ℕ
  le : ∀ cap n, n ≤ grow cap n

/-- A slice of entries at the start of its array. -/
structure EntrySlice where
  arr : List Entry := []
  len : ℕ := 0
deriving DecidableEq, Repr

namespace EntrySlice

def toList (s : EntrySlice) : List Entry := s.arr.take s.len

/-- `append(s[:k], e)`, with `none` where `k` is above the capacity. -/
def appendAt (g : Growth) (s : EntrySlice) (k : ℕ) (e : Entry) : Option EntrySlice :=
  if k > s.arr.length then none
  else if k < s.arr.length then some ⟨s.arr.set k e, k + 1⟩
  else some ⟨s.arr ++ e :: List.replicate (g.grow s.arr.length (k + 1) - (k + 1)) {}, k + 1⟩

end EntrySlice

/-- What `ReadAll` has read. -/
structure ReadState where
  metadata : Option Bytes := none
  state : HardState := {}
  ents : EntrySlice := {}
  enti : ℕ := 0
  found : Bool := false

/-- One record of `ReadAll`, whose checksum the decoder has checked. -/
def readRecord (g : Growth) (start : Snap) (acc : ReadState) (rec : Record) :
    Except Stop ReadState :=
  let data := rec.data.getD []
  if rec.type = RecordType.entry.code then
    match unmarshalEntry data with
    | .error _ => .error .panic
    | .ok e =>
      if e.index > start.index then
        match acc.ents.appendAt g (e.index - start.index - 1) e with
        | none => .error .panic
        | some ents => .ok { acc with ents, enti := e.index }
      else .ok { acc with enti := e.index }
  else if rec.type = RecordType.state.code then
    match unmarshalState data with
    | .error _ => .error .panic
    | .ok state => .ok { acc with state }
  else if rec.type = RecordType.metadata.code then
    if acc.metadata ≠ none ∧ acc.metadata ≠ rec.data then .error (.error .metadataConflict)
    else .ok { acc with metadata := rec.data }
  else if rec.type = RecordType.crc.code then .ok acc
  else if rec.type = RecordType.snapshot.code then
    match unmarshalSnap data with
    | .error _ => .error .panic
    | .ok snap =>
      if snap.index = start.index then
        if snap.term ≠ start.term then .error (.error .snapshotMismatch)
        else .ok { acc with found := true }
      else .ok acc
  else .error (.error (.unexpectedBlockType rec.type))

/-- The loop of `ReadAll` in write mode: what was read and the checksum at the end. -/
def readLoop (g : Growth) (start : Snap) : ℕ → Decoder → ReadState →
    Except Stop (ReadState × UInt32)
  | 0, _, _ => .error (.error .unexpectedEOF)
  | fuel + 1, d, acc => match d.next with
    | .error .eof => .ok (acc, d.crc)
    | .error e => .error (.error e)
    | .ok (rec, d) => do
      let acc ← readRecord g start acc rec
      readLoop g start fuel d acc

/-- The names from the last one on whose index is not above the given one. -/
def searchIndex {α : Type*} (curIndex : α → ℕ) : List α → ℕ → Option (List α)
  | [], _ => none
  | name :: names, index => match searchIndex curIndex names index with
    | some found => some found
    | none => if curIndex name ≤ index then some (name :: names) else none

def isValidSeq : ℕ → List WalFile → Bool
  | _, [] => true
  | lastSeq, f :: fs =>
    if lastSeq ≠ 0 ∧ lastSeq ≠ f.seq - 1 then false else isValidSeq f.seq fs

/-- The locks that `ReleaseLockTo` keeps; if no index is as large as the given one, `findIdx` is the
number of locks. -/
def releaseLockTo {α : Type*} (lockIndex : α → ℕ) (locks : List α) (index : ℕ) : List α :=
  let smaller := locks.findIdx (fun l => index ≤ lockIndex l) - 1
  if smaller = 0 then locks else locks.drop smaller

/-- The segments that `openAtIndex` opens for reading. -/
def openAtIndex (files : List WalFile) (snap : Snap) : Except WalError (List WalFile) :=
  match searchIndex WalFile.index files snap.index with
  | none => .error .fileNotFound
  | some opened => if !isValidSeq 0 opened then .error .fileNotFound else .ok opened

/-- `Open` at a snapshot and `ReadAll`: the log ready for appending, the state and the entries. -/
def openReadAll (g : Growth) (files : List WalFile) (snap : Snap) :
    Except Stop (WAL × HardState × List Entry) :=
  match searchIndex WalFile.index files snap.index with
  | none => .error (.error .fileNotFound)
  | some opened =>
    if !isValidSeq 0 opened then .error (.error .fileNotFound)
    else do
      let bytes := opened.flatMap (·.bytes)
      let (acc, crc) ← readLoop g snap (bytes.length + 1) { rest := bytes } {}
      if !acc.found then .error (.error .snapshotNotFound)
      -- the state of the log itself is not set
      else .ok ({ files, metadata := acc.metadata, enti := acc.enti, crc
                  seq := (files.getLast?.map (·.seq)).getD 0 }, acc.state, acc.ents.toList)

/-- The loop of `Repair` over the last file: whether it succeeds, with the length to truncate the
file to if it has to. -/
def repairLoop : ℕ → Decoder → ℕ → Option (Option ℕ)
  | 0, _, _ => none
  | fuel + 1, d, n => match d.next with
    | .ok (rec, d) => repairLoop fuel d (n + (8 + rec.size))
    | .error .eof => some none
    | .error .unexpectedEOF => some (some n)
    | .error _ => none

def truncateLast : List WalFile → ℕ → List WalFile
  | [], _ => []
  | [f], n => [{ f with bytes := f.bytes.take n }]
  | f :: fs, n => f :: truncateLast fs n

/-- `Repair`, with the files it leaves. -/
def repair (files : List WalFile) : Option (List WalFile) := do
  let last ← files.getLast?
  let cutAt ← repairLoop (last.bytes.length + 1) { rest := last.bytes } 0
  match cutAt with
  | none => some files
  | some n => some (truncateLast files n)

/-- `readWAL`, which repairs at most once. -/
def readWAL (g : Growth) (files : List WalFile) (snap : Snap) :
    Except Stop (WAL × HardState × List Entry) :=
  match openReadAll g files snap with
  | .ok r => .ok r
  | .error (.error .unexpectedEOF) => match repair files with
    | none => .error .fatal
    | some files => match openReadAll g files snap with
      | .ok r => .ok r
      | .error .panic => .error .panic
      | .error _ => .error .fatal
  | .error .panic => .error .panic
  | .error _ => .error .fatal

end Read

end EtcdCompat.Wal
