import EtcdCompat.Lib.OrdMap
import EtcdCompat.Rafthttp.MsgAppV2

/-!
# Snapshot files

The `Snapshotter` writes a raft snapshot with its checksum to a file named after the term and the
index, and `Load` reads the newest file that is not broken. `crc32` is the checksum of
`crc32.Update(0, crcTable, b)`. Files can be listed, written and renamed.
-/

namespace EtcdCompat.Snap

open Rafthttp

inductive SnapError where
  | noSnapshot
  | emptySnapshot
  | crcMismatch
  | proto (e : Wire.Error)
deriving DecidableEq, Repr

/-- `snappb.Snapshot`. -/
structure Saved where
  crc : UInt32 := 0
  data : Option Bytes := none
deriving DecidableEq, Repr

namespace Saved

def marshal (s : Saved) : Bytes :=
  0x08 :: Wire.varint s.crc.toNat
    ++ (match s.data with
      | none => []
      | some data => 0x12 :: Wire.varint data.length ++ data)

def kind : ℕ → Option Wire.Kind
  | 1 => some .varint
  | 2 => some .bytes
  | _ => none

def set (s : Saved) : ℕ × Wire.Value → Saved
  | (1, .num n) => { s with crc := UInt32.ofNat n }
  | (2, .bytes b) => { s with data := some b }
  | _ => s

def unmarshal (data : Bytes) : Except Wire.Error Saved := do
  .ok ((← Wire.fields kind data).foldl set {})

end Saved

def hexDigit (d : ℕ) : Fin 256 := Fin.ofNat 256 (if d < 10 then 48 + d else 87 + d)

/-- The last `w` digits of `%x`. -/
def hex : ℕ → ℕ → Bytes
  | 0, _ => []
  | w + 1, n => hexDigit (n / 16 ^ w % 16) :: hex w n

/-- The text `.snap`. -/
def snapSuffix : Bytes := [46, 115, 110, 97, 112]

/-- The text `.broken`. -/
def brokenSuffix : Bytes := [46, 98, 114, 111, 107, 101, 110]

def fname (s : Snapshot) : Bytes :=
  hex 16 s.metadata.term ++ 45 :: (hex 16 s.metadata.index ++ snapSuffix)

abbrev Dir := OrdMap Bytes Bytes

def renameBroken (dir : Dir) (name : Bytes) : Dir :=
  match dir.find name with
  | none => dir
  | some b => (dir.erase name).insert (name ++ brokenSuffix) b

/-- The files of `snapNames`, from the last name to the first. -/
def snapFiles (dir : Dir) : List (Bytes × Bytes) :=
  (dir.entries.filter fun f => snapSuffix.isSuffixOf f.1).reverse

variable (crc32 : Bytes → UInt32)

def save (dir : Dir) (s : Snapshot) : Dir :=
  let b := marshalSnapshot s
  dir.insert (fname s) (Saved.marshal { crc := crc32 b, data := some b })

def saveSnap (dir : Dir) (s : Snapshot) : Dir := if isEmptySnap s then dir else save crc32 dir s

/-- `Read` of a file with the contents `b`. -/
def read (b : Bytes) : Except SnapError Snapshot :=
  if b = [] then .error .emptySnapshot
  else match Saved.unmarshal b with
    | .error e => .error (.proto e)
    | .ok saved =>
      let data := saved.data.getD []
      if data = [] ∨ saved.crc = 0 then .error .emptySnapshot
      else if crc32 data ≠ saved.crc then .error .crcMismatch
      else (unmarshalSnapshot {} data).mapError .proto

/-- The loop of `Load`; the rename of a broken file leaves the next ones alone. -/
def loadFiles (dir : Dir) : List (Bytes × Bytes) → Dir × Except SnapError Snapshot
  | [] => (dir, .error .noSnapshot)
  | (name, b) :: files =>
    match read crc32 b with
    | .ok s => (dir, .ok s)
    | .error _ => loadFiles (renameBroken dir name) files

def load (dir : Dir) : Dir × Except SnapError Snapshot := loadFiles crc32 dir (snapFiles dir)

end EtcdCompat.Snap
