import EtcdCompat.Lib.Overwrite
import EtcdCompat.Wal.Wal

/-!
# The records of a write-ahead log

`Journal` has what is in the records of the segments, and `render` writes them out. Reading a
journal is a fold over the records of the segments from the one that `searchIndex` finds on
(`opened`).
-/

namespace EtcdCompat.Wal

inductive Saved where
  | crc
  | metadata (data : Option Bytes)
  | entry (e : Entry)
  | state (st : HardState)
  | snapshot (s : Snap)
deriving DecidableEq, Repr

namespace Saved

def item : Saved → RecordType × Option Bytes
  | .crc => (.crc, none)
  | .metadata data => (.metadata, data)
  | .entry e => (.entry, some (marshalEntry e))
  | .state st => (.state, some (marshalState st))
  | .snapshot s => (.snapshot, some (marshalSnap s))

def entry? : Saved → Option Entry
  | .entry e => some e
  | _ => none

def state? : Saved → Option HardState
  | .state st => some st
  | _ => none

def snapshot? : Saved → Option Snap
  | .snapshot s => some s
  | _ => none

end Saved

def entries (xs : List Saved) : List Entry := xs.filterMap Saved.entry?

def lastState (xs : List Saved) : HardState := ((xs.filterMap Saved.state?).getLast?).getD {}

/-- The entries above an index that the records leave. -/
def logAbove (index : ℕ) (xs : List Saved) : List Entry :=
  Overwrite.above Entry.index index (entries xs)

structure Segment where
  seq : ℕ
  index : ℕ
  saved : List Saved
deriving DecidableEq, Repr

def records (segs : List Segment) : List Saved := segs.flatMap Segment.saved

/-- The files of segments, by encoders of which the first is given a checksum, and the checksum that
the last one leaves. -/
def renderFiles (crc : UInt32) : List Segment → List WalFile × UInt32
  | [] => ([], crc)
  | seg :: segs =>
    let (bytes, crc) := encodeAll crc (seg.saved.map Saved.item)
    let (files, crc) := renderFiles crc segs
    (⟨seg.seq, seg.index, bytes⟩ :: files, crc)

structure Journal where
  closed : List Segment := []
  cur : Segment
  metadata : Option Bytes
  state : HardState := {}
  enti : ℕ := 0

namespace Journal

def segments (j : Journal) : List Segment := j.closed ++ [j.cur]

def all (j : Journal) : List Saved := records j.segments

def render (j : Journal) : WAL :=
  { files := (renderFiles 0 j.segments).1, crc := (renderFiles 0 j.segments).2
    metadata := j.metadata, state := j.state, seq := j.cur.seq, enti := j.enti }

section Write

def add (j : Journal) (x : Saved) : Journal :=
  { j with cur := { j.cur with saved := j.cur.saved ++ [x] } }

def saveEntry (j : Journal) (e : Entry) : Journal := { j.add (.entry e) with enti := e.index }

def saveState (j : Journal) (st : HardState) : Journal :=
  if st = {} then j else { j with state := st }.add (.state st)

def save (j : Journal) (st : HardState) (ents : List Entry) : Journal :=
  if st = {} ∧ ents = [] then j else (ents.foldl saveEntry j).saveState st

def saveSnapshot (j : Journal) (e : Snap) : Journal :=
  let j := j.add (.snapshot e)
  { j with enti := if j.enti < e.index then e.index else j.enti }

def cut (j : Journal) : Journal :=
  let cur : Segment := ⟨j.cur.seq + 1, j.enti + 1, []⟩
  let j := { j with closed := j.closed ++ [j.cur], cur }
  let j := (j.add .crc).add (.metadata j.metadata)
  j.saveState j.state

def create (metadata : Option Bytes) : Journal :=
  ((add { cur := ⟨0, 0, []⟩, metadata } .crc).add (.metadata metadata)).saveSnapshot {}

def step (j : Journal) : WAL.Op → Journal
  | .save st ents => j.save st ents
  | .saveSnapshot e => j.saveSnapshot e
  | .cut => j.cut

end Write

section Read

def opened (j : Journal) (index : ℕ) : List Segment :=
  (searchIndex Segment.index j.segments index).getD []

/-- The records wholly within some bytes. -/
def within (crc : UInt32) : ℕ → List Saved → List Saved
  | _, [] => []
  | n, x :: xs =>
    let (bytes, crc) := encode crc x.item.1 x.item.2
    if bytes.length ≤ n then x :: within crc (n - bytes.length) xs else []

/-- What is left if only some bytes of the current segment are. -/
def torn (j : Journal) (n : ℕ) : Journal :=
  { j with cur := { j.cur with saved := within (renderFiles 0 j.closed).2 n j.cur.saved } }

/-- The journal of a process that has read it. -/
def reopened (j : Journal) (index : ℕ) : Journal :=
  { j with
    state := {}
    enti := (((entries (records (j.opened index))).getLast?).map Entry.index).getD 0 }

end Read

end Journal

end EtcdCompat.Wal
