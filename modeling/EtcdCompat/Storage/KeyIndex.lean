import EtcdCompat.Storage.Revision

/-!
# The index of one key

A `KeyIndex` holds the revisions of a key by generation: each put adds a revision to the last
generation, a tombstone ends it and opens an empty one. `get` reads the newest revision at or
below a main revision, `compact` drops what no read above the compacted one needs.
-/

namespace EtcdCompat

/-- What stops the store: `log.Panicf`, `log.Fatalf`, `panic`, or a failed runtime check. -/
inductive Fatal where
  | putSmallerRevision (rev modified : Revision)
  | restoreNonEmpty
  | tombstoneEmpty
  | getEmpty
  | compactEmpty
  | deleteFailure
  | indexOutOfRange
  | cannotFindRev (main sub : ℤ)
  | cannotTombstone (key : Bytes)
  -- no lessor to attach or detach a lease with, or an error from it
  | lease
  | unexpectedChanges
  | nilSorter
  | unexpectedTxnError
deriving DecidableEq, Repr

/-- The revisions of a key from a put that creates it to the tombstone that ends it. -/
structure Generation where
  ver : ℤ := 0
  created : Revision := ⟨0, 0⟩
  revs : List Revision := []
deriving DecidableEq, Repr, Inhabited

namespace Generation

def isEmpty (g : Generation) : Bool := g.revs.isEmpty

def walkFrom (revs : List Revision) (f : Revision → Bool) : ℕ → Option ℕ
  | 0 => none
  | n + 1 => match revs[n]? with
    | none => none
    | some r => if f r then walkFrom revs f n else some n

/-- `generation.walk`, `none` for its `-1`: the position of the newest revision `f` fails. -/
def walk (g : Generation) (f : Revision → Bool) : Option ℕ := walkFrom g.revs f g.revs.length

end Generation

structure KeyIndex where
  key : Bytes
  modified : Revision := ⟨0, 0⟩
  generations : List Generation := []
deriving DecidableEq, Repr, Inhabited

namespace KeyIndex

def isEmpty (ki : KeyIndex) : Bool :=
  match ki.generations with
  | [g] => g.isEmpty
  | _ => false

/-- `keyIndex.put` past its check. -/
def putTo (ki : KeyIndex) (rev : Revision) : KeyIndex :=
  let g := ki.generations.getLastD {}
  let created := if g.revs.length = 0 then rev else g.created
  { ki with
    modified := rev
    generations := ki.generations.dropLast ++ [⟨g.ver + 1, created, g.revs ++ [rev]⟩] }

def put (ki : KeyIndex) (rev : Revision) : Except Fatal KeyIndex :=
  if rev.GreaterThan ki.modified then .ok (ki.putTo rev)
  else .error (.putSmallerRevision rev ki.modified)

def restore (ki : KeyIndex) (created modified : Revision) (ver : ℤ) : Except Fatal KeyIndex :=
  if ki.generations.length ≠ 0 then .error .restoreNonEmpty
  else .ok { ki with modified := modified, generations := [⟨ver, created, [modified]⟩] }

/-- `keyIndex.tombstone`, `none` for `ErrRevisionNotFound`. -/
def tombstone (ki : KeyIndex) (rev : Revision) : Except Fatal (Option KeyIndex) :=
  if ki.isEmpty then .error .tombstoneEmpty
  else match ki.generations.getLast? with
    | none => .error .indexOutOfRange
    | some g =>
      if g.isEmpty then .ok none
      else do
        let ki ← ki.put rev
        .ok (some { ki with generations := ki.generations ++ [{}] })

/-- `keyIndex.findGeneration`, on the generations from the newest to the oldest; `isLast` says
the first of them is the index's last. -/
def findGenerationIn (rev : ℤ) : Bool → List Generation → Option Generation
  | _, [] => none
  | isLast, g :: gs => match g.revs.head?, g.revs.getLast? with
    | some first, some tomb =>
      if ¬ isLast ∧ tomb.main ≤ rev then none
      else if first.main ≤ rev then some g
      else findGenerationIn rev false gs
    | _, _ => findGenerationIn rev false gs

def findGeneration (ki : KeyIndex) (rev : ℤ) : Option Generation :=
  findGenerationIn rev true ki.generations.reverse

/-- What `get` returns of a generation: the revision read, when it was created, its version. -/
def getIn (g : Generation) (atRev : ℤ) : Option (Revision × Revision × ℤ) := do
  let n ← g.walk fun rev => ¬ rev.main ≤ atRev
  let rev ← g.revs[n]?
  pure (rev, g.created, g.ver - (g.revs.length - n - 1))

/-- `keyIndex.get` past its check, `none` for `ErrRevisionNotFound`. -/
def lookup (ki : KeyIndex) (atRev : ℤ) : Option (Revision × Revision × ℤ) := do
  let g ← ki.findGeneration atRev
  if g.isEmpty then none else getIn g atRev

def get (ki : KeyIndex) (atRev : ℤ) : Except Fatal (Option (Revision × Revision × ℤ)) :=
  if ki.isEmpty then .error .getEmpty else .ok (ki.lookup atRev)

/-- The generations from the first that includes `atRev` or was created after it. -/
def compactSkip (atRev : ℤ) : List Generation → Except Fatal (List Generation)
  | [] => .error .indexOutOfRange
  | [g] => .ok [g]
  | g :: g' :: gs => match g.revs.getLast? with
    | none => .error .indexOutOfRange
    | some tomb => if tomb.main > atRev then .ok (g :: g' :: gs) else compactSkip atRev (g' :: gs)

/-- What `compact` leaves from the generation it stops at: it and the later ones, and the revisions
kept. -/
def compactFrom (ki : KeyIndex) (atRev : ℤ) (g : Generation) (gs : List Generation)
    (available : List Revision) : KeyIndex × List Revision :=
  if g.isEmpty then ({ ki with generations := g :: gs }, available)
  else
    let n := g.walk fun rev => ¬ rev.main ≤ atRev
    let revs := g.revs.drop (n.getD 0)
    let available := match n.bind fun n => g.revs[n]? with
      | none => available
      | some rev => rev :: available
    -- a generation left with its tombstone alone goes as well
    if revs.length = 1 ∧ gs ≠ [] then
      ({ ki with generations := gs }, available.filter fun r => some r ≠ revs.head?)
    else ({ ki with generations := { g with revs := revs } :: gs }, available)

/-- `keyIndex.compact`, with the revisions it keeps added to `available`. -/
def compact (ki : KeyIndex) (atRev : ℤ) (available : List Revision) :
    Except Fatal (KeyIndex × List Revision) :=
  if ki.isEmpty then .error .compactEmpty
  else do
    match ← compactSkip atRev ki.generations with
    | [] => .error .indexOutOfRange
    | g :: gs => .ok (ki.compactFrom atRev g gs available)

end KeyIndex

end EtcdCompat
