import EtcdCompat.Lib.OrdMap
import EtcdCompat.Storage.KeyIndex

/-!
# The tree index

`treeIndex`: the key indexes of all keys in a tree ordered by key. The tree is an ordered map, its
items walked in ascending order of key.
-/

namespace EtcdCompat

abbrev TreeIndex := OrdMap Bytes KeyIndex

/-- The keys `[key, end)`: the key alone when `end` is nil, no upper bound when it is empty. -/
def InRange (key : Bytes) (stop : Option Bytes) (k : Bytes) : Prop :=
  match stop with
  | none => k = key
  | some stop => key ≤ k ∧ (stop = [] ∨ k < stop)

instance (key : Bytes) (stop : Option Bytes) (k : Bytes) : Decidable (InRange key stop k) := by
  unfold InRange
  cases stop <;> infer_instance

namespace TreeIndex

def put (ti : TreeIndex) (key : Bytes) (rev : Revision) : Except Fatal TreeIndex := do
  let keyi ← ((ti.find key).getD { key := key }).put rev
  .ok (ti.insert key keyi)

def restore (ti : TreeIndex) (key : Bytes) (created modified : Revision) (ver : ℤ) :
    Except Fatal TreeIndex :=
  match ti.find key with
  | none => do
    let keyi ← ({ key := key } : KeyIndex).restore created modified ver
    .ok (ti.insert key keyi)
  | some okeyi => do
    let okeyi ← okeyi.put modified
    .ok (ti.insert key okeyi)

def get (ti : TreeIndex) (key : Bytes) (atRev : ℤ) :
    Except Fatal (Option (Revision × Revision × ℤ)) :=
  match ti.find key with
  | none => .ok none
  | some keyi => keyi.get atRev

/-- The walk of `treeIndex.Range` over the items at or above its first key. -/
def rangeIn (stop : Bytes) (atRev : ℤ) :
    List (Bytes × KeyIndex) → Except Fatal (List (Bytes × Revision))
  | [] => .ok []
  | (key, keyi) :: items =>
    if stop ≠ [] ∧ ¬ key < stop then .ok []
    else do
      let got ← keyi.get atRev
      let rest ← rangeIn stop atRev items
      match got with
      | none => .ok rest
      | some (rev, _, _) => .ok ((key, rev) :: rest)

def range (ti : TreeIndex) (key : Bytes) (stop : Option Bytes) (atRev : ℤ) :
    Except Fatal (List (Bytes × Revision)) :=
  match stop with
  | none => do
    match ← ti.get key atRev with
    | none => .ok []
    | some (rev, _, _) => .ok [(key, rev)]
  | some stop => rangeIn stop atRev (ti.entries.filter fun item => key ≤ item.1)

/-- `treeIndex.Tombstone`, `none` for `ErrRevisionNotFound`. -/
def tombstone (ti : TreeIndex) (key : Bytes) (rev : Revision) : Except Fatal (Option TreeIndex) :=
  match ti.find key with
  | none => .ok none
  | some ki => do
    match ← ki.tombstone rev with
    | none => .ok none
    | some ki => .ok (some (ti.insert key ki))

/-- `compactIndex`, the visitor of `treeIndex.Compact`: the tree, the revisions kept so far and
the keys whose index became empty. -/
def compactItem (rev : ℤ) (st : TreeIndex × List Revision × List Bytes) (item : Bytes × KeyIndex) :
    Except Fatal (TreeIndex × List Revision × List Bytes) := do
  let (keyi, available) ← item.2.compact rev st.2.1
  .ok (st.1.insert item.1 keyi, available,
    if keyi.isEmpty then st.2.2 ++ [item.1] else st.2.2)

def deleteItem (ti : TreeIndex) (key : Bytes) : Except Fatal TreeIndex :=
  if ti.find key = none then .error .deleteFailure else .ok (ti.erase key)

def compact (ti : TreeIndex) (rev : ℤ) : Except Fatal (TreeIndex × List Revision) := do
  let (tree, available, emptyki) ← ti.entries.foldlM (compactItem rev) (ti, [], [])
  let tree ← emptyki.foldlM deleteItem tree
  .ok (tree, available)

end TreeIndex

end EtcdCompat
