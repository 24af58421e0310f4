import Mathlib.Data.Fin.Basic
import EtcdCompat.Lib.OrdMap
import EtcdCompat.V2.Event

/-!
# Nodes of the v2 store and the heap of those with a TTL

The nodes lie in a memory by their addresses and point to one another: a directory to its children,
a node to its parent, and the heap to the nodes that expire. The heap is that of `container/heap`,
with a map from each node to its position.
-/

namespace EtcdCompat.V2

open GoPath

def permanent : Time := 0

structure Node where
  path : Bytes
  createdIndex : ℕ
  modifiedIndex : ℕ
  parent : Option ℕ
  expireTime : Time
  value : Bytes := []
  -- nil for a key-value pair
  children : Option (OrdMap Bytes ℕ) := none

def newKV (nodePath value : Bytes) (createdIndex : ℕ) (parent : Option ℕ)
    (expireTime : Time) : Node where
  path := nodePath
  createdIndex := createdIndex
  modifiedIndex := createdIndex
  parent := parent
  expireTime := expireTime
  value := value

def newDir (nodePath : Bytes) (createdIndex : ℕ) (parent : Option ℕ) (expireTime : Time) :
    Node where
  path := nodePath
  createdIndex := createdIndex
  modifiedIndex := createdIndex
  parent := parent
  expireTime := expireTime
  children := some .empty

inductive CompareResult where
  | match
  | indexNotMatch
  | valueNotMatch
  | notMatch
deriving DecidableEq, Repr

def second : ℤ := 1000000000

/-- `time.Sub`, whose result is a 64-bit number of nanoseconds at the ends of its range. -/
def timeSub (t u : Time) : ℤ := max (-2 ^ 63) (min (2 ^ 63 - 1) (t - u))

namespace Node

/-- Of a node without a name the first byte is asked all the same. -/
def isHidden (n : Node) : Except Panic Bool :=
  match file n.path with
  | [] => .error .indexOutOfRange
  | c :: _ => .ok (c = 95)

def isPermanent (n : Node) : Bool := n.expireTime = permanent

def isDir (n : Node) : Bool := n.children.isSome

def child (n : Node) (name : Bytes) : Option ℕ := n.children.bind (·.find name)

/-- `Write`, which leaves a directory alone. -/
def write (n : Node) (value : Bytes) (index : ℕ) : Node :=
  if n.isDir then n else { n with value, modifiedIndex := index }

def expirationAndTTL (n : Node) (now : Time) : Option Time × ℤ :=
  if n.isPermanent then (none, 0)
  else
    let ttlN := timeSub n.expireTime now
    let ttl := ttlN.tdiv second
    (some n.expireTime, if ttlN.tmod second > 0 then ttl + 1 else ttl)

/-- `Repr` of the node alone. -/
def repr (n : Node) (now : Time) : NodeExtern where
  key := n.path
  value := if n.isDir then none else some n.value
  dir := n.isDir
  expiration := (n.expirationAndTTL now).1
  ttl := (n.expirationAndTTL now).2
  modifiedIndex := n.modifiedIndex
  createdIndex := n.createdIndex

def compare (n : Node) (prevValue : Bytes) (prevIndex : ℕ) : CompareResult :=
  let indexMatch := prevIndex = 0 ∨ n.modifiedIndex = prevIndex
  let valueMatch := prevValue = [] ∨ n.value = prevValue
  if valueMatch ∧ indexMatch then .match
  else if indexMatch ∧ ¬ valueMatch then .valueNotMatch
  else if valueMatch ∧ ¬ indexMatch then .indexNotMatch
  else .notMatch

end Node

structure TtlKeyHeap where
  array : List ℕ := []
  keyMap : ℕ → Option ℕ := fun _ => none

def newTtlKeyHeap : TtlKeyHeap := {}

namespace TtlKeyHeap

variable (mem : ℕ → Node)

def nodeAt (h : TtlKeyHeap) (i : ℕ) : ℕ := h.array.getD i 0

def less (h : TtlKeyHeap) (i j : ℕ) : Bool :=
  (mem (h.nodeAt i)).expireTime < (mem (h.nodeAt j)).expireTime

def swap (h : TtlKeyHeap) (i j : ℕ) : TtlKeyHeap :=
  let a := h.nodeAt i
  let b := h.nodeAt j
  { array := (h.array.set i b).set j a
    keyMap := Function.update (Function.update h.keyMap b (some i)) a (some j) }

/-- The method `Push`: the node at the end of the array. -/
def pushBack (h : TtlKeyHeap) (n : ℕ) : TtlKeyHeap where
  array := h.array ++ [n]
  keyMap := Function.update h.keyMap n (some h.array.length)

/-- The method `Pop`: the array without its last node. -/
def popBack (h : TtlKeyHeap) : TtlKeyHeap where
  array := h.array.dropLast
  keyMap := Function.update h.keyMap (h.nodeAt (h.array.length - 1)) none

/-- `up` of `container/heap`, from a position below `fuel`. -/
def up : ℕ → TtlKeyHeap → ℕ → TtlKeyHeap
  | 0, h, _ => h
  | fuel + 1, h, j =>
    let i := (j - 1) / 2
    if i = j ∨ ¬ h.less mem j i then h else up fuel (h.swap i j) i

/-- `down` of `container/heap` within the first `n` positions, from one `fuel` below `n`. -/
def down (n : ℕ) : ℕ → TtlKeyHeap → ℕ → TtlKeyHeap
  | 0, h, _ => h
  | fuel + 1, h, i =>
    let j₁ := 2 * i + 1
    if j₁ ≥ n then h
    else
      let j₂ := j₁ + 1
      let j := if j₂ < n ∧ ¬ h.less mem j₁ j₂ then j₂ else j₁
      if ¬ h.less mem j i then h else down n fuel (h.swap i j) j

def top (h : TtlKeyHeap) : Option ℕ := h.array.head?

def push (h : TtlKeyHeap) (n : ℕ) : TtlKeyHeap :=
  up mem (h.array.length + 1) (h.pushBack n) h.array.length

def pop (h : TtlKeyHeap) : TtlKeyHeap :=
  let n := h.array.length - 1
  (down mem n n (h.swap 0 n) 0).popBack

/-- `heap.Remove`. -/
def removeAt (h : TtlKeyHeap) (i : ℕ) : TtlKeyHeap :=
  let n := h.array.length - 1
  if n ≠ i then (up mem (i + 1) (down mem n n (h.swap i n) i) i).popBack else h.popBack

def update (h : TtlKeyHeap) (n : ℕ) : TtlKeyHeap :=
  match h.keyMap n with
  | none => h
  | some index => (h.removeAt mem index).push mem n

def remove (h : TtlKeyHeap) (n : ℕ) : TtlKeyHeap :=
  match h.keyMap n with
  | none => h
  | some index => h.removeAt mem index

end TtlKeyHeap

end EtcdCompat.V2
