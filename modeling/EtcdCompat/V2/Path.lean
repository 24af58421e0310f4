import EtcdCompat.Basic
import EtcdCompat.Lib.Segments

/-!
# Paths

The functions of the package `path` that the v2 store uses, on bytes.
-/

namespace EtcdCompat.GoPath

def slash : Fin 256 := 47

def dot : Bytes := [46]

def dotdot : Bytes := [46, 46]

def ascii (text : String) : Bytes := text.toList.map fun c => Fin.ofNat 256 c.toNat

def decimal (n : ℕ) : Bytes := (Nat.toDigits 10 n).map fun c => Fin.ofNat 256 c.toNat

/-- One element of a path in `Clean`, over the elements so far, the last one first. -/
def cleanElem (isRooted : Bool) (done : List Bytes) (elem : Bytes) : List Bytes :=
  if elem = [] ∨ elem = dot then done
  else if elem = dotdot then match done with
    | [] => if isRooted then [] else [dotdot]
    | last :: rest => if last = dotdot then dotdot :: done else rest
  else elem :: done

def clean (path : Bytes) : Bytes :=
  let isRooted := path.head? = some slash
  let elems := ((segments slash path).foldl (cleanElem isRooted) []).reverse
  if isRooted then if elems = [] then [slash] else rooted slash elems
  else if elems = [] then dot else (rooted slash elems).tail

/-- `Join` of two elements. -/
def join (a b : Bytes) : Bytes :=
  if a ≠ [] then clean (a ++ slash :: b) else if b ≠ [] then clean b else []

/-- What follows the last slash, as `Split` cuts it. -/
def file (path : Bytes) : Bytes := (segments slash path).getLastD []

/-- What stands before that, with the slash. -/
def dir (path : Bytes) : Bytes := path.take (path.length - (file path).length)

def hasPrefix (s start : Bytes) : Bool := start.isPrefixOf s

def contains (sub : Bytes) : Bytes → Bool
  | [] => sub = []
  | c :: s => hasPrefix (c :: s) sub || contains sub s

end EtcdCompat.GoPath
