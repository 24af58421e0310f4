import EtcdCompat.Basic
import EtcdCompat.Lib.OrdMap

/-!
# The managed backups of the wrapper

`createBackupWithinRoots` runs `etcdctl backup` into a directory named after the index and the
second, removes that directory if the runner fails, and otherwise prunes the backups that are too
old. A `Call` holds its arguments and what the runner and the file system answer.
-/

namespace EtcdCompat.Etcdwrapper

/-- The entries of the backup directory, each with whether it is a directory. -/
abbrev Dir := OrdMap Bytes Bool

structure Call where
  index : ℤ
  retention : ℤ
  /-- In nanoseconds. -/
  now : ℤ
  /-- The paths are valid and the roots could be opened. -/
  opened : Bool := true
  runs : Bool
  /-- A failing runner that finds no directory leaves one. -/
  leaves : Bool := false
  /-- Whether the entry can be removed. -/
  removable : Bytes → Bool := fun _ => true
  listed : Bool := true
  modTime : Bytes → Option ℤ

def isDigit (b : Fin 256) : Bool := 48 ≤ b && b ≤ 57

def backup_ : Bytes := [98, 97, 99, 107, 117, 112, 95]

/-- The expression `^backup_[0-9]+_[0-9]{8}T[0-9]{6}Z$`. -/
def managedBackupName (name : Bytes) : Bool :=
  let rest := name.drop backup_.length
  name.take backup_.length == backup_ && !(rest.takeWhile isDigit).isEmpty &&
    match rest.dropWhile isDigit with
    | 95 :: time => time.length == 16 && (time.take 8).all isDigit && time[8]? == some 84 &&
        ((time.drop 9).take 6).all isDigit && time[15]? == some 90
    | _ => false

variable (format : ℤ → Bytes) (c : Call)

def Call.name : Bytes :=
  backup_ ++ (Nat.toDigits 10 c.index.toNat).map (fun d => Fin.ofNat 256 d.toNat) ++
    95 :: format (c.now / 1000000000)

/-- The names `pruneBackups` finds older than the retention, in their order. -/
def expired (dir : Dir) : List Bytes :=
  (dir.entries.filter fun e => e.2 && managedBackupName e.1 &&
    ((c.modTime e.1).any fun t => t < c.now - c.retention)).map Prod.fst

/-- Removes the names up to the first that cannot be removed. -/
def removeNames : List Bytes → Dir → Dir × Bool
  | [], dir => (dir, true)
  | n :: ns, dir => if c.removable n then removeNames ns (dir.erase n) else (dir, false)

def pruneBackups (dir : Dir) : Dir × Bool :=
  if c.retention ≤ 0 then (dir, true)
  else if c.listed = false then (dir, false)
  else removeNames c (expired c dir) dir

def Call.reaches : Bool := 0 ≤ c.index && c.opened && managedBackupName (c.name format)

/-- The directory once a runner that fails has returned. -/
def Call.left (dir : Dir) : Dir :=
  if c.leaves ∧ dir.find (c.name format) = none then dir.insert (c.name format) true else dir

/-- The backups afterwards, and whether there was no error. -/
def createBackupWithinRoots (dir : Dir) : Dir × Bool :=
  if c.reaches format = false then (dir, false)
  else if c.runs then pruneBackups c (dir.insert (c.name format) true)
  else if c.removable (c.name format) then ((c.left format dir).erase (c.name format), false)
  else (c.left format dir, false)

end EtcdCompat.Etcdwrapper
