import EtcdCompat.Basic
import EtcdCompat.Lib.OrdMap

/-!
# The backend and its defragmentation

A bolt file holds named buckets of pairs of bytes. A writing transaction works on a copy. `Defrag`
copies all pairs into the file at the temporary path, in transactions of limited size, and renames
it over the old one. Which commits succeed is given from outside.
-/

namespace EtcdCompat.Storage

abbrev Bucket := OrdMap Bytes Bytes

abbrev Database := OrdMap Bytes Bucket

namespace Database

def createBucketIfNotExists (db : Database) (name : Bytes) : Database :=
  match db.find name with
  | some _ => db
  | none => db.insert name .empty

/-- A change of the bucket with that name, if there is one. -/
def alter (db : Database) (name : Bytes) (f : Bucket → Bucket) : Database :=
  db.mapVal fun n b => if n = name then f b else b

def put (db : Database) (name key value : Bytes) : Database :=
  db.alter name fun b => b.insert key value

end Database

/-- The temporary database while it is written, and the pairs counted. -/
structure Copy where
  tmpdb : Database
  /-- `none` once a commit has failed. -/
  tmptx : Option Database
  commits : ℕ := 0
  count : ℕ := 0

def Copy.commit (ok : ℕ → Bool) (c : Copy) : Copy × Bool :=
  match c.tmptx with
  | none => (c, false)
  | some w =>
    if ok c.commits then
      ({ c with tmpdb := w, tmptx := none, commits := c.commits + 1 }, true)
    else ({ c with tmptx := none, commits := c.commits + 1 }, false)

/-- The `ForEach` over one bucket. An error ends it and is dropped. -/
def copyPairs (ok : ℕ → Bool) (limit : ℕ) (next : Bytes) : List (Bytes × Bytes) → Copy → Copy
  | [], c => c
  | (k, v) :: kvs, c =>
    let c := { c with count := c.count + 1 }
    if c.count > limit then
      match c.commit ok with
      | (c, false) => c
      | (c, true) => copyPairs ok limit next kvs { c with tmptx := some (c.tmpdb.put next k v) }
    else copyPairs ok limit next kvs { c with tmptx := c.tmptx.map (·.put next k v) }

def copyBuckets (ok : ℕ → Bool) (limit : ℕ) : List (Bytes × Bucket) → Copy → Copy × Bool
  | [], c => c.commit ok
  | (next, b) :: bs, c =>
    match c.tmptx with
    | none => (c, false)
    | some w =>
      copyBuckets ok limit bs
        (copyPairs ok limit next b.entries
          { c with tmptx := some (w.createBucketIfNotExists next) })

/-- The temporary database afterwards, and whether there was no error. -/
def defragdb (ok : ℕ → Bool) (odb tmpdb : Database) (limit : ℕ) : Copy × Bool :=
  copyBuckets ok limit odb.entries { tmpdb := tmpdb, tmptx := some tmpdb }

def defragLimit : ℕ := 10000

structure Backend where
  db : Database := .empty
  /-- The file at the temporary path. -/
  tmp : Option Database := none
  /-- The batch's transaction. -/
  tx : Option Database := none
  pending : ℕ := 0
  batchLimit : ℤ

namespace Backend

def begin (stop : Bool) (b : Backend) : Backend := if stop then b else { b with tx := some b.db }

def commit (stop : Bool) (b : Backend) : Backend :=
  match b.tx with
  | some w =>
    if b.pending = 0 ∧ stop = false then b else begin stop { b with db := w, pending := 0 }
  | none => begin stop b

def unlock (b : Backend) : Backend :=
  if b.batchLimit ≤ b.pending then { b.commit false with pending := 0 } else b

/-- A write in the batch; `none` if there is no transaction. -/
def write (f : Database → Database) (b : Backend) : Option Backend :=
  b.tx.map fun w => { b with tx := some (f w), pending := b.pending + 1 }

def unsafeCreateBucket (name : Bytes) (b : Backend) : Option Backend :=
  b.write (·.createBucketIfNotExists name)

/-- `none` if there is no bucket of that name. -/
def withBucket (name : Bytes) (b : Backend) : Option Backend := do
  let w ← b.tx
  let _ ← w.find name
  return b

def unsafePut (name key value : Bytes) (b : Backend) : Option Backend := do
  (← b.withBucket name).write (·.put name key value)

def unsafeDelete (name key : Bytes) (b : Backend) : Option Backend := do
  (← b.withBucket name).write (·.alter name (·.erase key))

def unsafeRange (name key endKey : Bytes) (limit : ℤ) (b : Backend) :
    Option (List (Bytes × Bytes)) := do
  let bucket ← (← b.tx).find name
  if endKey = [] then return (bucket.find key).toList.map (key, ·)
  else
    let kvs := bucket.entries.filter fun kv => key ≤ kv.1 ∧ kv.1 < endKey
    return if 0 < limit then kvs.take limit.toNat else kvs

/-- The calls on a batch; `unlock` ends those made under one lock. -/
inductive Call where
  | createBucket (name : Bytes)
  | put (name key value : Bytes)
  | delete (name key : Bytes)
  | range (name key endKey : Bytes) (limit : ℤ)
  | commit
  | unlock

/-- A call and the pairs it returns; `none` if the process ends. -/
def call (b : Backend) : Call → Option (Backend × List (Bytes × Bytes))
  | .createBucket name => (b.unsafeCreateBucket name).map (·, [])
  | .put name key value => (b.unsafePut name key value).map (·, [])
  | .delete name key => (b.unsafeDelete name key).map (·, [])
  | .range name key endKey limit => (b.unsafeRange name key endKey limit).map (b, ·)
  | .commit => some ((b.commit false).unlock, [])
  | .unlock => some (b.unlock, [])

def run : Backend → List Call → Option (Backend × List (List (Bytes × Bytes)))
  | b, [] => some (b, [])
  | b, c :: cs => do
    let r ← b.call c
    let rs ← r.1.run cs
    return (rs.1, r.2 :: rs.2)

/-- `Defrag`, and whether it returns no error. -/
def defrag (opened : Bool) (ok : ℕ → Bool) (b : Backend) : Backend × Bool :=
  let b := { b.commit true with tx := none }
  if opened = false then (b.unlock, false)
  else
    let (c, done) := defragdb ok b.db (b.tmp.getD .empty) defragLimit
    if done then
      (unlock { b with db := c.tmpdb, tmp := none, tx := some c.tmpdb }, true)
    else (unlock { b with tmp := none }, false)

def readable (b : Backend) : Database := b.tx.getD b.db

end Backend

end EtcdCompat.Storage
