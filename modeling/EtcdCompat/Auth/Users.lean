import Mathlib.Data.List.Sort
import EtcdCompat.Auth.Auth
import EtcdCompat.Lib.FileTree
import EtcdCompat.V2.Path

/-!
# Users and roles as the auth store keeps them

The records of `etcdserver/auth` with what a caller asks to grant and revoke, their `merge`s, and
what is read back from the JSON of a stored value. A slice that may be nil or empty, which
`reflect.DeepEqual` tells apart, is an option.
-/

namespace EtcdCompat.AuthStore

open GoPath (ascii)
open Auth

/-- The errors of the v2 store. -/
inductive StoreError where
  | tree (e : FileTree.Error)
  | rootROnly
deriving DecidableEq, Repr

/-- What a call returns in place of its result. -/
inductive AuthError where
  | auth (status : ℕ) (errmsg : Bytes)
  | store (e : StoreError)
  | unmarshal
  | hash
  /-- The nil value of a directory is dereferenced. -/
  | panic
deriving DecidableEq, Repr

def authErr (status : ℕ) (text : Bytes) : AuthError := .auth status (ascii "auth: " ++ text)

section Set

/-- `unsafeSet.Add`. -/
def addValue (s : List Bytes) (v : Bytes) : List Bytes := if s.contains v then s else s ++ [v]

def newUnsafeSet (values : List Bytes) : List Bytes := values.foldl addValue []

def leString : Bytes → Bytes → Bool
  | [], _ => true
  | _ :: _, [] => false
  | a :: s, b :: t => a.val < b.val || (a.val == b.val && leString s t)

/-- `Values`, in the order `sort.Strings` leaves them in. -/
def sortedValues (s : List Bytes) : List Bytes := s.insertionSort fun a b => leString a b = true

/-- Each item added, if it is not there yet. -/
def grantAll (duplicate : Bytes → AuthError) (s items : List Bytes) :
    Except AuthError (List Bytes) :=
  items.foldlM (fun s g => if s.contains g then .error (duplicate g) else .ok (addValue s g)) s

/-- Each item removed, if it is there. -/
def revokeAll (ungranted : Bytes → AuthError) (s items : List Bytes) :
    Except AuthError (List Bytes) :=
  items.foldlM (fun s r => if s.contains r then .ok (s.erase r) else .error (ungranted r)) s

end Set

structure User where
  user : Bytes
  password : Bytes := []
  roles : Option (List Bytes) := none
  grant : List Bytes := []
  revoke : List Bytes := []
deriving DecidableEq, Repr

namespace User

/-- `merge`, with the hash of a password or the failure to make one. -/
def merge (ou nu : User) (hashPassword : Bytes → Option Bytes) : Except AuthError User := do
  if ou.user ≠ nu.user then
    throw (authErr 409 (ascii "Merging user data with conflicting usernames: " ++ ou.user ++
      ascii " " ++ nu.user))
  let password ← (if nu.password ≠ [] then (hashPassword nu.password).elim (.error .hash) .ok
    else .ok ou.password)
  let current ← grantAll
    (fun g => authErr 409 (ascii "Granting duplicate role " ++ g ++ ascii " for user " ++ nu.user))
    (newUnsafeSet (ou.roles.getD [])) nu.grant
  let current ← revokeAll
    (fun r => authErr 409 (ascii "Revoking ungranted role " ++ r ++ ascii " for user " ++ nu.user))
    current nu.revoke
  return { user := ou.user, password, roles := some (sortedValues current) }

end User

def attachRootRole (u : User) : User :=
  if (u.roles.getD []).contains rootRoleName then u
  else { u with roles := some (u.roles.getD [] ++ [rootRoleName]) }

structure RWPermission where
  read : Option (List Bytes) := none
  write : Option (List Bytes) := none
deriving DecidableEq, Repr

namespace RWPermission

def grant (rw n : RWPermission) : Except AuthError RWPermission := do
  let currentRead ← grantAll (fun r =>
    authErr 409 (ascii "Granting duplicate read permission " ++ r))
    (newUnsafeSet (rw.read.getD [])) (n.read.getD [])
  let currentWrite ← grantAll
    (fun w => authErr 409 (ascii "Granting duplicate write permission " ++ w))
    (newUnsafeSet (rw.write.getD [])) (n.write.getD [])
  return ⟨some (sortedValues currentRead), some (sortedValues currentWrite)⟩

/-- What is not granted is passed over. -/
def revoke (rw n : RWPermission) : RWPermission :=
  ⟨some (sortedValues ((n.read.getD []).foldl List.erase (newUnsafeSet (rw.read.getD [])))),
    some (sortedValues ((n.write.getD []).foldl List.erase (newUnsafeSet (rw.write.getD []))))⟩

end RWPermission

/-- `Role` with the `KV` of its `Permissions` and of the pointers to what is granted and revoked. -/
structure Role where
  role : Bytes
  kv : RWPermission := {}
  grant : Option RWPermission := none
  revoke : Option RWPermission := none
deriving DecidableEq, Repr

namespace Role

def merge (r n : Role) : Except AuthError Role := do
  if r.role ≠ n.role then
    throw (authErr 409 (ascii "Merging role with conflicting names: " ++ r.role ++ ascii " " ++
      n.role))
  let kv ← n.grant.elim (.ok r.kv) r.kv.grant
  return { role := r.role, kv := n.revoke.elim kv kv.revoke }

end Role

def rootRole : Role :=
  { role := rootRoleName, kv := ⟨some [ascii "/*"], some [ascii "/*"]⟩ }

def guestRole : Role :=
  { role := guestRoleName, kv := ⟨some [ascii "/*"], some [ascii "/*"]⟩ }

/-- The JSON of a stored value, by what it was made from. -/
inductive Doc where
  | bool (b : Bool)
  | user (u : User)
  | role (r : Role)
deriving DecidableEq, Repr

namespace Doc

def toBool : Doc → Option Bool
  | .bool b => some b
  | _ => none

/-- `json.Unmarshal` into a `User`: fields of a role other than the two the types share by name are
passed over. -/
def toUser : Doc → Option User
  | .bool _ => none
  | .user u => some u
  | .role r => if r.grant = none ∧ r.revoke = none then some { user := [] } else none

def toRole : Doc → Option Role
  | .bool _ => none
  | .user u => if u.grant = [] ∧ u.revoke = [] then some { role := [] } else none
  | .role r => some r

end Doc

end EtcdCompat.AuthStore
