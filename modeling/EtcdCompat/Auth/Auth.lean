import EtcdCompat.Basic
import EtcdCompat.Lib.Segments

/-!
# Authorization of the keys API

Users, roles and the patterns of their permissions (`etcdserver/auth`), and the check
`keysHandler` makes before it serves a request (`etcdhttp`). A pattern is indexed at its last byte,
so an empty one panics, which is `none` here.
-/

namespace EtcdCompat.Auth

def star : Fin 256 := 42

def slash : Fin 256 := 47

/-- `RootRoleName`, the name of the root user too. -/
def rootRoleName : Bytes := [114, 111, 111, 116]

def guestRoleName : Bytes := [103, 117, 101, 115, 116]

structure RWPermission where
  read : List Bytes := []
  write : List Bytes := []
deriving DecidableEq, Repr

/-- `Role` with its `Permissions.KV`. -/
structure Role where
  role : Bytes
  kv : RWPermission
deriving DecidableEq, Repr

structure User where
  user : Bytes
  password : Bytes
  roles : List Bytes
deriving DecidableEq, Repr

def rootRole : Role := ⟨rootRoleName, ⟨[[slash, star]], [[slash, star]]⟩⟩

section Match

def simpleMatch (pattern key : Bytes) : Option Bool :=
  pattern.getLast?.map fun last =>
    if last = star then pattern.dropLast.isPrefixOf key else key = pattern

def prefixMatch (pattern key : Bytes) : Option Bool :=
  pattern.getLast?.map fun last =>
    if last ≠ star then false else pattern.dropLast.isPrefixOf key

/-- The first match among the patterns, in their order. -/
def anyMatch (f : Bytes → Option Bool) : List Bytes → Option Bool
  | [] => some false
  | pattern :: patterns => do
    if ← f pattern then some true else anyMatch f patterns

namespace RWPermission

def list (rw : RWPermission) (write : Bool) : List Bytes := if write then rw.write else rw.read

def hasAccess (rw : RWPermission) (key : Bytes) (write : Bool) : Option Bool :=
  anyMatch (simpleMatch · key) (rw.list write)

def hasRecursiveAccess (rw : RWPermission) (key : Bytes) (write : Bool) : Option Bool :=
  anyMatch (prefixMatch · key) (rw.list write)

end RWPermission

namespace Role

def hasKeyAccess (r : Role) (key : Bytes) (write : Bool) : Option Bool :=
  if r.role = rootRoleName then some true else r.kv.hasAccess key write

def hasRecursiveAccess (r : Role) (key : Bytes) (write : Bool) : Option Bool :=
  if r.role = rootRoleName then some true else r.kv.hasRecursiveAccess key write

end Role

end Match

section Store

def attachRootRole (u : User) : User :=
  if u.roles.contains rootRoleName then u else { u with roles := u.roles ++ [rootRoleName] }

/-- What the auth store has: the users and roles by name, and how a password is checked. -/
structure Store where
  enabled : Bool
  users : Bytes → Option User
  roles : Bytes → Option Role
  checkPassword : User → Bytes → Bool

def Store.getUser (sec : Store) (name : Bytes) : Option User :=
  (sec.users name).map fun u => if u.user = rootRoleName then attachRootRole u else u

def Store.getRole (sec : Store) (name : Bytes) : Option Role :=
  if name = rootRoleName then some rootRole else sec.roles name

end Store

/-- What the `Authorization` header of a request has. -/
inductive Credentials where
  | guest
  | malformed
  | basic (username password : Bytes)
deriving DecidableEq, Repr

def hasGuestAccess (sec : Store) (key : Bytes) (write : Bool) : Option Bool :=
  match sec.getRole guestRoleName with
  | none => some false
  | some role => role.hasKeyAccess key write

/-- The loop over the roles of a user; one that is not found is passed over. -/
def hasRoleAccess (sec : Store) (key : Bytes) (write recursive : Bool) : List Bytes → Option Bool
  | [] => some false
  | name :: names => match sec.getRole name with
    | none => hasRoleAccess sec key write recursive names
    | some role => do
      if ← if recursive then role.hasRecursiveAccess key write else role.hasKeyAccess key write then
        some true
      else hasRoleAccess sec key write recursive names

/-- No store means no authorization. `write` is that of the method. -/
def hasKeyPrefixAccess (sec : Option Store) (cred : Credentials) (write : Bool) (key : Bytes)
    (recursive : Bool) : Option Bool :=
  match sec with
  | none => some true
  | some sec =>
    if !sec.enabled then some true
    else match cred with
      | .guest => hasGuestAccess sec key write
      | .malformed => some false
      | .basic username password => match sec.getUser username with
        | none => some false
        | some user =>
          if !sec.checkPassword user password then some false
          else hasRoleAccess sec key write recursive user.roles

section Path

def dot : Bytes := [46]

def dotdot : Bytes := [46, 46]

/-- `StoreKeysPrefix` as the element of a path. -/
def keysElem : Bytes := [49]

/-- One element of a rooted path in `path.Clean`, over the elements so far, the last one first. -/
def cleanElem (done : List Bytes) (elem : Bytes) : List Bytes :=
  if elem = [] ∨ elem = dot then done
  else if elem = dotdot then done.tail
  else elem :: done

/-- The elements of the store path of a request, `path.Join(StoreKeysPrefix, key)`. -/
def storePath (key : Bytes) : List Bytes :=
  ((segments slash key).foldl cleanElem [keysElem]).reverse

def IsElem (elem : Bytes) : Prop := elem ≠ [] ∧ slash ∉ elem ∧ elem ≠ dot ∧ elem ≠ dotdot

/-- The keys in the subtree that a recursive request on a key touches. -/
def Touches (key k : Bytes) : Prop :=
  ∃ elems, (∀ e ∈ elems, IsElem e) ∧ k = rooted slash elems ∧ storePath key <+: keysElem :: elems

/-- `keysPrefix`, the URL `/v2/keys`. -/
def keysPrefix : Bytes := [47, 118, 50, 47, 107, 101, 121, 115]

/-- How the mux of `net/http` spells a URL: cleaned, with its trailing slash. -/
def cleanPath (url : Bytes) : Bytes :=
  let cleaned := rooted slash ((segments slash url).foldl cleanElem []).reverse
  if cleaned = [] then [slash]
  else if url.getLast? = some slash then cleaned ++ [slash]
  else cleaned

/-- The URLs that the mux hands to `keysHandler`. -/
def Served (url : Bytes) : Prop :=
  cleanPath url = url ∧ (url = keysPrefix ∨ keysPrefix ++ [slash] <+: url)

instance (url : Bytes) : Decidable (Served url) := by
  unfold Served
  infer_instance

/-- `r.URL.Path[len(keysPrefix):]`. -/
def keyOf (url : Bytes) : Bytes := url.drop keysPrefix.length

/-- The check of `keysHandler.ServeHTTP`, before the request on `storePath (keyOf url)`. -/
def authorizes (sec : Option Store) (cred : Credentials) (write recursive : Bool) (url : Bytes) :
    Option Bool :=
  hasKeyPrefixAccess sec cred write (keyOf url) recursive

end Path

end EtcdCompat.Auth
