import EtcdCompat.Auth.Users
import EtcdCompat.Lib.Program

/-!
# The auth store

Every call of `etcdserver/auth` is a program of single requests to the replicated v2 store, each of
them linearizable. A request of the keyspace goes to the tree of files at its path; reading and
setting `ensuredOnce` of a member's store is a step like a request.
-/

namespace EtcdCompat.AuthStore

open GoPath (ascii slash)
open Auth (rootRoleName guestRoleName)

section Request

def elements (path : Bytes) : List Bytes :=
  if path = [slash] then [] else (segments slash path).tail

def storePermsPrefix : Bytes := ascii "/2"

/-- Where a resource is, by `path.Join(StorePermsPrefix, res)`. -/
def resourcePath (res : Bytes) : List Bytes := elements (GoPath.join storePermsPrefix res)

inductive Request where
  | get (path : List Bytes)
  /-- PUT of a directory that must be new. -/
  | putDir (path : List Bytes)
  | put (path : List Bytes) (value : Doc) (prevExist : Bool)
  | delete (path : List Bytes)
  | ensured (member : ℕ)
  | setEnsured (member : ℕ)
deriving DecidableEq

inductive Response where
  | file (value : Doc)
  | dir
  | ok
  | error (e : StoreError)
  | flag (b : Bool)
deriving DecidableEq

/-- The replicated keyspace and the flag of each member's store object. -/
structure World where
  tree : FileTree Bytes Doc
  ensuredOnce : ℕ → Bool

/-- The paths of the store's read-only set. -/
def readonly (path : List Bytes) : Bool := [[], [ascii "0"], [ascii "1"]].contains path

namespace World

def look (s : World) (path : List Bytes) : Response :=
  match s.tree.find path with
  | .ok (.file d) => .file d
  | .ok (.dir _) => .dir
  | .error e => .error (.tree e)

/-- A change of the tree at a path, or its error. -/
def change (s : World) (path : List Bytes)
    (f : List Bytes → Except FileTree.Error (FileTree Bytes Doc)) : World × Response :=
  if readonly path then (s, .error .rootROnly)
  else match f path with
    | .ok t => ({ s with tree := t }, .ok)
    | .error e => (s, .error (.tree e))

def exec (s : World) : Request → World × Response
  | .get path => (s, s.look path)
  | .putDir path => s.change path (FileTree.create .empty s.tree)
  | .put path value false => s.change path (FileTree.create (.file value) s.tree)
  | .put path value true => s.change path (FileTree.write value s.tree)
  | .delete path => s.change path (FileTree.remove s.tree)
  | .ensured member => (s, .flag (s.ensuredOnce member))
  | .setEnsured member => ({ s with ensuredOnce := Function.update s.ensuredOnce member true }, .ok)

end World

end Request

section Api

abbrev Api (α : Type) := ExceptT AuthError (Program Request Response) α

def send (r : Request) : Api Response := ExceptT.lift (Program.ask r)

/-- A directory that may be there already. -/
def ensureDirectory (path : Bytes) : Api Unit := do
  match ← send (.putDir (elements (GoPath.clean path))) with
  | .error (.tree .fileExists) => pure ()
  | .error e => throw (.store e)
  | _ => pure ()

variable (member : ℕ)

/-- The end of `ensureAuthDirectories`, by what became of `enabled`. -/
def markEnsured : Response → Api Unit
  | .error (.tree .fileExists) => discard (send (.setEnsured member))
  | .error e => throw (.store e)
  | _ => discard (send (.setEnsured member))

def createAuthDirectories : Api Unit := do
  ensureDirectory storePermsPrefix
  ensureDirectory (storePermsPrefix ++ ascii "/users/")
  ensureDirectory (storePermsPrefix ++ ascii "/roles/")
  markEnsured member
    (← send (.put (elements (storePermsPrefix ++ ascii "/enabled")) (.bool false) false))

def ensureAuthDirectories : Api Unit := do
  match ← send (.ensured member) with
  | .flag true => pure ()
  | _ => createAuthDirectories member

def requestResource (res : Bytes) : Api Response := send (.get (resourcePath res))

def setResource (res : Bytes) (value : Doc) (prevExist : Bool) : Api Response := do
  ensureAuthDirectories member
  send (.put (resourcePath res) value prevExist)

def updateResource (res : Bytes) (value : Doc) : Api Response := setResource member res value true

def createResource (res : Bytes) (value : Doc) : Api Response := setResource member res value false

def deleteResource (res : Bytes) : Api Response := do
  ensureAuthDirectories member
  send (.delete (resourcePath res))

/-- A store error returned as it is. -/
def orStoreError : Response → Api Unit
  | .error e => throw (.store e)
  | _ => pure ()

/-- What `detectAuth` makes of the answer. -/
def readEnabled : Response → Except AuthError Bool
  | .error _ => .ok false
  | .file d => .ok (d.toBool.getD false)
  | _ => .error .panic

def detectAuth : Api Bool := do
  readEnabled (← requestResource (ascii "/enabled"))

def authEnabled : Api Bool := detectAuth

def userResource (name : Bytes) : Bytes := ascii "/users/" ++ name

def roleResource (name : Bytes) : Bytes := ascii "/roles/" ++ name

/-- What `GetUser` makes of the answer. -/
def readUser (name : Bytes) : Response → Except AuthError User
  | .error (.tree .notFound) =>
    .error (authErr 404 (ascii "User " ++ name ++ ascii " does not exist."))
  | .error e => .error (.store e)
  | .file d => match d.toUser with
    | none => .error .unmarshal
    | some u => .ok (if u.user = rootRoleName then attachRootRole u else u)
  | _ => .error .panic

def getUser (name : Bytes) : Api User := do
  readUser name (← requestResource (userResource name))

variable (hashPassword : Bytes → Option Bytes)

def createUserInternal (user : User) : Api User := do
  if user.password = [] then
    throw (authErr 400 (ascii "Cannot create user " ++ user.user ++
      ascii " with an empty password"))
  else match hashPassword user.password with
    | none => throw .hash
    | some hash =>
      let user := { user with password := hash }
      match ← createResource member (userResource user.user) (.user user) with
      | .error (.tree .fileExists) =>
        throw (authErr 409 (ascii "User " ++ user.user ++ ascii " already exists."))
      | .error e => throw (.store e)
      | _ => pure user

def createUser (user : User) : Api User :=
  createUserInternal member hashPassword
    (if user.user = rootRoleName then attachRootRole user else user)

def deleteUser (name : Bytes) : Api Unit := do
  if (← authEnabled) ∧ name = rootRoleName then
    throw (authErr 403 (ascii "Cannot delete root user while auth is enabled."))
  else match ← deleteResource member (userResource name) with
    | .error (.tree .notFound) =>
      throw (authErr 404 (ascii "User " ++ name ++ ascii " does not exist"))
    | .error e => throw (.store e)
    | _ => pure ()

def updateUser (user : User) : Api User := do
  let old ← getUser user.user
  let newUser ← (old.merge user hashPassword : Except AuthError User)
  if old = newUser then
    throw (authErr 400
      (ascii "User not updated. Use grant/revoke/password to update the user."))
  else
    orStoreError (← updateResource member (userResource user.user) (.user newUser))
    pure newUser

/-- What `GetRole` makes of the answer. -/
def readRole (name : Bytes) : Response → Except AuthError Role
  | .error (.tree .notFound) =>
    .error (authErr 404 (ascii "Role " ++ name ++ ascii " does not exist."))
  | .error e => .error (.store e)
  | .file d => match d.toRole with
    | none => .error .unmarshal
    | some r => .ok r
  | _ => .error .panic

def getRole (name : Bytes) : Api Role := do
  if name = rootRoleName then pure rootRole
  else readRole name (← requestResource (roleResource name))

def isRootRole (name : Bytes) : AuthError :=
  authErr 403 (ascii "Cannot modify role " ++ name ++ ascii ": is root role.")

def createRole (role : Role) : Api Unit := do
  if role.role = rootRoleName then throw (isRootRole role.role)
  else match ← createResource member (roleResource role.role) (.role role) with
    | .error (.tree .fileExists) =>
      throw (authErr 409 (ascii "Role " ++ role.role ++ ascii " already exists."))
    | .error e => throw (.store e)
    | _ => pure ()

def updateRole (role : Role) : Api Role := do
  if role.role = rootRoleName then throw (isRootRole role.role)
  else
    let old ← getRole role.role
    let newRole ← (old.merge role : Except AuthError Role)
    if old = newRole then
      throw (authErr 400 (ascii "Role not updated. Use grant/revoke to update the role."))
    else
      orStoreError (← updateResource member (roleResource role.role) (.role newRole))
      pure newRole

/-- What is done when a call returns an error; a panic is none. -/
def onError (x instead : Api Unit) : Api Unit :=
  tryCatch x fun e => if e = .panic then throw e else instead

def enableAuth : Api Unit := do
  if ← authEnabled then throw (authErr 409 (ascii "already enabled"))
  else
    onError (discard (getUser rootRoleName))
      (throw (authErr 409 (ascii "No root user available, please create one")))
    onError (discard (getRole guestRoleName)) (createRole member guestRole)
    orStoreError (← updateResource member (ascii "/enabled") (.bool true))

def disableAuth : Api Unit := do
  if ← authEnabled then
    orStoreError (← updateResource member (ascii "/enabled") (.bool false))
  else throw (authErr 409 (ascii "already disabled"))

end Api

section Call

inductive Call where
  | enableAuth
  | disableAuth
  | createUser (user : User)
  | updateUser (user : User)
  | deleteUser (name : Bytes)

/-- A call made on a member, with the hashes it draws. -/
structure Job (κ : Type) where
  member : ℕ
  hashPassword : Bytes → Option Bytes
  call : κ

/-- A call's program, ending with its error or without. -/
abbrev Running := Program Request Response (Except AuthError Unit)

def Job.program (job : Job Call) : Running :=
  match job.call with
  | .enableAuth => (enableAuth job.member).run
  | .disableAuth => (disableAuth job.member).run
  | .createUser user => (discard (createUser job.member job.hashPassword user)).run
  | .updateUser user => (discard (updateUser job.member job.hashPassword user)).run
  | .deleteUser name => (deleteUser job.member name).run

/-- The calls that read a user or a role, merge and write it. -/
inductive UpdateCall where
  | user (user : User)
  | role (role : Role)

def UpdateCall.resource : UpdateCall → Bytes
  | .user u => userResource u.user
  | .role r => roleResource r.role

def Job.update (job : Job UpdateCall) : Running :=
  match job.call with
  | .user user => (discard (updateUser job.member job.hashPassword user)).run
  | .role role => (discard (updateRole job.member role)).run

end Call

/-- The calls that write a role, on a member. -/
inductive RoleCall where
  | create (member : ℕ) (role : Role)
  | update (member : ℕ) (role : Role)

def RoleCall.program : RoleCall → Running
  | .create member role => (createRole member role).run
  | .update member role => (discard (updateRole member role)).run

/-- The keyspace after the calls one after the other, empty before. -/
def rolesAfter (calls : List RoleCall) : World :=
  calls.foldl (fun s call => (Program.run World.exec s call.program).1) ⟨.empty, fun _ => false⟩

/-- The role as the keys API checks it. -/
def Role.access (r : Role) : Auth.Role := ⟨r.role, ⟨r.kv.read.getD [], r.kv.write.getD []⟩⟩

end EtcdCompat.AuthStore
