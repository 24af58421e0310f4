import EtcdCompat.Auth.Store

/-!
# Enabled auth and the root user

Auth is turned on after the root user was looked up, and the root user's file goes when a call asked
for it. Where that file is removed only while auth is off and no call is past its look at the root
user on its way to turn auth on, enabled auth has a root user in every interleaving.
-/

namespace EtcdCompat.AuthStore

open FileTree World

open Program (Asks Guarded)
open GoPath (ascii)
open Auth

def enabledPath : List Bytes := resourcePath (ascii "/enabled")

def rootPath : List Bytes := resourcePath (userResource rootRoleName)

/-- `AuthEnabled` on the state as it is. -/
def ReportsEnabled (s : World) : Prop :=
  (Program.run World.exec s authEnabled.run).2 = .ok true

instance (s : World) : Decidable (ReportsEnabled s) :=
  inferInstanceAs (Decidable ((Program.run World.exec s authEnabled.run).2 = .ok true))

/-- `GetUser` finds the root user. -/
def HasRootUser (s : World) : Prop :=
  (Program.run World.exec s (getUser rootRoleName).run).2.toOption.isSome

instance (s : World) : Decidable (HasRootUser s) :=
  inferInstanceAs (Decidable (_ = true))

section Step

variable {s : World} {q : List Bytes}

theorem World.fileAt_change {path : List Bytes} {x : Option Doc}
    {f : List Bytes → Except FileTree.Error (FileTree Bytes Doc)}
    (h : ∀ t, f path = .ok t → t.fileAt q = x) :
    (s.change path f).1.tree.fileAt q = x ∨ (s.change path f).1 = s := by
  unfold change
  by_cases hr : readonly path
  · rw [if_pos hr]
    exact .inr rfl
  rw [if_neg hr]
  split
  · rename_i t ht
    exact .inl (h t ht)
  · exact .inr rfl

theorem World.fileAt_exec (s : World) (r : Request) (q : List Bytes) :
    (s.exec r).1.tree.fileAt q = s.tree.fileAt q ∨
      (∃ v prevExist, r = .put q v prevExist ∧ (s.exec r).1.tree.fileAt q = some v ∧
        (prevExist = false → s.tree.fileAt q = none)) ∨
      (r = .delete q ∧ (s.exec r).1.tree.fileAt q = none) := by
  have leaf (v : Doc) : ∀ path : List Bytes, path ≠ [] →
      (file v : FileTree Bytes Doc).fileAt path = none := by
    rintro (_ | ⟨name, path⟩) hpath
    · exact absurd rfl hpath
    · rfl
  have bare : ∀ path : List Bytes, path ≠ [] →
      (empty : FileTree Bytes Doc).fileAt path = none := by
    rintro (_ | ⟨name, path⟩) hpath
    · exact absurd rfl hpath
    · rfl
  rcases r with path | path | ⟨path, v, _ | _⟩ | path | member | member
  · exact .inl rfl
  · left
    refine (fileAt_change fun t ht => ?_).elim id fun h => by rw [exec, h]
    rw [fileAt_create bare ht]
    split_ifs with hq
    · rw [hq, fileAt_of_create ht]
      rfl
    · rfl
  · by_cases hq : q = path
    · subst hq
      by_cases hnone : s.tree.fileAt q = none
      · refine (fileAt_change fun t ht => ?_).elim
          (fun h => .inr (.inl ⟨v, false, rfl, h, fun _ => hnone⟩))
          fun h => .inl (by rw [exec, h])
        rw [fileAt_create (leaf v) ht, if_pos rfl]
        rfl
      · left
        refine (fileAt_change fun t ht => ?_).elim id fun h => by rw [exec, h]
        exact absurd (fileAt_of_create ht) hnone
    · left
      refine (fileAt_change fun t ht => ?_).elim id fun h => by rw [exec, h]
      rw [fileAt_create (leaf v) ht, if_neg hq]
  · by_cases hq : q = path
    · subst hq
      refine (fileAt_change fun t ht => ?_).elim
        (fun h => .inr (.inl ⟨v, true, rfl, h, fun h => (by cases h)⟩))
        fun h => .inl (by rw [exec, h])
      rw [fileAt_write ht, if_pos rfl]
    · left
      refine (fileAt_change fun t ht => ?_).elim id fun h => by rw [exec, h]
      rw [fileAt_write ht, if_neg hq]
  · by_cases hq : q = path
    · subst hq
      refine (fileAt_change fun t ht => ?_).elim
        (fun h => .inr (.inr ⟨rfl, h⟩)) fun h => .inl (by rw [exec, h])
      rw [fileAt_remove ht, if_pos rfl]
    · left
      refine (fileAt_change fun t ht => ?_).elim id fun h => by rw [exec, h]
      rw [fileAt_remove ht, if_neg hq]
  · exact .inl rfl
  · exact .inl rfl

theorem World.look_eq_file_iff {d : Doc} : s.look q = .file d ↔ s.tree.fileAt q = some d := by
  rw [← find_eq_file_iff]
  unfold look
  split <;> simp_all

theorem reportsEnabled_iff : ReportsEnabled s ↔ s.tree.fileAt enabledPath = some (.bool true) := by
  rw [← look_eq_file_iff]
  change readEnabled (s.look enabledPath) = .ok true ↔ _
  rcases s.look enabledPath with (_ | _ | _) | _ | _ | _ | _ <;>
    simp [readEnabled, Doc.toBool]

def Rooted (s : World) : Prop := ∃ d, s.tree.fileAt rootPath = some d ∧ d.toUser.isSome

theorem exists_of_readUser {name : Bytes} {x : Response} {u : User} (h : readUser name x = .ok u) :
    ∃ d, x = .file d ∧ d.toUser.isSome := by
  unfold readUser at h
  split at h
  · cases h
  · cases h
  · split at h
    · cases h
    · rename_i d _ _ hd
      exact ⟨d, rfl, by rw [hd]; rfl⟩
  · cases h

theorem hasRootUser_iff : HasRootUser s ↔ Rooted s := by
  change (readUser rootRoleName (s.look rootPath)).toOption.isSome ↔ _
  refine ⟨fun h => ?_, ?_⟩
  · rcases hx : readUser rootRoleName (s.look rootPath) with e | u
    · rw [hx] at h
      cases h
    · obtain ⟨d, hd, hu⟩ := exists_of_readUser hx
      exact ⟨d, look_eq_file_iff.1 hd, hu⟩
  · rintro ⟨d, hd, hu⟩
    obtain ⟨u, hu⟩ := Option.isSome_iff_exists.1 hu
    rw [look_eq_file_iff.2 hd]
    simp [readUser, hu, Except.toOption]

end Step

section Program

variable {α : Type} {f : α → Running}

/-- The program may turn auth on before it looks at the root user again. -/
inductive MayEnable : Running → Prop
  | here {k prevExist} : MayEnable (.request (.put enabledPath (.bool true) prevExist) k)
  | later {r k x} (hr : r ≠ .get rootPath) (h : MayEnable (k x)) : MayEnable (.request r k)

/-- What is written over the root user is a user. -/
def Decent (r : Request) : Prop := ∀ v prevExist, r = .put rootPath v prevExist → v.toUser.isSome

/-- After a look at the root user auth is turned on only if it was there. -/
def Careful : Running → Prop
  | .done _ => True
  | .request r k => Decent r ∧
    (r = .get rootPath → ∀ x, MayEnable (k x) → ∃ d, x = .file d ∧ d.toUser.isSome) ∧
    ∀ x, Careful (k x)

/-- The request neither turns auth on nor spoils the root user. -/
def Quiet (r : Request) : Prop := Decent r ∧ ∀ prevExist,
    r ≠ .put enabledPath (.bool true) prevExist

/-- The request is no look at the root user and does not spoil it. -/
def Unlooking (r : Request) : Prop := Decent r ∧ r ≠ .get rootPath

theorem MayEnable.not_bind (hf : ∀ a, ¬ MayEnable (f a)) :
    ∀ {p : Program Request Response α}, Asks Quiet p → ¬ MayEnable (p >>= f)
  | .done a, _ => hf a
  | .request _ k, hp => by
    rintro h
    cases h with
    | here => exact hp.1.2 _ rfl
    | later _ h => exact not_bind hf (hp.2 _) h

theorem MayEnable.not_of_asks : ∀ {p : Running}, Asks Quiet p → ¬ MayEnable p
  | .done _, _, h => by cases h
  | .request r k, hp, h => by
    cases h with
    | here => exact hp.1.2 _ rfl
    | later _ h => exact not_of_asks (hp.2 _) h

theorem Careful.of_quiet : ∀ {p : Running}, Asks Quiet p → Careful p
  | .done _, _ => trivial
  | .request _ _, hp => ⟨hp.1.1, fun _ x h => (MayEnable.not_of_asks (hp.2 x) h).elim,
    fun x => of_quiet (hp.2 x)⟩

theorem Careful.of_unlooking : ∀ {p : Running}, Asks Unlooking p → Careful p
  | .done _, _ => trivial
  | .request _ _, hp => ⟨hp.1.1, fun h => absurd h hp.1.2, fun x => of_unlooking (hp.2 x)⟩

theorem Careful.bind_unlooking (hf : ∀ a, Careful (f a)) :
    ∀ {p : Program Request Response α}, Asks Unlooking p → Careful (p >>= f)
  | .done a, _ => hf a
  | .request _ _, hp => ⟨hp.1.1, fun h => absurd h hp.1.2, fun x => bind_unlooking hf (hp.2 x)⟩

end Program

section Call

variable {P : Request → Prop} {α : Type} {r : Request} {v : Doc} {prevExist : Bool}

/-- A request both of the kinds above. -/
def Plain (r : Request) : Prop := Quiet r ∧ Unlooking r

theorem plain_of_ne (hput : ∀ path v prevExist, r ≠ .put path v prevExist)
    (hget : r ≠ .get rootPath) : Plain r :=
  ⟨⟨fun v prevExist h => absurd h (hput _ v prevExist), fun prevExist => hput _ _ prevExist⟩,
    fun v prevExist h => absurd h (hput _ v prevExist), hget⟩

theorem plain_put {path : List Bytes} (hroot : path = rootPath → v.toUser.isSome)
    (hon : v ≠ .bool true) : Plain (.put path v prevExist) := by
  have decent : Decent (.put path v prevExist) := by
    rintro _ _ ⟨⟩
    exact hroot rfl
  refine ⟨⟨decent, ?_⟩, decent, fun h => by cases h⟩
  rintro _ ⟨⟩
  exact hon rfl

theorem asks_send (h : P r) : Asks P (send r).run := ⟨h, fun _ => trivial⟩

theorem asks_liftExcept (x : Except AuthError α) : Asks P (liftM x : Api α).run := by
  cases x <;> trivial

/-- The requests that prepare the directories. -/
def SetUp : Request → Prop
  | .putDir _ | .ensured _ | .setEnsured _ => True
  | .put path v _ => path = enabledPath ∧ v = .bool false
  | _ => False

theorem asks_ensureDirectory (path : Bytes) : Asks SetUp (ensureDirectory path).run := by
  refine Asks.bind_except (asks_send trivial) fun x => ?_
  split <;> trivial

theorem asks_markEnsured (member : ℕ) (x : Response) : Asks SetUp (markEnsured member x).run := by
  have marked : Asks SetUp (discard (send (.setEnsured member))).run := ⟨trivial, fun _ => trivial⟩
  unfold markEnsured
  split
  · exact marked
  · trivial
  · exact marked

theorem asks_createAuthDirectories (member : ℕ) :
    Asks SetUp (createAuthDirectories member).run := by
  refine Asks.bind_except (asks_ensureDirectory _) fun _ => ?_
  refine Asks.bind_except (asks_ensureDirectory _) fun _ => ?_
  refine Asks.bind_except (asks_ensureDirectory _) fun _ => ?_
  exact Asks.bind_except (asks_send ⟨by decide, rfl⟩) (asks_markEnsured member)

theorem asks_ensureAuthDirectories (member : ℕ) :
    Asks SetUp (ensureAuthDirectories member).run := by
  refine Asks.bind_except (asks_send trivial) fun x => ?_
  split
  · trivial
  · exact asks_createAuthDirectories member

theorem plain_of_setUp (h : SetUp r) : Plain r := by
  cases r with
  | put path v prevExist =>
    obtain ⟨rfl, rfl⟩ := h
    exact plain_put (by decide) fun h => (by cases h)
  | putDir path => exact plain_of_ne (fun _ _ _ h => (by cases h)) fun h => (by cases h)
  | ensured member => exact plain_of_ne (fun _ _ _ h => (by cases h)) fun h => (by cases h)
  | setEnsured member => exact plain_of_ne (fun _ _ _ h => (by cases h)) fun h => (by cases h)
  | get path => exact h.elim
  | delete path => exact h.elim

variable {member : ℕ} {hashPassword : Bytes → Option Bytes}

theorem asks_setResource {res : Bytes} (hP : ∀ r, SetUp r → P r)
    (h : P (.put (resourcePath res) v prevExist)) :
    Asks P (setResource member res v prevExist).run :=
  Asks.bind_except ((asks_ensureAuthDirectories member).mono hP) fun _ => asks_send h

theorem asks_orStoreError (x : Response) : Asks P (orStoreError x).run := by
  cases x <;> trivial

theorem asks_authEnabled : Asks Plain authEnabled.run :=
  ⟨plain_of_ne (fun _ _ _ h => (by cases h)) (by decide), fun _ => trivial⟩

theorem quiet_of_plain (r : Request) (h : Plain r) : Quiet r := h.1

theorem unlooking_of_plain (r : Request) (h : Plain r) : Unlooking r := h.2

theorem quiet_of_setUp (r : Request) (h : SetUp r) : Quiet r := (plain_of_setUp h).1

theorem quiet_get (path : List Bytes) : Quiet (.get path) :=
  ⟨fun _ _ h => (by cases h), fun _ h => (by cases h)⟩

theorem asks_getUser (name : Bytes) : Asks Quiet (getUser name).run :=
  ⟨quiet_get _, fun _ => trivial⟩

theorem asks_createUser (user : User) :
    Asks Quiet (createUser member hashPassword user).run := by
  unfold createUser createUserInternal
  generalize (if user.user = rootRoleName then attachRootRole user else user) = user
  split_ifs
  · trivial
  split
  · trivial
  refine Asks.bind_except (asks_setResource quiet_of_setUp
    (plain_put (fun _ => rfl) fun h => (by cases h)).1) fun x => ?_
  split <;> trivial

theorem asks_updateUser (user : User) :
    Asks Quiet (updateUser member hashPassword user).run := by
  refine Asks.bind_except (asks_getUser _) fun old => ?_
  refine Asks.bind_except (asks_liftExcept _) fun newUser => ?_
  split_ifs
  · trivial
  refine Asks.bind_except (asks_setResource quiet_of_setUp
    (plain_put (fun _ => rfl) fun h => (by cases h)).1) fun x => ?_
  exact Asks.bind_except (asks_orStoreError x) fun _ => trivial

theorem asks_deleteUser (name : Bytes) : Asks Quiet (deleteUser member name).run := by
  refine Asks.bind_except (asks_authEnabled.mono quiet_of_plain) fun b => ?_
  split_ifs
  · trivial
  refine Asks.bind_except (Asks.bind_except ((asks_ensureAuthDirectories member).mono
    quiet_of_setUp) fun _ => asks_send ⟨fun _ _ h => (by cases h), fun _ h => (by cases h)⟩)
    fun x => ?_
  split <;> trivial

theorem asks_disableAuth : Asks Quiet (disableAuth member).run := by
  refine Asks.bind_except (asks_authEnabled.mono quiet_of_plain) fun b => ?_
  split_ifs
  · exact Asks.bind_except (asks_setResource quiet_of_setUp
      (plain_put (by decide) fun h => (by cases h)).1) fun x => asks_orStoreError x
  · trivial

theorem asks_createRole {role : Role} (hP : ∀ r, SetUp r → P r)
    (h : P (.put (resourcePath (roleResource role.role)) (.role role) false)) :
    Asks P (createRole member role).run := by
  unfold createRole
  split_ifs
  · trivial
  refine Asks.bind_except (asks_setResource hP h) fun x => ?_
  split <;> trivial

theorem asks_getGuest : Asks Plain (getRole guestRoleName).run := by
  unfold getRole
  split_ifs with h
  · exact absurd h (by decide)
  exact ⟨plain_of_ne (fun _ _ _ h => (by cases h)) (by decide), fun _ => trivial⟩

/-- What `EnableAuth` does once it has seen the root user. -/
def enableRest (member : ℕ) : Api Unit := do
  onError (discard (getRole guestRoleName)) (createRole member guestRole)
  orStoreError (← updateResource member (ascii "/enabled") (.bool true))

theorem asks_enableRest : Asks Unlooking (enableRest member).run := by
  refine Asks.bind_except (Asks.tryCatch ?_ fun e => ?_) fun _ => ?_
  · exact Asks.bind_except (asks_getGuest.mono unlooking_of_plain) fun _ => trivial
  · split_ifs
    · trivial
    · exact asks_createRole (fun _ h => (plain_of_setUp h).2)
        (plain_put (by decide) fun h => (by cases h)).2
  · refine Asks.bind_except
      (asks_setResource (fun _ h => (plain_of_setUp h).2) ⟨?_, fun h => (by cases h)⟩)
      fun x => asks_orStoreError x
    rintro _ _ ⟨⟩

def noRootUser : AuthError := authErr 409 (ascii "No root user available, please create one")

/-- What `EnableAuth` makes of its look at the root user. -/
def lookedAtRoot (x : Response) : Except AuthError Unit :=
  match readUser rootRoleName x with
  | .ok _ => .ok ()
  | .error e => .error (if e = .panic then e else noRootUser)

theorem run_lookAtRoot : (onError (discard (getUser rootRoleName)) (throw noRootUser)).run =
    .request (.get rootPath) fun x => .done (lookedAtRoot x) := by
  refine congrArg (Program.request _) (funext fun x => ?_)
  simp only [Program.bind, Function.comp, ExceptT.bindCont]
  unfold lookedAtRoot
  rcases readUser rootRoleName x with e | u
  · by_cases he : e = .panic
    · subst he
      rfl
    · change (if e = AuthError.panic then throw e else throw noRootUser : Api Unit).run =
        .done (.error (if e = .panic then e else noRootUser))
      rw [if_neg he, if_neg he]
      rfl
  · rfl

theorem careful_of_lookedAtRoot {rest : Api Unit} (h : Asks Unlooking rest.run) :
    Careful (onError (discard (getUser rootRoleName)) (throw noRootUser) >>= fun _ => rest).run ∧
      ¬ MayEnable
        (onError (discard (getUser rootRoleName)) (throw noRootUser) >>= fun _ => rest).run := by
  change Careful (Program.bind (onError _ _).run _) ∧ ¬ MayEnable (Program.bind (onError _ _).run _)
  rw [run_lookAtRoot]
  refine ⟨⟨fun _ _ h => (by cases h), fun _ x h => ?_, fun x => ?_⟩, fun hmay => ?_⟩
  · change MayEnable (ExceptT.bindCont _ (lookedAtRoot x)) at h
    unfold lookedAtRoot at h
    split at h
    · exact exists_of_readUser ‹_›
    · cases h
  · change Careful (ExceptT.bindCont _ (lookedAtRoot x))
    rcases lookedAtRoot x with e | u
    · trivial
    · exact .of_unlooking h
  · cases hmay with
    | later hr _ => exact hr rfl

theorem careful_enableAuth : Careful (enableAuth member).run ∧
    ¬ MayEnable (enableAuth member).run := by
  constructor
  · refine Careful.bind_unlooking (fun r => ?_) (asks_authEnabled.mono unlooking_of_plain)
    rcases r with e | _ | _
    · trivial
    · exact (careful_of_lookedAtRoot asks_enableRest).1
    · trivial
  · refine MayEnable.not_bind (fun r => ?_) (asks_authEnabled.mono quiet_of_plain)
    rcases r with e | _ | _
    · rintro ⟨⟩
    · exact (careful_of_lookedAtRoot asks_enableRest).2
    · rintro ⟨⟩

theorem Job.careful (job : Job Call) : Careful job.program ∧ ¬ MayEnable job.program := by
  have quiet {p : Running} (h : Asks Quiet p) : Careful p ∧ ¬ MayEnable p :=
    ⟨.of_quiet h, MayEnable.not_of_asks h⟩
  obtain ⟨member, hashPassword, call⟩ := job
  cases call with
  | enableAuth => exact careful_enableAuth
  | disableAuth => exact quiet asks_disableAuth
  | createUser user => exact quiet (Asks.bind_except (asks_createUser user) fun _ => trivial)
  | updateUser user => exact quiet (Asks.bind_except (asks_updateUser user) fun _ => trivial)
  | deleteUser name => exact quiet (asks_deleteUser name)

end Call

section Run

/-- The root user's file is removed only with auth off and with no call on its way to turn it on. -/
def SparesRoot (x : World × List Running) (i : ℕ) : Prop :=
  ∀ k, x.2[i]? = some (.request (.delete rootPath) k) →
    ¬ ReportsEnabled x.1 ∧ ∀ p ∈ x.2, ¬ MayEnable p

structure Safe (x : World × List Running) : Prop where
  enabled : x.1.tree.fileAt enabledPath = some (.bool true) → Rooted x.1
  pending : ∀ p ∈ x.2, MayEnable p → Rooted x.1
  careful : ∀ p ∈ x.2, Careful p

variable {s : World} {ps : List Running} {i : ℕ} {r : Request} {k : Response → Running}

theorem Rooted.exec (h : Rooted s) (hr : Decent r) (hdel : r ≠ .delete rootPath) :
    Rooted (s.exec r).1 := by
  rcases s.fileAt_exec r rootPath with hf | ⟨v, prevExist, rfl, hf, -⟩ | ⟨rfl, -⟩
  · obtain ⟨d, hd, hu⟩ := h
    exact ⟨d, hf.trans hd, hu⟩
  · exact ⟨v, hf, hr v prevExist rfl⟩
  · exact absurd rfl hdel

theorem Safe.step (h : Safe (s, ps)) (hi : ps[i]? = some (.request r k))
    (hguard : SparesRoot (s, ps) i) : Safe ((s.exec r).1, ps.set i (k (s.exec r).2)) := by
  have hmem : Program.request r k ∈ ps := List.mem_of_getElem? hi
  have hcareful := h.careful _ hmem
  have keeps (hdel : r ≠ .delete rootPath) (hs : Rooted s) : Rooted (s.exec r).1 :=
    hs.exec hcareful.1 hdel
  -- A program of the new pool on its way to turn auth on.
  have pending : ∀ p ∈ ps.set i (k (s.exec r).2), MayEnable p → Rooted (s.exec r).1 := by
    intro p hp hmay
    by_cases hdel : r = .delete rootPath
    · subst hdel
      have off := (hguard k hi).2
      rcases List.mem_or_eq_of_mem_set hp with hp | rfl
      · exact absurd hmay (off p hp)
      · exact absurd (.later (fun h => (by cases h)) hmay) (off _ hmem)
    rcases List.mem_or_eq_of_mem_set hp with hp | rfl
    · exact keeps hdel (h.pending p hp hmay)
    by_cases hget : r = .get rootPath
    · subst hget
      obtain ⟨d, hd, hu⟩ := hcareful.2.1 rfl _ hmay
      exact ⟨d, look_eq_file_iff.1 hd, hu⟩
    · exact keeps hdel (h.pending _ hmem (.later hget hmay))
  refine ⟨fun hon => ?_, pending, fun p hp => ?_⟩
  · rcases s.fileAt_exec r enabledPath with hf | ⟨v, prevExist, rfl, hf, -⟩ | ⟨rfl, hf⟩
    · have hon' : s.tree.fileAt enabledPath = some (.bool true) := hf.symm.trans hon
      refine keeps (fun hdel => ?_) (h.enabled hon')
      subst hdel
      exact (hguard k hi).1 (reportsEnabled_iff.2 hon')
    · obtain rfl : v = .bool true := Option.some.inj (hf.symm.trans hon)
      exact keeps (fun h => (by cases h)) (h.pending _ hmem .here)
    · cases hf.symm.trans hon
  · rcases List.mem_or_eq_of_mem_set hp with hp | rfl
    · exact h.careful p hp
    · exact hcareful.2.2 _

theorem Safe.start {jobs : List (Job Call)} (hoff : ¬ ReportsEnabled s) :
    Safe (s, jobs.map Job.program) := by
  refine ⟨fun h => absurd (reportsEnabled_iff.2 h) hoff, fun p hp hmay => ?_, fun p hp => ?_⟩
  · obtain ⟨job, -, rfl⟩ := List.mem_map.1 hp
    exact absurd hmay job.careful.2
  · obtain ⟨job, -, rfl⟩ := List.mem_map.1 hp
    exact job.careful.1

def stateAfter (s : World) (jobs : List (Job Call)) (schedule : List ℕ) : World :=
  (Program.interleave World.exec (s, jobs.map Job.program) schedule).1

/-- A keyspace with a root user and a guest role, auth off. -/
def prepared : World :=
  (Program.run World.exec ⟨.empty, fun _ => false⟩ (do
    discard (createUser 0 some { user := rootRoleName, password := ascii "pw" })
    createRole 0 guestRole : Api Unit).run).1

end Run

end EtcdCompat.AuthStore
