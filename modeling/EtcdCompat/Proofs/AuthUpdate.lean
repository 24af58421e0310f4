import EtcdCompat.Proofs.AuthEnable

/-!
# Updates of one user or role

`UpdateUser` and `UpdateRole` read a resource, merge and write it in two requests. Where each write
is what its call would still compute from the resource as stored then, calls that all succeeded
leave the resource as the same calls do one after the other.
-/

namespace EtcdCompat.AuthStore

open List FileTree World

open Program (Asks Guarded)
open GoPath (ascii)
open Auth (rootRoleName)

section Update

/-- What `UpdateUser` writes, from the answer to its read. -/
def mergedUser (user : User) (hashPassword : Bytes → Option Bytes) (x : Response) :
    Except AuthError Doc := do
  let old ← readUser user.user x
  let newUser ← old.merge user hashPassword
  if old = newUser then .error (authErr 400
    (ascii "User not updated. Use grant/revoke/password to update the user."))
  else .ok (.user newUser)

/-- What `UpdateRole` writes, from the answer to its read. -/
def mergedRole (role : Role) (x : Response) : Except AuthError Doc := do
  let old ← readRole role.role x
  let newRole ← old.merge role
  if old = newRole then .error (authErr 400
    (ascii "Role not updated. Use grant/revoke to update the role."))
  else .ok (.role newRole)

/-- What a call writes, from the answer to its read. -/
def Job.newDoc (job : Job UpdateCall) : Response → Except AuthError Doc :=
  match job.call with
  | .user user => mergedUser user job.hashPassword
  | .role role =>
    if role.role = rootRoleName then fun _ => .error (isRootRole role.role) else mergedRole role

/-- The write of a call and what it returns. -/
def writeBack (member : ℕ) (res : Bytes) (d : Doc) : Running :=
  (do orStoreError (← updateResource member res d) : Api Unit).run

/-- The call after its read. -/
def afterRead (member : ℕ) (res : Bytes) : Except AuthError Doc → Running
  | .error e => .done (.error e)
  | .ok d => writeBack member res d

theorem discard_writeBack {α : Type} (member : ℕ) (res : Bytes) (d : Doc) (a : α) :
    (discard (do
      orStoreError (← updateResource member res d)
      pure a : Api α)).run = writeBack member res d := by
  change Program.bind (Program.bind (updateResource member res d).run _) _ = Program.bind _ _
  rw [Program.bind_assoc]
  congr 1
  funext r
  rcases r with e | x
  · rfl
  · cases x <;> rfl

variable {α : Type} [DecidableEq α]

theorem discard_update (member : ℕ) (res : Bytes) (old : Except AuthError α)
    (merge : α → Except AuthError α) (same : AuthError) (doc : α → Doc) :
    (discard (do
      let old ← liftM old
      let new ← liftM (merge old)
      if old = new then throw same
      else
        orStoreError (← updateResource member res (doc new))
        pure new : Api α)).run =
      afterRead member res (do
        let old ← old
        let new ← merge old
        if old = new then .error same else .ok (doc new)) := by
  rcases old with e | old
  · rfl
  change (discard (do
    let new ← liftM (merge old)
    if old = new then throw same
    else
      orStoreError (← updateResource member res (doc new))
      pure new : Api α)).run = afterRead member res (merge old >>= fun new =>
        if old = new then .error same else .ok (doc new))
  rcases merge old with e | new
  · rfl
  change (discard (if old = new then throw same else do
    orStoreError (← updateResource member res (doc new))
    pure new : Api α)).run = afterRead member res (if old = new then .error same else .ok (doc new))
  split_ifs
  · rfl
  · exact discard_writeBack ..

theorem Job.update_eq (job : Job UpdateCall) :
    (job.update = .request (.get (resourcePath job.call.resource)) fun x =>
        afterRead job.member job.call.resource (job.newDoc x)) ∨
      ∃ e, job.update = .done (.error e) ∧ ∀ x, job.newDoc x = .error e := by
  obtain ⟨member, hashPassword, user | role⟩ := job
  · left
    exact congrArg (Program.request _) (funext fun x => discard_update ..)
  change (discard (updateRole member role)).run = _ ∨
    ∃ e, (discard (updateRole member role)).run = _ ∧ _
  unfold updateRole getRole Job.newDoc
  by_cases hroot : role.role = rootRoleName
  · right
    refine ⟨isRootRole role.role, ?_, fun x => ?_⟩
    · rw [if_pos hroot]
      rfl
    · change (if role.role = rootRoleName then _ else mergedRole role) x = _
      rw [if_pos hroot]
  · left
    change _ = Program.request _ fun x => afterRead _ _ ((if role.role = rootRoleName then _ else
      mergedRole role) x)
    rw [if_neg hroot, if_neg hroot, if_neg hroot]
    exact congrArg (Program.request _) (funext fun x => discard_update ..)

theorem exists_of_readRole {name : Bytes} {x : Response} {r : Role} (h : readRole name x = .ok r) :
    ∃ d, x = .file d ∧ d.toRole = some r := by
  unfold readRole at h
  split at h
  · cases h
  · cases h
  · split at h
    · cases h
    · cases h
      exact ⟨_, rfl, ‹_›⟩
  · cases h

theorem mergedRole_of_newDoc {member : ℕ} {hashPassword : Bytes → Option Bytes} {role : Role}
    {x : Response} {v : Doc} (h : Job.newDoc ⟨member, hashPassword, .role role⟩ x = .ok v) :
    mergedRole role x = .ok v := by
  change (if role.role = rootRoleName then _ else mergedRole role) x = _ at h
  split_ifs at h
  exact h

theorem Job.exists_of_newDoc {job : Job UpdateCall} {x : Response} {v : Doc}
    (h : job.newDoc x = .ok v) : ∃ d, x = .file d := by
  obtain ⟨member, hashPassword, user | role⟩ := job
  · obtain ⟨old, hold, -⟩ := exists_ok_of_bind h
    obtain ⟨d, hd, -⟩ := exists_of_readUser hold
    exact ⟨d, hd⟩
  obtain ⟨old, hold, -⟩ := exists_ok_of_bind (mergedRole_of_newDoc h)
  obtain ⟨d, hd, -⟩ := exists_of_readRole hold
  exact ⟨d, hd⟩

end Update

section Pending

/-- The directory of the auth store. -/
def top : List Bytes := [ascii "2"]

/-- `ensureAuthDirectories` goes through: it did, or nothing is in its way. -/
def Ready (member : ℕ) (s : World) : Prop :=
  s.ensuredOnce member = true ∨ s.tree.fileAt top = none

/-- The answer shows that `ensureAuthDirectories` goes through. -/
def Shows (member : ℕ) (r : Request) (x : Response) : Prop :=
  (r = .ensured member ∧ x = .flag true) ∨
    ∃ name, r = .putDir (top ++ [name]) ∧ ∀ e, x = .error e → e = .tree .fileExists

/-- A request that overwrites and removes no file, and creates none in the directory's place. -/
def Tame : Request → Prop
  | .put path _ prevExist => prevExist = false ∧ path ≠ top
  | .delete _ => False
  | _ => True

/-- A call that has not written the resource: it ends without success or comes to its write, where
the resource is known to be there (`E`) and the directories to be ensured (`A`). -/
def Pending (path : List Bytes) (member : ℕ) : Prop → Prop → Running → Prop
  | _, _, .done r => r ≠ .ok ()
  | E, A, .request r k =>
    (Tame r ∧ (r = .get path ∨ E) ∧ (∀ n, r = .setEnsured n → n = member ∧ A) ∧
      ∀ x, Pending path member (E ∨ (r = .get path ∧ ∃ d, x = .file d)) (A ∨ Shows member r x)
        (k x)) ∨
    ∃ v, r = .put path v true ∧ E ∧ A ∧ k .ok = .done (.ok ()) ∧
      ∀ e, Pending path member E A (k (.error e))

namespace Pending

variable {path : List Bytes} {member : ℕ} {f : Except AuthError Unit → Running}

theorem mono : ∀ {E A E' A' : Prop} {p : Running}, (E → E') → (A → A') →
    Pending path member E A p → Pending path member E' A' p
  | _, _, _, _, .done _, _, _, h => h
  | _, _, _, _, .request _ _, hE, hA, h => by
    rcases h with ⟨tame, here, set, h⟩ | ⟨v, hr, e, a, ok, h⟩
    · exact .inl ⟨tame, here.imp id hE, fun n hn => ⟨(set n hn).1, hA (set n hn).2⟩,
        fun x => mono (Or.imp hE id) (Or.imp hA id) (h x)⟩
    · exact .inr ⟨v, hr, hE e, hA a, ok, fun e => mono hE hA (h e)⟩

variable {E A : Prop}

theorem putDir {dir : List Bytes} {k : Response → Running} (hE : E)
    (h : ∀ x, Pending path member E (A ∨ Shows member (.putDir dir) x) (k x)) :
    Pending path member E A (.request (.putDir dir) k) :=
  .inl ⟨trivial, .inr hE, fun _ h => (by cases h), fun x => (h x).mono Or.inl id⟩

theorem ensureDirectory {dir : Bytes} (hE : E) (herr : ∀ e, Pending path member E A (f (.error e)))
    (hok : Pending path member E (A ∨ ∃ name, elements (GoPath.clean dir) = top ++ [name])
      (f (.ok ()))) : Pending path member E A ((ensureDirectory dir).run.bind f) := by
  refine putDir hE fun x => ?_
  have passed (hx : ∀ e, x = .error e → e = .tree .fileExists) : Pending path member E
      (A ∨ Shows member (.putDir (elements (GoPath.clean dir))) x) (f (.ok ())) := by
    refine hok.mono id (Or.imp id ?_)
    rintro ⟨name, hname⟩
    exact .inr ⟨name, congrArg _ hname, hx⟩
  have failed (e : AuthError) : Pending path member E
      (A ∨ Shows member (.putDir (elements (GoPath.clean dir))) x) (f (.error e)) :=
    (herr e).mono id Or.inl
  rcases x with d | _ | _ | ((_ | _ | _ | _) | _) | b
  case error.tree.fileExists => exact passed fun e h => (Response.error.inj h).symm
  all_goals first | exact failed _ | exact passed fun _ h => (by cases h)

theorem markEnsured (hE : E) (herr : ∀ e, Pending path member E True (f (.error e)))
    (hok : Pending path member E True (f (.ok ()))) (x : Response) :
    Pending path member E True ((markEnsured member x).run.bind f) := by
  have marked : Pending path member E True
      ((discard (send (.setEnsured member)) : Api Unit).run.bind f) :=
    .inl ⟨trivial, .inr hE, fun _ h => ⟨(Request.setEnsured.inj h).symm, trivial⟩,
      fun _ => hok.mono Or.inl Or.inl⟩
  unfold AuthStore.markEnsured
  split
  · exact marked
  · exact herr _
  · exact marked

theorem createAuthDirectories (hE : E) (herr : ∀ e, Pending path member E A (f (.error e)))
    (hok : Pending path member E True (f (.ok ()))) :
    Pending path member E A ((createAuthDirectories member).run.bind f) := by
  have failed (e : AuthError) : Pending path member E True (f (.error e)) :=
    (herr e).mono id fun _ => trivial
  change Pending _ _ _ _ (Program.bind (ExceptT.run (_ >>= _)) f)
  rw [Program.run_bind_except]
  refine ensureDirectory hE herr ?_
  change Pending _ _ _ _ (Program.bind (ExceptT.run (_ >>= _)) f)
  rw [Program.run_bind_except]
  refine ensureDirectory hE (fun e => (herr e).mono id Or.inl) ?_
  change Pending _ _ _ _ (Program.bind (ExceptT.run (_ >>= _)) f)
  rw [Program.run_bind_except]
  have known {A' : Prop} {p : Running} (h : Pending path member E True p) : Pending path member E
      (A' ∨ ∃ name, elements (GoPath.clean (storePermsPrefix ++ ascii "/users/")) =
        top ++ [name]) p :=
    h.mono id fun _ => .inr ⟨ascii "users", by decide⟩
  refine known (ensureDirectory hE failed ?_)
  exact .inl ⟨⟨rfl, by decide⟩, .inr hE, fun _ h => (by cases h),
    fun x => (markEnsured hE failed hok x).mono Or.inl fun _ => .inl (.inl trivial)⟩

theorem ensureAuthDirectories (hE : E) (herr : ∀ e, Pending path member E A (f (.error e)))
    (hok : Pending path member E True (f (.ok ()))) :
    Pending path member E A ((ensureAuthDirectories member).run.bind f) := by
  refine .inl ⟨trivial, .inr hE, fun _ h => (by cases h), fun x => ?_⟩
  have chain := createAuthDirectories hE herr hok
  rcases x with d | _ | _ | e | _ | _
  case flag.true => exact hok.mono Or.inl fun _ => .inr (.inl ⟨rfl, rfl⟩)
  all_goals exact chain.mono Or.inl Or.inl

theorem writeBack {res : Bytes} (hE : E) (d : Doc) :
    Pending (resourcePath res) member E A (writeBack member res d) := by
  change Pending _ _ _ _ (Program.bind (ExceptT.run (_ >>= _)) _)
  rw [Program.run_bind_except]
  refine ensureAuthDirectories hE (fun e h => (by cases h)) ?_
  exact .inr ⟨d, rfl, hE, trivial, rfl, fun e h => (by cases h)⟩

theorem update (job : Job UpdateCall) :
    Pending (resourcePath job.call.resource) job.member False A job.update := by
  rcases job.update_eq with h | ⟨e, h, -⟩
  swap
  · rw [h]
    exact fun h => (by cases h)
  rw [h]
  refine .inl ⟨trivial, .inl rfl, fun _ h => (by cases h), fun x => ?_⟩
  change Pending _ _ _ _ (afterRead _ _ (job.newDoc x))
  rcases hx : job.newDoc x with e | d
  · exact fun h => (by cases h)
  · exact writeBack (.inr ⟨rfl, Job.exists_of_newDoc hx⟩) d

end Pending

end Pending

section Turn

/-- The calls one after the other, with what each returns. -/
def inTurn : World → List (Job UpdateCall) → World × List (Except AuthError Unit)
  | s, [] => (s, [])
  | s, job :: jobs =>
    let first := Program.run World.exec s job.update
    let rest := inTurn first.1 jobs
    (rest.1, first.2 :: rest.2)

theorem inTurn_append (s : World) (jobs' : List (Job UpdateCall)) : ∀ jobs : List (Job UpdateCall),
    inTurn s (jobs ++ jobs') = ((inTurn (inTurn s jobs).1 jobs').1,
      (inTurn s jobs).2 ++ (inTurn (inTurn s jobs).1 jobs').2) := by
  intro jobs
  induction jobs generalizing s with
  | nil => rfl
  | cons job jobs ih => simp [inTurn, ih]

variable {w : World} {path : List Bytes} {d : Doc} {member : ℕ} {r : Request}

theorem Tame.fileAt (h : Tame r) (hd : w.tree.fileAt path = some d) :
    (w.exec r).1.tree.fileAt path = some d := by
  rcases w.fileAt_exec r path with hf | ⟨v, prevExist, rfl, -, hnone⟩ | ⟨rfl, -⟩
  · exact hf.trans hd
  · cases (hnone h.1).symm.trans hd
  · exact h.elim

theorem Tame.fileAt_top (h : Tame r) : (w.exec r).1.tree.fileAt top = w.tree.fileAt top := by
  rcases w.fileAt_exec r top with hf | ⟨v, prevExist, rfl, -⟩ | ⟨rfl, -⟩
  · exact hf
  · exact absurd rfl h.2
  · exact h.elim

theorem World.change_create {node : FileTree Bytes Doc} {dir : List Bytes}
    (hroot : ∃ entries, w.tree = .dir entries) (htop : w.tree.fileAt top = none)
    (hdir : dir = top ∨ ∃ name, dir = top ++ [name]) :
    (w.change dir (create node w.tree)).2 = .ok ∨
      (w.change dir (create node w.tree)).2 = .error (.tree .fileExists) := by
  obtain ⟨entries, hroot⟩ := hroot
  rw [hroot] at htop ⊢
  have hcreate : (∃ t, create node (.dir entries) dir = .ok t) ∨
      create node (.dir entries) dir = .error .fileExists := by
    rcases hdir with rfl | ⟨name, rfl⟩
    · exact create_one node entries _
    · exact create_two node htop name
  have hread : ¬ readonly dir := by
    rcases hdir with rfl | ⟨name, rfl⟩
    · decide
    · simp [readonly, top]
  unfold change
  rw [if_neg hread]
  rcases hcreate with ⟨t, ht⟩ | ht
  · rw [ht]
    exact .inl rfl
  · rw [ht]
    exact .inr rfl

/-- The resource is there, and nothing is in the way of the directories. -/
structure Clear (path : List Bytes) (d : Doc) (w : World) : Prop where
  below : path ≠ []
  file : w.tree.fileAt path = some d
  top : w.tree.fileAt top = none

namespace Clear

variable (h : Clear path d w)
include h

theorem exists_dir : ∃ entries, w.tree = .dir entries := by
  obtain ⟨below, file, -⟩ := h
  rcases path with _ | ⟨name, path⟩
  · exact absurd rfl below
  rcases hw : w.tree with v | entries
  · rw [hw] at file
    cases file
  · exact ⟨entries, rfl⟩

theorem exec (hr : Tame r) : Clear path d (w.exec r).1 :=
  ⟨h.below, hr.fileAt h.file, hr.fileAt_top.trans h.top⟩

theorem ensureDirectory (dir : Bytes)
    (hdir : elements (GoPath.clean dir) = AuthStore.top ∨
      ∃ name, elements (GoPath.clean dir) = AuthStore.top ++ [name]) :
    Program.run World.exec w (ensureDirectory dir).run =
      ((w.exec (.putDir (elements (GoPath.clean dir)))).1, .ok ()) := by
  change Program.run World.exec _ (ExceptT.bindCont _ (.ok (w.change _ _).2)) = _
  rcases @World.change_create w .empty _ h.exists_dir h.top hdir with hx | hx
  · rw [hx]
    rfl
  · rw [hx]
    rfl

theorem createAuthDirectories (member : ℕ) :
    ∃ w', Program.run World.exec w (createAuthDirectories member).run = (w', .ok ()) ∧
      Clear path d w' := by
  have users : elements (GoPath.clean (storePermsPrefix ++ ascii "/users/")) =
    AuthStore.top ++ [ascii "users"] := by decide
  have roles : elements (GoPath.clean (storePermsPrefix ++ ascii "/roles/")) =
    AuthStore.top ++ [ascii "roles"] := by decide
  have run₁ := h.ensureDirectory storePermsPrefix (.inl (by decide))
  have h₁ := h.exec (r := .putDir (elements (GoPath.clean storePermsPrefix))) trivial
  generalize (w.exec (.putDir (elements (GoPath.clean storePermsPrefix)))).1 = w₁ at run₁ h₁
  have run₂ := h₁.ensureDirectory _ (.inr ⟨_, users⟩)
  have h₂ := h₁.exec
    (r := .putDir (elements (GoPath.clean (storePermsPrefix ++ ascii "/users/")))) trivial
  generalize (w₁.exec (.putDir _)).1 = w₂ at run₂ h₂
  have run₃ := h₂.ensureDirectory _ (.inr ⟨_, roles⟩)
  have h₃ := h₂.exec
    (r := .putDir (elements (GoPath.clean (storePermsPrefix ++ ascii "/roles/")))) trivial
  generalize (w₂.exec (.putDir _)).1 = w₃ at run₃ h₃
  let put : Request :=
    .put (elements (storePermsPrefix ++ ascii "/enabled")) (.bool false) false
  have h₄ : Clear path d (w₃.exec put).1 := h₃.exec ⟨rfl, by decide⟩
  refine ⟨((w₃.exec put).1.exec (.setEnsured member)).1, ?_, h₄.exec trivial⟩
  refine (Program.run_bind_ok _ run₁).trans ?_
  refine (Program.run_bind_ok _ run₂).trans ?_
  refine (Program.run_bind_ok _ run₃).trans ?_
  change Program.run _ (w₃.exec put).1 (markEnsured member (w₃.exec put).2).run = _
  rcases World.change_create h₃.exists_dir h₃.top
    (show _ ∨ _ from .inr ⟨ascii "enabled", rfl⟩) with hx | hx
  · rw [show (w₃.exec put).2 = _ from hx]
    rfl
  · rw [show (w₃.exec put).2 = _ from hx]
    rfl

end Clear

theorem Ready.ensureAuthDirectories (hready : Ready member w) (hpath : path ≠ [])
    (hd : w.tree.fileAt path = some d) :
    ∃ w', Program.run World.exec w (ensureAuthDirectories member).run = (w', .ok ()) ∧
      w'.tree.fileAt path = some d ∧ ∀ n, Ready n w → Ready n w' := by
  have hrun : Program.run World.exec w (send (.ensured member)).run =
    (w, .ok (.flag (w.ensuredOnce member))) := rfl
  rcases hflag : w.ensuredOnce member with _ | _
  · have htop : w.tree.fileAt top = none := hready.resolve_left (by rw [hflag]; decide)
    obtain ⟨w', hw', hclear⟩ := Clear.createAuthDirectories ⟨hpath, hd, htop⟩ member
    refine ⟨w', (Program.run_bind_ok _ hrun).trans ?_, hclear.file, fun n _ => .inr hclear.top⟩
    rw [hflag]
    exact hw'
  · refine ⟨w, (Program.run_bind_ok _ hrun).trans ?_, hd, fun n h => h⟩
    rw [hflag]
    rfl

theorem Ready.update {job : Job UpdateCall} {v : Doc} (hready : Ready job.member w)
    (hread : readonly (resourcePath job.call.resource) = false)
    (hd : w.tree.fileAt (resourcePath job.call.resource) = some d)
    (hnew : job.newDoc (.file d) = .ok v) :
    ∃ w', Program.run exec w job.update = (w', .ok ()) ∧
      w'.tree.fileAt (resourcePath job.call.resource) = some v ∧
      ∀ n, Ready n w → Ready n w' := by
  rcases job.update_eq with hjob | ⟨e, -, herr⟩
  swap
  · cases (herr _).symm.trans hnew
  have hpath : resourcePath job.call.resource ≠ [] := by
    intro h
    rw [h] at hread
    cases hread
  obtain ⟨w₁, hrun, hd₁, hready₁⟩ := hready.ensureAuthDirectories hpath hd
  obtain ⟨t, ht⟩ := exists_write v hd₁
  have hput : w₁.exec (.put (resourcePath job.call.resource) v true) =
      ({ w₁ with tree := t }, .ok) := by
    change w₁.change _ (write v w₁.tree) = _
    unfold change
    rw [hread, ht]
    rfl
  refine ⟨{ w₁ with tree := t }, ?_, ?_, fun n hn => (hready₁ n hn).imp id fun htop => ?_⟩
  · rw [hjob]
    change Program.run exec w (afterRead _ _ (job.newDoc (w.look _))) = _
    rw [look_eq_file_iff.2 hd, hnew]
    refine Program.run_bind_ok (a := Response.ok) _ ((Program.run_bind_ok _ hrun).trans ?_)
    change ((w₁.exec _).1, Except.ok (w₁.exec _).2) = _
    rw [hput]
  · rw [fileAt_write ht, if_pos rfl]
  · rw [fileAt_write ht]
    split_ifs with h
    · rw [← h, htop] at hd₁
      cases hd₁
    · exact htop

end Turn

section Order

variable {s : World} {r : Request} {m : ℕ}

/-- The write is what its call would still make of the resource as it is now. -/
def Fresh (jobs : List (Job UpdateCall)) (path : List Bytes) (x : World × List Running) (i : ℕ) :
    Prop :=
  ∀ job v k, jobs[i]? = some job → x.2[i]? = some (.request (.put path v true) k) →
    job.newDoc (x.1.look path) = .ok v

theorem filterMap_range {α : Type} (l : List α) :
    (range l.length).filterMap (l[·]?) = l := by
  induction l with
  | nil => rfl
  | cons a l ih =>
    rw [length_cons, range_succ_eq_map, filterMap_cons_some getElem?_cons_zero, filterMap_map]
    exact congrArg (a :: ·) ih

/-- The calls in `written`, by their positions, have written in this order and returned; the others
have not written. -/
structure Ordered (jobs : List (Job UpdateCall)) (path : List Bytes) (s₀ : World)
    (written : List ℕ) (x : World × List Running) : Prop where
  nodup : written.Nodup
  length : x.2.length = jobs.length
  returned : ∀ i ∈ written, x.2[i]? = some (.done (.ok ()))
  pending : ∀ i p job, i ∉ written → x.2[i]? = some p → jobs[i]? = some job →
    Pending path job.member ((s₀.tree.fileAt path).isSome) (Ready job.member s₀) p
  present : (x.1.tree.fileAt path).isSome = (s₀.tree.fileAt path).isSome
  top : x.1.tree.fileAt top = none → s₀.tree.fileAt top = none
  ensured : ∀ m, x.1.ensuredOnce m = true → Ready m s₀
  succeed : ∀ r ∈ (inTurn s₀ (written.filterMap (jobs[·]?))).2, r = .ok ()
  same : (inTurn s₀ (written.filterMap (jobs[·]?))).1.tree.fileAt path = x.1.tree.fileAt path
  ready : ∀ m, Ready m s₀ → Ready m (inTurn s₀ (written.filterMap (jobs[·]?))).1

theorem World.ensuredOnce_change (s : World) (path : List Bytes)
    (f : List Bytes → Except FileTree.Error (FileTree Bytes Doc)) :
    (s.change path f).1.ensuredOnce = s.ensuredOnce := by
  unfold change
  split_ifs
  · rfl
  · split <;> rfl

theorem World.ensuredOnce_exec (h : (s.exec r).1.ensuredOnce m = true) :
    s.ensuredOnce m = true ∨ r = .setEnsured m := by
  rcases r with path | path | ⟨path, v, _ | _⟩ | path | n | n
  case setEnsured =>
    by_cases hn : m = n
    · exact .inr (congrArg _ hn.symm)
    · left
      change Function.update s.ensuredOnce n true m = true at h
      rwa [Function.update_of_ne hn] at h
  all_goals exact .inl (by simpa only [exec, ensuredOnce_change] using h)

theorem Shows.ready (h : Shows m r (s.exec r).2) : Ready m s := by
  rcases h with ⟨rfl, hx⟩ | ⟨name, rfl, hx⟩
  · exact .inl (Response.flag.inj hx)
  · right
    rcases htop : s.tree.fileAt top with _ | v
    · rfl
    have hfail : (s.exec (.putDir (top ++ [name]))).2 = .error (.tree .notDir) := by
      change (s.change _ _).2 = _
      unfold change
      rw [if_neg (by simp [readonly, top]), show top ++ [name] = [ascii "2", name] from rfl,
        create_below_file htop name]
    cases hx _ hfail

namespace Ordered

variable {jobs : List (Job UpdateCall)} {path : List Bytes} {s₀ s : World} {written : List ℕ}
  {ps : List Running} {i : ℕ} {r : Request} {k : Response → Running} {job : Job UpdateCall}

section

variable (h : Ordered jobs path s₀ written (s, ps))
include h

theorem not_mem_written (hi : ps[i]? = some (.request r k)) : i ∉ written := by
  intro hw
  cases hi.symm.trans (h.returned i hw)

theorem set (hi : i ∉ written) {p : Running} (hjob : jobs[i]? = some job)
    (hp : Pending path job.member (s₀.tree.fileAt path).isSome (Ready job.member s₀) p) :
    Ordered jobs path s₀ written (s, ps.set i p) := by
  refine { h with
    length := by rw [length_set]; exact h.length
    returned := fun j hj => ?_
    pending := fun j p' job' hj hp' hjob' => ?_ }
  · rw [getElem?_set_ne (by rintro rfl; exact hi hj)]
    exact h.returned j hj
  · by_cases hij : i = j
    · subst hij
      cases hjob.symm.trans hjob'
      obtain rfl : p' = p := by
        rw [getElem?_set, if_pos rfl] at hp'
        split_ifs at hp'
        exact (Option.some.inj hp').symm
      exact hp
    · rw [getElem?_set_ne hij] at hp'
      exact h.pending j p' job' hj hp' hjob'

theorem tame (hi : ps[i]? = some (.request r k)) (hjob : jobs[i]? = some job) (hr : Tame r)
    (hpath : r = .get path ∨ (s₀.tree.fileAt path).isSome)
    (hset : ∀ n, r = .setEnsured n → n = job.member ∧ Ready job.member s₀)
    (hk : ∀ x, Pending path job.member
      ((s₀.tree.fileAt path).isSome ∨ (r = .get path ∧ ∃ d, x = .file d))
      (Ready job.member s₀ ∨ Shows job.member r x) (k x)) :
    Ordered jobs path s₀ written ((s.exec r).1, ps.set i (k (s.exec r).2)) := by
  have hfile : (s.exec r).1.tree.fileAt path = s.tree.fileAt path := by
    rcases hpath with rfl | hsome
    · rfl
    · rw [← h.present] at hsome
      obtain ⟨d, hd⟩ := Option.isSome_iff_exists.1 hsome
      rw [hd]
      exact hr.fileAt hd
  have hworld : Ordered jobs path s₀ written ((s.exec r).1, ps) := by
    refine { h with
      present := by rw [hfile]; exact h.present
      top := fun htop => h.top (hr.fileAt_top.symm.trans htop)
      ensured := fun m hm => ?_
      same := h.same.trans hfile.symm }
    rcases ensuredOnce_exec hm with hm | rfl
    · exact h.ensured m hm
    · obtain ⟨rfl, hready⟩ := hset m rfl
      exact hready
  refine hworld.set (h.not_mem_written hi) hjob ((hk _).mono ?_ ?_)
  · rintro (hsome | ⟨rfl, d, hd⟩)
    · exact hsome
    · rw [← h.present, look_eq_file_iff.1 hd]
      rfl
  · rintro (hready | hshows)
    · exact hready
    rcases hshows.ready with hflag | htop
    · exact h.ensured _ hflag
    · exact .inr (h.top htop)

theorem wrote {v : Doc} (hi : ps[i]? = some (.request (.put path v true) k))
    (hjob : jobs[i]? = some job) (hres : resourcePath job.call.resource = path)
    (hready : Ready job.member s₀) (hfresh : job.newDoc (s.look path) = .ok v)
    (hok : k .ok = .done (.ok ())) {t : FileTree Bytes Doc} (hread : readonly path = false)
    (ht : write v s.tree path = .ok t) :
    Ordered jobs path s₀ (written ++ [i]) ({ s with tree := t }, ps.set i (k .ok)) := by
  have hlt : i < ps.length := (List.getElem?_eq_some_iff.1 hi).1
  have hnot := h.not_mem_written hi
  obtain ⟨d, hd⟩ := Job.exists_of_newDoc hfresh
  rw [hd] at hfresh
  have hd : s.tree.fileAt path = some d := look_eq_file_iff.1 hd
  obtain ⟨w', hrun, hfile, hready'⟩ := (h.ready _ hready).update (hres ▸ hread)
    (by rw [hres]; exact h.same.trans hd) hfresh
  have hturn : inTurn s₀ ((written ++ [i]).filterMap (jobs[·]?)) =
      (w', (inTurn s₀ (written.filterMap (jobs[·]?))).2 ++ [.ok ()]) := by
    rw [List.filterMap_append, inTurn_append, List.filterMap_cons_some hjob, List.filterMap_nil]
    simp only [inTurn, hrun]
  have hnew : ∀ q, t.fileAt q = if q = path then some v else s.tree.fileAt q :=
    fileAt_write ht
  refine ⟨?_, by rw [List.length_set]; exact h.length, fun j hj => ?_,
    fun j p job' hj hp hjob' => ?_,
    ?_, fun htop => ?_, h.ensured, ?_, ?_, ?_⟩
  · exact List.nodup_append.2 ⟨h.nodup, List.nodup_singleton i, fun a ha b hb hab => hnot (by
      rw [← List.mem_singleton.1 hb, ← hab]
      exact ha)⟩
  · rcases List.mem_append.1 hj with hj | hj
    · rw [List.getElem?_set_ne (by rintro rfl; exact hnot hj)]
      exact h.returned j hj
    · rw [List.mem_singleton.1 hj, List.getElem?_set_self hlt, hok]
  · rw [List.mem_append, List.mem_singleton, not_or] at hj
    rw [List.getElem?_set_ne (Ne.symm hj.2)] at hp
    exact h.pending j p job' hj.1 hp hjob'
  · rw [← h.present, hd]
    rw [hnew, if_pos rfl]
    rfl
  · rw [hnew] at htop
    split_ifs at htop
    exact h.top htop
  · rw [hturn]
    intro r hr
    rcases List.mem_append.1 hr with hr | hr
    · exact h.succeed r hr
    · exact List.mem_singleton.1 hr
  · rw [hturn]
    rw [hnew, if_pos rfl, ← hres]
    exact hfile
  · rw [hturn]
    exact fun m hm => hready' m (h.ready m hm)

theorem step (hone : ∀ job ∈ jobs,
    resourcePath job.call.resource = path) (hi : ps[i]? = some (.request r k))
    (hfresh : Fresh jobs path (s, ps) i) :
    ∃ written', Ordered jobs path s₀ written' ((s.exec r).1, ps.set i (k (s.exec r).2)) := by
  have hlt : i < jobs.length := h.length ▸ (List.getElem?_eq_some_iff.1 hi).1
  have hnot := h.not_mem_written hi
  obtain ⟨job, hjob⟩ : ∃ job, jobs[i]? = some job := ⟨_, List.getElem?_eq_getElem hlt⟩
  rcases h.pending i _ job hnot hi hjob with
    ⟨tame, here, set, hk⟩ | ⟨v, rfl, -, hready, hok, herr⟩
  · exact ⟨written, h.tame hi hjob tame here set hk⟩
  change ∃ _, Ordered _ _ _ _ ((s.change path (write v s.tree)).1,
    ps.set i (k (s.change path (write v s.tree)).2))
  unfold change
  rcases hread : readonly path with _ | _
  · rcases ht : write v s.tree path with e | t
    · exact ⟨written, h.set hnot hjob (herr _)⟩
    · exact ⟨_, h.wrote hi hjob (hone job (List.mem_of_getElem? hjob)) hready
        (hfresh job v k hjob hi) hok hread ht⟩
  · exact ⟨written, h.set hnot hjob (herr _)⟩

end

theorem start (hone : ∀ job ∈ jobs, resourcePath job.call.resource = path) :
    Ordered jobs path s₀ [] (s₀, jobs.map Job.update) := by
  refine ⟨nodup_nil, length_map _, fun i hi => (by cases hi), fun i p job _ hp hjob => ?_,
    rfl, id, fun m hm => .inl hm, fun r hr => (by cases hr), rfl, fun m hm => hm⟩
  rw [getElem?_map, hjob] at hp
  cases hp
  rw [← hone job (mem_of_getElem? hjob)]
  exact (Pending.update job).mono False.elim id

theorem perm (h : Ordered jobs path s₀ written (s, ps)) (hdone : ∀ p ∈ ps, p = .done (.ok ())) :
    (written.filterMap (jobs[·]?)).Perm jobs := by
  have hall : written.Perm (List.range jobs.length) := by
    refine (List.perm_ext_iff_of_nodup h.nodup List.nodup_range).2 fun i => ?_
    rw [List.mem_range, ← h.length]
    refine ⟨fun hi => (List.getElem?_eq_some_iff.1 (h.returned i hi)).1, fun hi => ?_⟩
    by_contra hnot
    have hpending := h.pending i _ _ hnot (List.getElem?_eq_getElem hi)
      (List.getElem?_eq_getElem (h.length ▸ hi))
    rw [hdone _ (List.getElem_mem hi)] at hpending
    exact hpending rfl
  refine (hall.filterMap _).trans (.of_eq ?_)
  exact filterMap_range jobs

end Ordered

def updatesAfter (s : World) (jobs : List (Job UpdateCall)) (schedule : List ℕ) :
    World × List Running :=
  Program.interleave World.exec (s, jobs.map Job.update) schedule

theorem updates_equal_some_order (s : World) (jobs : List (Job UpdateCall)) (res : Bytes)
    (hone : ∀ job ∈ jobs, job.call.resource = res) (schedule : List ℕ)
    (hfresh : Guarded World.exec (Fresh jobs (resourcePath res)) (s, jobs.map Job.update) schedule)
    (hdone : ∀ p ∈ (updatesAfter s jobs schedule).2, p = .done (.ok ())) :
    ∃ order : List (Job UpdateCall), order.Perm jobs ∧
      (∀ r ∈ (inTurn s order).2, r = .ok ()) ∧
      (updatesAfter s jobs schedule).1.tree.fileAt (resourcePath res) =
        (inTurn s order).1.tree.fileAt (resourcePath res) := by
  have hone' : ∀ job ∈ jobs, resourcePath job.call.resource = resourcePath res :=
    fun job hjob => congrArg _ (hone job hjob)
  have hinv : ∃ written, Ordered jobs (resourcePath res) s written
      (updatesAfter s jobs schedule) := by
    refine Program.interleave_inv (I := fun x => ∃ written, Ordered jobs _ s written x)
      (fun s' ps i r k h hi hguard => ?_) ⟨[], .start hone'⟩ hfresh
    obtain ⟨written, h⟩ := h
    exact h.step hone' hi hguard
  obtain ⟨written, h⟩ := hinv
  exact ⟨_, h.perm hdone, h.succeed, h.same.symm⟩

def shared : World :=
  (Program.run World.exec ⟨.empty, fun _ => false⟩ (do
    discard (createUser 0 some { user := ascii "u", password := ascii "pw" })
    createRole 0 { role := ascii "r" } : Api Unit).run).1

def granting (role : String) : Job UpdateCall :=
  ⟨0, some, .user { user := ascii "u", grant := [ascii role] }⟩

def permitting (key : String) : Job UpdateCall :=
  ⟨0, some, .role { role := ascii "r", grant := some ⟨some [ascii key], none⟩ }⟩

theorem updates_equal_some_order_twice :
    ∃ order : List (Job UpdateCall), order.Perm [granting "a", granting "b"] ∧
      (∀ r ∈ (inTurn shared order).2, r = .ok ()) ∧
      (updatesAfter shared [granting "a", granting "b"] [0, 0, 0, 1, 1, 1]).1.tree.fileAt
        (resourcePath (userResource (ascii "u"))) =
        (inTurn shared order).1.tree.fileAt (resourcePath (userResource (ascii "u"))) := by
  refine updates_equal_some_order shared [granting "a", granting "b"] (userResource (ascii "u"))
    ?_ [0, 0, 0, 1, 1, 1] ⟨?_, ?_, ?_, ?_, ?_, ?_, trivial⟩ ?_
  · decide
  · rintro job v k _ ⟨⟩
  · rintro job v k _ ⟨⟩
  · rintro job v k ⟨⟩ ⟨⟩
    rfl
  · rintro job v k _ ⟨⟩
  · rintro job v k _ ⟨⟩
  · rintro job v k ⟨⟩ ⟨⟩
    rfl
  · have hend : (updatesAfter shared [granting "a", granting "b"] [0, 0, 0, 1, 1, 1]).2 =
        [.done (.ok ()), .done (.ok ())] := rfl
    rw [hend]
    simp

/-- Both calls succeed, and the resource is as neither order leaves it. -/
theorem updates_lost :
    ((updatesAfter shared [granting "a", granting "b"] [0, 1, 0, 0, 1, 1]).2 =
        [.done (.ok ()), .done (.ok ())] ∧
      ∀ order ∈ [[granting "a", granting "b"], [granting "b", granting "a"]],
        (updatesAfter shared [granting "a", granting "b"] [0, 1, 0, 0, 1, 1]).1.tree.fileAt
          (resourcePath (userResource (ascii "u"))) ≠
          (inTurn shared order).1.tree.fileAt (resourcePath (userResource (ascii "u")))) ∧
    (updatesAfter shared [permitting "a", permitting "b"] [0, 1, 0, 0, 1, 1]).2 =
        [.done (.ok ()), .done (.ok ())] ∧
      ∀ order ∈ [[permitting "a", permitting "b"], [permitting "b", permitting "a"]],
        (updatesAfter shared [permitting "a", permitting "b"] [0, 1, 0, 0, 1, 1]).1.tree.fileAt
          (resourcePath (roleResource (ascii "r"))) ≠
          (inTurn shared order).1.tree.fileAt (resourcePath (roleResource (ascii "r"))) := by
  refine ⟨⟨rfl, ?_⟩, rfl, ?_⟩
  · decide +kernel
  · decide +kernel

end Order

end EtcdCompat.AuthStore
