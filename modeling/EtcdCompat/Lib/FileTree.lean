import Mathlib.Logic.Function.Basic
import EtcdCompat.Lib.Outcome

/-!
# Trees of files

A directory has its entries by name, a file its value. A file is created with the directories on its
way, written over or removed. What is seen of a tree is the value at each path (`fileAt`), and each
of these changes it at its own path only.
-/

inductive FileTree (κ V : Type) where
  | file (v : V)
  | dir (entries : κ → Option (FileTree κ V))

namespace FileTree

open Option

variable {κ V : Type}

inductive Error where
  | notFound
  | notDir
  | notFile
  | fileExists
deriving DecidableEq, Repr

def empty : FileTree κ V := .dir fun _ => none

def value : FileTree κ V → Option V
  | .file v => some v
  | .dir _ => none

def find : FileTree κ V → List κ → Except Error (FileTree κ V)
  | t, [] => .ok t
  | .file _, _ :: _ => .error .notDir
  | .dir entries, name :: path => match entries name with
    | none => .error .notFound
    | some t => find t path

variable [DecidableEq κ] in
/-- The node at a path in directories of its own. -/
def nest (node : FileTree κ V) : List κ → FileTree κ V
  | [] => node
  | name :: path => .dir (Function.update (fun _ => none) name (some (nest node path)))

variable [DecidableEq κ] in
def create (node : FileTree κ V) : FileTree κ V → List κ → Except Error (FileTree κ V)
  | _, [] => .error .fileExists
  | .file _, _ :: _ => .error .notDir
  | .dir entries, name :: path => match entries name with
    | none => .ok (.dir (Function.update entries name (some (nest node path))))
    | some t => do
      let t ← create node t path
      .ok (.dir (Function.update entries name (some t)))

variable [DecidableEq κ] in
def write (v : V) : FileTree κ V → List κ → Except Error (FileTree κ V)
  | .file _, [] => .ok (.file v)
  | .dir _, [] => .error .notFile
  | .file _, _ :: _ => .error .notDir
  | .dir entries, name :: path => match entries name with
    | none => .error .notFound
    | some t => do
      let t ← write v t path
      .ok (.dir (Function.update entries name (some t)))

variable [DecidableEq κ] in
def remove : FileTree κ V → List κ → Except Error (FileTree κ V)
  | _, [] => .error .notFile
  | .file _, _ :: _ => .error .notDir
  | .dir entries, name :: path => match entries name with
    | none => .error .notFound
    | some (.file _) =>
      if path = [] then .ok (.dir (Function.update entries name none)) else .error .notDir
    | some (.dir entries') => do
      let t ← remove (.dir entries') path
      .ok (.dir (Function.update entries name (some t)))

def fileAt (t : FileTree κ V) (path : List κ) : Option V := (t.find path).toOption.bind value

@[simp]
theorem fileAt_nil (t : FileTree κ V) : t.fileAt [] = t.value := rfl

@[simp]
theorem fileAt_file_cons (v : V) (name : κ) (path : List κ) :
    (FileTree.file v).fileAt (name :: path) = none := rfl

@[simp]
theorem fileAt_dir_cons (entries : κ → Option (FileTree κ V)) (name : κ) (path : List κ) :
    (FileTree.dir entries).fileAt (name :: path) = (entries name).bind (·.fileAt path) := by
  cases h : entries name <;> simp [fileAt, find, h, Except.toOption]

theorem find_eq_file_iff {t : FileTree κ V} {path : List κ} {v : V} :
    t.find path = .ok (.file v) ↔ t.fileAt path = some v := by
  unfold fileAt
  rcases t.find path with e | _ | _ <;> simp [Except.toOption, value]

section Change

variable [DecidableEq κ] {entries : κ → Option (FileTree κ V)} {node : FileTree κ V} {a : κ}

theorem fileAt_update (entries : κ → Option (FileTree κ V)) (name : κ) (t : FileTree κ V)
    (at' : κ) (path : List κ) :
    (FileTree.dir (Function.update entries name (some t))).fileAt (at' :: path) =
      if at' = name then t.fileAt path else (FileTree.dir entries).fileAt (at' :: path) := by
  by_cases h : at' = name
  · subst h
    simp
  · simp [h]

theorem fileAt_update_of {name : κ} {t : FileTree κ V} {path : List κ} {x : Option V}
    (h : ∀ q, t.fileAt q = if q = path then x else (entries name).bind (·.fileAt q)) :
    ∀ q, (FileTree.dir (Function.update entries name (some t))).fileAt q =
      if q = name :: path then x else (FileTree.dir entries).fileAt q
  | [] => rfl
  | at' :: q => by
    rw [fileAt_update, h q]
    by_cases hat : at' = name
    · subst hat
      simp
    · simp [hat]

theorem fileAt_nest (hnode : ∀ path, path ≠ [] → node.fileAt path = none) :
    ∀ path q : List κ, (nest node path).fileAt q = if q = path then node.value else none
  | [], [] => rfl
  | [], _ :: _ => by simp [nest, hnode]
  | _ :: _, [] => rfl
  | name :: path, at' :: q => by
    rw [nest, fileAt_update, fileAt_nest hnode path q]
    by_cases h : at' = name <;> simp [h]

theorem fileAt_create (hnode : ∀ path, path ≠ [] → node.fileAt path = none) :
    ∀ {t t' : FileTree κ V} {path : List κ}, create node t path = .ok t' → ∀ q,
      t'.fileAt q = if q = path then node.value else t.fileAt q
  | _, _, [], h => by cases h
  | .file _, _, _ :: _, h => by cases h
  | .dir entries, t', name :: path, h => by
    rw [create] at h
    split at h
    · rename_i hname
      cases h
      refine fileAt_update_of fun q => ?_
      rw [fileAt_nest hnode, hname, bind_none]
    · rename_i t hname
      obtain ⟨t₁, ht₁, h⟩ := exists_ok_of_bind h
      cases h
      refine fileAt_update_of fun q => ?_
      rw [fileAt_create hnode ht₁ q, hname, bind_some]

theorem fileAt_of_create : ∀ {t t' : FileTree κ V} {path : List κ},
    create node t path = .ok t' → t.fileAt path = none
  | _, _, [], h => by cases h
  | .file _, _, _ :: _, h => by cases h
  | .dir entries, t', name :: path, h => by
    rw [create] at h
    split at h
    · rename_i hname
      rw [fileAt_dir_cons, hname, bind_none]
    · rename_i t hname
      obtain ⟨t₁, ht₁, -⟩ := exists_ok_of_bind h
      rw [fileAt_dir_cons, hname, bind_some, fileAt_of_create ht₁]

theorem fileAt_write {v : V} : ∀ {t t' : FileTree κ V} {path : List κ},
    write v t path = .ok t' → ∀ q, t'.fileAt q = if q = path then some v else t.fileAt q
  | .file _, _, [], h, q => by
    cases h
    cases q <;> rfl
  | .dir _, _, [], h, _ => by cases h
  | .file _, _, _ :: _, h, _ => by cases h
  | .dir entries, t', name :: path, h, q => by
    rw [write] at h
    split at h
    · cases h
    rename_i t hname
    obtain ⟨t₁, ht₁, h⟩ := exists_ok_of_bind h
    cases h
    refine fileAt_update_of (fun q => ?_) q
    rw [fileAt_write ht₁ q, hname, bind_some]

theorem fileAt_remove : ∀ {t t' : FileTree κ V} {path : List κ},
    remove t path = .ok t' → ∀ q, t'.fileAt q = if q = path then none else t.fileAt q
  | _, _, [], h, _ => by cases h
  | .file _, _, _ :: _, h, _ => by cases h
  | .dir entries, t', name :: path, h, q => by
    rw [remove] at h
    split at h
    · cases h
    · rename_i v hname
      by_cases hpath : path = []
      · rw [if_pos hpath] at h
        cases h
        subst hpath
        rcases q with _ | ⟨at', q⟩
        · rfl
        by_cases hat : at' = name
        · subst hat
          cases q <;> simp [hname]
        · simp [hat]
      · rw [if_neg hpath] at h
        cases h
    · rename_i entries' hname
      obtain ⟨t₁, ht₁, h⟩ := exists_ok_of_bind h
      cases h
      refine fileAt_update_of (fun q => ?_) q
      rw [fileAt_remove ht₁ q, hname, bind_some]

theorem exists_write (v : V) {w : V} : ∀ {t : FileTree κ V} {path : List κ},
    t.fileAt path = some w →
    ∃ t', write v t path = .ok t'
  | .file _, [], _ => ⟨_, rfl⟩
  | .dir _, [], h => by cases h
  | .file _, _ :: _, h => by cases h
  | .dir entries, name :: path, h => by
    rw [fileAt_dir_cons] at h
    obtain ⟨t, hname, ht⟩ := bind_eq_some_iff.1 h
    obtain ⟨t', ht'⟩ := exists_write v ht
    refine ⟨.dir (Function.update entries name (some t')), ?_⟩
    rw [write, hname]
    simp only [ht']
    rfl

theorem create_one (node : FileTree κ V) (entries : κ → Option (FileTree κ V)) (a : κ) :
    (∃ t, create node (.dir entries) [a] = .ok t) ∨
      create node (.dir entries) [a] = .error .fileExists := by
  rcases h : entries a with _ | t
  · exact .inl ⟨_, by simp only [create, h]; rfl⟩
  · exact .inr (by simp only [create, h]; rfl)

theorem create_two (node : FileTree κ V) (h : (FileTree.dir entries).fileAt [a] = none) (b : κ) :
    (∃ t, create node (.dir entries) [a, b] = .ok t) ∨
      create node (.dir entries) [a, b] = .error .fileExists := by
  rcases ha : entries a with _ | v | entries'
  · exact .inl ⟨_, by simp only [create, ha]; rfl⟩
  · rw [fileAt_dir_cons, ha] at h
    cases h
  · rcases create_one node entries' b with ⟨t, ht⟩ | ht
    · exact .inl ⟨_, by rw [create, ha]; simp only [ht]; rfl⟩
    · exact .inr (by rw [create, ha]; simp only [ht]; rfl)

theorem create_below_file {node t : FileTree κ V} {v : V} (h : t.fileAt [a] = some v) (b : κ) :
    create node t [a, b] = .error .notDir := by
  rcases t with w | entries
  · cases h
  rw [fileAt_dir_cons] at h
  obtain ⟨_ | _, ha, h⟩ := bind_eq_some_iff.1 h
  · simp only [create, ha]
    rfl
  · cases h

end Change

end FileTree
