import EtcdCompat.Proofs.AuthUpdate

/-!
# Roles without an empty pattern

A matcher indexes a pattern at its last byte. The calls that write roles check no pattern, and keep
what is granted: where none of them brings an empty pattern no stored role has one, and no check
against a stored role panics.
-/

namespace EtcdCompat.AuthStore

open Program (Asks)
open GoPath (ascii)
open Auth (rootRoleName)

section Access

open Auth

theorem anyMatch_isSome {f : Bytes → Option Bool} :
    ∀ {ps : List Bytes}, (∀ p ∈ ps, (f p).isSome) → (anyMatch f ps).isSome
  | [], _ => rfl
  | p :: ps, h => by
    obtain ⟨hp, hps⟩ := List.forall_mem_cons.1 h
    obtain ⟨b, hb⟩ := Option.isSome_iff_exists.1 hp
    rw [anyMatch, hb]
    cases b with
    | false => exact anyMatch_isSome hps
    | true => rfl

/-- No pattern is empty. -/
def RWPermission.Filled (rw : RWPermission) : Prop :=
  [] ∉ rw.read.getD [] ∧ [] ∉ rw.write.getD []

theorem RWPermission.Filled.access {r : Role} (h : r.kv.Filled) (key : Bytes) (write : Bool) :
    (r.access.hasKeyAccess key write).isSome ∧ (r.access.hasRecursiveAccess key write).isSome := by
  have hlast : ∀ p ∈ r.access.kv.list write, p.getLast?.isSome := by
    intro p hp
    refine List.getLast?_isSome.2 fun hnil => ?_
    subst hnil
    cases write with
    | false => exact h.1 hp
    | true => exact h.2 hp
  unfold Role.hasKeyAccess Role.hasRecursiveAccess
  split_ifs
  · exact ⟨rfl, rfl⟩
  · refine ⟨anyMatch_isSome fun p hp => ?_, anyMatch_isSome fun p hp => ?_⟩
    · rw [simpleMatch, Option.isSome_map]
      exact hlast p hp
    · rw [prefixMatch, Option.isSome_map]
      exact hlast p hp

end Access

section Merge

variable {a : Bytes} {s s' items : List Bytes} {rw rw' n : RWPermission}

theorem not_mem_addValue {v : Bytes} (hs : a ∉ s) (hv : a ≠ v) : a ∉ addValue s v := by
  unfold addValue
  split_ifs
  · exact hs
  · simp [hs, hv]

theorem not_mem_newUnsafeSet (h : a ∉ items) : a ∉ newUnsafeSet items :=
  List.foldlRecOn items _ (motive := fun s => a ∉ s) (by simp) fun _ hs _ hv =>
    not_mem_addValue hs fun heq => h (heq ▸ hv)

theorem not_mem_grantAll {duplicate : Bytes → AuthError} (hs : a ∉ s) (hi : a ∉ items)
    (h : grantAll duplicate s items = .ok s') : a ∉ s' := by
  induction items generalizing s with
  | nil =>
    cases h
    exact hs
  | cons g items ih =>
    obtain ⟨s₁, h₁, h₂⟩ := exists_ok_of_bind h
    simp only [] at h₁
    split_ifs at h₁
    cases h₁
    rw [List.mem_cons, not_or] at hi
    exact ih (not_mem_addValue hs hi.1) hi.2 h₂

theorem not_mem_foldl_erase (hs : a ∉ s) : a ∉ items.foldl List.erase s :=
  List.foldlRecOn items _ (motive := fun s => a ∉ s) hs fun _ hs _ _ h =>
    hs (List.mem_of_mem_erase h)

theorem mem_sortedValues : a ∈ sortedValues s ↔ a ∈ s := (List.perm_insertionSort _ s).mem_iff

theorem RWPermission.Filled.grant (hrw : rw.Filled) (hn : n.Filled) (h : rw.grant n = .ok rw') :
    rw'.Filled := by
  obtain ⟨currentRead, h1, h⟩ := exists_ok_of_bind h
  obtain ⟨currentWrite, h2, h⟩ := exists_ok_of_bind h
  cases h
  exact ⟨mem_sortedValues.not.2 (not_mem_grantAll (not_mem_newUnsafeSet hrw.1) hn.1 h1),
    mem_sortedValues.not.2 (not_mem_grantAll (not_mem_newUnsafeSet hrw.2) hn.2 h2)⟩

theorem RWPermission.Filled.revoke (hrw : rw.Filled) : (rw.revoke n).Filled :=
  ⟨mem_sortedValues.not.2 (not_mem_foldl_erase (not_mem_newUnsafeSet hrw.1)),
    mem_sortedValues.not.2 (not_mem_foldl_erase (not_mem_newUnsafeSet hrw.2))⟩

theorem Role.merge_filled {r n r' : Role} (hr : r.kv.Filled) (hn : ∀ g ∈ n.grant, g.Filled)
    (h : r.merge n = .ok r') : r'.kv.Filled := by
  unfold Role.merge at h
  split_ifs at h
  · cases h
  obtain ⟨kv, hgrant, h⟩ := exists_ok_of_bind h
  cases h
  have hkv : kv.Filled := by
    cases hg : n.grant with
    | none =>
      rw [hg] at hgrant
      cases hgrant
      exact hr
    | some g =>
      rw [hg] at hgrant
      exact hr.grant (hn g hg) hgrant
  cases n.revoke with
  | none => exact hkv
  | some g => exact hkv.revoke

end Merge

section Run

variable {s : World} {call : RoleCall}

/-- No stored role has an empty pattern. -/
def World.Filled (s : World) : Prop :=
  ∀ q d r, s.tree.fileAt q = some d → d.toRole = some r → r.kv.Filled

/-- The request stores no role with an empty pattern. -/
def Fills : Request → Prop
  | .put _ v _ => ∀ r, v.toRole = some r → r.kv.Filled
  | _ => True

/-- The call brings no empty pattern. -/
def RoleCall.Filled : RoleCall → Prop
  | .create _ role => role.kv.Filled
  | .update _ role => ∀ g ∈ role.grant, g.Filled

theorem fills_of_setUp (r : Request) (h : SetUp r) : Fills r := by
  cases r with
  | put path v prevExist =>
    rw [h.2]
    exact fun _ h => (by cases h)
  | _ => trivial

theorem World.Filled.exec {r : Request} (hs : s.Filled) (hr : Fills r) : (s.exec r).1.Filled := by
  intro q d role hd hrole
  rcases s.fileAt_exec r q with h | ⟨v, prevExist, rfl, h, -⟩ | ⟨-, h⟩
  · exact hs q d role (h.symm.trans hd) hrole
  · cases h.symm.trans hd
    exact hr role hrole
  · cases h.symm.trans hd

theorem World.Filled.of_readRole {name : Bytes} {path : List Bytes} {r : Role} (hs : s.Filled)
    (h : readRole name (s.look path) = .ok r) : r.kv.Filled := by
  obtain ⟨d, hd, hr⟩ := exists_of_readRole h
  exact hs path d r (World.look_eq_file_iff.1 hd) hr

theorem World.Filled.of_mergedRole {role : Role} {path : List Bytes} {d : Doc} (hs : s.Filled)
    (hn : ∀ g ∈ role.grant, g.Filled) (h : mergedRole role (s.look path) = .ok d) :
    ∀ r, d.toRole = some r → r.kv.Filled := by
  obtain ⟨old, hold, h⟩ := exists_ok_of_bind h
  obtain ⟨newRole, hnew, h⟩ := exists_ok_of_bind h
  split_ifs at h
  cases h
  rintro r ⟨⟩
  exact Role.merge_filled (hs.of_readRole hold) hn hnew

theorem RoleCall.Filled.run (h : call.Filled) (hs : s.Filled) :
    (Program.run World.exec s call.program).1.Filled := by
  have keeps {p : Running} (hp : Asks Fills p) : (Program.run World.exec s p).1.Filled :=
    Asks.run_inv (fun _ _ => World.Filled.exec) p hp hs
  cases call with
  | create member role =>
    refine keeps (asks_createRole fills_of_setUp ?_)
    rintro r ⟨⟩
    exact h
  | update member role =>
    change (Program.run World.exec s (Job.update ⟨member, some, .role role⟩)).1.Filled
    rcases Job.update_eq ⟨member, some, .role role⟩ with heq | ⟨e, heq, -⟩
    · rw [heq]
      change (Program.run World.exec s (afterRead _ _ (Job.newDoc _ (s.look _)))).1.Filled
      rcases hnew : Job.newDoc ⟨member, some, .role role⟩ (s.look _) with e | d
      · exact hs
      · refine keeps (Asks.bind_except (asks_setResource fills_of_setUp ?_) asks_orStoreError)
        exact hs.of_mergedRole h (mergedRole_of_newDoc hnew)
    · rw [heq]
      exact hs

theorem rolesAfter_filled {calls : List RoleCall} (h : ∀ call ∈ calls, call.Filled) :
    (rolesAfter calls).Filled := by
  refine List.foldlRecOn calls _ (motive := World.Filled) ?_ fun s hs call hcall =>
    (h call hcall).run hs
  rintro (_ | ⟨e, q⟩) d r hd
  · cases hd
  · cases hd

theorem roles_never_panic (calls : List RoleCall) (hcalls : ∀ call ∈ calls, call.Filled)
    {name : Bytes} {r : Role}
    (hr : (Program.run World.exec (rolesAfter calls) (getRole name).run).2 = .ok r)
    (key : Bytes) (write : Bool) :
    (r.access.hasKeyAccess key write).isSome ∧ (r.access.hasRecursiveAccess key write).isSome := by
  refine RWPermission.Filled.access ?_ key write
  unfold getRole at hr
  split_ifs at hr
  · cases hr
    exact ⟨by decide, by decide⟩
  · exact (rolesAfter_filled hcalls).of_readRole hr

/-- A role is created, and then granted a pattern to read. -/
def createAndGrant (pattern : Bytes) : List RoleCall :=
  [.create 0 { role := ascii "r" },
    .update 0 { role := ascii "r", grant := some { read := some [pattern] } }]

theorem roles_never_panic_granted : ∃ r,
    (Program.run World.exec (rolesAfter (createAndGrant (ascii "/a*")))
      (getRole (ascii "r")).run).2 = .ok r ∧ r.kv.read = some [ascii "/a*"] ∧
    ∀ key write, (r.access.hasKeyAccess key write).isSome ∧
      (r.access.hasRecursiveAccess key write).isSome := by
  have hr : (Program.run World.exec (rolesAfter (createAndGrant (ascii "/a*")))
      (getRole (ascii "r")).run).2 =
        .ok { role := ascii "r", kv := ⟨some [ascii "/a*"], some []⟩ } := by decide +kernel
  refine ⟨_, hr, rfl, roles_never_panic _ ?_ hr⟩
  simp [createAndGrant, RoleCall.Filled, RWPermission.Filled, ascii]

/-- The empty pattern is granted and stored, and no key can be read with the role. -/
theorem empty_pattern_panics : ∃ r,
    (Program.run World.exec (rolesAfter (createAndGrant [])) (getRole (ascii "r")).run).2 = .ok r ∧
      ∀ key, r.access.hasKeyAccess key false = none ∧
        r.access.hasRecursiveAccess key false = none :=
  ⟨{ role := ascii "r", kv := ⟨some [[]], some []⟩ }, by decide +kernel, fun _ => ⟨rfl, rfl⟩⟩

end Run

end EtcdCompat.AuthStore
