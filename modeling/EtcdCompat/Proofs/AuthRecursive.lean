import EtcdCompat.Auth.Auth

/-!
# Recursive requests of the keys API

A recursive request on a key is checked once, with the key as it is spelled, and then touches the
key as the store spells it and all keys below. The check of a guest takes a pattern that is the key
itself.
-/

namespace EtcdCompat.Auth

open List

section Sound

/-- The first check grants only what the second does, which does not panic before it. -/
def Sound (x y : Option Bool) : Prop :=
  (x = some true → y = some true) ∧ (x = some false → y ≠ none)

theorem Sound.seq {x y xs ys : Option Bool} (h : Sound x y) (hs : Sound xs ys) :
    Sound (do if ← x then some true else xs) (do if ← y then some true else ys) := by
  unfold Sound at *
  rcases x with _ | _ | _ <;> rcases y with _ | _ | _ <;> simp_all

theorem anyMatch_sound {f g : Bytes → Option Bool} (h : ∀ p, Sound (f p) (g p)) :
    ∀ ps, Sound (anyMatch f ps) (anyMatch g ps)
  | [] => by simp [Sound, anyMatch]
  | p :: ps => (h p).seq (anyMatch_sound h ps)

variable {key k : Bytes}

theorem prefixMatch_sound (hk : key <+: k) (p : Bytes) :
    Sound (prefixMatch p key) (simpleMatch p k) := by
  unfold prefixMatch simpleMatch
  rcases hp : p.getLast? with _ | last
  · simp [Sound]
  · by_cases hlast : last = star
    · simpa [Sound, hlast] using fun h => h.trans hk
    · simp [Sound, hlast]

theorem simpleMatch_sound (hk : key <+: k) (hstar : ∀ last, key.getLast? = some last → last = star)
    (p : Bytes) : Sound (simpleMatch p key) (simpleMatch p k) := by
  unfold simpleMatch
  rcases hp : p.getLast? with _ | last
  · simp [Sound]
  · by_cases hlast : last = star
    · simpa [Sound, hlast] using fun h => h.trans hk
    · have hne : key ≠ p := fun h => hlast (hstar last (h ▸ hp))
      simp [Sound, hlast, hne]

theorem Role.recursive_sound (hk : key <+: k) (r : Role) (write : Bool) :
    Sound (r.hasRecursiveAccess key write) (r.hasKeyAccess k write) := by
  unfold hasRecursiveAccess hasKeyAccess
  split_ifs
  · simp [Sound]
  · exact anyMatch_sound (prefixMatch_sound hk) _

theorem hasRoleAccess_sound (hk : key <+: k) (sec : Store) (write : Bool) : ∀ names,
    Sound (hasRoleAccess sec key write true names) (hasRoleAccess sec k write false names)
  | [] => by simp [Sound, hasRoleAccess]
  | name :: names => by
    unfold hasRoleAccess
    rcases sec.getRole name with _ | role
    · exact hasRoleAccess_sound hk sec write names
    · exact (role.recursive_sound hk write).seq (hasRoleAccess_sound hk sec write names)

theorem hasGuestAccess_sound (hk : key <+: k)
    (hstar : ∀ last, key.getLast? = some last → last = star) (sec : Store) (write : Bool) :
    Sound (hasGuestAccess sec key write) (hasGuestAccess sec k write) := by
  unfold hasGuestAccess
  rcases sec.getRole guestRoleName with _ | role
  · simp [Sound]
  · unfold Role.hasKeyAccess
    simp only []
    split_ifs
    · simp [Sound]
    · exact anyMatch_sound (simpleMatch_sound hk hstar) _

end Sound

section Path

variable {key k : Bytes} {elems : List Bytes}

/-- The key as the store spells it. -/
def Canonical (key : Bytes) : Prop := ∃ elems, (∀ e ∈ elems, IsElem e) ∧ key = rooted slash elems

theorem foldl_cleanElem (he : ∀ e ∈ elems, IsElem e) (done : List Bytes) :
    elems.foldl cleanElem done = elems.reverse ++ done := by
  induction elems generalizing done with
  | nil => rfl
  | cons e elems ih =>
    obtain ⟨h1, -, h2, h3⟩ := he e (by simp)
    rw [foldl_cons, cleanElem, if_neg (by simp [h1, h2]), if_neg h3,
      ih fun e' he' => he e' (mem_cons_of_mem _ he')]
    simp

theorem storePath_rooted (he : ∀ e ∈ elems, IsElem e) :
    storePath (rooted slash elems) = keysElem :: elems := by
  unfold storePath
  rw [segments_rooted fun e h => (he e h).2.1, foldl_cons, show cleanElem [keysElem] []
    = [keysElem] from rfl, foldl_cleanElem he]
  simp

theorem sum_foldl_cleanElem (elems done : List Bytes) :
    ((elems.foldl cleanElem done).map (·.length + 1)).sum
      ≤ (done.map (·.length + 1)).sum + (elems.map (·.length + 1)).sum := by
  induction elems generalizing done with
  | nil => simp
  | cons e elems ih =>
    refine Nat.le_trans (ih _) ?_
    have hone : ((cleanElem done e).map (·.length + 1)).sum
        ≤ (done.map (·.length + 1)).sum + (e.length + 1) := by
      unfold cleanElem
      split_ifs
      · omega
      · rcases done with _ | ⟨d, done⟩ <;> simp
        omega
      · simp
        omega
    simp only [map_cons, sum_cons]
    omega

theorem not_prefix_of_storePath (hpath : storePath key = keysElem :: elems)
    (hne : key ≠ rooted slash elems) : ¬ key <+: rooted slash elems := by
  intro hpre
  rcases key with _ | ⟨c, rest⟩
  · rw [show storePath [] = [keysElem] from rfl] at hpath
    simp only [cons.injEq, true_and] at hpath
    exact hne (by rw [← hpath]; rfl)
  · have hc : c = slash := by
      rcases elems with _ | ⟨e, elems⟩
      · simp [rooted] at hpre
      · rw [rooted_cons, cons_append] at hpre
        exact (cons_prefix_cons.1 hpre).1
    have hwalk : storePath (c :: rest)
        = ((segments slash rest).foldl cleanElem [keysElem]).reverse := by
      rw [storePath, segments, if_pos hc]
      rfl
    have hsum := sum_foldl_cleanElem (segments slash rest) [keysElem]
    rw [← sum_reverse, ← map_reverse, ← hwalk, hpath, sum_length_segments, map_cons, sum_cons,
      ← length_rooted slash] at hsum
    refine hne (hpre.eq_of_length_le ?_)
    rw [map_cons, map_nil, sum_cons, sum_nil] at hsum
    rw [length_cons]
    omega

end Path

section Requests

variable {key : Bytes} {cred : Credentials} {k : Bytes}

def patternStore (pattern : Bytes) : Store where
  enabled := true
  users := fun _ => some ⟨[], [], [[]]⟩
  roles := fun _ => some ⟨[], ⟨[pattern], [pattern]⟩⟩
  checkPassword := fun _ _ => true

/-- The match a check of credentials comes down to. -/
def matchOf (cred : Credentials) (recursive : Bool) : Bytes → Bytes → Option Bool :=
  match cred with
  | .guest => simpleMatch
  | .malformed => fun _ _ => some false
  | .basic _ _ => if recursive then prefixMatch else simpleMatch

theorem hasKeyPrefixAccess_pattern (cred : Credentials) (pattern key : Bytes)
    (write recursive : Bool) :
    hasKeyPrefixAccess (some (patternStore pattern)) cred write key recursive
      = matchOf cred recursive pattern key := by
  have hone : ∀ x : Option Bool, (do if ← x then some true else some false) = x := by
    rintro (_ | _ | _) <;> rfl
  have hlist : (⟨[pattern], [pattern]⟩ : RWPermission).list write = [pattern] := by
    unfold RWPermission.list
    split_ifs <;> rfl
  have hkey : Role.hasKeyAccess ⟨[], ⟨[pattern], [pattern]⟩⟩ key write
      = simpleMatch pattern key := by
    rw [Role.hasKeyAccess, if_neg (show [] ≠ rootRoleName by decide), RWPermission.hasAccess, hlist]
    exact hone _
  have hrec : Role.hasRecursiveAccess ⟨[], ⟨[pattern], [pattern]⟩⟩ key write
      = prefixMatch pattern key := by
    rw [Role.hasRecursiveAccess, if_neg (show [] ≠ rootRoleName by decide),
      RWPermission.hasRecursiveAccess, hlist]
    exact hone _
  rcases cred with _ | _ | ⟨username, password⟩
  · exact hkey
  · rfl
  · rcases recursive with _ | _
    · exact (hone _).trans hkey
    · exact (hone _).trans hrec

theorem hasKeyPrefixAccess_sound (hk : key <+: k)
    (hguest : cred = .guest → ∀ last, key.getLast? = some last → last = star) (sec : Option Store)
    (write : Bool) : Sound (hasKeyPrefixAccess sec cred write key true)
      (hasKeyPrefixAccess sec cred write k false) := by
  rcases sec with _ | sec
  · simp [Sound, hasKeyPrefixAccess]
  rcases henabled : sec.enabled with _ | _
  · simp [Sound, hasKeyPrefixAccess, henabled]
  rcases cred with _ | _ | ⟨username, password⟩
  · simp [hasKeyPrefixAccess, henabled]
    exact hasGuestAccess_sound hk (hguest rfl) sec write
  · simp [Sound, hasKeyPrefixAccess, henabled]
  · simp [hasKeyPrefixAccess, henabled]
    rcases sec.getUser username with _ | user
    · simp [Sound]
    · simp only []
      split_ifs
      · simp [Sound]
      · exact hasRoleAccess_sound hk sec write user.roles

theorem matchOf_star (hcred : cred ≠ .malformed) (recursive : Bool) (k : Bytes) :
    matchOf cred recursive (key ++ [star]) k = some (key.isPrefixOf k) := by
  have hs : simpleMatch (key ++ [star]) k = some (key.isPrefixOf k) := by simp [simpleMatch]
  have hp : prefixMatch (key ++ [star]) k = some (key.isPrefixOf k) := by simp [prefixMatch]
  rcases cred with _ | _ | ⟨username, password⟩
  · exact hs
  · exact absurd rfl hcred
  · rcases recursive with _ | _
    · exact hs
    · exact hp

theorem touches_of_prefixed {elems elems' : List Bytes}
    (hpath : storePath key = keysElem :: elems) (hpre : elems <+: elems')
    (he' : ∀ e ∈ elems', IsElem e) : Touches key (rooted slash elems') :=
  ⟨elems', he', rfl, by rw [hpath]; exact cons_prefix_cons.2 ⟨rfl, hpre⟩⟩

theorem exists_touches_not_prefix (ht : Touches key k) (hc : ¬ Canonical key) :
    ∃ k', Touches key k' ∧ ¬ key <+: k' := by
  obtain ⟨elems, he, -, hpath⟩ := ht
  rcases hp : storePath key with _ | ⟨e₀, elems'⟩
  · refine ⟨[], ⟨[], by simp, rfl, by simp [hp]⟩, fun hpre => hc ?_⟩
    rw [prefix_nil.1 hpre]
    exact ⟨[], by simp, rfl⟩
  · rw [hp, cons_prefix_cons] at hpath
    obtain ⟨rfl, hpre⟩ := hpath
    have he' : ∀ e ∈ elems', IsElem e := fun e h => he e (hpre.subset h)
    refine ⟨rooted slash elems', touches_of_prefixed hp (prefix_refl _) he', ?_⟩
    exact not_prefix_of_storePath hp fun h => hc ⟨elems', he', h⟩

theorem recursive_sound_iff (cred : Credentials) (write : Bool) (key : Bytes) :
    (∀ sec, hasKeyPrefixAccess sec cred write key true = some true →
        ∀ k, Touches key k → hasKeyPrefixAccess sec cred write k false = some true)
      ↔ cred = .malformed ∨ (¬ ∃ k, Touches key k)
        ∨ Canonical key ∧ (cred = .guest → ∀ last, key.getLast? = some last → last = star) := by
  constructor
  · intro hall
    by_contra hnot
    simp only [not_or, not_not] at hnot
    obtain ⟨hcred, ⟨k, hk⟩, hnot⟩ := hnot
    by_cases hc : Canonical key
    · obtain ⟨rfl, last, hlast, hne⟩ : cred = .guest ∧ ∃ last, key.getLast? = some last
          ∧ last ≠ star := by
        by_contra hno
        exact hnot ⟨hc, fun hg last hl => by_contra fun hne => hno ⟨hg, last, hl, hne⟩⟩
      obtain ⟨elems, he, rfl⟩ := hc
      have hnew : ∀ e ∈ elems ++ [[97]], IsElem e := by
        intro e h
        rcases List.mem_append.1 h with h | h
        · exact he e h
        · rw [List.mem_singleton.1 h]
          exact ⟨by decide, by decide, by decide, by decide⟩
      have hgrant := hall (some (patternStore (rooted slash elems)))
      simp [hasKeyPrefixAccess_pattern, matchOf, simpleMatch, hlast, hne] at hgrant
      have heq := hgrant _ (touches_of_prefixed (storePath_rooted he) (List.prefix_append _ _) hnew)
      have hlen := congrArg List.length heq
      simp [rooted_append, rooted_cons] at hlen
    · obtain ⟨k', hk', hpre⟩ := exists_touches_not_prefix hk hc
      have hgrant := hall (some (patternStore (key ++ [star])))
      simp only [hasKeyPrefixAccess_pattern, matchOf_star hcred, Option.some.injEq,
        List.isPrefixOf_iff_prefix] at hgrant
      exact hpre (hgrant (List.prefix_refl _) k' hk')
  · rintro (rfl | hnone | ⟨⟨elems, he, rfl⟩, hguest⟩) sec hgrant k hk
    · rcases sec with _ | sec
      · rfl
      · exact hgrant
    · exact absurd ⟨k, hk⟩ hnone
    · obtain ⟨elems', -, rfl, hpath⟩ := hk
      rw [storePath_rooted he, List.cons_prefix_cons] at hpath
      obtain ⟨rest, rfl⟩ := hpath.2
      refine (hasKeyPrefixAccess_sound ?_ hguest sec write).1 hgrant
      rw [rooted_append]
      exact List.prefix_append _ _

/-- A guest with the pattern `/a` may delete all below it with one recursive request and none of it
without. A user with the pattern `/a/*` may delete `/a` itself with one on `/a/`. -/
theorem recursive_not_sound :
    (hasKeyPrefixAccess (some (patternStore [47, 97])) .guest true [47, 97] true = some true
      ∧ Touches [47, 97] [47, 97, 47, 98]
      ∧ hasKeyPrefixAccess (some (patternStore [47, 97])) .guest true [47, 97, 47, 98] false
        = some false)
    ∧ hasKeyPrefixAccess (some (patternStore [47, 97, 47, 42])) (.basic [] []) true [47, 97, 47]
        true = some true
      ∧ Touches [47, 97, 47] [47, 97]
      ∧ hasKeyPrefixAccess (some (patternStore [47, 97, 47, 42])) (.basic [] []) true [47, 97] false
        = some false := by
  have helem : ∀ e ∈ [[97], [98]], IsElem e := by simp [IsElem, slash, dot, dotdot]
  refine ⟨⟨by decide, ⟨[[97], [98]], helem, rfl, by decide⟩, by decide⟩, by decide,
    ⟨[[97]], fun e h => helem e (by simp_all), rfl, by decide⟩, by decide⟩

end Requests

end EtcdCompat.Auth
