import EtcdCompat.Proofs.AuthRecursive

/-!
# Two spellings of a key

The mux cleans the URL of a request and keeps its trailing slash, so the requests on one path of
the store have two spellings. The check is made with the spelling, and there are permissions that
tell the two apart.
-/

namespace EtcdCompat.Auth

open List

variable {url url' : Bytes} {elems done : List Bytes}

theorem isElem_foldl (hs : ∀ e ∈ elems, slash ∉ e) (hd : ∀ e ∈ done, IsElem e) :
    ∀ e ∈ elems.foldl cleanElem done, IsElem e := by
  induction elems generalizing done with
  | nil => exact hd
  | cons e elems ih =>
    refine ih (fun e' he' => hs e' (mem_cons_of_mem _ he')) ?_
    unfold cleanElem
    split_ifs with h1 h2
    · exact hd
    · exact fun e' he' => hd e' (mem_of_mem_tail he')
    · rw [not_or] at h1
      exact forall_mem_cons.2 ⟨⟨h1.1, hs e (by simp), h1.2, h2⟩, hd⟩

/-- The empty element after a trailing slash. -/
def trailing (url : Bytes) : List Bytes := if url.getLast? = some slash then [[]] else []

theorem not_mem_trailing (he : ∀ e ∈ elems, IsElem e) : ∀ e ∈ elems ++ trailing url, slash ∉ e := by
  intro e h
  rcases mem_append.1 h with h | h
  · exact (he e h).2.1
  · unfold trailing at h
    split_ifs at h
    · simp_all
    · cases h

/-- The elements below `keysPrefix` and the trailing slash are all there is to a URL. -/
theorem Served.spelled (h : Served url) : ∃ elems, (∀ e ∈ elems, IsElem e) ∧
    url = keysPrefix ++ rooted slash (elems ++ trailing url) := by
  obtain ⟨hclean, hat⟩ := h
  have hpre : segments slash keysPrefix <+: segments slash url := by
    rcases hat with h | h
    · exact h ▸ prefix_rfl
    · exact (append_sep_prefix_iff.1 h).1
  have he : ∀ e ∈ ((segments slash url).foldl cleanElem []).reverse, IsElem e := fun e h =>
    isElem_foldl (fun _ => not_mem_segment) (by simp) e (mem_reverse.1 h)
  simp only [cleanPath] at hclean
  generalize ((segments slash url).foldl cleanElem []).reverse = elems at hclean he
  have hurl : url = [slash] ∨ url = rooted slash (elems ++ trailing url) := by
    rw [trailing, rooted_append]
    split_ifs at hclean ⊢
    · exact .inl hclean.symm
    · exact .inr hclean.symm
    · exact .inl hclean.symm
    · exact .inr (hclean.symm.trans (append_nil _).symm)
  rcases hurl with hurl | hurl
  · rw [hurl] at hpre
    exact absurd hpre (by decide)
  · rw [hurl, segments_rooted (not_mem_trailing he)] at hpre
    obtain ⟨rest, hrest⟩ := hpre
    have htrail : trailing url = [] ∨ trailing url = [[]] := by
      unfold trailing
      split_ifs <;> simp
    rcases elems with _ | ⟨e₁, _ | ⟨e₂, elems⟩⟩
    · rcases htrail with h | h <;> simp [h, keysPrefix, segments, slash] at hrest
    · rcases htrail with h | h <;> simp [h, keysPrefix, segments, slash] at hrest
    · simp [keysPrefix, segments, slash] at hrest
      obtain ⟨rfl, rfl, -⟩ := hrest
      exact ⟨elems, fun e h => he e (by simp [h]), hurl⟩

theorem storePath_spelled (he : ∀ e ∈ elems, IsElem e) :
    storePath (rooted slash (elems ++ trailing url)) = keysElem :: elems := by
  have hend : ∀ done, (trailing url).foldl cleanElem done = done := by
    intro done
    unfold trailing
    split_ifs <;> rfl
  unfold storePath
  rw [segments_rooted (not_mem_trailing he), foldl_cons, foldl_append, hend,
    show cleanElem [keysElem] [] = [keysElem] from rfl, foldl_cleanElem he]
  simp

/-- Two spellings of one key differ in the trailing slash. -/
theorem Served.eq (h : Served url) (h' : Served url')
    (hpath : storePath (keyOf url) = storePath (keyOf url'))
    (hend : url.getLast? = some slash ↔ url'.getLast? = some slash) : url = url' := by
  obtain ⟨elems, he, hurl⟩ := h.spelled
  obtain ⟨elems', he', hurl'⟩ := h'.spelled
  rw [hurl, hurl', keyOf, keyOf, drop_left, drop_left, storePath_spelled he, storePath_spelled he',
    cons.injEq] at hpath
  rw [hurl, hurl', hpath.2, trailing, trailing, if_congr hend rfl rfl]

theorem authorizes_spelling_iff (hu : Served url) (hu' : Served url')
    (hpath : storePath (keyOf url) = storePath (keyOf url')) (cred : Credentials)
    (write recursive : Bool) :
    (∀ sec, authorizes sec cred write recursive url = authorizes sec cred write recursive url')
      ↔ cred = .malformed ∨ (url.getLast? = some slash ↔ url'.getLast? = some slash) := by
  constructor
  · intro hall
    by_contra hnot
    rw [not_or] at hnot
    obtain ⟨hcred, hend⟩ := hnot
    -- the pattern of a spelling and all that begins with it
    have hstar : ∀ key : Bytes, key <+: keyOf url ↔ key <+: keyOf url' := by
      intro key
      have h := hall (some (patternStore (key ++ [star])))
      rw [authorizes, authorizes, hasKeyPrefixAccess_pattern, hasKeyPrefixAccess_pattern,
        matchOf_star hcred, matchOf_star hcred, Option.some.injEq] at h
      rw [← List.isPrefixOf_iff_prefix, ← List.isPrefixOf_iff_prefix, h]
    have hkey : keyOf url = keyOf url' :=
      ((hstar _).1 List.prefix_rfl).eq_of_length_le ((hstar _).2 List.prefix_rfl).length_le
    obtain ⟨elems, -, hurl⟩ := hu.spelled
    obtain ⟨elems', -, hurl'⟩ := hu'.spelled
    rw [hurl, hurl', keyOf, keyOf, List.drop_left, List.drop_left] at hkey
    refine hend ?_
    rw [hurl, hurl', hkey]
  · rintro (rfl | hend) sec
    · rcases sec with _ | sec <;> rfl
    · rw [hu.eq hu' hpath hend]

theorem authorizes_spelling_basic :
    ¬ ∀ sec, authorizes sec (.basic [97] [98]) true true (keysPrefix ++ [47, 97])
      = authorizes sec (.basic [97] [98]) true true (keysPrefix ++ [47, 97, 47]) := by
  rw [authorizes_spelling_iff (by decide) (by decide) (by decide)]
  decide

/-- The pattern `/a` opens `/v2/keys/a` to a guest, and not `/v2/keys/a/`. -/
theorem authorizes_slash_differs :
    Served (keysPrefix ++ [47, 97]) ∧ Served (keysPrefix ++ [47, 97, 47])
      ∧ storePath (keyOf (keysPrefix ++ [47, 97])) = storePath (keyOf (keysPrefix ++ [47, 97, 47]))
      ∧ authorizes (some (patternStore [47, 97])) .guest true false (keysPrefix ++ [47, 97])
        = some true
      ∧ authorizes (some (patternStore [47, 97])) .guest true false (keysPrefix ++ [47, 97, 47])
        = some false := by
  decide

end EtcdCompat.Auth
