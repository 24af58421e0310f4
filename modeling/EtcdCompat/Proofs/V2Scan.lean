import EtcdCompat.Proofs.V2History

/-!
# What a scan of the history finds

A watcher wants the first event at its key, below it if it is recursive, or that deletes a directory
its key is in. Paths are compared by their components. The scan compares them as text, and finds
that event exactly when no event up to it misleads the scan.
-/

namespace EtcdCompat.V2

open List

open GoPath

def comps (path : Bytes) : List Bytes := if path = [slash] then [[]] else segments slash path

/-- The path lies below the key. -/
def Below (key path : Bytes) : Prop := comps key <+: comps path ∧ comps key ≠ comps path

instance (key path : Bytes) : Decidable (Below key path) :=
  inferInstanceAs (Decidable (_ ∧ _))

/-- The event deletes a directory that is the key or above it. -/
def DeletesAbove (key : Bytes) (e : Event) : Prop := ∃ dir ∈ e.deletedDir, comps dir <+: comps key

instance (key : Bytes) (e : Event) : Decidable (DeletesAbove key e) :=
  inferInstanceAs (Decidable (∃ dir ∈ e.deletedDir, _))

/-- The event is one that a watcher of the key wants. -/
def Wanted (key : Bytes) (recursive : Bool) (e : Event) : Prop :=
  e.refresh = false
    ∧ (e.node.key = key ∨ recursive ∧ Below key e.node.key ∨ DeletesAbove key e)

instance (key : Bytes) (recursive : Bool) (e : Event) : Decidable (Wanted key recursive e) :=
  inferInstanceAs (Decidable (_ ∧ _))

/-- The first event wanted from the index on. -/
def firstWanted (evs : List Event) (key : Bytes) (recursive : Bool) (index : ℕ) : Option Event :=
  (evs.filter (index ≤ ·.index)).find? fun e => Wanted key recursive e

/-- The key as a recursive scan has it after the first event. -/
def keyText (key : Bytes) (recursive : Bool) : Bytes :=
  if recursive ∧ key ≠ [slash] then key ++ [slash] else key

/-- The path of a directory deleted begins the key as text. -/
def DeletesBefore (key : Bytes) (recursive : Bool) (e : Event) : Prop :=
  ∃ dir ∈ e.deletedDir, dir <+: keyText key recursive

/-- What leads a scan astray: a directory deleted that is not above the key but whose path begins it
as text; and, in a recursive scan that has looked at an event before, an event at the key itself. -/
def Misleads (key : Bytes) (recursive : Bool) (before : List Event) (e : Event) : Prop :=
  e.refresh = false
    ∧ (DeletesBefore key recursive e ∧ ¬ Wanted key recursive e
      ∨ recursive ∧ key ≠ [slash] ∧ e.node.key = key ∧ ¬ DeletesBefore key recursive e
        ∧ ∃ b ∈ before, b.refresh = false)

namespace EventHistory

variable {key : Bytes} {recursive : Bool} {e : Event} {es : List Event}

section Key

variable (hkey : Cleaned key)
include hkey

theorem addSlash_eq : addSlash key = keyText key true := by
  unfold addSlash keyText
  simp [hkey.clean, hkey.getLast?_iff]

theorem addSlash_keyText : addSlash (keyText key true) = keyText key true := by
  unfold keyText
  by_cases hroot : key = [slash]
  · simp [hroot]
    rfl
  · simp [hroot]
    rw [addSlash, clean_append_slash hkey.absolute, hkey.clean]
    simp [hkey.getLast?_iff, hroot]

theorem keyText_prefix_iff {path : Bytes} :
    path = key ∨ keyText key true <+: path ↔ path = key ∨ Below key path := by
  refine or_congr_right' fun hne => ?_
  unfold keyText Below comps
  by_cases hroot : key = [slash]
  · subst hroot
    simp [hne]
    rcases path with _ | ⟨c, path⟩
    · simp [segments]
    · by_cases hc : c = slash
      · subst hc
        simp [segments, segments_ne_nil]
      · have hseg : segments slash (c :: path) ≠ [] := segments_ne_nil _
        simp [Ne.symm hc, segments, if_neg hc]
        rcases hs : segments slash path with _ | ⟨t, ts⟩
        · exact absurd hs (segments_ne_nil path)
        · simp
  · simp [hroot]
    rw [append_sep_prefix_iff]
    by_cases hp : path = [slash]
    · subst hp
      obtain ⟨elems, helems, rfl⟩ := hkey.exists_elems
      have hnil : elems ≠ [] := by
        rintro rfl
        exact hroot rfl
      rw [segments_rootedPath helems hnil]
      rcases elems with _ | ⟨a, elems⟩
      · exact absurd rfl hnil
      · have ha := (helems a mem_cons_self).1
        simp [segments, ha]
    · simp only [hp, if_false]
      exact and_congr_right' ⟨fun h h' => h (segments_inj h'), fun h h' => h (h' ▸ rfl)⟩

theorem prefix_keyText {dir : Bytes} (h : comps dir <+: comps key) (recursive : Bool) :
    dir <+: keyText key recursive := by
  suffices dir <+: key by
    unfold keyText
    split_ifs
    · exact this.trans (prefix_append _ _)
    · exact this
  have habs := hkey.absolute
  have hroot : [slash] <+: key := by
    rcases key with _ | ⟨c, key⟩
    · cases habs
    · cases habs
      simp
  unfold comps at h
  by_cases hd : dir = [slash]
  · rw [hd]
    exact hroot
  · rw [if_neg hd] at h
    by_cases hk : key = [slash]
    · rw [if_pos hk] at h
      refine IsPrefix.trans (@prefix_of_segments _ _ slash dir [] h) (by simp)
    · rw [if_neg hk] at h
      exact prefix_of_segments h

end Key

section Scan

/-- The key a scan compares with, by whether it has looked at an event. -/
def keySeen (key : Bytes) (recursive seen : Bool) : Bytes :=
  if seen then keyText key recursive else key

theorem keyAfter_eq (hkey : Cleaned key) (seen : Bool) :
    (if recursive then addSlash (keySeen key recursive seen) else keySeen key recursive seen)
      = keyText key recursive := by
  cases recursive
  · cases seen <;> simp [keySeen, keyText]
  · cases seen
    · exact addSlash_eq hkey
    · exact addSlash_keyText hkey

theorem hasPrefix_iff {s start : Bytes} : hasPrefix s start = true ↔ start <+: s :=
  isPrefixOf_iff_prefix

theorem isFor_iff {k keyAfter : Bytes} : isFor e k keyAfter recursive = true ↔
    e.node.key = k ∨ recursive ∧ keyAfter <+: e.node.key ∨ ∃ dir ∈ e.deletedDir,
      dir <+: keyAfter := by
  unfold isFor
  simp [hasPrefix_iff, Option.any_eq_true, or_assoc]

/-- An event looked at is taken for a wanted one, and only such, unless it misleads. -/
theorem isFor_iff_wanted (hkey : Cleaned key) (hfresh : e.refresh = false) (seen : Bool)
    {before : List Event} (hseen : seen = true ↔ ∃ b ∈ before, b.refresh = false) :
    (isFor e (keySeen key recursive seen) (keyText key recursive) recursive = true
      ↔ Wanted key recursive e) ↔ ¬ Misleads key recursive before e := by
  have habove : DeletesAbove key e → DeletesBefore key recursive e := by
    rintro ⟨dir, hdir, hpre⟩
    exact ⟨dir, hdir, prefix_keyText hkey hpre recursive⟩
  have hbelow : recursive = true → (e.node.key = key ∨ keyText key recursive <+: e.node.key
      ↔ e.node.key = key ∨ Below key e.node.key) := by
    rintro rfl
    exact keyText_prefix_iff hkey
  have htext : keyText key recursive <+: e.node.key → e.node.key = key →
      ¬ (recursive = true ∧ key ≠ [slash]) := by
    intro hpre heq hrec
    rw [keyText, if_pos hrec, heq] at hpre
    have := hpre.length_le
    rw [length_append, length_singleton] at this
    omega
  rw [isFor_iff, Misleads, ← hseen]
  unfold Wanted
  change (_ ∨ _ ∨ DeletesBefore key recursive e ↔ _) ↔ _
  simp only [hfresh, true_and]
  by_cases hb : DeletesBefore key recursive e
  · simp only [hb, or_true, true_iff, true_and, not_true_eq_false, and_false, false_and, or_false,
      not_not]
  · have ha : ¬ DeletesAbove key e := fun h => hb (habove h)
    simp only [hb, ha, or_false, false_and, not_false_eq_true, true_and, false_or]
    rcases hr : recursive with _ | _
    · cases seen <;> simp [keySeen, keyText]
    · specialize hbelow hr
      rw [hr] at hbelow htext
      cases seen
      · simp [keySeen, hbelow]
      · by_cases hroot : key = [slash]
        · simp [keySeen, keyText, hroot] at hbelow ⊢
          exact hbelow
        · simp [hroot, hbelow.symm, keySeen]
          constructor
          · intro h heq
            rcases h.2 (.inl heq) with h' | h'
            · exact htext (h' ▸ prefix_rfl) heq ⟨rfl, hroot⟩
            · exact htext h' heq ⟨rfl, hroot⟩
          · intro hne
            simp only [hne, false_or]
            exact ⟨fun h => h.elim (fun h => h ▸ prefix_rfl) id, .inr⟩

theorem scanList_mem : ∀ {k : Bytes} {es : List Event}, scanList recursive k es = some e → e ∈ es
  | _, [], h => by cases h
  | k, x :: es, h => by
    unfold scanList at h
    simp only at h
    generalize (if recursive ∧ ¬ x.refresh then addSlash k else k) = keyAfter at h
    split at h
    · cases h
      exact mem_cons_self
    · exact mem_cons_of_mem _ (scanList_mem h)

theorem scanList_fresh (hkey : Cleaned key) (hfresh : e.refresh = false) (seen : Bool) :
    scanList recursive (keySeen key recursive seen) (e :: es)
      = if isFor e (keySeen key recursive seen) (keyText key recursive) recursive then some e
        else scanList recursive (keyText key recursive) es := by
  have hafter := @keyAfter_eq key recursive hkey seen
  rw [scanList]
  simp [hfresh, hafter]

theorem scanList_refresh (hfresh : e.refresh = true) (k : Bytes) :
    scanList recursive k (e :: es) = scanList recursive k es := by
  rw [scanList]
  simp [hfresh]

/-- No event up to the first one wanted misleads the scan that has looked at those before. -/
def Clear (key : Bytes) (recursive : Bool) (done es : List Event) : Prop :=
  ∀ before e after, es = before ++ e :: after → (∀ b ∈ before, ¬ Wanted key recursive b) →
    ¬ Misleads key recursive (done ++ before) e

theorem clear_cons_iff {done : List Event} : Clear key recursive done (e :: es) ↔
    ¬ Misleads key recursive done e
      ∧ (¬ Wanted key recursive e → Clear key recursive (done ++ [e]) es) := by
  constructor
  · intro h
    refine ⟨by simpa using h [] e es rfl (by simp), fun hw before x after heq hbefore => ?_⟩
    rw [append_assoc, singleton_append]
    refine h (e :: before) x after (by rw [heq]; rfl) fun b hb => ?_
    rcases mem_cons.1 hb with rfl | hb
    · exact hw
    · exact hbefore b hb
  · rintro ⟨he, hes⟩ before x after heq hbefore
    rcases before with _ | ⟨b, before⟩
    · cases heq
      rwa [append_nil]
    · obtain ⟨rfl, rfl⟩ := cons.inj heq
      have := hes (hbefore e mem_cons_self) before x after rfl
        fun b' hb' => hbefore b' (mem_cons_of_mem _ hb')
      rwa [append_assoc, singleton_append] at this

theorem Consecutive.lt_of_mem (h : Consecutive (e :: es)) {x : Event} (hx : x ∈ es) :
    e.index < x.index := by
  obtain ⟨k, hk⟩ := getElem?_of_mem hx
  have := @Consecutive.index_get _ h e rfl (k + 1) x hk
  omega

theorem scanList_eq_iff (hkey : Cleaned key) : ∀ {es done : List Event} (seen : Bool),
    Consecutive es → (seen = true ↔ ∃ b ∈ done, b.refresh = false) →
    (scanList recursive (keySeen key recursive seen) es = es.find? (fun e => Wanted key recursive e)
      ↔ Clear key recursive done es)
  | [], done, seen, _, _ => by
    refine ⟨fun _ before e after heq => ?_, fun _ => rfl⟩
    exact absurd heq.symm (by simp)
  | e :: es, done, seen, hcons, hseen => by
    have hne : e ∉ es := fun h => (Nat.lt_irrefl _ (Consecutive.lt_of_mem hcons h)).elim
    have htail : Consecutive es := hcons.drop 1
    rw [clear_cons_iff]
    rcases hr : e.refresh with _ | _
    · -- an event that is looked at
      have hfor := @isFor_iff_wanted key recursive e hkey hr seen done hseen
      have ih := @scanList_eq_iff hkey es (done ++ [e]) true htail (by simp [hr])
      rw [scanList_fresh hkey hr, ← hfor]
      generalize isFor e (keySeen key recursive seen) (keyText key recursive) recursive = hit
      by_cases hw : Wanted key recursive e
      · rw [find?_cons_of_pos (by simpa using hw)]
        cases hit
        · refine iff_of_false (fun h => hne (scanList_mem h)) ?_
          simp [hw]
        · simp [hw]
      · rw [find?_cons_of_neg (by simpa using hw)]
        cases hit
        · simp [hw]
          exact ih
        · refine iff_of_false (fun h => hne (mem_of_find?_eq_some h.symm)) ?_
          simp [hw]
    · -- a refresh is passed over
      have hw : ¬ Wanted key recursive e := fun h => by simp [h.1] at hr
      have hm : ¬ Misleads key recursive done e := fun h => by simp [h.1] at hr
      rw [find?_cons_of_neg (by simpa using hw), scanList_refresh hr]
      simp [hm, hw]
      exact scanList_eq_iff hkey seen htail (by simp [hr, hseen])

theorem filter_index_eq_drop : ∀ {es : List Event}, Consecutive es → ∀ {first : Event},
    es[0]? = some first → ∀ index, es.filter (index ≤ ·.index) = es.drop (index - first.index)
  | [], _, _, hfirst, _ => by cases hfirst
  | e :: es, hcons, first, hfirst, index => by
    cases hfirst
    by_cases hle : index ≤ e.index
    · rw [show index - e.index = 0 by omega, drop_zero, filter_eq_self]
      intro x hx
      rcases mem_cons.1 hx with rfl | hx
      · simpa using hle
      · have := Consecutive.lt_of_mem hcons hx
        simp
        omega
    · rw [filter_cons_of_neg (by simpa using hle), show index - e.index
        = (index - (e.index + 1)) + 1 by omega, drop_succ_cons]
      rcases es with _ | ⟨x, es⟩
      · simp
      · have hx := @Consecutive.index_get _ hcons e rfl 1 x rfl
        have htail : Consecutive (x :: es) := hcons.drop 1
        rw [filter_index_eq_drop htail rfl, hx]

end Scan

end EventHistory

/-- A scan of an index that the history has finds the first event wanted, unless there is no event
at all or one up to it misleads the scan. -/
theorem scan_exact_iff {capacity : ℕ} (hpos : 0 < capacity) {evs : List Event} {eh : EventHistory}
    (h : evs.foldlM EventHistory.addEvent (newEventHistory capacity) = .ok eh)
    (hcons : Consecutive evs) {key : Bytes} (hkey : Cleaned key) (recursive : Bool) {index : ℕ}
    (hstart : eh.startIndex ≤ index) (hlast : index ≤ eh.lastIndex) :
    eh.scan key recursive index = .ok (.ok (firstWanted (eh.held evs) key recursive index))
      ↔ evs ≠ [] ∧ ∀ before e after,
        (eh.held evs).filter (index ≤ ·.index) = before ++ e :: after →
        (∀ b ∈ before, ¬ Wanted key recursive b) → ¬ Misleads key recursive before e := by
  have hrec := EventHistory.records_of_foldlM hpos evs h
  by_cases hne : evs = []
  · -- the position asked for has a nil event
    subst hne
    cases h
    have hindex : index = 0 := Nat.le_zero.1 hlast
    subst hindex
    refine iff_of_false ?_ fun h => h.1 rfl
    obtain ⟨n, rfl⟩ := Nat.exists_eq_succ_of_ne_zero hpos.ne'
    simp [EventHistory.scan, newEventHistory, RingBuffer.new, EventHistory.scanFrom,
      EventHistory.eventAt, bind, Except.bind]
  · obtain ⟨e, es, hdrop, -, hscan⟩ := hrec.scan_eq hcons hne hstart hlast key recursive
    have hheld : Consecutive (eh.held evs) := hcons.drop _
    have hlen : 0 < (eh.held evs).length := by
      rw [EventHistory.held, RingBuffer.length_newest]
      have := hrec.ring.pos
      have := List.length_pos_iff.2 hne
      omega
    have hfirst := List.getElem?_eq_getElem hlen
    have hstart' := hrec.start
    rw [hfirst, Option.elim_some] at hstart'
    have hfilter := EventHistory.filter_index_eq_drop hheld hfirst index
    rw [← hstart', hdrop] at hfilter
    rw [hscan, firstWanted, hfilter]
    have := @EventHistory.scanList_eq_iff key recursive hkey (e :: es) [] false
      (hdrop ▸ hheld.drop _) (by simp)
    simp [hne]
    exact this

section Fails

def slashFo : Bytes := slash :: ascii "fo"

def slashFoo : Bytes := slash :: ascii "foo"

def dirDeleted (path : Bytes) (index : ℕ) : Event :=
  { newEvent .delete path index 0 with
    prevNode := some { key := path, dir := true, modifiedIndex := 0, createdIndex := 0 } }

/-- A recursive scan passes over the event at its key when another one stands before it, and the
deletion of `/fo` is found by a scan of `/foo`. -/
theorem scan_not_exact :
    (∃ eh, [newEvent .set slashFo 1 1, newEvent .set slashFoo 2 2].foldlM EventHistory.addEvent
        (newEventHistory 1000) = .ok eh ∧ Cleaned slashFoo ∧ eh.startIndex ≤ 1 ∧ 1 ≤ eh.lastIndex
      ∧ eh.scan slashFoo true 1 = .ok (.ok none)
      ∧ firstWanted (eh.held [newEvent .set slashFo 1 1,
        newEvent .set slashFoo 2 2]) slashFoo true 1
        = some (newEvent .set slashFoo 2 2))
    ∧ ∃ eh, [dirDeleted slashFo 1].foldlM EventHistory.addEvent (newEventHistory 1000) = .ok eh
      ∧ eh.startIndex ≤ 1 ∧ 1 ≤ eh.lastIndex
      ∧ eh.scan slashFoo false 1 = .ok (.ok (some (dirDeleted slashFo 1)))
      ∧ firstWanted (eh.held [dirDeleted slashFo 1]) slashFoo false 1 = none :=
  ⟨⟨_, rfl, ⟨rfl, rfl⟩, by decide, by decide, rfl, rfl⟩,
    ⟨_, rfl, by decide, by decide, rfl, rfl⟩⟩

/-- A scan where no event misleads. -/
theorem scan_exact_two : ∃ eh, [newEvent .set slashFo 1 1, newEvent .set slashFoo 2 2].foldlM
      EventHistory.addEvent (newEventHistory 1000) = .ok eh
    ∧ eh.scan slashFoo false 1 = .ok (.ok (firstWanted
      (eh.held [newEvent .set slashFo 1 1, newEvent .set slashFoo 2 2]) slashFoo false 1)) := by
  have hcons : Consecutive [newEvent .set slashFo 1 1, newEvent .set slashFoo 2 2] := by
    simp [Consecutive, newEvent, Event.index]
  refine ⟨_, rfl, (scan_exact_iff (show 0 < 1000 by decide) rfl hcons ⟨rfl, rfl⟩ false (by decide)
    (by decide)).2 ⟨by simp, fun before e after heq _ => ?_⟩⟩
  rintro ⟨-, ⟨⟨dir, hdir, -⟩, -⟩ | ⟨hrec, -⟩⟩
  · have he : e ∈ [newEvent .set slashFo 1 1, newEvent .set slashFoo 2 2] := by
      have : e ∈ before ++ e :: after := by simp
      rw [← heq] at this
      exact (List.mem_of_mem_drop (List.mem_of_mem_filter this))
    rcases List.mem_pair.1 he with rfl | rfl <;> cases hdir
  · cases hrec

end Fails

end EtcdCompat.V2
