import EtcdCompat.Lib.Outcome
import EtcdCompat.V2.Store

/-!
# The hub of the watchers

The watchers in the lists of the hub are those not removed, each once and under its own path, and
their channels are open. So a notification never sends on a closed channel. It leaves the history
alone.
-/

namespace EtcdCompat.V2

open Function List

abbrev Never : Panic → Prop := fun _ => False

namespace WatcherHub

variable {wh : WatcherHub} {e : Event} {path : Bytes} {id : ℕ}

structure Open (wh : WatcherHub) : Prop where
  listed : ∀ path, ∀ id ∈ wh.watchers path, ∃ w, wh.table[id]? = some w ∧ w.closed = false
    ∧ w.removed = false ∧ w.remove = some path
  nodup : ∀ path, (wh.watchers path).Nodup

theorem Open.new (capacity : ℕ) : (newWatchHub capacity).Open :=
  ⟨fun _ _ h => (by cases h), fun _ => nodup_nil⟩

/-- What happens to the watchers without any effect on the history. -/
structure Calm (wh wh' : WatcherHub) : Prop where
  isOpen : wh'.Open
  history : wh'.eventHistory = wh.eventHistory

namespace Open

variable (h : wh.Open)
include h

theorem path_eq {w : Watcher} (hw : wh.table[id]? = some w) {p : Bytes} (hp : id ∈ wh.watchers p) :
    w.remove = some p := by
  obtain ⟨w', hw', -, -, hrem⟩ := h.listed p id hp
  rw [hw] at hw'
  cases hw'
  exact hrem

theorem setWatcher {w w' : Watcher} (hw : wh.table[id]? = some w) (hclosed : w'.closed = w.closed)
    (hremoved : w'.removed = w.removed) (hremove : w'.remove = w.remove) :
    (wh.setWatcher id w').Open := by
  refine ⟨fun p j hj => ?_, h.nodup⟩
  by_cases hij : id = j
  · subst hij
    obtain ⟨w₀, hw₀, hlisted⟩ := h.listed p id hj
    rw [hw] at hw₀
    cases hw₀
    refine ⟨w', List.getElem?_set_self (List.getElem?_eq_some_iff.1 hw).1, ?_⟩
    rw [hclosed, hremoved, hremove]
    exact hlisted
  · obtain ⟨w₀, hw₀, hlisted⟩ := h.listed p j hj
    exact ⟨w₀, by rw [← hw₀]; exact List.getElem?_set_ne hij, hlisted⟩

theorem takeOff (w' : Watcher) (hpath : ∀ p, id ∈ wh.watchers p → p = path) :
    ((wh.setWatcher id w').takeOff path id).Open := by
  have hof : ∀ p j, j ∈ ((wh.setWatcher id w').takeOff path id).watchers p →
      j ≠ id ∧ j ∈ wh.watchers p := by
    intro p j hj
    simp only [WatcherHub.takeOff, WatcherHub.setWatcher] at hj
    by_cases hp : p = path
    · subst hp
      rw [update_self, (h.nodup p).mem_erase_iff] at hj
      exact hj
    · rw [update_of_ne hp] at hj
      refine ⟨?_, hj⟩
      rintro rfl
      exact hp (hpath p hj)
  refine ⟨fun p j hj => ?_, fun p => ?_⟩
  · obtain ⟨hne, hj⟩ := hof p j hj
    obtain ⟨w₀, hw₀, hlisted⟩ := h.listed p j hj
    exact ⟨w₀, by rw [← hw₀]; exact getElem?_set_ne hne.symm, hlisted⟩
  · simp only [WatcherHub.takeOff, WatcherHub.setWatcher]
    by_cases hp : p = path
    · subst hp
      rw [update_self]
      exact (h.nodup p).erase id
    · rw [update_of_ne hp]
      exact h.nodup p

theorem withCount (count : ℤ) : Open { wh with count } := ⟨h.listed, h.nodup⟩

end Open

/-- Only the one watcher may have gone from its list. -/
structure Spares (path : Bytes) (id : ℕ) (wh wh' : WatcherHub) : Prop extends Calm wh wh' where
  less : ∀ p, ∀ j ∈ wh'.watchers p, j ∈ wh.watchers p
  others : ∀ j ∈ wh.watchers path, j ≠ id → j ∈ wh'.watchers path

theorem Spares.refl (h : wh.Open) : Spares path id wh wh :=
  ⟨⟨h, rfl⟩, fun _ _ hj => hj, fun _ hj _ => hj⟩

theorem Spares.takeOff {wh₀ : WatcherHub} (h : Spares path id wh₀ wh) (w' : Watcher) (count : ℤ)
    (hpath : ∀ p, id ∈ wh₀.watchers p → p = path) :
    Spares path id wh₀ { (wh.setWatcher id w').takeOff path id with count } := by
  refine ⟨⟨(h.isOpen.takeOff w' fun p hp => hpath p (h.less p id hp)).withCount count, h.history⟩,
    fun p j hj => h.less p j ?_, fun j hj hne => ?_⟩
  · simp only [WatcherHub.takeOff, WatcherHub.setWatcher] at hj
    by_cases hp : p = path
    · subst hp
      rw [update_self] at hj
      exact mem_of_mem_erase hj
    · rwa [update_of_ne hp] at hj
  · simp [WatcherHub.takeOff, WatcherHub.setWatcher]
    exact (mem_erase_of_ne hne).2 (h.others j hj hne)

section Notify

theorem Open.only_path (h : wh.Open) (hid : id ∈ wh.watchers path) {p : Bytes}
    (hp : id ∈ wh.watchers p) : p = path := by
  obtain ⟨w, hw, -, -, hrem⟩ := h.listed path id hid
  exact Option.some.inj ((h.path_eq hw hp).symm.trans hrem)

theorem callRemove_spares (h : wh.Open) {w : Watcher} (hid : id ∈ wh.watchers path)
    (hw : wh.table[id]? = some w) : Yields Never (Spares path id wh) (wh.callRemove id w) := by
  unfold callRemove
  rw [h.path_eq hw hid]
  simp only
  split
  · exact .refl h
  · exact (Spares.refl h).takeOff _ _ fun p hp => h.only_path hid hp

theorem notifyWatcher_spares (h : wh.Open) {w : Watcher} (hid : id ∈ wh.watchers path)
    (hw : wh.table[id]? = some w) (originalPath deleted : Bool) :
    Yields Never (fun r => Spares path id wh r.1)
      (wh.notifyWatcher id w e originalPath deleted) := by
  obtain ⟨w', hw', hclosed, -⟩ := h.listed path id hid
  rw [hw] at hw'
  cases hw'
  unfold notifyWatcher
  simp [hclosed]
  split_ifs
  · exact ⟨⟨h.setWatcher hw hclosed.symm rfl rfl, rfl⟩, fun _ _ hj => hj, fun _ hj _ => hj⟩
  · exact (callRemove_spares h hid hw).bind fun _ hwh' => hwh'
  · exact .refl h

theorem notifyOne_spares (h : wh.Open) (hid : id ∈ wh.watchers path) (deleted : Bool) :
    Yields Never (Spares path id wh) (notifyOne e path deleted wh id) := by
  obtain ⟨w, hw, -⟩ := h.listed path id hid
  unfold notifyOne
  rw [hw]
  simp only
  split
  · refine (notifyWatcher_spares h hid hw _ deleted).bind fun r hr => ?_
    split
    · exact hr.takeOff _ _ fun p hp => h.only_path hid hp
    · exact hr
  · exact .refl h

theorem foldlM_notifyOne (deleted : Bool) : ∀ {ids : List ℕ} {wh : WatcherHub}, wh.Open →
    ids.Nodup → (∀ id ∈ ids, id ∈ wh.watchers path) →
    Yields Never (Calm wh) (ids.foldlM (notifyOne e path deleted) wh)
  | [], _, h, _, _ => ⟨h, rfl⟩
  | id :: ids, wh, h, hnd, hin => by
    rw [nodup_cons] at hnd
    rw [foldlM_cons]
    refine (notifyOne_spares h (hin id mem_cons_self) deleted).bind fun wh' hwh' => ?_
    refine (foldlM_notifyOne deleted hwh'.isOpen hnd.2 fun j hj => ?_).mono fun wh'' hwh'' =>
      ⟨hwh''.isOpen, hwh''.history.trans hwh'.history⟩
    refine hwh'.others j (hin j (mem_cons_of_mem _ hj)) ?_
    rintro rfl
    exact hnd.1 hj

theorem notifyWatchers_calm (h : wh.Open) (e : Event) (path : Bytes) (deleted : Bool) :
    Yields Never (Calm wh) (wh.notifyWatchers e path deleted) :=
  foldlM_notifyOne deleted h (h.nodup path) fun _ hid => hid

theorem notifyAlong_calm (e : Event) : ∀ (segs : List Bytes) {wh : WatcherHub} (path : Bytes),
    wh.Open → Yields Never (Calm wh) (notifyAlong e wh path segs)
  | [], _, _, h => ⟨h, rfl⟩
  | seg :: segs, wh, path, h => by
    refine (notifyWatchers_calm h e _ false).bind fun wh' hwh' => ?_
    exact (notifyAlong_calm e segs _ hwh'.isOpen).mono fun wh'' hwh'' =>
      ⟨hwh''.isOpen, hwh''.history.trans hwh'.history⟩

end Notify

section Consumers

theorem watch_calm (h : wh.Open) (key : Bytes) (recursive stream : Bool) (index storeIndex : ℕ) :
    ∀ r, wh.watch key recursive stream index storeIndex = .ok r → Calm wh r.1 := by
  intro r hr
  obtain ⟨found, -, hr⟩ := exists_ok_of_bind hr
  have hgrow : ∀ (w : Watcher), Open { wh with table := wh.table ++ [w] } := fun w => by
    refine ⟨fun p j hj => ?_, h.nodup⟩
    obtain ⟨w₀, hw₀, hlisted⟩ := h.listed p j hj
    exact ⟨w₀, by rw [← hw₀]; exact List.getElem?_append_left (List.getElem?_eq_some_iff.1 hw₀).1,
      hlisted⟩
  rcases found with err | _ | event
  · cases hr
    exact ⟨h, rfl⟩
  · -- the watcher goes to the end of the list of its path
    cases hr
    refine ⟨⟨fun p j hj => ?_, fun p => ?_⟩, rfl⟩
    · simp only at hj
      by_cases hp : p = key
      · subst hp
        rw [update_self, List.mem_append, List.mem_singleton] at hj
        rcases hj with hj | rfl
        · exact (hgrow _).listed p j hj
        · exact ⟨_, List.getElem?_concat_length, rfl, rfl, rfl⟩
      · rw [update_of_ne hp] at hj
        exact (hgrow _).listed p j hj
    · simp only
      by_cases hp : p = key
      · subst hp
        rw [update_self]
        refine List.Nodup.append (h.nodup p) (List.nodup_singleton _) fun j hj hj' => ?_
        obtain ⟨w₀, hw₀, -⟩ := h.listed p j hj
        have := (List.getElem?_eq_some_iff.1 hw₀).1
        rw [List.mem_singleton] at hj'
        omega
      · rw [update_of_ne hp]
        exact h.nodup p
  · cases hr
    exact ⟨hgrow _, rfl⟩

theorem receive_calm (h : wh.Open) (id : ℕ) : Calm wh (wh.receive id).1 := by
  unfold receive
  split
  · exact ⟨h, rfl⟩
  · rename_i w hw
    split
    · exact ⟨h, rfl⟩
    · exact ⟨h.setWatcher hw rfl rfl rfl, rfl⟩

theorem remove_calm (h : wh.Open) (id : ℕ) : ∀ wh', wh.remove id = .ok wh' → Calm wh wh' := by
  intro wh' hwh'
  unfold remove at hwh'
  rcases hw : wh.table[id]? with _ | w
  · rw [hw] at hwh'
    cases hwh'
  rw [hw] at hwh'
  simp only at hwh'
  by_cases hclosed : w.closed
  · rw [if_pos hclosed] at hwh'
    cases hwh'
  rw [if_neg hclosed] at hwh'
  have hoff : ∀ w' : Watcher, (∀ p, id ∉ wh.watchers p) → (wh.setWatcher id w').Open := by
    intro w' hno
    refine ⟨fun p j hj => ?_, h.nodup⟩
    obtain ⟨w₀, hw₀, hlisted⟩ := h.listed p j hj
    have hne : id ≠ j := by
      rintro rfl
      exact hno p hj
    exact ⟨w₀, by rw [← hw₀]; exact getElem?_set_ne hne, hlisted⟩
  rcases hrem : w.remove with _ | path
  · simp [hrem] at hwh'
    cases hwh'
    refine ⟨hoff _ fun p hp => ?_, rfl⟩
    rw [h.path_eq hw hp] at hrem
    cases hrem
  · simp [hrem, callRemove] at hwh'
    by_cases hremoved : w.removed
    · rw [if_pos hremoved] at hwh'
      cases hwh'
      refine ⟨hoff _ fun p hp => ?_, rfl⟩
      obtain ⟨w₀, hw₀, -, hlisted, -⟩ := h.listed p id hp
      rw [hw] at hw₀
      cases hw₀
      rw [hlisted] at hremoved
      cases hremoved
    · rw [if_neg hremoved] at hwh'
      cases hwh'
      have hpath : ∀ p, id ∈ wh.watchers p → p = path := fun p hp =>
        Option.some.inj ((h.path_eq hw hp).symm.trans hrem)
      have hset : ∀ w₁ w₂ : Watcher, (wh.setWatcher id w₁).setWatcher id w₂
          = wh.setWatcher id w₂ := fun w₁ w₂ => by
        simp [setWatcher]
      rw [hset]
      exact ⟨(h.takeOff _ hpath).withCount _, rfl⟩

end Consumers

end WatcherHub

end EtcdCompat.V2
