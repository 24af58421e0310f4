import EtcdCompat.Proofs.V2History
import EtcdCompat.Proofs.V2Tree

/-!
# The index and the history of the v2 store

`Logged s evs` says that `evs` are all the events of the store so far, each with the next index, and
that the history has recorded them. A write either fails and leaves the store as it was, or adds the
one event it answers. Every key that expires adds one.
-/

namespace EtcdCompat.V2

open List Option WatcherHub

open GoPath

namespace Store

variable {s s' : Store} {a d : ℕ} {e : Event} {env : Env} {evs : List Event}

section Get

variable {last : Bytes}

theorem cleanPath_eq (nodePath : Bytes) :
    ∃ elems, (∀ elem ∈ elems, IsElem elem) ∧ cleanPath nodePath = rootedPath elems := by
  have hjoin : join [slash] nodePath = clean (slash :: slash :: nodePath) := rfl
  obtain ⟨elems, helems, heq⟩ := @exists_clean_eq (slash :: slash :: nodePath) rfl
  refine ⟨elems, helems, ?_⟩
  rw [cleanPath, hjoin, heq, clean_rootedPath helems]

theorem getChild_ok {name : Bytes} {c : ℕ} (h : s.getChild d name = .ok c) :
    (s.mem d).isDir ∧ (s.mem d).child name = some c := by
  unfold getChild at h
  simp only at h
  split at h
  · cases h
  · rename_i hdir
    split at h
    · rename_i c' hc'
      cases h
      exact ⟨not_not.1 hdir, hc'⟩
    · cases h

theorem getFrom_cons {component : Bytes} (hne : component ≠ []) {components : List Bytes}
    (h : s.getFrom d (component :: components) = .ok a) :
    ∃ c, (s.mem d).isDir ∧ (s.mem d).child component = some c
      ∧ s.getFrom c components = .ok a := by
  rw [getFrom, if_neg hne] at h
  obtain ⟨c, hc, hrest⟩ := exists_ok_of_bind h
  exact ⟨c, (getChild_ok hc).1, (getChild_ok hc).2, hrest⟩

theorem walkFrom_of_getFrom (hlast : last ≠ []) : ∀ {init : List Bytes} {d : ℕ},
    (∀ elem ∈ init, elem ≠ []) → s.getFrom d (init ++ [last]) = .ok a →
    (s.mem d).isDir ∧ ∃ d', walkFrom checkDir s d (init ++ [[]]) = .ok (s, .ok d')
      ∧ (s.mem d').child last = some a
  | [], d, _, h => by
    obtain ⟨c, hdir, hc, hrest⟩ := getFrom_cons hlast h
    cases hrest
    refine ⟨hdir, d, ?_, hc⟩
    rw [nil_append, walkFrom, if_pos rfl]
  | x :: init, d, hne, h => by
    have hx := hne x mem_cons_self
    obtain ⟨c, hdir, hc, hrest⟩ := getFrom_cons hx h
    obtain ⟨hcdir, d', hwalk, hd'⟩ :=
      walkFrom_of_getFrom hlast (fun y hy => hne y (mem_cons_of_mem _ hy)) hrest
    refine ⟨hdir, d', ?_, hd'⟩
    have hcheck : s.checkDir d x = .ok (s, .ok c) := by
      unfold checkDir
      rw [hc]
      simp only
      rw [if_pos hcdir]
    rw [cons_append, walkFrom, if_neg hx, hcheck]
    exact hwalk

theorem file_append (init : List Bytes) (h : slash ∉ last) :
    file (rooted slash init ++ slash :: last) = last := by
  rw [file, segments_append_sep]
  have hseg : segments slash last = [last] := by
    have := @segments_rooted _ _ slash [last] (by simpa using h)
    rw [rooted_cons, cons_append, segments, if_pos rfl] at this
    simpa [rooted] using this
  rw [hseg, getLastD_eq_getLast?, getLast?_concat]
  rfl

theorem dir_append (init : List Bytes) (h : slash ∉ last) :
    dir (rooted slash init ++ slash :: last) = rooted slash init ++ [slash] := by
  rw [dir, file_append init h]
  have hlen : (rooted slash init ++ slash :: last).length - last.length
      = (rooted slash init ++ [slash]).length := by
    simp
    omega
  rw [hlen, show rooted slash init ++ slash :: last = (rooted slash init ++ [slash])
    ++ last by simp,
    take_left]

theorem walk_of_internalGet {nodePath : Bytes} (h : s.internalGet nodePath = .ok a)
    (hroot : cleanPath nodePath ≠ [slash]) :
    ∃ d, s.walk (dir (cleanPath nodePath)) checkDir = .ok (s, .ok d)
      ∧ (s.mem d).child (file (cleanPath nodePath)) = some a := by
  obtain ⟨elems, helems, heq⟩ := cleanPath_eq nodePath
  have hne : elems ≠ [] := by
    rintro rfl
    exact hroot heq
  obtain ⟨init, last, rfl⟩ : ∃ init last, elems = init ++ [last] :=
    ⟨_, _, (dropLast_append_getLast hne).symm⟩
  have hlast := helems last (by simp)
  have hinit : ∀ elem ∈ init, IsElem elem := fun elem hm => helems elem (by simp [hm])
  rw [internalGet, heq, segments_rootedPath helems hne, tail_cons] at h
  obtain ⟨-, d, hwalk, hd⟩ := walkFrom_of_getFrom hlast.1 (fun elem hm => (hinit elem hm).1) h
  have hpath : rootedPath (init ++ [last]) = rooted slash init ++ slash :: last := by
    rw [rootedPath, if_neg hne, rooted_append]
    simp [rooted]
  refine ⟨d, ?_, ?_⟩
  · rw [walk, heq, hpath, dir_append init hlast.2.1, segments_append_sep,
      segments_rooted fun elem hm => (hinit elem hm).2.1]
    exact hwalk
  · rw [heq, hpath, file_append init hlast.2.1]
    exact hd

end Get

section Create

variable {nodePath value : Bytes} {dir unique replace : Bool} {expireTime : Time} {action : Action}

/-- The store is sound and has the next index. -/
def Advanced (s s' : Store) : Prop :=
  ∃ s₁, Kept s s₁ ∧ s' = { s₁ with currentIndex := s₁.currentIndex + 1 }

theorem Kept.advanced {s₁ : Store} (h : Kept s s₁) (h' : Advanced s₁ s') : Advanced s s' := by
  obtain ⟨s₂, hs₂, heq⟩ := h'
  exact ⟨s₂, h.trans hs₂, heq⟩

theorem add_kept (h : s.Sound) (hlt : d < a) (ha : a < s.next) : Kept s (s.add d a) := by
  unfold add
  simp only
  split
  · exact .refl h
  · rename_i children hch
    split
    · exact .refl h
    · exact .insertChild h hch hlt ha

theorem addNew_advanced (h : s.Sound) (hlt : d < s.next) (env : Env) :
    Advanced s (s.addNew env e d dir value expireTime).1 := by
  unfold addNew
  simp only
  generalize hn : (if dir then newDir e.node.key (s.currentIndex + 1) (some d) expireTime
    else newKV e.node.key value (s.currentIndex + 1) (some d) expireTime) = n
  have halloc : Kept s (s.alloc n) := .alloc h fun name => by
    rw [← hn]
    split <;> rfl
  have hadd := halloc.trans (add_kept halloc.sound hlt (Nat.lt_succ_self s.next))
  refine ⟨if n.isPermanent then (s.alloc n).add d s.next
    else ((s.alloc n).add d s.next).pushTTL s.next, ?_, ?_⟩
  · split
    · exact hadd
    · exact hadd.withHeap _
  · have hindex : ((s.alloc n).add d s.next).currentIndex = s.currentIndex := hadd.index
    split <;> simp [hindex, pushTTL]

/-- The creation of a node fails and changes nothing, or the node has the next index. -/
theorem internalCreate_spec (h : s.Sound) :
    Yields Never (fun r => (∀ err, r.2 = .error err → r.1 = s)
      ∧ ∀ e, r.2 = .ok e → Advanced s r.1 ∧ e.index = s.currentIndex + 1)
      (s.internalCreate env nodePath dir value unique replace expireTime action) := by
  unfold internalCreate
  simp only
  split
  · exact ⟨fun _ _ => rfl, fun _ hok => (by cases hok)⟩
  refine (walk_spec h _).bind fun r hr => ?_
  obtain ⟨s₁, res⟩ := r
  rcases hr with ⟨heq, hfound⟩ | ⟨d, hok, hkept, hempty, hlt⟩
  · -- nothing was made on the way
    obtain rfl : s₁ = s := heq
    rcases res with err | d
    · exact ⟨fun _ _ => rfl, fun _ hok => (by cases hok)⟩
    obtain ⟨-, hlt⟩ := hfound d rfl
    simp only
    rcases hc : (s₁.mem d).child (file (s₁.createPath nodePath unique)) with _ | c
    · refine ⟨fun _ herr => (by cases herr), ?_⟩
      rintro _ ⟨⟩
      exact ⟨addNew_advanced h hlt env, rfl⟩
    simp only
    by_cases hreplace : replace
    · rw [if_neg (not_not.2 hreplace)]
      split
      · exact ⟨fun _ _ => rfl, fun _ hok => (by cases hok)⟩
      · refine (remove_trimmed h env none _ false false).bind fun r hr => ?_
        have hlt' : d < r.1.next := by
          rw [hr.1.next_eq]
          exact hlt
        refine ⟨fun _ herr => (by cases herr), ?_⟩
        rintro _ ⟨⟩
        exact ⟨hr.1.toKept.advanced (addNew_advanced hr.1.sound hlt' env), rfl⟩
    · rw [if_pos hreplace]
      exact ⟨fun _ _ => rfl, fun _ hok => (by cases hok)⟩
  · cases hok
    have hnone : ∀ name, (s₁.mem d).child name = none := fun name => by
      rw [Node.child, hempty]
      rfl
    simp only [hnone]
    refine ⟨fun _ herr => (by cases herr), ?_⟩
    rintro _ ⟨⟩
    exact ⟨hkept.advanced (addNew_advanced hkept.sound hlt env), rfl⟩

end Create

section Publish

variable {s₁ : Store}

/-- All the events of the store, in their order. -/
structure Logged (s : Store) (evs : List Event) : Prop where
  sound : s.Sound
  index : s.currentIndex = evs.length
  numbered : evs.map Event.index = List.range' 1 evs.length
  records : s.watcherHub.eventHistory.Records evs
  capacity : s.watcherHub.eventHistory.queue.capacity = 1000

theorem add_records {wh : WatcherHub} (h : wh.Open) (hrec : wh.eventHistory.Records evs)
    (hcap : wh.eventHistory.queue.capacity = 1000) (e : Event) :
    Yields Never (fun wh' => wh'.Open ∧ wh'.eventHistory.Records (evs ++ [e])
      ∧ wh'.eventHistory.queue.capacity = 1000) (wh.add e) := by
  obtain ⟨eh', heh', hrec', hcap'⟩ := hrec.addEvent e
  rw [WatcherHub.add, heh']
  exact ⟨⟨h.listed, h.nodup⟩, hrec', hcap'.trans hcap⟩

theorem publish_logged (hlog : s.Logged evs) (hs₁ : s₁.Sound)
    (hhist : s₁.watcherHub.eventHistory = s.watcherHub.eventHistory)
    (he : e.index = s.currentIndex + 1) : Yields Never (fun s₂ => s₂.currentIndex = s₁.currentIndex
      ∧ ∀ i, i = s.currentIndex + 1 → Logged { s₂ with currentIndex := i } (evs ++ [e]))
      (s₁.publish e) := by
  have hrec := hlog.records
  have hcap := hlog.capacity
  rw [← hhist] at hrec hcap
  have hnum : (evs ++ [e]).map Event.index = range' 1 (evs ++ [e]).length := by
    rw [map_append, hlog.numbered, length_append, length_singleton, range'_concat, map_singleton,
      he, hlog.index]
    simp [Nat.add_comm]
  suffices hwh : Yields Never (fun wh' => wh'.Open ∧ wh'.eventHistory.Records (evs ++ [e])
      ∧ wh'.eventHistory.queue.capacity = 1000)
      (tell s₁.watcherHub e) by
    refine hwh.bind fun wh' hwh' => ?_
    obtain ⟨hopen, hrec', hcap'⟩ := hwh'
    refine ⟨rfl, fun i hi => ⟨{ hs₁ with hub := hopen }, ?_, hnum, hrec', hcap'⟩⟩
    rw [hi, hlog.index, length_append, length_singleton]
  unfold tell
  split
  · exact add_records hs₁.hub hrec hcap e
  · refine (add_records hs₁.hub hrec hcap e).bind fun wh' hwh' => ?_
    obtain ⟨hopen, hrec', hcap'⟩ := hwh'
    refine (notifyAlong_calm e _ _ hopen).mono fun wh'' hwh'' => ?_
    exact ⟨hwh''.isOpen, by rwa [hwh''.history], by rwa [hwh''.history]⟩

theorem Advanced.sound (h : Advanced s s') : s'.Sound := by
  obtain ⟨s₁, hs₁, rfl⟩ := h
  exact ⟨hs₁.sound.pos, hs₁.sound.rootDir, hs₁.sound.child, hs₁.sound.readonly, hs₁.sound.hub⟩

theorem Advanced.publish (h : Advanced s s₁) (hlog : s.Logged evs)
    (he : e.index = s.currentIndex + 1) :
    Yields Never (fun s₂ => s₂.Logged (evs ++ [e])) (s₁.publish e) := by
  have hsound := h.sound
  obtain ⟨s₀, hs₀, rfl⟩ := h
  refine (publish_logged hlog hsound hs₀.history he).mono fun s₂ hs₂ => ?_
  have := hs₂.2 s₂.currentIndex (hs₂.1.trans (by simp [hs₀.index]))
  exact this

end Publish

section Write

variable {prev : Option ℕ} {s₁ : Store} {nodePath value prevValue : Bytes} {dir recursive : Bool}
  {prevIndex : ℕ} {expireOpts : TTLOptionSet}

/-- The write has failed without a change, or its event is the next one. -/
def Settles (s : Store) (evs : List Event) (r : Answer Event) : Prop :=
  (∀ err, r.2 = .error err → r.1 = s)
    ∧ ∀ e, r.2 = .ok e → e.index = s.currentIndex + 1 ∧ r.1.Logged (evs ++ [e])

theorem Settles.fail (err : EtcdError) : Settles s evs (s, .error err) :=
  ⟨fun _ _ => rfl, fun _ hok => (by cases hok)⟩

theorem Settles.done (he : e.index = s.currentIndex + 1) (h : s'.Logged (evs ++ [e])) :
    Settles s evs (s', .ok e) := by
  refine ⟨fun _ herr => (by cases herr), ?_⟩
  rintro _ ⟨⟩
  exact ⟨he, h⟩

theorem create_settles (hlog : s.Logged evs) {unique : Bool} :
    Yields Never (Settles s evs) (s.create env nodePath dir value unique expireOpts) := by
  refine (internalCreate_spec hlog.sound).bind fun r hr => ?_
  obtain ⟨s₁, err | e⟩ := r
  · obtain rfl : s₁ = s := hr.1 err rfl
    exact Settles.fail err
  · obtain ⟨hadv, he⟩ := hr.2 e rfl
    have hindex : { e with etcdIndex := s₁.currentIndex : Event }.index = s.currentIndex + 1 := he
    exact (hadv.publish hlog hindex).bind fun s₂ hs₂ => Settles.done hindex hs₂

theorem isDir_of_internalCreate (h : s.Sound) (hget : s.internalGet nodePath = .ok a)
    {expireTime : Time} {action : Action} {r : Answer Event}
    (hr : s.internalCreate env nodePath dir value false true expireTime action = .ok r)
    (hok : r.2 = .ok e) : (s.mem a).isDir = false ∧ a < s.next := by
  unfold internalCreate at hr
  simp only [createPath, Bool.false_eq_true, if_false] at hr
  by_cases hro : s.readonlySet.contains (cleanPath nodePath)
  · rw [if_pos hro] at hr
    cases hr
    cases hok
  rw [if_neg hro] at hr
  have hroot : cleanPath nodePath ≠ [slash] := fun heq => hro (heq ▸ h.readonly)
  obtain ⟨d, hwalk, hd⟩ := walk_of_internalGet hget hroot
  rw [hwalk] at hr
  simp [bind, Except.bind, hd] at hr
  refine ⟨?_, (h.child d _ a hd).2⟩
  by_cases hdir : (s.mem a).isDir
  · rw [if_pos hdir] at hr
    cases hr
    cases hok
  · simpa using hdir

theorem withPrev_index (hprev : ∀ a, prev = some a → (s.mem a).isDir = false) :
    Yields Never (fun e' => e'.index = e.index) (s.withPrev env nodePath e prev) := by
  rcases prev with _ | a
  · rfl
  · have hch : (s.mem a).children = none := by
      have := hprev a rfl
      rwa [Node.isDir, isSome_eq_false_iff, isNone_iff_eq_none] at this
    simp only [withPrev, loadInternalNode, hch]
    rfl

theorem setNew_settles (hlog : s.Logged evs)
    (hprev : ∀ a, prev = some a → s.internalGet nodePath = .ok a) :
    Yields Never (Settles s evs) (s.setNew env nodePath dir value expireOpts prev) := by
  refine (internalCreate_spec hlog.sound).bind_ok fun r hr hspec => ?_
  obtain ⟨s₁, err | e⟩ := r
  · obtain rfl : s₁ = s := hspec.1 err rfl
    exact Settles.fail err
  · obtain ⟨hadv, he⟩ := hspec.2 e rfl
    have hfile : ∀ a, prev = some a → (s₁.mem a).isDir = false := fun a ha => by
      obtain ⟨hdir, hlt⟩ := isDir_of_internalCreate hlog.sound (hprev a ha) hr rfl
      obtain ⟨s₀, hs₀, rfl⟩ := hadv
      exact (hs₀.isDir a hlt).trans hdir
    refine (withPrev_index hfile).bind fun e' he' => ?_
    have hindex : (if expireOpts.refresh then e'.setRefresh else e').index = s.currentIndex + 1 :=
      by
      rw [← he]
      split <;> exact he'
    exact (hadv.publish hlog hindex).bind fun s₂ hs₂ => Settles.done hindex hs₂

theorem set_settles (hlog : s.Logged evs) :
    Yields Never (Settles s evs) (s.set env nodePath dir value expireOpts) := by
  unfold set
  split
  · rename_i a hget
    refine setNew_settles hlog ?_
    rintro _ ⟨⟩
    exact hget
  · split
    · exact Settles.fail _
    · exact setNew_settles hlog fun a ha => (by cases ha)

theorem updateTTL_kept (h : s.Sound) (a : ℕ) (expireTime : Time) :
    Kept s (s.updateTTL a expireTime) := by
  have hset : Kept s (s.setNode a { s.mem a with expireTime }) := .setNode_same h a rfl
  unfold updateTTL
  simp only
  split_ifs
  · exact .refl h
  · exact hset.withHeap _
  · exact hset.withHeap _
  · exact hset.withHeap _

theorem children_write (n : Node) (value : Bytes) (index : ℕ) :
    (n.write value index).children = n.children := by
  unfold Node.write
  split <;> rfl

theorem rewrite_kept (h : s.Sound) (action : Action) :
    Kept s (s.rewrite env action a nodePath value expireOpts).1 :=
  have hset := Kept.setNode_same h a (children_write (s.mem a) _ _)
  hset.trans (updateTTL_kept hset.sound a _)

theorem Kept.advance (h : Kept s s₁) : Advanced s { s₁ with currentIndex := s₁.currentIndex + 1 } :=
  ⟨s₁, h, rfl⟩

theorem compareAndSwap_settles (hlog : s.Logged evs) : Yields Never (Settles s evs)
      (s.compareAndSwap env nodePath prevValue prevIndex value expireOpts) := by
  unfold compareAndSwap
  simp only
  split
  · exact Settles.fail _
  split
  · exact Settles.fail _
  split
  · exact Settles.fail _
  split
  · exact Settles.fail _
  exact ((rewrite_kept hlog.sound .compareAndSwap).advance.publish hlog rfl).bind
    fun s₂ hs₂ => Settles.done rfl hs₂

theorem update_settles (hlog : s.Logged evs) :
    Yields Never (Settles s evs) (s.update env nodePath value expireOpts) := by
  unfold update
  simp only
  split
  · exact Settles.fail _
  split
  · exact Settles.fail _
  rename_i a _
  split
  · exact Settles.fail _
  have hkept := @rewrite_kept s a env (cleanPath nodePath) value expireOpts hlog.sound .update
  refine (publish_logged hlog hkept.sound hkept.history rfl).bind fun s₂ hs₂ => ?_
  exact Settles.done rfl (hs₂.2 _ (by rw [hs₂.1, hkept.index]))

theorem delete_settles (hlog : s.Logged evs) :
    Yields Never (Settles s evs) (s.delete env nodePath dir recursive) := by
  unfold delete
  simp only
  split
  · exact Settles.fail _
  split
  · exact Settles.fail _
  rename_i a _
  refine (remove_trimmed hlog.sound env _ a (dir || recursive) recursive).bind fun r hr => ?_
  obtain ⟨s₁, _ | err⟩ := r
  · exact (hr.1.toKept.advance.publish hlog rfl).bind fun s₂ hs₂ => Settles.done rfl hs₂
  · obtain rfl : s₁ = s := hr.2.1 err rfl
    exact Settles.fail err

theorem Sound.withIndex (h : s.Sound) (currentIndex : ℕ) : Sound { s with currentIndex } :=
  { h with }

theorem Kept.advanced_of_index (h : Kept { s with currentIndex := s.currentIndex + 1 } s₁) :
    Advanced s s₁ := by
  refine ⟨{ s₁ with currentIndex := s.currentIndex }, ⟨h.sound.withIndex _, rfl, h.history, h.next,
    h.isDir⟩, ?_⟩
  have := h.index
  simp only at this
  rw [← this]

theorem compareAndDelete_settles (hlog : s.Logged evs) : Yields Never (Settles s evs)
      (s.compareAndDelete env nodePath prevValue prevIndex) := by
  unfold compareAndDelete
  simp only
  split
  · exact Settles.fail _
  rename_i a _
  split
  · exact Settles.fail _
  rename_i hdir
  split
  · exact Settles.fail _
  refine (remove_trimmed (hlog.sound.withIndex (s.currentIndex + 1)) env _ a false false).bind
    fun r hr => ?_
  obtain ⟨s₁, res⟩ := r
  obtain rfl : res = none := hr.2.2 (by simpa using hdir)
  exact (hr.1.toKept.advanced_of_index.publish hlog rfl).bind fun s₂ hs₂ => Settles.done rfl hs₂

theorem write_settles (hlog : s.Logged evs) (env : Env) (w : Write) :
    Yields Never (Settles s evs) (w.apply env s) := by
  cases w with
  | create => exact create_settles hlog
  | set => exact set_settles hlog
  | update => exact update_settles hlog
  | compareAndSwap => exact compareAndSwap_settles hlog
  | delete => exact delete_settles hlog
  | compareAndDelete => exact compareAndDelete_settles hlog

end Write

section Expire

theorem publish_heap (h : s.publish e = .ok s') : s'.ttlKeyHeap = s.ttlKeyHeap := by
  obtain ⟨wh, -, heq⟩ := exists_ok_of_bind h
  cases heq
  rfl

theorem length_pos_of_top {h : TtlKeyHeap} (htop : h.top = some a) : 0 < h.array.length :=
  length_pos_of_mem (mem_of_mem_head? htop)

theorem expireTop_spec (hlog : s.Logged evs) (env : Env) (cutoff : Time) :
    Yields Never (fun r => ∀ s₁, r = some s₁ →
      (∃ a e, s.ttlKeyHeap.top = some a ∧ (s.mem a).expireTime ≤ cutoff
        ∧ e.action = .expire ∧ e.node.key = (s.mem a).path ∧ s₁.Logged (evs ++ [e]))
      ∧ s₁.ttlKeyHeap.array.length < s.ttlKeyHeap.array.length) (s.expireTop env cutoff) := by
  unfold expireTop
  split
  · exact fun _ h => (by cases h)
  rename_i a htop
  simp only
  split
  · exact fun _ h => (by cases h)
  rename_i hcut
  have hsound : Sound { s with
      currentIndex := s.currentIndex + 1
      ttlKeyHeap := s.ttlKeyHeap.pop s.mem } :=
    ⟨hlog.sound.pos, hlog.sound.rootDir, hlog.sound.child, hlog.sound.readonly, hlog.sound.hub⟩
  refine (remove_trimmed hsound env _ a true true).bind fun r hr => ?_
  have hkept : Kept { s with currentIndex := s.currentIndex + 1 } r.1 :=
    ⟨hr.1.sound, hr.1.index, hr.1.history, hr.1.next, hr.1.isDir⟩
  generalize he : ({ newEvent .expire (s.mem a).path (s.currentIndex + 1)
    (s.mem a).createdIndex with
    prevNode := some ((s.mem a).repr env.now)
    etcdIndex := s.currentIndex + 1 } : Event) = e
  have hindex : e.index = s.currentIndex + 1 := by
    rw [← he]
    rfl
  have hpub := hkept.advanced_of_index.publish hlog hindex
  rcases hs₂ : r.1.publish e with p | s₂
  · rw [hs₂] at hpub
    exact hpub.elim
  · rw [hs₂] at hpub
    rintro _ ⟨⟩
    refine ⟨⟨a, e, htop, not_lt.1 hcut, by rw [← he]; rfl, by rw [← he]; rfl, hpub⟩, ?_⟩
    have hheap := hr.1.heap
    rw [publish_heap hs₂]
    rw [TtlKeyHeap.length_pop] at hheap
    have := length_pos_of_top htop
    omega

theorem expireWithin_spec (env : Env) (cutoff : Time) : ∀ (fuel : ℕ) {s : Store}
    {evs : List Event}, s.Logged evs → s.ttlKeyHeap.array.length < fuel →
    Yields Never (fun s' => ∃ es, (∀ e ∈ es, e.action = .expire) ∧ s'.Logged (evs ++ es))
      (expireWithin env cutoff fuel s)
  | 0, _, _, _, hfuel => (Nat.not_lt_zero _ hfuel).elim
  | fuel + 1, s, evs, hlog, hfuel => by
    refine (expireTop_spec hlog env cutoff).bind fun r hr => ?_
    rcases r with _ | s₁
    · exact ⟨[], by simp, by rwa [append_nil]⟩
    · obtain ⟨⟨a, e, -, -, hact, -, hlog₁⟩, hlt⟩ := hr s₁ rfl
      refine (expireWithin_spec env cutoff fuel hlog₁ (by omega)).mono fun s₂ hs₂ => ?_
      obtain ⟨es, hes, hlog₂⟩ := hs₂
      refine ⟨e :: es, fun x hx => ?_, by rwa [append_assoc] at hlog₂⟩
      rcases mem_cons.1 hx with rfl | hx
      · exact hact
      · exact hes x hx

theorem deleteExpiredKeys_spec (hlog : s.Logged evs) (env : Env) (cutoff : Time) :
    Yields Never (fun s' => ∃ es, (∀ e ∈ es, e.action = .expire) ∧ s'.Logged (evs ++ es))
      (s.deleteExpiredKeys env cutoff) :=
  expireWithin_spec env cutoff _ hlog (Nat.lt_succ_self _)

end Expire

section Run

theorem Logged.withHub (hlog : s.Logged evs) {wh : WatcherHub} (hwh : s.watcherHub.Calm wh) :
    Logged { s with watcherHub := wh } evs :=
  ⟨((Kept.refl hlog.sound).withHub hwh).sound, hlog.index, hlog.numbered,
    by simpa only [hwh.history] using hlog.records, by simpa only [hwh.history] using hlog.capacity⟩

theorem Kept.logged (h : Kept s s') (hlog : s.Logged evs) : s'.Logged evs :=
  ⟨h.sound, h.index.trans hlog.index, hlog.numbered, by rw [h.history]; exact hlog.records,
    by rw [h.history]; exact hlog.capacity⟩

theorem newStore_logged (namespaces : List Bytes) : (newStore namespaces).Logged [] := by
  suffices ∀ (namespaces : List Bytes) (s : Store), s.Logged [] →
      (namespaces.foldl (fun s ns => (s.alloc (newDir ns s.currentIndex (some root) permanent)).add
        root s.next) s).Logged [] by
    refine this namespaces _ ⟨⟨Nat.one_pos, rfl, fun _ _ _ h => (by cases h), ?_,
      WatcherHub.Open.new 1000⟩, rfl, rfl, EventHistory.Records.new (by decide), rfl⟩
    simp
  intro namespaces
  induction namespaces with
  | nil => exact fun s hs => hs
  | cons ns namespaces ih =>
    intro s hs
    have halloc : Kept s (s.alloc (newDir ns s.currentIndex (some root) permanent)) :=
      .alloc hs.sound fun name => rfl
    have hadd := halloc.trans (add_kept halloc.sound hs.sound.pos (Nat.lt_succ_self s.next))
    exact ih _ (hadd.logged hs)

theorem apply_logged (hlog : s.Logged evs) {op : Op} (h : op.apply env s = .ok s') :
    ∃ es, s'.Logged (evs ++ es) := by
  have hsame : s'.Logged evs → ∃ es, s'.Logged (evs ++ es) := fun h => ⟨[],
    by rwa [append_nil]⟩
  cases op with
  | write w =>
    have hw := write_settles hlog env w
    simp only [Op.apply] at h
    rcases hr : w.apply env s with p | ⟨s₁, err | e⟩
    · rw [hr] at h
      cases h
    · rw [hr] at h hw
      obtain rfl : s₁ = s' := Except.ok.inj h
      rw [show s₁ = s from hw.1 err rfl]
      exact ⟨[], by rwa [append_nil]⟩
    · rw [hr] at h hw
      cases h
      exact ⟨[e], (hw.2 e rfl).2⟩
  | deleteExpiredKeys cutoff =>
    obtain ⟨es, -, hes⟩ := (deleteExpiredKeys_spec hlog env cutoff).of_ok h
    exact ⟨es, hes⟩
  | watch key recursive stream sinceIndex =>
    simp only [Op.apply, watch] at h
    rcases hr : s.watcherHub.watch (cleanPath key) recursive stream
      (if sinceIndex = 0 then s.currentIndex + 1 else sinceIndex) s.currentIndex with p | r
    · rw [hr] at h
      cases h
    · rw [hr] at h
      cases h
      exact hsame (hlog.withHub (watch_calm hlog.sound.hub _ _ _ _ _ _ hr))
  | receive watcher =>
    cases h
    exact hsame (hlog.withHub (receive_calm hlog.sound.hub watcher))
  | remove watcher =>
    obtain ⟨wh, hwh, heq⟩ := exists_ok_of_bind h
    cases heq
    exact hsame (hlog.withHub (remove_calm hlog.sound.hub watcher _ hwh))

theorem run_logged : ∀ {ops : List (Env × Op)} {s : Store} {evs : List Event}, s.Logged evs →
    s.run ops = .ok s' → ∃ evs', s'.Logged evs'
  | [], s, evs, hlog, h => by
    cases h
    exact ⟨evs, hlog⟩
  | op :: ops, s, evs, hlog, h => by
    rw [run, foldlM_cons] at h
    obtain ⟨s₁, hs₁, hrest⟩ := exists_ok_of_bind h
    obtain ⟨es, hes⟩ := apply_logged hlog hs₁
    exact run_logged hes hrest

end Run

section Numbered

variable (hlog : s.Logged evs)
include hlog

theorem Logged.index_get {i : ℕ} (hi : evs[i]? = some e) : e.index = i + 1 := by
  have hmap : (evs.map Event.index)[i]? = some e.index := by
    rw [List.getElem?_map, hi]
    rfl
  rw [hlog.numbered, List.getElem?_range' (List.getElem?_eq_some_iff.1 hi).1] at hmap
  have := some.inj hmap
  omega

theorem Logged.consecutive : Consecutive evs := by
  refine isChain_iff_getElem.2 fun i hi => ?_
  rw [hlog.index_get (getElem?_eq_getElem hi),
    hlog.index_get (getElem?_eq_getElem (show i < evs.length by omega))]

theorem Logged.start (hne : evs ≠ []) :
    s.watcherHub.eventHistory.startIndex = evs.length + 1 - min 1000 evs.length := by
  have hlen := length_pos_iff.2 hne
  rw [hlog.records.start, EventHistory.held, hlog.capacity, RingBuffer.newest, getElem?_drop,
    getElem?_eq_getElem (by omega), elim_some,
    hlog.index_get (getElem?_eq_getElem (by omega))]
  omega

theorem Logged.last (hne : evs ≠ []) : s.watcherHub.eventHistory.lastIndex = s.currentIndex := by
  have hlen := length_pos_iff.2 hne
  rw [hlog.records.last, getLast?_eq_getElem?, getElem?_eq_getElem (by omega), elim_some,
    hlog.index_get (getElem?_eq_getElem (by omega)), hlog.index]
  omega

end Numbered

end Store

/-- A write that fails leaves the store as it was: the tree, the heap, the index, the history and
the watchers. -/
theorem failed_write_changes_nothing {namespaces : List Bytes} {ops : List (Env × Op)} {s : Store}
    (hrun : (newStore namespaces).run ops = .ok s) {env : Env} {w : Write} {s' : Store}
    {err : EtcdError} (hw : w.apply env s = .ok (s', .error err)) : s' = s := by
  obtain ⟨evs, hlog⟩ := Store.run_logged (Store.newStore_logged namespaces) hrun
  exact ((Store.write_settles hlog env w).of_ok hw).1 err rfl

/-- A second node of a name is not created. -/
theorem failed_write_changes_nothing_create : ∃ s s' err,
    (newStore []).run [(Env.sorted 0, .write (.create [97] false [98] false {}))] = .ok s
      ∧ (Write.create [97] false [99] false {}).apply (Env.sorted 0) s = .ok (s', .error err)
      ∧ s' = s := by
  refine ⟨_, _, _, rfl, rfl, ?_⟩
  exact @failed_write_changes_nothing [] [(Env.sorted 0, .write (.create [97] false [98] false {}))]
    _ rfl (Env.sorted 0) (.create [97] false [99] false {}) _ _ rfl

end EtcdCompat.V2
