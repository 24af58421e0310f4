import EtcdCompat.Proofs.V2Hub
import EtcdCompat.Proofs.V2Path

/-!
# The tree of the v2 store

A child has a greater address than its directory, so the recursion of `Remove` ends. The walk of a
write that meets a missing directory makes it and all those after it, and cannot fail any more. So a
write that fails has not changed the store.
-/

namespace EtcdCompat.V2

open GoPath Function

namespace Store

variable {s s' : Store} {a d : ℕ} {e : Event} {env : Env}

/-- The directories lead on to greater addresses, the root is one of them and is read-only. -/
structure Sound (s : Store) : Prop where
  pos : 0 < s.next
  rootDir : (s.mem root).isDir
  child : ∀ a name c, (s.mem a).child name = some c → a < c ∧ c < s.next
  readonly : s.readonlySet.contains [slash]
  hub : s.watcherHub.Open

/-- The store is sound, and index, history and kinds of nodes are as before. -/
structure Kept (s s' : Store) : Prop where
  sound : s'.Sound
  index : s'.currentIndex = s.currentIndex
  history : s'.watcherHub.eventHistory = s.watcherHub.eventHistory
  next : s.next ≤ s'.next
  isDir : ∀ a < s.next, (s'.mem a).isDir = (s.mem a).isDir

namespace Kept

variable {n : Node}

theorem refl (h : s.Sound) : Kept s s := ⟨h, rfl, rfl, Nat.le_refl _, fun _ _ => rfl⟩

theorem trans {s'' : Store} (h : Kept s s') (h' : Kept s' s'') : Kept s s'' :=
  ⟨h'.sound, h'.index.trans h.index, h'.history.trans h.history, h.next.trans h'.next,
    fun a ha => (h'.isDir a (ha.trans_le h.next)).trans (h.isDir a ha)⟩

theorem setNode (h : s.Sound) (a : ℕ) (hdir : n.isDir = (s.mem a).isDir)
    (hchild : ∀ name c, n.child name = some c → a < c ∧ c < s.next) : Kept s (s.setNode a n) := by
  have hmem : ∀ b, ((s.setNode a n).mem b).isDir = (s.mem b).isDir := fun b => by
    by_cases hb : b = a
    · subst hb
      simp [Store.setNode, hdir]
    · simp only [Store.setNode, update_of_ne hb]
  refine ⟨⟨h.pos, (hmem _).trans h.rootDir, fun b name c hc => ?_, h.readonly, h.hub⟩, rfl, rfl,
    Nat.le_refl _, fun b _ => hmem b⟩
  by_cases hb : b = a
  · subst hb
    simp [Store.setNode] at hc
    exact hchild name c hc
  · simp only [Store.setNode, update_of_ne hb] at hc
    exact h.child b name c hc

theorem setNode_same (h : s.Sound) (a : ℕ) (hn : n.children = (s.mem a).children) :
    Kept s (s.setNode a n) := by
  refine setNode h a (by rw [Node.isDir, hn, Node.isDir]) fun name c hc => h.child a name c ?_
  rw [Node.child, hn] at hc
  exact hc

theorem alloc (h : s.Sound) (hn : ∀ name, n.child name = none) : Kept s (s.alloc n) := by
  have hne : ∀ b < s.next, (s.alloc n).mem b = s.mem b := fun b hb => by
    simp only [Store.alloc, Store.setNode, update_of_ne (Nat.ne_of_lt hb)]
  refine ⟨⟨Nat.succ_pos _, ?_, fun b name c hc => ?_, h.readonly, h.hub⟩, rfl, rfl,
    Nat.le_succ _, fun b hb => by rw [hne b hb]⟩
  · rw [hne root h.pos]
    exact h.rootDir
  · by_cases hb : b = s.next
    · subst hb
      simp [Store.alloc, Store.setNode] at hc
      rw [hn] at hc
      cases hc
    · simp only [Store.alloc, Store.setNode, update_of_ne hb] at hc
      obtain ⟨h₁, h₂⟩ := h.child b name c hc
      exact ⟨h₁, h₂.trans (Nat.lt_succ_self _)⟩

theorem withHeap (h : Kept s s') (ttlKeyHeap : TtlKeyHeap) : Kept s { s' with ttlKeyHeap } :=
  ⟨⟨h.sound.pos, h.sound.rootDir, h.sound.child, h.sound.readonly, h.sound.hub⟩, h.index,
    h.history, h.next, h.isDir⟩

theorem withHub (h : Kept s s') {wh : WatcherHub} (hwh : s'.watcherHub.Calm wh) :
    Kept s { s' with watcherHub := wh } :=
  ⟨⟨h.sound.pos, h.sound.rootDir, h.sound.child, h.sound.readonly, hwh.isOpen⟩, h.index,
    hwh.history.trans h.history, h.next, h.isDir⟩

theorem insertChild (h : s.Sound) {children : OrdMap Bytes ℕ} {name : Bytes} {c : ℕ}
    (hd : (s.mem d).children = some children) (hlt : d < c) (hc : c < s.next) :
    Kept s (s.setNode d { s.mem d with children := some (children.insert name c) }) := by
  refine setNode h d (by simp [Node.isDir, hd]) fun name' c' hc' => ?_
  simp [Node.child] at hc'
  by_cases hn : name = name'
  · subst hn
    rw [OrdMap.find_insert, if_pos rfl] at hc'
    cases hc'
    exact ⟨hlt, hc⟩
  · rw [OrdMap.find_insert, if_neg hn] at hc'
    exact h.child d name' c' (by rw [Node.child, hd]; exact hc')

end Kept

end Store

namespace TtlKeyHeap

variable {mem : ℕ → Node}

theorem length_swap (h : TtlKeyHeap) (i j : ℕ) : (h.swap i j).array.length = h.array.length := by
  simp [swap]

theorem length_up : ∀ (fuel : ℕ) (h : TtlKeyHeap) (j : ℕ),
    (up mem fuel h j).array.length = h.array.length
  | 0, _, _ => rfl
  | fuel + 1, h, j => by
    unfold up
    simp only
    split_ifs
    · rfl
    · rw [length_up, length_swap]

theorem length_down (n : ℕ) : ∀ (fuel : ℕ) (h : TtlKeyHeap) (i : ℕ),
    (down mem n fuel h i).array.length = h.array.length
  | 0, _, _ => rfl
  | fuel + 1, h, i => by
    unfold down
    simp only
    generalize (if 2 * i + 1 + 1 < n ∧ ¬ h.less mem (2 * i + 1) (2 * i + 1 + 1) then 2 * i + 1 + 1
      else 2 * i + 1) = j
    split_ifs
    · rfl
    · rw [length_down, length_swap]
    · rfl

theorem length_popBack (h : TtlKeyHeap) : h.popBack.array.length = h.array.length - 1 :=
  List.length_dropLast

theorem length_pop (h : TtlKeyHeap) : (h.pop mem).array.length = h.array.length - 1 := by
  rw [pop, length_popBack, length_down, length_swap]

theorem length_remove_le (h : TtlKeyHeap) (a : ℕ) :
    (h.remove mem a).array.length ≤ h.array.length := by
  unfold remove
  split
  · exact Nat.le_refl _
  · unfold removeAt
    simp only
    split_ifs
    · rw [length_popBack, length_up, length_down, length_swap]
      exact Nat.sub_le _ _
    · rw [length_popBack]
      exact Nat.sub_le _ _

end TtlKeyHeap

namespace Store

variable {s s' : Store} {a d : ℕ} {e : Event} {env : Env}

section Remove

/-- Nodes have only gone from the store. -/
structure Trimmed (s s' : Store) : Prop extends Kept s s' where
  next_eq : s'.next = s.next
  heap : s'.ttlKeyHeap.array.length ≤ s.ttlKeyHeap.array.length

theorem Trimmed.refl (h : s.Sound) : Trimmed s s := ⟨.refl h, rfl, Nat.le_refl _⟩

theorem Trimmed.trans {s'' : Store} (h : Trimmed s s') (h' : Trimmed s' s'') : Trimmed s s'' :=
  ⟨h.toKept.trans h'.toKept, h'.next_eq.trans h.next_eq, h'.heap.trans h.heap⟩

theorem detach_trimmed (h : s.Sound) (a : ℕ) : Trimmed s (s.detach a) := by
  unfold detach
  split
  · exact .refl h
  · rename_i parent _
    split
    · refine ⟨.setNode h parent (by simp [Node.isDir]) fun name c hc => ?_, rfl, Nat.le_refl _⟩
      rcases hch : (s.mem parent).children with _ | children
      · simp [Node.child, hch] at hc
      · simp only [Node.child, hch, Option.map_some, Option.bind_some, OrdMap.find_erase] at hc
        split at hc
        · cases hc
        · exact h.child parent name c (by rw [Node.child, hch]; exact hc)
    · exact .refl h

theorem callback_trimmed (h : s.Sound) (e : Option Event) (path : Bytes) :
    Yields Never (Trimmed s) (s.callback e path) := by
  unfold callback
  split
  · exact Trimmed.refl h
  · exact (WatcherHub.notifyWatchers_calm h.hub _ path true).bind fun wh hwh =>
      ⟨(Kept.refl h).withHub hwh, rfl, Nat.le_refl _⟩

theorem removeTTL_trimmed (h : s.Sound) (a : ℕ) : Trimmed s (s.removeTTL a) :=
  ⟨(Kept.refl h).withHeap _, rfl, TtlKeyHeap.length_remove_le _ a⟩

theorem drop_trimmed (h : s.Sound) (e : Option Event) (a : ℕ) :
    Yields Never (Trimmed s) (s.drop e a) := by
  have hdet := detach_trimmed h a
  refine (callback_trimmed hdet.sound e _).bind fun s' hs' => ?_
  have := hdet.trans hs'
  split
  · exact this
  · exact this.trans (removeTTL_trimmed this.sound a)

/-- A removal that fails has done nothing. One of a key-value pair does not fail. -/
theorem removeWithin_trimmed (env : Env) (e : Option Event) : ∀ (fuel : ℕ) {s : Store} {a : ℕ}
    (dir recursive : Bool), s.Sound → 0 < fuel → s.next ≤ fuel + a →
    Yields Never (fun r => Trimmed s r.1 ∧ (∀ err, r.2 = some err → r.1 = s)
      ∧ ((s.mem a).isDir = false → r.2 = none)) (removeWithin env e fuel s a dir recursive)
  | 0, _, _, _, _, _, h0, _ => (Nat.lt_irrefl 0 h0).elim
  | fuel + 1, s, a, dir, recursive, h, _, hfuel => by
    unfold removeWithin
    simp only
    rcases hch : (s.mem a).children with _ | children
    · exact (drop_trimmed h e a).bind fun s' hs' => ⟨hs', fun _ herr => (by cases herr),
        fun _ => rfl⟩
    have hdir : (s.mem a).isDir = true := by rw [Node.isDir, hch]; rfl
    simp only [hdir, Bool.true_eq_false, false_imp_iff, and_true]
    by_cases hd : dir
    · rw [if_neg (not_not.2 hd)]
      split
      · exact ⟨.refl h, fun _ _ => rfl⟩
      · have hchild : ∀ x ∈ env.order children.entries, a < x.2 ∧ x.2 < s.next := fun x hx => by
          have hx' := (env.order_perm _).mem_iff.1 hx
          exact h.child a x.1 x.2 (by
            rw [Node.child, hch]
            exact OrdMap.find_of_mem hx')
        -- the children go one after the other
        refine Yields.bind (P := Trimmed s) (Yields.foldlM (fun x hx s₁ hs₁ => ?_) (.refl h))
          fun s₁ hs₁ => ?_
        · obtain ⟨hlt, hnext⟩ := hchild x hx
          have heq := hs₁.next_eq
          exact (removeWithin_trimmed env e fuel true true hs₁.sound (by omega)
            (by omega)).bind fun r hr => hs₁.trans hr.1
        split
        · exact (drop_trimmed hs₁.sound e a).bind fun s₂ hs₂ =>
            ⟨hs₁.trans hs₂, fun _ herr => (by cases herr)⟩
        · exact ⟨hs₁, fun _ herr => (by cases herr)⟩
    · rw [if_pos hd]
      exact ⟨.refl h, fun _ _ => rfl⟩

theorem remove_trimmed (h : s.Sound) (env : Env) (e : Option Event) (a : ℕ)
    (dir recursive : Bool) :
    Yields Never (fun r => Trimmed s r.1 ∧ (∀ err, r.2 = some err → r.1 = s)
      ∧ ((s.mem a).isDir = false → r.2 = none)) (remove env e s a dir recursive) :=
  removeWithin_trimmed env e s.next dir recursive h h.pos (Nat.le_add_right _ _)

end Remove

section Walk

/-- The walk has found a directory and changed nothing, or it has failed. -/
def Found (s : Store) (r : Answer ℕ) : Prop :=
  r.1 = s ∧ ∀ d, r.2 = .ok d → (s.mem d).isDir ∧ d < s.next

/-- The walk has made directories, and the last one is empty. -/
def Made (s : Store) (r : Answer ℕ) : Prop :=
  ∃ d, r.2 = .ok d ∧ Kept s r.1 ∧ (r.1.mem d).children = some .empty ∧ d < r.1.next

theorem checkDir_made (h : s.Sound) {children : OrdMap Bytes ℕ}
    (hd : (s.mem d).children = some children) (hlt : d < s.next) {name : Bytes}
    (hnone : (s.mem d).child name = none) : Yields Never (Made s) (s.checkDir d name) := by
  unfold checkDir
  rw [hnone]
  simp only
  generalize hn : newDir (join (s.mem d).path name) (s.currentIndex + 1) (some d) permanent = n
  have hchildren : n.children = some .empty := by
    rw [← hn]
    rfl
  have halloc : Kept s (s.alloc n) := .alloc h fun name => by
    rw [Node.child, hchildren]
    rfl
  have hd' : ((s.alloc n).mem d).children = some children := by
    rw [← hd]
    simp only [alloc, setNode, update_of_ne (Nat.ne_of_lt hlt)]
  have hins := @Kept.insertChild _ _ halloc.sound _ name _ hd' hlt (Nat.lt_succ_self s.next)
  rw [setChild, hd']
  refine ⟨s.next, rfl, halloc.trans hins, ?_, Nat.lt_succ_self _⟩
  simp [setNode, alloc, update_of_ne (Nat.ne_of_gt hlt)]
  exact hchildren

theorem exists_children {n : Node} (h : n.isDir) : ∃ children, n.children = some children :=
  Option.isSome_iff_exists.1 h

theorem checkDir_spec (h : s.Sound) (hd : (s.mem d).isDir) (hlt : d < s.next) (name : Bytes) :
    Yields Never (fun r => Found s r ∨ Made s r) (s.checkDir d name) := by
  obtain ⟨children, hch⟩ := exists_children hd
  rcases hc : (s.mem d).child name with _ | c
  · exact (checkDir_made h hch hlt hc).mono fun _ => .inr
  · unfold checkDir
    rw [hc]
    simp only
    split
    · rename_i hdir
      refine .inl ⟨rfl, ?_⟩
      rintro _ ⟨⟩
      exact ⟨hdir, (h.child d name c hc).2⟩
    · exact .inl ⟨rfl, fun _ hok => (by cases hok)⟩

theorem walkFrom_made : ∀ (components : List Bytes) {s : Store} {d : ℕ}, s.Sound →
    (s.mem d).children = some .empty → d < s.next →
    Yields Never (Made s) (walkFrom checkDir s d components)
  | [], s, d, h, hd, hlt => ⟨d, rfl, .refl h, hd, hlt⟩
  | component :: components, s, d, h, hd, hlt => by
    unfold walkFrom
    split
    · exact ⟨d, rfl, .refl h, hd, hlt⟩
    · have hnone : (s.mem d).child component = none := by
        rw [Node.child, hd]
        rfl
      refine (checkDir_made h hd hlt hnone).bind fun r hr => ?_
      obtain ⟨d', hok, hkept, hd', hlt'⟩ := hr
      obtain ⟨s', res⟩ := r
      cases hok
      refine (walkFrom_made components hkept.sound hd' hlt').mono fun r' hr' => ?_
      obtain ⟨d'', hok', hkept', hrest⟩ := hr'
      exact ⟨d'', hok', hkept.trans hkept', hrest⟩

theorem walkFrom_spec : ∀ (components : List Bytes) {s : Store} {d : ℕ}, s.Sound →
    (s.mem d).isDir → d < s.next →
    Yields Never (fun r => Found s r ∨ Made s r) (walkFrom checkDir s d components)
  | [], s, d, _, hd, hlt => .inl ⟨rfl, by rintro _ ⟨⟩; exact ⟨hd, hlt⟩⟩
  | component :: components, s, d, h, hd, hlt => by
    unfold walkFrom
    split
    · exact .inl ⟨rfl, by rintro _ ⟨⟩; exact ⟨hd, hlt⟩⟩
    · refine (checkDir_spec h hd hlt component).bind fun r hr => ?_
      obtain ⟨s', res⟩ := r
      rcases hr with ⟨hs, hfound⟩ | ⟨d', hok, hkept, hd', hlt'⟩
      · cases hs
        rcases res with err | d'
        · exact .inl ⟨rfl, fun _ hok => (by cases hok)⟩
        · exact walkFrom_spec components h (hfound d' rfl).1 (hfound d' rfl).2
      · cases hok
        refine (walkFrom_made components hkept.sound hd' hlt').mono fun r' hr' => .inr ?_
        obtain ⟨d'', hok', hkept', hrest⟩ := hr'
        exact ⟨d'', hok', hkept.trans hkept', hrest⟩

theorem walk_spec (h : s.Sound) (path : Bytes) :
    Yields Never (fun r => Found s r ∨ Made s r) (s.walk path checkDir) :=
  walkFrom_spec _ h h.rootDir h.pos

end Walk

end Store

end EtcdCompat.V2
