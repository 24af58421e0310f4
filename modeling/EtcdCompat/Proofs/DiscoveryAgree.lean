import EtcdCompat.Discovery.Discovery

/-!
# Members of one discovery token agree

Registrations are only appended, so the first `size` of them are settled once there are as many. A
member registers, lists what there is and reads on from the index of its listing; it ends up with
those first registrations, or knows that they are made without it.
-/

namespace EtcdCompat.Discovery

open List

open Program (Ensures)

/-- Registrations in the order of their indices, after the size key was written. -/
structure Service.Wf (s : Service) : Prop where
  sorted : s.nodes.Pairwise (·.createdIndex < ·.createdIndex)
  le : ∀ n ∈ s.nodes, n.createdIndex ≤ s.index
  modified : ∀ n ∈ s.nodes, n.modifiedIndex = n.createdIndex
  name : ∀ n ∈ s.nodes, n.key ≠ config
  pos : 0 < s.index

section Grows

def Grows (K : Bytes → Prop) (s s' : Service) : Prop :=
  s.Wf → s'.Wf ∧ s'.size = s.size ∧ s.index ≤ s'.index ∧
    ∃ new, s'.nodes = s.nodes ++ new ∧ ∀ n ∈ new, s.index < n.createdIndex ∧ K n.key

variable {K K' : Bytes → Prop} {s s' s'' : Service}

theorem Grows.refl (s : Service) : Grows K s s :=
  fun h => ⟨h, rfl, le_rfl, [], (append_nil _).symm, fun _ hn => (by cases hn)⟩

theorem Grows.trans (h : Grows K s s') (h' : Grows K s' s'') : Grows K s s'' := by
  intro hs
  obtain ⟨hs', hsize, hle, new, hnew, hkind⟩ := h hs
  obtain ⟨hs'', hsize', hle', new', hnew', hkind'⟩ := h' hs'
  refine ⟨hs'', hsize'.trans hsize, hle.trans hle', new ++ new', ?_, fun n hn => ?_⟩
  · rw [hnew', hnew, append_assoc]
  · rcases mem_append.1 hn with hn | hn
    · exact hkind n hn
    · exact ⟨hle.trans_lt (hkind' n hn).1, (hkind' n hn).2⟩

theorem Grows.mono (hK : ∀ k, K k → K' k) (h : Grows K s s') : Grows K' s s' := by
  intro hs
  obtain ⟨hs', hsize, hle, new, hnew, hkind⟩ := h hs
  exact ⟨hs', hsize, hle, new, hnew, fun n hn => ⟨(hkind n hn).1, hK _ (hkind n hn).2⟩⟩

theorem Grows.elsewhere (s : Service) (k : ℕ) : Grows K s { s with index := s.index + k } :=
  fun h => ⟨⟨h.sorted, fun n hn => (h.le n hn).trans (Nat.le_add_right _ _), h.modified, h.name,
    Nat.add_pos_left h.pos k⟩, rfl, Nat.le_add_right _ _, [], (append_nil _).symm,
    fun _ hn => (by cases hn)⟩

end Grows

section Contract

variable {K : Bytes → Prop} {s s' : Service} {n : ℕ}

/-- A member's contract: it alone registers its key, and it does not wait once the cluster is
full. -/
def member (self : Bytes) (n : ℕ) : Contract Service where
  rely := Grows (· ≠ self)
  guar := Grows (· = self)
  live s := s.Wf ∧ n ≤ s.nodes.length
  refl := Grows.refl
  trans := Grows.trans

theorem ask_ensures {α : Type} {self : Bytes} {P : Service → Prop} {Q : Service → α → Prop}
    {r : Request} {k : Response → Program Request Response α}
    (hP : ∀ s s', Grows (· ≠ self) s s' → P s → P s') (hs : P s)
    (hlive : ∀ s', P s' → (member self n).live s' → ∃ listing y, s'.carryOut listing r = some y)
    (h : ∀ s' listing s'' x, P s' → s'.carryOut listing r = some (s'', x) →
      Grows (· = self) s' s'' ∧ Ensures exec (member self n) Q s'' (k x)) :
    Ensures exec (member self n) Q s (.request r k) := by
  refine Ensures.ask (fun s' hs' hl => ?_) fun s' hs' ch s'' x hx => ?_
  · obtain ⟨listing, y, hy⟩ := hlive s' (hP _ _ hs' hs) hl
    exact ⟨⟨0, listing⟩, y, hy⟩
  · obtain ⟨hg, hk⟩ := h _ _ _ _ (hP _ _ (.elsewhere s' ch.elsewhere) (hP _ _ hs' hs)) hx
    exact ⟨(Grows.elsewhere (K := (· = self)) s' ch.elsewhere).trans hg, hk⟩

def Among (self : Bytes) (nodes : List Node) : Prop := ∃ m ∈ nodes, m.key = self

/-- What `joinCluster` returns, by the registrations there are: what is made of the first `n`, if
the own one is among them. -/
def Outcome (validURL : Bytes → Bool) (n : ℕ) (self : Bytes) (s : Service)
    (r : Except DiscoveryError Bytes) : Prop :=
  n ≤ s.nodes.length ∧
    (Among self (s.nodes.take n) → r = nodesToCluster validURL (s.nodes.take n) n) ∧
    (¬ Among self (s.nodes.take n) → r = .error .fullCluster)

theorem Grows.take (h : Grows K s s') (hs : s.Wf) (hn : n ≤ s.nodes.length) :
    s'.nodes.take n = s.nodes.take n := by
  obtain ⟨-, -, -, new, hnew, -⟩ := h hs
  rw [hnew, take_append_of_le_length hn]

theorem Grows.length_le (h : Grows K s s') (hs : s.Wf) : s.nodes.length ≤ s'.nodes.length := by
  obtain ⟨-, -, -, new, hnew, -⟩ := h hs
  rw [hnew, length_append]
  exact Nat.le_add_right _ _

theorem Outcome.grows {validURL : Bytes → Bool} {self : Bytes} {r : Except DiscoveryError Bytes}
    (h : Outcome validURL n self s r) (hs : s.Wf) (hg : Grows K s s') :
    Outcome validURL n self s' r := by
  obtain ⟨hn, hout⟩ := h
  refine ⟨hn.trans (hg.length_le hs), ?_⟩
  rwa [hg.take hs hn]

end Contract

section Check

variable {self : Bytes} {n : ℕ} {listing : List Node} {s : Service}

theorem Service.Wf.eq_of_createdIndex (hs : s.Wf) {a b : Node} (ha : a ∈ s.nodes) (hb : b ∈ s.nodes)
    (h : a.createdIndex = b.createdIndex) : a = b := by
  obtain ⟨i, hi, rfl⟩ := mem_iff_getElem.1 ha
  obtain ⟨j, hj, rfl⟩ := mem_iff_getElem.1 hb
  have hlt := pairwise_iff_getElem.1 hs.sorted
  rcases Nat.lt_trichotomy i j with hij | rfl | hij
  · exact absurd h (hlt i j hi hj hij).ne
  · rfl
  · exact absurd h (hlt j i hj hi hij).ne'

theorem sortedNodes_eq (hs : s.Wf) (hperm : listing.Perm s.nodes) :
    sortedNodes listing = s.nodes := by
  have hfilter : listing.filter (·.key ≠ config) = listing :=
    filter_eq_self.2 fun m hm => decide_eq_true (hs.name m (hperm.mem_iff.1 hm))
  have htotal : Std.Total fun a b : Node => a.createdIndex ≤ b.createdIndex :=
    ⟨fun a b => Nat.le_total _ _⟩
  have htrans : IsTrans Node fun a b => a.createdIndex ≤ b.createdIndex :=
    ⟨fun _ _ _ => Nat.le_trans⟩
  unfold sortedNodes
  rw [hfilter]
  have hperm' := (perm_insertionSort (fun a b : Node => a.createdIndex ≤ b.createdIndex)
    listing).trans hperm
  refine hperm'.eq_of_pairwise (fun a b ha hb hab hba => ?_)
    (pairwise_insertionSort _ listing) (hs.sorted.imp Nat.le_of_lt)
  exact hs.eq_of_createdIndex (hperm'.mem_iff.1 ha) hb (Nat.le_antisymm hab hba)

theorem comesFull_iff : ∀ {nodes : List Node} {i : ℕ}, i < n →
    (comesFull self n i nodes = true ↔
      n - i ≤ nodes.length ∧ ¬ Among self (nodes.take (n - i)))
  | [], i, hi => by
    simp [comesFull]
    omega
  | m :: nodes, i, hi => by
    obtain ⟨j, hj⟩ : ∃ j, n - i = j + 1 := ⟨n - i - 1, by omega⟩
    rw [comesFull, hj, take_succ_cons]
    by_cases hm : m.key = self
    · rw [if_pos hm]
      simp [not_not]
      exact fun _ => ⟨m, mem_cons_self, hm⟩
    rw [if_neg hm]
    have hcons (ns : List Node) : Among self (m :: ns) ↔ Among self ns := by
      simp [Among, hm]
    rw [hcons, length_cons, Nat.add_le_add_iff_right]
    by_cases hlast : (n : ℤ) - 1 ≤ i
    · obtain rfl : j = 0 := by omega
      rw [if_pos hlast]
      simp [Among]
    · rw [if_neg hlast, comesFull_iff (by omega), show n - (i + 1) = j by omega]

variable {v : Bytes} {P : Service → Prop} {s : Service} {retries : ℕ}

/-- What the others do not undo, and what tells of a service with the size key. -/
structure Settled (own v : Bytes) (P : Service → Prop) : Prop where
  stable : ∀ s s', Grows (· ≠ own) s s' → P s → P s'
  wf : ∀ s, P s → s.Wf
  size : ∀ s, P s → s.size = some v

/-- A listing made in a state with `P` that the others have led on from. -/
def Snapshot (self : Bytes) (n : ℕ) (P : Service → Prop) (s : Service) (checked : Checked) : Prop :=
  ∃ s₁, P s₁ ∧ Grows (· ≠ self) s₁ s ∧ checked.index = s₁.index ∧ checked.size = n ∧
    (checked.full = true → n ≤ s₁.nodes.length ∧ ¬ Among self (s₁.nodes.take n)) ∧
    (checked.full = false → checked.nodes = s₁.nodes ∧
      (Among self s₁.nodes → Among self (s₁.nodes.take n)))

theorem positioned_spec (hs : s.Wf) (hn : 1 ≤ n) (hperm : listing.Perm s.nodes) :
    ∃ checked, positioned self n listing s.index retries = .ok checked ∧
      checked.index = s.index ∧ checked.size = n ∧
      (checked.full = true → n ≤ s.nodes.length ∧ ¬ Among self (s.nodes.take n)) ∧
      (checked.full = false → checked.nodes = s.nodes ∧
        (Among self s.nodes → Among self (s.nodes.take n))) := by
  unfold positioned
  simp only [sortedNodes_eq hs hperm]
  have hfull := @comesFull_iff self n s.nodes 0 hn
  rw [Nat.sub_zero] at hfull
  by_cases hc : comesFull self n 0 s.nodes = true
  · rw [if_pos hc, if_neg (by omega)]
    exact ⟨_, rfl, rfl, rfl, fun _ => hfull.1 hc, fun h => (by cases h)⟩
  · rw [if_neg hc]
    refine ⟨_, rfl, rfl, rfl, fun h => (by cases h), fun _ => ⟨rfl, fun hamong => ?_⟩⟩
    by_contra hnot
    refine hc (hfull.2 ⟨?_, hnot⟩)
    by_contra hlt
    rw [take_of_length_le (by omega)] at hnot
    exact hnot hamong

variable (hP : Settled self v P)
include hP

theorem listCluster_ensures (hn : 1 ≤ n) (hs : P s) (retry : Api Checked) :
    Ensures exec (member self n) (fun s r => ∃ checked,
      r = .ok checked ∧ Snapshot self n P s checked)
      s (listCluster self n retries retry).run := by
  refine ask_ensures hP.stable hs
    (fun s' _ _ => ⟨s'.nodes, _, if_pos (isPerm_iff.2 (.refl _))⟩)
    fun s' listing s'' x hs' hx => ⟨?_, ?_⟩
  all_goals
    change (if listing.isPerm s'.nodes then _ else none) = _ at hx
    split_ifs at hx with hperm
    cases hx
  · exact .refl s'
  · obtain ⟨checked, hchecked, hspec⟩ := positioned_spec (hP.wf _ hs') hn
      (isPerm_iff.1 hperm)
    change Ensures _ _ _ _ (ExceptT.run (liftM (positioned self n _ _ retries) : Api Checked))
    rw [hchecked]
    exact fun s₂ hs₂ => ⟨checked, rfl, _, hs', hs₂, hspec⟩

theorem checkOnce_ensures (hv : atoi v = some (n : ℤ)) (hn : 1 ≤ n) (hs : P s)
    (retry : Api Checked) : Ensures exec (member self n) (fun s r => ∃ checked,
      r = .ok checked ∧ Snapshot self n P s checked)
      s (checkOnce self retries retry).run := by
  refine ask_ensures hP.stable hs (fun s' _ _ => ⟨[], _, rfl⟩) fun s' listing s'' x hs' hx => ?_
  simp only [Service.carryOut, hP.size _ hs'] at hx
  cases hx
  refine ⟨.refl s', ?_⟩
  change Ensures _ _ _ _ (listSized self retries retry (atoi v)).run
  rw [hv]
  exact listCluster_ensures hP hn hs' retry

theorem checkCluster_ensures (hv : atoi v = some (n : ℤ)) (hn : 1 ≤ n) (hs : P s) : ∀ retries : ℕ,
    Ensures exec (member self n) (fun s r => ∃ checked,
      r = .ok checked ∧ Snapshot self n P s checked)
      s (checkCluster self retries).run
  | 0 => checkOnce_ensures hP hv hn hs _
  | _ + 1 => checkOnce_ensures hP hv hn hs _

end Check

section Join

variable {self v : Bytes} {n : ℕ} {s s' : Service} {afterIndex : ℕ} {p : Node → Bool} {s : Service}

def Absent (self v : Bytes) (s : Service) : Prop :=
  s.Wf ∧ s.size = some v ∧ ¬ Among self s.nodes

def Present (self v : Bytes) (s : Service) : Prop :=
  s.Wf ∧ s.size = some v ∧ Among self s.nodes

theorem Absent.settled : Settled self v (Absent self v) := by
  refine ⟨fun s s' hg hs => ?_, fun s hs => hs.1, fun s hs => hs.2.1⟩
  obtain ⟨hwf, hsize, -, new, hnew, hkind⟩ := hg hs.1
  refine ⟨hwf, hsize.trans hs.2.1, ?_⟩
  rintro ⟨m, hm, hkey⟩
  rw [hnew] at hm
  rcases mem_append.1 hm with hm | hm
  · exact hs.2.2 ⟨m, hm, hkey⟩
  · exact (hkind m hm).2 hkey

theorem Present.settled : Settled self v (Present self v) := by
  refine ⟨fun s s' hg hs => ?_, fun s hs => hs.1, fun s hs => hs.2.1⟩
  obtain ⟨hwf, hsize, -, new, hnew, -⟩ := hg hs.1
  obtain ⟨m, hm, hkey⟩ := hs.2.2
  exact ⟨hwf, hsize.trans hs.2.1, m, by rw [hnew]; exact mem_append_left _ hm, hkey⟩

def Service.entry (s : Service) (key value : Bytes) : Node :=
  ⟨key, value, s.index + 1, s.index + 1⟩

theorem Service.Wf.register (hs : s.Wf) {key : Bytes} (hkey : key ≠ config) (value : Bytes) :
    Grows (· = key) s ⟨s.size, s.nodes ++ [s.entry key value], s.index + 1⟩ := by
  have all {P : Node → Prop} (h : ∀ m ∈ s.nodes, P m) (hnew : P (s.entry key value)) :
      ∀ m ∈ s.nodes ++ [s.entry key value], P m :=
    forall_mem_append.2 ⟨h, forall_mem_singleton.2 hnew⟩
  refine fun _ => ⟨⟨?_, all (fun m hm => (hs.le m hm).trans (Nat.le_succ _)) le_rfl,
    all hs.modified rfl, all hs.name hkey, Nat.succ_pos _⟩, rfl, Nat.le_succ _, _, rfl,
    forall_mem_singleton.2 ⟨Nat.lt_succ_self _, rfl⟩⟩
  refine pairwise_append.2 ⟨hs.sorted, pairwise_singleton _ _, fun a ha => ?_⟩
  exact forall_mem_singleton.2 (Nat.lt_succ_of_le (hs.le a ha))

theorem exists_event (hpos : 0 < afterIndex) {m : Node} (hm : m ∈ s.nodes)
    (hlt : afterIndex < m.modifiedIndex) (hp : p m = true) :
    ∃ y, s.event afterIndex p = some y := by
  unfold Service.event
  rw [if_neg hpos.ne']
  obtain ⟨m', hm'⟩ := Option.isSome_iff_exists.1 (find?_isSome.2
    ⟨m, hm, by simp [hlt, hp]⟩ :
    (s.nodes.find? fun n => afterIndex < n.modifiedIndex && p n).isSome)
  exact ⟨_, by rw [hm']; rfl⟩

theorem event_eq_some {y : Service × Response} (h : s.event afterIndex p = some y) :
    ∃ m, (s.nodes.find? fun n => afterIndex < n.modifiedIndex && p n) = some m ∧
      y = (s, .node m) := by
  unfold Service.event at h
  split_ifs at h
  obtain ⟨m, hm, rfl⟩ := Option.map_eq_some_iff.1 h
  exact ⟨m, hm, rfl⟩

theorem createSelf_ensures (hself : self ≠ config) (hs : Absent self v s) (contents : Bytes) :
    Ensures exec (member self n) (fun s r => r = .ok () ∧ Present self v s) s
      (createSelf self contents).run := by
  have hcreate (s' : Service) (hs' : Absent self v s') (listing : List Node) :
      s'.carryOut listing (.create self contents) =
        some (⟨s'.size, s'.nodes ++ [s'.entry self contents], s'.index + 1⟩,
          .node (s'.entry self contents)) := by
    refine if_neg ?_
    rw [any_eq_true]
    rintro ⟨m, hm, hkey⟩
    exact hs'.2.2 ⟨m, hm, of_decide_eq_true hkey⟩
  refine ask_ensures Absent.settled.stable hs (fun s' hs' _ => ⟨[], _, hcreate s' hs' _⟩)
    fun s' listing s'' x hs' hx => ?_
  rw [hcreate s' hs'] at hx
  cases hx
  have hgrows := hs'.1.register hself contents
  refine ⟨hgrows, ?_⟩
  have hpresent : Present self v ⟨s'.size, s'.nodes ++ [s'.entry self contents], s'.index + 1⟩ :=
    ⟨(hgrows hs'.1).1, hs'.2.1, _, mem_append_right _ (mem_singleton_self _), rfl⟩
  -- the own registration is seen at the index it was made
  refine ask_ensures (fun _ _ hg h => Grows.trans h hg) (.refl _) (fun s₁ hs₁ _ => ⟨[], ?_⟩)
    fun s₁ _ s₂ y hs₁ hy => ?_
  · obtain ⟨-, -, -, new, hnew, -⟩ := hs₁ hpresent.1
    refine exists_event hs'.1.pos (m := s'.entry self contents) ?_ (Nat.lt_succ_self _)
      (decide_eq_true rfl)
    rw [hnew]
    exact mem_append_left _ (mem_append_right _ (mem_singleton_self _))
  · obtain ⟨m, -, hy⟩ := event_eq_some hy
    cases hy
    exact ⟨.refl _, fun s₃ hs₃ => ⟨rfl, Present.settled.stable _ _ (hs₁.trans hs₃) hpresent⟩⟩

/-- The registrations collected so far, all those up to an index; so many are missing. -/
structure Waiting (own : Bytes) (n missing : ℕ) (all : List Node) (afterIndex : ℕ) (s : Service) :
    Prop where
  wf : s.Wf
  length : all.length + missing = n
  among : Among own all
  pos : 0 < afterIndex
  le : afterIndex ≤ s.index
  rest : ∃ new, s.nodes = all ++ new ∧ (∀ m ∈ all, m.createdIndex ≤ afterIndex) ∧
    ∀ m ∈ new, afterIndex < m.createdIndex

/-- The first registrations, the own one among them. -/
def Collected (self : Bytes) (n : ℕ) (s : Service) (all : List Node) : Prop :=
  s.Wf ∧ n ≤ s.nodes.length ∧ all = s.nodes.take n ∧ Among self all

namespace Waiting

variable {missing afterIndex : ℕ} {all : List Node}

theorem grows (h : Waiting self n missing all afterIndex s) (hg : Grows (· ≠ self) s s') :
    Waiting self n missing all afterIndex s' := by
  obtain ⟨hwf, -, hle, new', hnew', hkind⟩ := hg h.wf
  obtain ⟨new, hnew, hold, hlate⟩ := h.rest
  refine ⟨hwf, h.length, h.among, h.pos, h.le.trans hle, new ++ new', ?_, hold, fun m hm => ?_⟩
  · rw [hnew', hnew, append_assoc]
  · rcases mem_append.1 hm with hm | hm
    · exact hlate m hm
    · exact h.le.trans_lt (hkind m hm).1

theorem collected (h : Waiting self n 0 all afterIndex s) : Collected self n s all := by
  obtain ⟨new, hnew, -⟩ := h.rest
  have hlen : all.length = n := h.length
  refine ⟨h.wf, ?_, ?_, h.among⟩
  · rw [hnew, length_append]
    omega
  · rw [hnew, ← hlen, take_left]

theorem next (h : Waiting self n (missing + 1) all afterIndex s) {m : Node}
    (hm : (s.nodes.find? fun m => afterIndex < m.modifiedIndex && true) = some m) :
    Waiting self n missing (all ++ [m]) m.modifiedIndex s := by
  obtain ⟨new, hnew, hold, hlate⟩ := h.rest
  have hmod : ∀ m ∈ s.nodes, m.modifiedIndex = m.createdIndex := h.wf.modified
  have hnone : (all.find? fun m => afterIndex < m.modifiedIndex && true) = none := by
    refine find?_eq_none.2 fun a ha => ?_
    rw [hmod a (by rw [hnew]; exact mem_append_left _ ha), Bool.and_true]
    exact fun hlt => absurd (hold a ha) (Nat.not_le.2 (of_decide_eq_true hlt))
  rw [hnew, find?_append, hnone, Option.none_or] at hm
  rcases new with _ | ⟨a, new⟩
  · cases hm
  have hhead : a = m := by
    rw [find?_cons_of_pos] at hm
    · exact Option.some.inj hm
    · rw [hmod a (by rw [hnew]; exact mem_append_right _ mem_cons_self)]
      simp [hlate a mem_cons_self]
  subst hhead
  have hmem : a ∈ s.nodes := by rw [hnew]; exact mem_append_right _ mem_cons_self
  have hsorted := h.wf.sorted
  rw [hnew] at hsorted
  obtain ⟨-, hright, hacross⟩ := pairwise_append.1 hsorted
  rw [hmod a hmem]
  refine ⟨h.wf, ?_, ?_, ?_, h.wf.le a hmem, new, ?_, fun b hb => ?_, fun b hb => ?_⟩
  · have := h.length
    rw [length_append, length_singleton]
    omega
  · obtain ⟨b, hb, hkey⟩ := h.among
    exact ⟨b, mem_append_left _ hb, hkey⟩
  · exact h.pos.trans (hlate a mem_cons_self)
  · rw [hnew, append_assoc]
    rfl
  · rcases mem_append.1 hb with hb | hb
    · exact (hacross b hb a mem_cons_self).le
    · rw [mem_singleton.1 hb]
  · exact rel_of_pairwise_cons hright hb

theorem waitMore (retry : Api (List Node)) : ∀ {missing : ℕ} {all : List Node} {afterIndex : ℕ}
    {s : Service}, Waiting self n missing all afterIndex s →
    Ensures exec (member self n) (fun s r => ∃ all, r = .ok all ∧ Collected self n s all) s
      (waitMore retry missing all afterIndex).run
  | 0, all, _, _, h => fun s' hs' => ⟨all, rfl, (h.grows hs').collected⟩
  | missing + 1, all, afterIndex, s, h => by
    refine ask_ensures (fun _ _ hg h => grows h hg) h (fun s' h' hlive => ?_)
      fun s' _ s'' x h' hx => ?_
    · obtain ⟨new, hnew, -, hlate⟩ := h'.rest
      have hlive : n ≤ s'.nodes.length := hlive.2
      have hlen := h'.length
      rcases new with _ | ⟨m, new⟩
      · rw [hnew, append_nil] at hlive
        omega
      have hm : m ∈ s'.nodes := by rw [hnew]; exact mem_append_right _ mem_cons_self
      refine ⟨[], exists_event h'.pos (m := m) hm ?_ rfl⟩
      rw [h'.wf.modified m hm]
      exact hlate m mem_cons_self
    · obtain ⟨m, hm, hy⟩ := event_eq_some hx
      cases hy
      exact ⟨.refl _, waitMore retry (h'.next hm)⟩

end Waiting

variable {checked : Checked}

theorem Snapshot.now {P : Service → Prop} (hP : Settled self v P)
    (h : Snapshot self n P s checked) : P s := by
  obtain ⟨s₁, hs₁, hg, -⟩ := h
  exact hP.stable _ _ hg hs₁

theorem waitNodes_ensures (h : Snapshot self n (Present self v) s checked)
    (hfull : checked.full = false) (bound : ℕ) :
    Ensures exec (member self n) (fun s r => ∃ all, r = .ok all ∧ Collected self n s all) s
      (waitNodes self bound checked).run := by
  obtain ⟨s₁, hs₁, hg, hindex, hsize, -, hlist⟩ := h
  obtain ⟨hnodes, hamong⟩ := hlist hfull
  have hamong : Among self (s₁.nodes.take n) := hamong hs₁.2.2
  obtain ⟨retry, hretry⟩ : ∃ retry, waitNodes self bound checked =
      if checked.size < 0 then throw .panic
      else waitMore retry (checked.size.toNat - (checked.nodes.take checked.size.toNat).length)
        (checked.nodes.take checked.size.toNat) checked.index := by
    cases bound <;> exact ⟨_, rfl⟩
  rw [hretry, hsize, hnodes, hindex, if_neg (by omega), Int.toNat_natCast]
  by_cases hn : n ≤ s₁.nodes.length
  · rw [length_take_of_le hn, Nat.sub_self]
    intro s' hs'
    have hg' := Grows.trans hg hs'
    exact ⟨_, rfl, (hg' hs₁.1).1, hn.trans (hg'.length_le hs₁.1), (hg'.take hs₁.1 hn).symm, hamong⟩
  · have hall : s₁.nodes.take n = s₁.nodes := take_of_length_le (by omega)
    rw [hall] at hamong ⊢
    refine Waiting.waitMore retry (Waiting.grows ?_ hg)
    exact ⟨hs₁.1, by omega, hamong, hs₁.1.pos, le_rfl, [], (append_nil _).symm, hs₁.1.le,
      fun m hm => (by cases hm)⟩

variable (validURL : Bytes → Bool)

theorem joinCluster_ensures (hv : atoi v = some (n : ℤ)) (hn : 1 ≤ n) (hself : self ≠ config)
    (hs : Absent self v s) (contents : Bytes) :
    Ensures exec (member self n) (Outcome validURL n self) s
      (joinCluster validURL self contents).run := by
  -- a full cluster without the member stays so
  have full {P : Service → Prop} {s : Service} {checked : Checked} (hP : Settled self v P)
      (h : Snapshot self n P s checked) (hc : checked.full = true) :
      Ensures exec (member self n) (Outcome validURL n self) s (.done (.error .fullCluster)) := by
    obtain ⟨s₁, hs₁, hg, -, -, hfull, -⟩ := h
    obtain ⟨hlen, hnot⟩ := hfull hc
    intro s' hs'
    have hout : Outcome validURL n self s₁ (.error .fullCluster) :=
      ⟨hlen, fun hamong => absurd hamong hnot, fun _ => rfl⟩
    exact hout.grows (hP.wf _ hs₁) (hg.trans hs')
  refine Ensures.bind (fun s r hr => ?_) (checkCluster_ensures Absent.settled hv hn hs _)
  obtain ⟨first, rfl, hfirst⟩ := hr
  change Ensures _ _ _ _ (ExceptT.run (if first.full = true then _ else _))
  by_cases hc : first.full = true
  · rw [if_pos hc]
    exact full Absent.settled hfirst hc
  rw [if_neg hc]
  refine Ensures.bind (fun s r hr => ?_)
    (createSelf_ensures hself (Snapshot.now Absent.settled hfirst) contents)
  obtain ⟨rfl, hpresent⟩ := hr
  refine Ensures.bind (fun s r hr => ?_) (checkCluster_ensures Present.settled hv hn hpresent _)
  obtain ⟨checked, rfl, hchecked⟩ := hr
  change Ensures _ _ _ _ (ExceptT.run (if checked.full = true then _ else _))
  by_cases hc : checked.full = true
  · rw [if_pos hc]
    exact full Present.settled hchecked hc
  rw [if_neg hc]
  refine Ensures.bind (fun s r hr => ?_)
    (waitNodes_ensures hchecked (Bool.eq_false_iff.2 hc) checked.retries)
  obtain ⟨all, rfl, hwf, hlen, rfl, hamong⟩ := hr
  obtain ⟨-, -, -, -, hsize, -⟩ := hchecked
  intro s' (hs' : Grows (· ≠ self) s s')
  have hout : Outcome validURL n self s (nodesToCluster validURL (s.nodes.take n) checked.size) :=
    by
    rw [hsize]
    exact ⟨hlen, fun _ => rfl, fun hnot => absurd hamong hnot⟩
  exact hout.grows hwf hs'

end Join

section Key

def hexByte (d : ℕ) : Fin 256 := Fin.ofNat 256 (Nat.digitChar d).toNat

theorem hexByte_spec : ∀ d < 16, hexByte d ≠ 95 ∧ ∀ e < 16, hexByte d = hexByte e → d = e := by
  decide

theorem idString_eq (id : ℕ) :
    idString id = if id < 16 then [hexByte id] else idString (id / 16) ++ [hexByte (id % 16)] := by
  unfold idString
  rw [Nat.toDigits_eq_if (by decide)]
  split_ifs
  · rfl
  · rw [map_append]
    rfl

theorem idString_ne_nil (id : ℕ) : idString id ≠ [] := by
  rw [idString_eq]
  split_ifs <;> simp

theorem idString_injective {id id' : ℕ} (h : idString id = idString id') : id = id' := by
  induction id using Nat.strongRecOn generalizing id' with
  | ind id ih =>
    rw [idString_eq id, idString_eq id'] at h
    split_ifs at h with hlt hlt' hlt'
    · exact (hexByte_spec id hlt).2 id' hlt' (cons.inj h).1
    · have hlen := congrArg length h
      rw [length_append] at hlen
      exact absurd (length_eq_zero_iff.1 (by simpa using hlen)) (idString_ne_nil (id' / 16))
    · have hlen := congrArg length h
      rw [length_append] at hlen
      exact absurd (length_eq_zero_iff.1 (by simpa using hlen)) (idString_ne_nil (id / 16))
    · obtain ⟨hdiv, hmod⟩ := append_inj' h rfl
      have hdiv := ih (id / 16) (by omega) hdiv
      have hmod := (hexByte_spec _ (Nat.mod_lt id (by decide))).2 _ (Nat.mod_lt id' (by decide))
        (cons.inj hmod).1
      omega

theorem idString_ne_config (id : ℕ) : idString id ≠ config := by
  have hnot : (95 : Fin 256) ∉ idString id := by
    induction id using Nat.strongRecOn with
    | ind id ih =>
      rw [idString_eq]
      split_ifs with hlt
      · rw [mem_singleton]
        exact fun h => (hexByte_spec id hlt).1 h.symm
      · rw [mem_append, mem_singleton, not_or]
        exact ⟨ih (id / 16) (by omega),
          fun h => (hexByte_spec _ (Nat.mod_lt id (by decide))).1 h.symm⟩
  intro h
  rw [h] at hnot
  exact hnot (by decide)

end Key

section Agree

variable {members : List Joining}

/-- A member that joins, by its id and what it registers. -/
structure Joining where
  id : ℕ
  contents : Bytes

variable (validURL : Bytes → Bool)

def Joining.program (m : Joining) : Program Request Response (Except DiscoveryError Bytes) :=
  (joinCluster validURL (idString m.id) m.contents).run

def joinsAfter (s : Service) (members : List Joining) (schedule : List (ℕ × Choice)) :
    Service × List (Program Request Response (Except DiscoveryError Bytes)) :=
  Program.contend exec (s, members.map (Joining.program validURL)) schedule

def contracts (members : List Joining) (n i : ℕ) : Contract Service :=
  match members[i]? with
  | some m => member (idString m.id) n
  | none => ⟨fun _ _ => True, fun _ _ => False, fun _ => False, fun _ => trivial,
    fun _ _ => trivial⟩

theorem contracts_of_some {n i : ℕ} {m : Joining} (h : members[i]? = some m) :
    contracts members n i = member (idString m.id) n := by
  unfold contracts
  rw [h]

theorem contracts_compatible (hids : (members.map Joining.id).Nodup) (n : ℕ) :
    Program.Compatible (contracts members n) := by
  intro i j hij s s' hguar
  rcases hi : members[i]? with _ | m
  · unfold contracts at hguar
    rw [hi] at hguar
    exact hguar.elim
  rcases hj : members[j]? with _ | m'
  · unfold contracts
    rw [hj]
    trivial
  rw [contracts_of_some hi] at hguar
  rw [contracts_of_some hj]
  have hguar : Grows (· = idString m.id) s s' := hguar
  change Grows (· ≠ idString m'.id) s s'
  refine Grows.mono (fun k hk hk' => ?_) hguar
  have hid := idString_injective (hk.symm.trans hk')
  have hi' : (members.map Joining.id)[i]? = some m.id := by rw [List.getElem?_map, hi]; rfl
  have hj' : (members.map Joining.id)[j]? = some m.id := by rw [List.getElem?_map, hj, hid]; rfl
  exact hij ((List.getElem?_inj (List.getElem?_eq_some_iff.1 hi').1 hids).1 (hi'.trans hj'.symm))

def fresh (size : String) : Service := ⟨some (GoPath.ascii size), [], 1⟩

theorem fresh_wf (size : String) : (fresh size).Wf :=
  ⟨.nil, fun _ h => (by cases h), fun _ h => (by cases h), fun _ h => (by cases h), Nat.one_pos⟩

/-- Members that registered one after the other, from the index after the size key. -/
def registered (contents : Bytes) (ids : List ℕ) : List Node :=
  ids.zipIdx.map fun x => ⟨idString x.1, contents, x.2 + 2, x.2 + 2⟩

/-- A schedule of single requests, with the registrations that a listing gives. -/
def turns (contents : Bytes) (order : List (ℕ × List ℕ)) : List (ℕ × Choice) :=
  order.map fun x => (x.1, ⟨0, registered contents x.2⟩)

def contentsOfA : Bytes := GoPath.ascii "a=http://h:1"

end Agree

end EtcdCompat.Discovery
