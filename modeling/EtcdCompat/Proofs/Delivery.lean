import EtcdCompat.Proofs.RaftMoves

/-!
# Committed entries are delivered in order

The `Advance` marks as applied what the last hard state handed out says is committed. That is the
commit index at the `Ready`, so what is applied is what the `Ready` delivered, and the next one goes
on from there, or after the snapshot it has.
-/

namespace EtcdCompat

open List Option RaftLog Handle

/-- The index of the first entry a `Ready` delivers, if `next` is the one to come. -/
def Ready.base (rd : Ready) (next : ℕ) : ℕ :=
  if isEmptySnap rd.snapshot then next else rd.snapshot.metadata.index + 1

/-- The entries delivered have consecutive indices from `next` on; after a snapshot they go on
from the one after it, which is not behind. -/
def InOrder : ℕ → List Ready → Prop
  | _, [] => True
  | next, rd :: rds => next ≤ rd.base next
    ∧ rd.committedEntries.map Entry.index
      = List.range' (rd.base next) rd.committedEntries.length
    ∧ InOrder (rd.base next + rd.committedEntries.length) rds

/-- The index to come after the `Ready`s. -/
def nextIndex : ℕ → List Ready → ℕ
  | next, [] => next
  | next, rd :: rds => nextIndex (rd.base next + rd.committedEntries.length) rds

section Order

theorem nextIndex_append : ∀ (next : ℕ) (rds rds' : List Ready),
    nextIndex next (rds ++ rds') = nextIndex (nextIndex next rds) rds'
  | _, [], _ => rfl
  | _, _ :: rds, rds' => nextIndex_append _ rds rds'

theorem InOrder.append : ∀ {next : ℕ} {rds rds' : List Ready}, InOrder next rds →
    InOrder (nextIndex next rds) rds' → InOrder next (rds ++ rds')
  | _, [], _, _, h' => h'
  | _, _ :: _, _, h, h' => ⟨h.1, h.2.1, h.2.2.append h'⟩

theorem InOrder.index_ge : ∀ {next : ℕ} {rds : List Ready}, InOrder next rds →
    ∀ rd ∈ rds, ∀ e ∈ rd.committedEntries, next ≤ e.index
  | next, rd :: rds, h, rd', hrd, e, he => by
    rcases mem_cons.1 hrd with rfl | hrd
    · have hmem : e.index ∈ rd'.committedEntries.map Entry.index := mem_map_of_mem he
      rw [h.2.1, mem_range'_1] at hmem
      exact h.1.trans hmem.1
    · have := h.2.2.index_ge rd' hrd e he
      have := h.1
      omega

theorem InOrder.pairwise : ∀ {next : ℕ} {rds : List Ready}, InOrder next rds →
    ((rds.flatMap Ready.committedEntries).map Entry.index).Pairwise (· < ·)
  | _, [], _ => .nil
  | next, rd :: rds, h => by
    rw [flatMap_cons, map_append, pairwise_append]
    refine ⟨?_, h.2.2.pairwise, fun i hi j hj => ?_⟩
    · rw [h.2.1]
      exact pairwise_lt_range'
    · rw [h.2.1, mem_range'_1] at hi
      obtain ⟨e, he, rfl⟩ := mem_map.1 hj
      obtain ⟨rd', hrd', he⟩ := mem_flatMap.1 he
      exact hi.2.trans_le (h.2.2.index_ge rd' hrd' e he)

end Order

namespace Handle

variable {n : Node} {rn : RawNode}

def withRaft (r : Raft) : Handle → Handle
  | .node n => .node { n with raft := r }
  | .raw rn => .raw { rn with raft := r }

variable {h : Handle} {m : Message}

@[simp] theorem raft_withRaft (h : Handle) (r : Raft) : (h.withRaft r).raft = r := by
  cases h <;> rfl

/-- The node has taken a step, which moved its log on. -/
def Stepped (h h' : Handle) : Prop := ∃ r, h' = h.withRaft r ∧ Raft.Moved h.raft.raftLog r

theorem stepped_refl (hn : h.raft.raftLog.Numbered) : Stepped h h := by
  refine ⟨h.raft, ?_, .refl hn⟩
  cases h <;> rfl

theorem node_stepped {x : Except Panic Node}
    (hx : Yields Other (fun n' => Stepped (.node n) (.node n')) x) :
    Yields Other (Stepped (.node n)) (node <$> x) :=
  hx.bind fun _ hn' => hn'

theorem raw_stepped {x : Except Panic RawNode}
    (hx : Yields Other (fun rn' => Stepped (.raw rn) (.raw rn')) x) :
    Yields Other (Stepped (.raw rn)) (raw <$> x) :=
  hx.bind fun _ hrn' => hrn'

theorem recv_stepped (hn : n.raft.raftLog.Numbered) (hm : m.Numbered) :
    Yields Other (fun n' => Stepped (.node n) (.node n')) (n.recv m) := by
  unfold Node.recv
  split_ifs with hprop
  · refine (Raft.step_moved hn ?_).bind fun r hr => ⟨r, rfl, hr⟩
    exact fun h => by rw [hprop] at h; cases h
  · exact (Raft.step_moved hn hm).bind fun r hr => ⟨r, rfl, hr⟩
  · exact stepped_refl hn

theorem stepLocal_stepped (hn : rn.raft.raftLog.Numbered) (hm : m.Numbered) :
    Yields Other (fun rn' => Stepped (.raw rn) (.raw rn')) (rn.stepLocal m) :=
  (Raft.step_moved hn hm).bind fun r hr => ⟨r, rfl, hr⟩

theorem nodeStep_stepped (hn : n.raft.raftLog.Numbered) (hm : m.Numbered) :
    Yields Other (fun n' => Stepped (.node n) (.node n')) (n.step m) := by
  unfold Node.step
  split_ifs
  · exact stepped_refl hn
  · exact recv_stepped hn hm

theorem rawStep_stepped (hn : rn.raft.raftLog.Numbered) (hm : m.Numbered) :
    Yields Other (fun rn' => Stepped (.raw rn) (.raw rn')) (rn.step m) := by
  unfold RawNode.step
  split_ifs
  · exact stepped_refl hn
  · exact stepLocal_stepped hn hm
  · exact stepped_refl hn

variable (hn : h.raft.raftLog.Numbered)
include hn

theorem step_stepped (hm : m.Numbered) : Yields Other (Stepped h) (h.step m) := by
  cases h with
  | node n => exact node_stepped (nodeStep_stepped hn hm)
  | raw rn => exact raw_stepped (rawStep_stepped hn hm)

theorem tick_stepped (rand : ℕ) : Yields Other (Stepped h) (h.tick rand) := by
  have htick := Raft.tick_moved hn rand
  cases h with
  | node n => exact node_stepped (htick.bind fun r hr => ⟨r, rfl, hr⟩)
  | raw rn => exact raw_stepped (htick.bind fun r hr => ⟨r, rfl, hr⟩)

theorem call_stepped (c : NodeCall) : Yields Other (Stepped h) (h.call c) := by
  -- none of the calls is a message of a leader
  have hm : ∀ {m : Message}, m.type ≠ .app → m.Numbered := fun hne h => absurd h hne
  have happly := Raft.applyConfChange_moved hn
  cases h with
  | node n =>
    cases c with
    | applyConfChange cc => exact node_stepped ((happly cc).bind fun r hr => ⟨r, rfl, hr⟩)
    | proposeConfChange data => exact node_stepped (nodeStep_stepped hn (hm fun h => by cases h))
    | _ => exact node_stepped (recv_stepped hn (hm fun h => by cases h))
  | raw rn =>
    cases c with
    | applyConfChange cc => exact raw_stepped ((happly cc).bind fun r hr => ⟨r, rfl, hr⟩)
    | _ => exact raw_stepped (stepLocal_stepped hn (hm fun h => by cases h))

end Handle

namespace Handle

/-- The last hard state handed out, once `rd` is answered. -/
def prevHardSt (rd : Ready) : Handle → HardState
  | .node n => n.prevHardSt
  | .raw rn => if isEmptyHardState rd.hardState then rn.prevHardSt else rd.hardState

def awaits : Handle → Bool
  | .node n => n.advancec
  | .raw _ => true

/-- The snapshot an `Advance` drops. -/
def dropped (rd : Ready) : Handle → Option ℕ
  | .node n => some n.prevSnapi
  | .raw _ => if isEmptySnap rd.snapshot then none else some rd.snapshot.metadata.index

end Handle

/-- A log whose entries are numbered, with nothing applied beyond what is committed. -/
structure RaftLog.Steady (l : RaftLog) : Prop where
  numbered : l.Numbered
  applied : l.applied ≤ l.committed
  stored : l.storage.firstIndex ≤ l.committed + 1
  pending : ∀ s, l.unstable.snapshot = some s →
    l.applied < s.metadata.index ∧ s.metadata.index ≤ l.committed
  first : l.unstable.snapshot = none → l.storage.firstIndex ≤ l.applied + 1

/-- A `Ready` on its way, taken at the commit index `c`. -/
structure Flies (l : RaftLog) (h : Handle) (rd : Ready) (c : ℕ) : Prop where
  awaits : h.awaits = true
  hard : (h.prevHardSt rd).commit = c
  applied : l.applied ≤ c
  committed : c ≤ l.committed
  stored : l.storage.firstIndex ≤ c + 1
  base : l.applied + 1 ≤ rd.base (l.applied + 1)
  entries : NumberedFrom (rd.base (l.applied + 1)) rd.committedEntries
  whole : rd.base (l.applied + 1) + rd.committedEntries.length = c + 1
  pending : ∀ s, l.unstable.snapshot = some s → c < s.metadata.index ∨ rd.snapshot = s
  held : isEmptySnap rd.snapshot = false →
    l.unstable.snapshot ≠ none ∧ h.dropped rd = some rd.snapshot.metadata.index
  unstable : ∃ k, NumberedFrom k rd.entries

section Steps

variable {l l' : RaftLog} {h : Handle} {rd : Ready} {c : ℕ}

theorem RaftLog.Steady.moves (hs : l.Steady) (hm : l.Moves l') : l'.Steady := by
  have hc := hm.committed
  refine ⟨hm.numbered hs.numbered, ?_, ?_, fun s hsn => ?_, fun hsn => ?_⟩
  · rw [hm.applied]
    exact hs.applied.trans hc
  · rw [hm.storage]
    exact hs.stored.trans (by omega)
  · rw [hm.applied]
    rcases hm.snapshot with ⟨heq, -⟩ | ⟨s', hs', hlt, hle, -⟩
    · obtain ⟨h1, h2⟩ := hs.pending s (heq ▸ hsn)
      exact ⟨h1, h2.trans hc⟩
    · cases hs'.symm.trans hsn
      exact ⟨hs.applied.trans_lt hlt, hle⟩
  · rw [hm.applied, hm.storage]
    rcases hm.snapshot with ⟨heq, -⟩ | ⟨s', hs', -⟩
    · exact hs.first (heq ▸ hsn)
    · rw [hs'] at hsn
      cases hsn

theorem Flies.moves (hf : Flies l h rd c) (hm : l.Moves l') (r : Raft) :
    Flies l' (h.withRaft r) rd c := by
  obtain ⟨h1, h2, h3, h4, h5, h6, h7, h8, h9, h10, h11⟩ := hf
  have hkeep : (h.withRaft r).awaits = h.awaits ∧ (h.withRaft r).prevHardSt rd = h.prevHardSt rd
      ∧ (h.withRaft r).dropped rd = h.dropped rd := by
    cases h <;> exact ⟨rfl, rfl, rfl⟩
  refine ⟨hkeep.1.trans h1, hkeep.2.1 ▸ h2, hm.applied ▸ h3, h4.trans hm.committed,
    hm.storage ▸ h5, hm.applied ▸ h6, hm.applied ▸ h7, hm.applied ▸ h8, fun s hs => ?_,
    fun hne => ⟨fun hnone => ?_, hkeep.2.2 ▸ (h10 hne).2⟩, h11⟩
  · rcases hm.snapshot with ⟨heq, -⟩ | ⟨s', hs', hlt, -⟩
    · exact h9 s (heq ▸ hs)
    · cases hs'.symm.trans hs
      exact .inl (h4.trans_lt hlt)
  · rcases hm.snapshot with ⟨heq, -⟩ | ⟨s', hs', -⟩
    · exact (h10 hne).1 (heq ▸ hnone)
    · rw [hs'] at hnone
      cases hnone

end Steps

section Storage

variable {ms : MemoryStorage} {k : ℕ} {ents : List Entry}

theorem MemoryStorage.fresh_numbered (ms : MemoryStorage) (h : NumberedFrom k ents) :
    ∃ k', ms.firstIndex ≤ k' ∧ NumberedFrom k' (ms.fresh ents k) := by
  unfold MemoryStorage.fresh
  split_ifs with hlt
  · exact ⟨k + (ms.firstIndex - k), by omega, h.drop _⟩
  · exact ⟨k, by omega, h⟩

theorem MemoryStorage.append_numbered (hms : ms.Numbered) (h : NumberedFrom k ents) :
    Yields Other (fun ms' => ms'.Numbered ∧ ms'.ents0.index = ms.ents0.index) (ms.append ents) := by
  unfold MemoryStorage.append
  rcases ents with _ | ⟨e, es⟩
  · exact ⟨hms, rfl⟩
  simp only
  split_ifs with hold
  · exact ⟨hms, rfl⟩
  rw [h.head]
  obtain ⟨k', hk', hfresh⟩ := ms.fresh_numbered h
  rcases hf : ms.fresh (e :: es) k with _ | ⟨f, fs⟩
  · rfl
  rw [hf] at hfresh
  have hhead := hfresh.head
  simp only
  split_ifs with hgap
  · rfl
  -- the dummy entry stays, and the new entries follow those kept
  unfold MemoryStorage.firstIndex at hk'
  obtain ⟨o, ho⟩ : ∃ o, f.index - ms.ents0.index = o + 1 := ⟨k' - ms.ents0.index - 1, by omega⟩
  rw [ho, take_succ_cons, cons_append]
  refine ⟨(hms.take o).append ?_, rfl⟩
  rw [length_take_of_le (by omega)]
  have : ms.ents0.index + 1 + o = k' := by omega
  rwa [this]

theorem MemoryStorage.persist_numbered (hms : ms.Numbered) {rd : Ready}
    (h : NumberedFrom k rd.entries) :
    Yields Other (fun ms' => ms'.Numbered ∧ ms'.ents0.index =
      if isEmptySnap rd.snapshot then ms.ents0.index else rd.snapshot.metadata.index)
      (ms.persist rd) := by
  unfold MemoryStorage.persist
  have hset : ∀ m : MemoryStorage, m.Numbered →
      (if isEmptyHardState rd.hardState then m else m.setHardState rd.hardState).Numbered
      ∧ (if isEmptyHardState rd.hardState then m
        else m.setHardState rd.hardState).ents0.index = m.ents0.index := by
    intro m hm
    split_ifs <;> exact ⟨hm, rfl⟩
  by_cases hsn : isEmptySnap rd.snapshot = true
  · simp [hsn]
    obtain ⟨h1, h2⟩ := hset ms hms
    exact (append_numbered h1 h).mono fun ms' h' => ⟨h'.1, h'.2.trans h2⟩
  · simp only [hsn]
    obtain ⟨h1, h2⟩ := hset (ms.applySnapshot rd.snapshot) (.nil _)
    exact (append_numbered h1 h).mono fun ms' h' => ⟨h'.1, h'.2.trans h2⟩

end Storage

section Ready

variable {r : Raft} {prev : HardState}

theorem keptHardSt_commit (hprev : prev.commit ≤ r.raftLog.committed) :
    (if isEmptyHardState (if r.hardState ≠ prev then r.hardState else {}) then prev
      else if r.hardState ≠ prev then r.hardState else {}).commit = r.raftLog.committed := by
  by_cases heq : r.hardState = prev
  · rw [if_neg (not_not.2 heq), if_pos (show isEmptyHardState {} = true from rfl), ← heq]
    rfl
  · rw [if_pos heq]
    split_ifs with hempty
    · have hzero : r.hardState = {} := beq_iff_eq.1 hempty
      have : r.raftLog.committed = 0 := congrArg HardState.commit hzero
      omega
    · rfl

/-- What a `Ready` holds, of a node whose log is steady. -/
structure Fresh (r : Raft) (prev : HardState) (rd : Ready) : Prop where
  hard : (if isEmptyHardState rd.hardState then prev else rd.hardState).commit
    = r.raftLog.committed
  base : r.raftLog.applied + 1 ≤ rd.base (r.raftLog.applied + 1)
  entries : NumberedFrom (rd.base (r.raftLog.applied + 1)) rd.committedEntries
  whole : rd.base (r.raftLog.applied + 1) + rd.committedEntries.length = r.raftLog.committed + 1
  snapshot : rd.snapshot = r.raftLog.unstable.snapshot.getD {}
  unstable : rd.entries = r.raftLog.unstable.entries

theorem newReady_fresh (hs : r.raftLog.Steady) (soft : SoftState)
    (hprev : prev.commit ≤ r.raftLog.committed) :
    Yields Other (Fresh r prev) (newReady r soft prev) := by
  refine (hs.numbered.nextEnts.imp (fun _ => Mild.other) fun _ h => h).bind fun es hes => ?_
  have hbase : ∀ rd : Ready, rd.snapshot = r.raftLog.unstable.snapshot.getD {} →
      rd.base (r.raftLog.applied + 1) = max (r.raftLog.applied + 1) r.raftLog.firstIndex
      ∧ r.raftLog.applied + 1 ≤ rd.base (r.raftLog.applied + 1)
      ∧ rd.base (r.raftLog.applied + 1) ≤ r.raftLog.committed + 1 := by
    intro rd hrd
    unfold Ready.base firstIndex Unstable.maybeFirstIndex isEmptySnap
    rw [hrd]
    cases hsn : r.raftLog.unstable.snapshot with
    | none =>
      have := hs.first hsn
      have := hs.applied
      simp
      omega
    | some s =>
      obtain ⟨h1, h2⟩ := hs.pending s hsn
      have hne : (s.metadata.index == 0) = false := by
        rw [beq_eq_false_iff_ne]
        omega
      simp [hne]
      omega
  obtain ⟨hmax, hge, hle⟩ := hbase
    { entries := r.raftLog.unstableEntries
      committedEntries := es
      messages := r.msgs
      softState := if r.softState ≠ soft then some r.softState else none
      hardState := if r.hardState ≠ prev then r.hardState else {}
      snapshot := r.raftLog.unstable.snapshot.getD {} } rfl
  refine ⟨keptHardSt_commit hprev, hge, ?_, ?_, rfl, rfl⟩
  · rw [hmax]
    exact hes.1
  · have hlen := hes.2
    rw [← hmax] at hlen
    exact (congrArg (_ + ·) hlen).trans (Nat.add_sub_cancel' hle)

theorem Fresh.flies {rd : Ready} (hf : Fresh r prev rd) (hs : r.raftLog.Steady) {h : Handle}
    (hlog : h.raft.raftLog = r.raftLog) (hawaits : h.awaits = true)
    (hhard : h.prevHardSt rd = if isEmptyHardState rd.hardState then prev else rd.hardState)
    (hdrop : isEmptySnap rd.snapshot = false → h.dropped rd = some rd.snapshot.metadata.index) :
    Flies h.raft.raftLog h rd r.raftLog.committed := by
  rw [hlog]
  refine ⟨hawaits, by rw [hhard]; exact hf.hard, hs.applied, le_rfl, hs.stored, hf.base, hf.entries,
    hf.whole, fun s hsn => .inr ?_, fun hne => ⟨fun hnone => ?_, hdrop hne⟩,
    _, hf.unstable ▸ hs.numbered.unstable⟩
  · rw [hf.snapshot, hsn, getD_some]
  · rw [hf.snapshot, hnone] at hne
    cases hne

end Ready

/-- The last hard state handed out and answered, or taken by the loop. -/
def Handle.lastHardSt : Handle → HardState
  | .node n => n.prevHardSt
  | .raw rn => rn.prevHardSt

/-- The `Ready` that `h` handed out, with the node it left. -/
structure Handle.Taken (h : Handle) (rd : Ready) (h' : Handle) : Prop where
  fresh : Fresh h.raft h.lastHardSt rd
  log : h'.raft.raftLog = h.raft.raftLog
  awaits : h'.awaits = true
  hard : h'.prevHardSt rd = if isEmptyHardState rd.hardState then h.lastHardSt else rd.hardState
  last : h'.lastHardSt.commit ≤ h'.raft.raftLog.committed
  dropped : isEmptySnap rd.snapshot = false → h'.dropped rd = some rd.snapshot.metadata.index

theorem Handle.ready_taken {h : Handle} (hs : h.raft.raftLog.Steady)
    (hhard : h.lastHardSt.commit ≤ h.raft.raftLog.committed) :
    Yields Other (fun x => ∀ rd h', x = some (rd, h') → h.Taken rd h') h.ready := by
  rcases h with n | rn
  · have hready : Yields Other (fun x => ∀ p, x = some p →
        Fresh n.raft n.prevHardSt p.1 ∧ p.2 = n.accept p.1) n.ready := by
      unfold Node.ready
      split_ifs
      · exact fun p hp => by cases hp
      · refine (newReady_fresh hs n.prevSoftSt hhard).bind fun rd hrd => ?_
        split_ifs
        · intro p hp
          cases hp
          exact ⟨hrd, rfl⟩
        · exact fun p hp => by cases hp
    refine hready.bind fun x hx rd h' heq => ?_
    obtain ⟨⟨rd', n'⟩, hp, heq⟩ := map_eq_some_iff.1 heq
    cases heq
    obtain ⟨hfresh, hn'⟩ := hx _ hp
    simp only at hfresh hn'
    subst hn'
    refine ⟨hfresh, rfl, rfl, rfl, hfresh.hard.le, fun hne => ?_⟩
    simp [dropped, Node.accept, hne]
  · have hready : Yields Other (fun p => Fresh rn.raft rn.prevHardSt p.1
        ∧ p.2 = { rn with raft := { rn.raft with msgs := [] } }) rn.ready :=
      (newReady_fresh hs rn.prevSoftSt hhard).bind fun rd hrd => ⟨hrd, rfl⟩
    refine hready.bind fun x hx rd h' heq => ?_
    obtain ⟨rd', rn'⟩ := x
    cases heq
    obtain ⟨hfresh, hrn'⟩ := hx
    subst hrn'
    refine ⟨hfresh, rfl, rfl, rfl, hhard, fun hne => ?_⟩
    simp [dropped, hne]

/-- The log `l` once the `Ready` of the commit index `c` is answered, with the snapshot of the index
`snapi` dropped. -/
structure RaftLog.Settled (l l' : RaftLog) (c : ℕ) (snapi : Option ℕ) : Prop where
  storage : l'.storage = l.storage
  applied : l'.applied = c
  committed : l'.committed = l.committed
  unstable : NumberedFrom l'.unstable.offset l'.unstable.entries
  snapshot : ∀ s, l'.unstable.snapshot = some s →
    l.unstable.snapshot = some s ∧ snapi ≠ some s.metadata.index

section Answer

variable {l l' : RaftLog} {c : ℕ}

theorem RaftLog.appliedTo_eq (h : l.applied ≤ c) (h' : c ≤ l.committed) :
    (if c ≠ 0 then l.appliedTo c else .ok l) = .ok { l with applied := c } := by
  unfold appliedTo
  by_cases hc : c = 0
  · rw [if_neg (not_not.2 hc), show c = l.applied by omega]
  · rw [if_pos hc, if_neg hc, if_neg (by omega)]

theorem RaftLog.stableTo_settled (h : l.Settled l' c none) (i t : ℕ) :
    Yields Other (fun l'' => l.Settled l'' c none) (l'.stableTo i t) := by
  have hstable : Yields Other (fun u => NumberedFrom u.offset u.entries
      ∧ u.snapshot = l'.unstable.snapshot) (l'.unstable.stableTo i t) := by
    refine ((l'.unstable.maybeTerm_mild i).imp (fun _ => Mild.other) fun _ h => h).bind
      fun gt hgt => ?_
    rcases gt with _ | gt
    · exact ⟨h.unstable, rfl⟩
    · simp only
      split_ifs with hi
      · have := h.unstable.drop (i + 1 - l'.unstable.offset)
        rw [show l'.unstable.offset + (i + 1 - l'.unstable.offset) = i + 1 by omega] at this
        exact ⟨this, rfl⟩
      · exact ⟨h.unstable, rfl⟩
  refine hstable.bind fun u hu => ⟨h.storage, h.applied, h.committed, hu.1, fun s hs => ?_⟩
  exact h.snapshot s (hu.2 ▸ hs)

theorem RaftLog.stableSnapTo_settled (h : l.Settled l' c none) (i : ℕ) :
    l.Settled (l'.stableSnapTo i) c (some i) := by
  unfold stableSnapTo Unstable.stableSnapTo
  rcases hsn : l'.unstable.snapshot with _ | s
  · refine { h with snapshot := fun s hs => ?_ }
    rw [show l'.unstable.snapshot = some s from hs] at hsn
    cases hsn
  · simp only
    split_ifs with hi
    · exact { h with snapshot := fun s hs => by cases hs }
    · refine { h with snapshot := fun s' hs => ?_ }
      cases hsn.symm.trans hs
      exact ⟨(h.snapshot s hs).1, fun heq => hi (some.inj heq).symm⟩

theorem RaftLog.Settled.start (hn : l.Numbered) (c : ℕ) :
    l.Settled { l with applied := c } c none :=
  ⟨rfl, rfl, rfl, hn.unstable, fun _ hs => ⟨hs, fun h => by cases h⟩⟩

theorem Handle.advance_settled {h : Handle} {rd : Ready} (hn : h.raft.raftLog.Numbered)
    (hf : Flies h.raft.raftLog h rd c) :
    Yields Other (fun h' => h'.lastHardSt.commit = c ∧ (∀ n, h' = .node n → n.advancec = false)
      ∧ h.raft.raftLog.Settled h'.raft.raftLog c (h.dropped rd)) (h.advance rd) := by
  have hc := hf.hard
  have happlied := appliedTo_eq hf.applied hf.committed
  have hstart := Settled.start hn c
  rcases h with n | rn
  · have hadvance : Yields Other (fun n' => n'.prevHardSt.commit = c ∧ n'.advancec = false
        ∧ n.raft.raftLog.Settled n'.raft.raftLog c (some n.prevSnapi)) n.advance := by
      have hc : n.prevHardSt.commit = c := hc
      have hawaits : n.advancec = true := hf.awaits
      have happlied : n.advanceApplied = .ok { n.raft.raftLog with applied := c } := by
        unfold Node.advanceApplied
        rw [hc]
        exact happlied
      unfold Node.advance
      rw [hawaits, happlied]
      have hstable : Yields Other (fun l' => n.raft.raftLog.Settled l' c none)
          (n.advanceStable { n.raft.raftLog with applied := c }) := by
        unfold Node.advanceStable
        rcases n.prevLastUnstable with _ | ⟨i, t⟩
        · exact hstart
        · exact stableTo_settled hstart i t
      exact hstable.bind fun l' hl' => ⟨hc, rfl, stableSnapTo_settled hl' _⟩
    refine hadvance.bind fun n' hn' => ⟨hn'.1, fun n hn => ?_, hn'.2.2⟩
    rw [← node.inj hn]
    exact hn'.2.1
  · have hadvance : Yields Other (fun rn' => rn'.prevHardSt.commit = c
        ∧ rn.raft.raftLog.Settled rn'.raft.raftLog c (dropped rd (.raw rn)))
        (rn.advance rd) := by
      have hc : (if isEmptyHardState rd.hardState then rn.prevHardSt else rd.hardState).commit = c
        :=
        hc
      have happlied : rn.commitApplied (if isEmptyHardState rd.hardState then rn.prevHardSt
          else rd.hardState) = .ok { rn.raft.raftLog with applied := c } := by
        unfold RawNode.commitApplied
        rw [hc]
        exact happlied
      unfold RawNode.advance RawNode.commitReady
      simp only [happlied]
      have hstable : Yields Other (fun l' => rn.raft.raftLog.Settled l' c none)
          (RawNode.commitStable { rn.raft.raftLog with applied := c } rd) := by
        unfold RawNode.commitStable
        rcases rd.entries.getLast? with _ | e
        · exact hstart
        · exact stableTo_settled hstart e.index e.term
      refine hstable.bind fun l' hl' => ⟨hc, ?_⟩
      unfold dropped
      simp only
      split_ifs
      · exact hl'
      · exact stableSnapTo_settled hl' _
    exact hadvance.bind fun rn' hrn' => ⟨hrn'.1, fun n hn => (by cases hn), hrn'.2⟩

end Answer

/-- A driver that has delivered all that is applied, from the index after `a` on. -/
structure Driver.Steady (a : ℕ) (d : Driver) : Prop where
  log : d.handle.raft.raftLog.Steady
  hard : d.handle.lastHardSt.commit ≤ d.handle.raft.raftLog.committed
  idle : d.flight = none → ∀ n, d.handle = .node n → n.advancec = false
  order : InOrder (a + 1) d.delivered
  next : nextIndex (a + 1) d.delivered = d.handle.raft.raftLog.applied + 1
  flight : ∀ f, d.flight = some f → ∃ c, Flies d.handle.raft.raftLog d.handle f.rd c

namespace Driver.Steady

variable {a : ℕ} {d : Driver}

variable (hd : Steady a d)
include hd

theorem stepped {h : Handle} (hs : d.handle.Stepped h) : Steady a { d with handle := h } := by
  obtain ⟨r, rfl, -, hm⟩ := hs
  have hkeep : (d.handle.withRaft r).lastHardSt = d.handle.lastHardSt
      ∧ ∀ n, d.handle.withRaft r = .node n → ∃ n',
        d.handle = .node n' ∧ n'.advancec = n.advancec := by
    rcases d.handle with n' | rn
    · refine ⟨rfl, fun n hn => ⟨n', rfl, ?_⟩⟩
      rw [← node.inj hn]
    · exact ⟨rfl, fun n hn => by cases hn⟩
  refine ⟨?_, ?_, fun hidle n hn => ?_, hd.order, ?_, fun f hf => ?_⟩
  · rw [raft_withRaft]
    exact hd.log.moves hm
  · rw [hkeep.1, raft_withRaft]
    exact hd.hard.trans hm.committed
  · obtain ⟨n', hn', heq⟩ := hkeep.2 n hn
    exact heq ▸ hd.idle hidle n' hn'
  · rw [raft_withRaft, hm.applied]
    exact hd.next
  · obtain ⟨c, hc⟩ := hd.flight f hf
    refine ⟨c, ?_⟩
    rw [raft_withRaft]
    exact hc.moves hm r

theorem ready : Yields Other (Steady a) d.ready := by
  refine (ready_taken hd.log hd.hard).bind fun x hx => ?_
  rcases x with _ | ⟨rd, h⟩
  · exact hd
  · obtain ⟨hfresh, hlog, hawaits, hhard, hlast, hdrop⟩ := hx rd h rfl
    refine ⟨hlog ▸ hd.log, hlast, fun hnone => (by cases hnone), hd.order, ?_,
      fun f hf => ⟨d.handle.raft.raftLog.committed, ?_⟩⟩
    · rw [hlog]
      exact hd.next
    · cases hf
      exact hfresh.flies hd.log hlog hawaits hhard hdrop

theorem save : Yields Other (Steady a) d.save := by
  unfold Driver.save
  rcases hfl : d.flight with _ | ⟨rd, _ | _⟩
  · exact hd
  swap
  · exact hd
  obtain ⟨c, hf⟩ := hd.flight _ hfl
  obtain ⟨k, hk⟩ := hf.unstable
  refine (MemoryStorage.persist_numbered hd.log.numbered.stored hk).bind fun ms hms => ?_
  have hraft : (d.handle.withStorage ms).raft.raftLog
      = { d.handle.raft.raftLog with storage := ms } := by
    cases d.handle <;> rfl
  have hkeep : (d.handle.withStorage ms).lastHardSt = d.handle.lastHardSt
      ∧ (d.handle.withStorage ms).awaits = d.handle.awaits
      ∧ (d.handle.withStorage ms).prevHardSt rd = d.handle.prevHardSt rd
      ∧ (d.handle.withStorage ms).dropped rd = d.handle.dropped rd := by
    cases d.handle <;> exact ⟨rfl, rfl, rfl, rfl⟩
  have hbase := hf.whole
  have hstored : ms.firstIndex ≤ c + 1 := by
    unfold MemoryStorage.firstIndex
    rw [hms.2]
    unfold Ready.base at hbase
    split_ifs at hbase ⊢ with hempty
    · exact hf.stored
    · omega
  have hcommitted := hf.committed
  refine ⟨?_, ?_, fun h => (by cases h), hd.order, ?_, fun f hf' => ⟨c, ?_⟩⟩
  · rw [hraft]
    refine ⟨⟨hms.1, hd.log.numbered.unstable⟩, hd.log.applied, ?_, hd.log.pending, fun hnone => ?_⟩
    · show ms.firstIndex ≤ d.handle.raft.raftLog.committed + 1
      omega
    · have hempty : isEmptySnap rd.snapshot = true := by
        by_contra hne
        exact (hf.held (Bool.eq_false_iff.2 hne)).1 hnone
      unfold MemoryStorage.firstIndex
      rw [hms.2, if_pos hempty]
      exact hd.log.first hnone
  · rw [hkeep.1, hraft]
    exact hd.hard
  · rw [hraft]
    exact hd.next
  · cases hf'
    rw [hraft]
    exact ⟨hkeep.2.1.trans hf.awaits, hkeep.2.2.1 ▸ hf.hard, hf.applied, hf.committed, hstored,
      hf.base, hf.entries, hf.whole, hf.pending,
      fun hne => ⟨(hf.held hne).1, hkeep.2.2.2 ▸ (hf.held hne).2⟩, hf.unstable⟩

theorem advance : Yields Other (Steady a) d.advance := by
  unfold Driver.advance
  rcases hfl : d.flight with _ | ⟨rd, _ | _⟩
  · exact hd
  · exact hd
  obtain ⟨c, hf⟩ := hd.flight _ hfl
  refine (advance_settled hd.log.numbered hf).bind fun h hh => ?_
  obtain ⟨hhard, hidle, hset⟩ := hh
  have hcommitted := hf.committed
  refine ⟨⟨⟨hset.storage ▸ hd.log.numbered.stored, hset.unstable⟩, ?_, ?_, fun s hs => ?_,
    fun _ => ?_⟩, ?_, fun _ => hidle, ?_, ?_, fun f hf' => (by cases hf')⟩
  · rw [hset.applied, hset.committed]
    exact hf.committed
  · rw [hset.storage, hset.committed]
    exact hd.log.stored
  · rw [hset.applied, hset.committed]
    obtain ⟨hs, hne⟩ := hset.snapshot s hs
    refine ⟨(hf.pending s hs).resolve_right fun heq => hne ?_, (hd.log.pending s hs).2⟩
    -- the snapshot of the `Ready` itself has been dropped
    have hpos := (hd.log.pending s hs).1
    have hempty : isEmptySnap rd.snapshot = false := by
      rw [heq, isEmptySnap, beq_eq_false_iff_ne]
      omega
    rw [(hf.held hempty).2, heq]
  · rw [hset.storage, hset.applied]
    exact hf.stored
  · rw [hhard, hset.committed]
    exact hf.committed
  · refine hd.order.append ?_
    rw [hd.next]
    exact ⟨hf.base, hf.entries.map_index, trivial⟩
  · rw [nextIndex_append, hd.next, hset.applied]
    exact hf.whole

theorem act {ev : Driver.Event} (hev : ∀ m, ev = .step m → m.Numbered) :
    Yields Other (Steady a) (d.act ev) := by
  cases ev with
  | step m =>
    exact (step_stepped hd.log.numbered (hev m rfl)).bind fun h hh => hd.stepped hh
  | call c => exact (call_stepped hd.log.numbered c).bind fun h hh => hd.stepped hh
  | tick rand => exact (tick_stepped hd.log.numbered rand).bind fun h hh => hd.stepped hh
  | ready => exact hd.ready
  | save => exact hd.save
  | advance => exact hd.advance

end Driver.Steady

section Start

variable {l' : RaftLog}

/-- The log of a node just started: nothing is unstable but entries that follow the storage. -/
structure RaftLog.Started (ms : MemoryStorage) (a : ℕ) (l : RaftLog) : Prop where
  storage : l.storage = ms
  applied : l.applied = a
  unstable : NumberedFrom l.unstable.offset l.unstable.entries
  snapshot : l.unstable.snapshot = none
  first : ms.firstIndex ≤ a + 1
  le : a ≤ l.committed
  last : l.committed ≤ l.lastIndex

variable {ms : MemoryStorage} {a : ℕ} {l : RaftLog}

theorem RaftLog.Started.steady (hl : l.Started ms a) (hms : ms.Numbered) {c : ℕ} (hc : a ≤ c) :
    Steady { l with committed := c } := by
  have hfirst := hl.first
  refine ⟨⟨hl.storage.symm ▸ hms, hl.unstable⟩, hl.applied.symm ▸ hc, ?_, fun s hs => ?_,
    fun _ => ?_⟩
  · show l.storage.firstIndex ≤ c + 1
    rw [hl.storage]
    omega
  · cases hl.snapshot.symm.trans hs
  · rw [hl.storage, hl.applied]
    exact hfirst

theorem newRaft_started {c : Config} {r : Raft} (h : newRaft c = .ok r) :
    r.raftLog.Started c.storage
      (if c.applied = 0 then c.storage.firstIndex - 1 else c.applied) ∧
    r.raftLog.lastIndex = c.storage.lastIndex := by
  unfold newRaft at h
  split_ifs at h
  obtain ⟨peers, -, h⟩ := exists_ok_of_bind h
  obtain ⟨r₀, hr₀, h⟩ := exists_ok_of_bind h
  obtain ⟨l, hl, ⟨⟩⟩ := exists_ok_of_bind h
  have hload : ∃ committed, r₀.raftLog = { newLog c.storage with committed }
      ∧ c.storage.firstIndex - 1 ≤ committed ∧ committed ≤ (newLog c.storage).lastIndex := by
    unfold Raft.loadHardState Raft.loadState at hr₀
    have hlast : (newLog c.storage).lastIndex = c.storage.lastIndex := rfl
    have hle : c.storage.firstIndex - 1 ≤ c.storage.lastIndex := by
      unfold MemoryStorage.firstIndex MemoryStorage.lastIndex
      omega
    split_ifs at hr₀ with hempty hrange
    · cases hr₀
      exact ⟨_, rfl, le_rfl, hlast ▸ hle⟩
    · cases hr₀
      refine ⟨_, rfl, ?_, ?_⟩
      · exact not_lt.1 fun hlt => hrange (.inl hlt)
      · exact not_lt.1 fun hlt => hrange (.inr hlt)
  obtain ⟨committed, hlog, hlo, hhi⟩ := hload
  rw [hlog] at hl
  unfold appliedTo at hl
  have hfirst : c.storage.firstIndex ≤ c.storage.firstIndex - 1 + 1 := by omega
  split_ifs at hl with hzero hrange
  · cases hl
    rw [if_pos hzero]
    exact ⟨⟨rfl, rfl, .nil _, rfl, hfirst, hlo, hhi⟩, rfl⟩
  · cases hl
    rw [if_neg hzero]
    have hin : c.storage.firstIndex - 1 ≤ c.applied ∧ c.applied ≤ committed :=
      ⟨not_lt.1 fun hlt => hrange (.inr hlt), not_lt.1 fun hlt => hrange (.inl hlt)⟩
    exact ⟨⟨rfl, rfl, .nil _, rfl, by omega, hin.2, hhi⟩, rfl⟩

theorem RaftLog.Started.append (hl : l.Started ms a) {k : ℕ} {ents : List Entry}
    (hents : NumberedFrom k ents) (h : l.append ents = .ok l') :
    l'.storage = ms ∧ l'.applied = a ∧ NumberedFrom l'.unstable.offset l'.unstable.entries
      ∧ l'.unstable.snapshot = none ∧ l'.committed = l.committed := by
  unfold RaftLog.append at h
  rcases ents with _ | ⟨e, es⟩
  · cases h
    exact ⟨hl.storage, hl.applied, hl.unstable, hl.snapshot, rfl⟩
  · simp only at h
    split_ifs at h
    obtain ⟨u, hu, ⟨⟩⟩ := exists_ok_of_bind h
    obtain ⟨hsnap, -, hnum⟩ := (Unstable.truncateAndAppend_mild _ _).of_ok hu
    exact ⟨hl.storage, hl.applied, hnum k hl.unstable hents, hsnap.trans hl.snapshot, rfl⟩

theorem Unstable.length_slice {u : Unstable} {lo hi : ℕ} {es : List Entry}
    (h : u.slice lo hi = .ok es) : es.length = hi - lo := by
  obtain ⟨_, hcheck, ⟨⟩⟩ := exists_ok_of_bind h
  unfold Unstable.mustCheckOutOfBounds at hcheck
  split_ifs at hcheck
  rw [length_take, length_drop]
  omega

theorem RaftLog.lastIndex_append {e : Entry} (h : l.append [e] = .ok l') :
    l'.lastIndex = e.index := by
  unfold append at h
  simp only at h
  split_ifs at h with hafter
  obtain ⟨u, hu, ⟨⟩⟩ := exists_ok_of_bind h
  unfold Unstable.truncateAndAppend at hu
  simp only at hu
  have hlast : ∀ {u : Unstable}, u.entries ≠ [] → u.offset + u.entries.length = e.index + 1 →
      lastIndex { l with unstable := u } = e.index := by
    intro u hne hlen
    unfold lastIndex Unstable.maybeLastIndex
    simp only
    rw [if_pos (by simpa using hne), getD_some]
    omega
  split_ifs at hu with h0 heq hlt
  · cases hu
    exact hlast (by simp) (by simp; omega)
  · cases hu
    exact hlast (by simp) rfl
  · obtain ⟨kept, hkept, hu⟩ := exists_ok_of_bind hu
    cases hu
    refine hlast (by simp) ?_
    simp [Unstable.length_slice hkept]
    omega

theorem addPeer_started {r r' : Raft} {d : Bytes} (hr : r.raftLog.Started ms a)
    (h : addPeer r d = .ok r') : r'.raftLog.Started ms a := by
  obtain ⟨l, hl, ⟨⟩⟩ := exists_ok_of_bind h
  have hnum : NumberedFrom (r.raftLog.lastIndex + 1)
      [{ type := .confChange, term := 1, index := r.raftLog.lastIndex + 1, data := some d }] := by
    intro j e he
    rcases j with _ | j
    · cases he
      rfl
    · simp at he
  obtain ⟨h1, h2, h3, h4, h5⟩ := hr.append hnum hl
  have hlast := lastIndex_append hl
  have := hr.last
  refine ⟨h1, h2, h3, h4, hr.first, ?_, ?_⟩
  · exact h5.symm ▸ hr.le
  · rw [h5, hlast]
    simp only
    omega

theorem foldl_addNode_log : ∀ (ids : List ℕ) (r : Raft),
    (ids.foldl Raft.addNode r).raftLog = r.raftLog
  | [], _ => rfl
  | id :: ids, r => by
    rw [foldl_cons, foldl_addNode_log ids, Raft.addNode]
    split_ifs <;> rfl

theorem bootEntries_numbered (peers : List (ℕ × Bytes)) :
    NumberedFrom 1 (RawNode.bootEntries peers) := by
  intro j e he
  unfold RawNode.bootEntries at he
  rw [getElem?_map, getElem?_zipIdx] at he
  obtain ⟨p, hp, rfl⟩ := map_eq_some_iff.1 he
  obtain ⟨q, -, rfl⟩ := map_eq_some_iff.1 hp
  simp only
  omega

theorem Launch.steady {la : Launch} (hms : la.config.storage.Numbered) {h : Handle}
    (hla : la.handle = .ok h) :
    Driver.Steady la.applied { handle := h } := by
  have hsteady : ∀ {h : Handle}, h.raft.raftLog.Steady →
      h.lastHardSt.commit ≤ h.raft.raftLog.committed → h.raft.raftLog.applied = la.applied →
      (∀ n, h = .node n → n.advancec = false) → Driver.Steady la.applied { handle := h } := by
    intro h hlog hhard happlied hidle
    exact ⟨hlog, hhard, fun _ => hidle, trivial, by rw [happlied]; rfl, fun f hf => by cases hf⟩
  cases la with
  | startNode c peers =>
    obtain ⟨n, hn, ⟨⟩⟩ := exists_ok_of_bind hla
    obtain ⟨r, hr, hn⟩ := exists_ok_of_bind hn
    obtain ⟨r', hr', ⟨⟩⟩ := exists_ok_of_bind hn
    obtain ⟨hst, -⟩ := newRaft_started hr
    have hpeers : Yields (fun _ => True) (fun r => r.raftLog.Started c.storage
        (Launch.startNode c peers).applied) ((peers.map (·.2)).foldlM addPeer
          (r.becomeFollower 1 none_)) := by
      refine Yields.foldlM (fun d _ r₁ hr₁ => ?_) hst
      rcases hadd : addPeer r₁ d with e | r₂
      · trivial
      · exact addPeer_started hr₁ hadd
    have hst' := hpeers.of_ok hr'
    refine hsteady ?_ (Nat.zero_le _) ?_ fun n hn => ?_
    · show Steady (((peers.map (·.1)).foldl Raft.addNode _).raftLog)
      rw [foldl_addNode_log]
      exact hst'.steady hms (hst'.le.trans hst'.last)
    · show (((peers.map (·.1)).foldl Raft.addNode _).raftLog).applied = _
      rw [foldl_addNode_log]
      exact hst'.applied
    · rw [← node.inj hn]
      rfl
  | restartNode c =>
    obtain ⟨n, hn, ⟨⟩⟩ := exists_ok_of_bind hla
    obtain ⟨r, hr, ⟨⟩⟩ := exists_ok_of_bind hn
    obtain ⟨hst, -⟩ := newRaft_started hr
    refine hsteady ?_ (Nat.zero_le _) hst.applied fun n hn => ?_
    · exact hst.steady hms hst.le
    · rw [← node.inj hn]
      rfl
  | newRawNode c peers =>
    obtain ⟨rn, hrn, ⟨⟩⟩ := exists_ok_of_bind hla
    obtain ⟨r, hr, hrn⟩ := exists_ok_of_bind hrn
    obtain ⟨hst, hlast⟩ := newRaft_started hr
    split_ifs at hrn with hzero
    · obtain ⟨r', hr', hrn⟩ := exists_ok_of_bind hrn
      cases hrn
      obtain ⟨l, hl, hr'⟩ := exists_ok_of_bind hr'
      cases hr'
      obtain ⟨h1, h2, h3, h4, h5⟩ := hst.append (bootEntries_numbered peers) hl
      -- nothing is stored, so nothing is applied
      have hbound := hst.last
      have hle := hst.le
      have hst' : l.Started c.storage (Launch.newRawNode c peers).applied := by
        refine ⟨h1, h2, h3, h4, hst.first, h5.symm ▸ hst.le, ?_⟩
        rw [h5]
        omega
      have hnone : (Launch.newRawNode c peers).applied ≤ peers.length := by
        show (if c.applied = 0 then c.storage.firstIndex - 1 else c.applied) ≤ peers.length
        omega
      refine hsteady ?_ le_rfl ?_ fun n hn => (by cases hn)
      · show Steady (((peers.map (·.1)).foldl Raft.addNode _).raftLog)
        rw [foldl_addNode_log]
        exact hst'.steady hms hnone
      · show (((peers.map (·.1)).foldl Raft.addNode _).raftLog).applied = _
        rw [foldl_addNode_log]
        exact hst'.applied
    · cases hrn
      refine hsteady ?_ le_rfl hst.applied fun n hn => (by cases hn)
      exact hst.steady hms hst.le

end Start

theorem delivers_in_order {la : Launch} (hms : la.config.storage.Numbered) {h : Handle}
    (hla : la.handle = .ok h) (evs : List Driver.Event)
    (hevs : ∀ m, Driver.Event.step m ∈ evs → m.Numbered) :
    (∀ i prevApplied committed,
        Driver.run la evs ≠ .error (.appliedOutOfRange i prevApplied committed))
      ∧ ∀ d, Driver.run la evs = .ok d → InOrder (la.applied + 1) d.delivered
        ∧ ((d.delivered.flatMap Ready.committedEntries).map Entry.index).Pairwise (· < ·) := by
  have hrun : Yields Other (Driver.Steady la.applied) (Driver.run la evs) := by
    unfold Driver.run
    rw [hla]
    refine Yields.foldlM (fun ev hev d hd => hd.act fun m heq => ?_) (la.steady hms hla)
    exact hevs m (heq ▸ hev)
  refine ⟨fun i prevApplied committed heq => ?_, fun d hd => ?_⟩
  · rw [heq] at hrun
    cases hrun
  · have hsteady := hrun.of_ok hd
    exact ⟨hsteady.order, hsteady.order.pairwise⟩

/-- A node that is a cluster of its own. -/
def Launch.single : Launch := .startNode
  { id := 1
    electionTick := 10
    heartbeatTick := 1
    storage := {}
    maxSizePerMsg := noLimit
    maxInflightMsgs := 256 } [(1, [7])]

/-- It elects itself and takes a proposal, with a message of another node between. -/
theorem delivers_in_order_single : ∃ h d, Launch.single.handle = .ok h
    ∧ Driver.run .single [.ready, .call .campaign, .save, .advance, .ready,
      .step { type := .app, from_ := 2, term := 1 }, .call (.propose [5]), .save, .advance, .ready,
      .save, .advance] = .ok d
    ∧ d.delivered.length = 3 ∧ InOrder 1 d.delivered
    ∧ ((d.delivered.flatMap Ready.committedEntries).map Entry.index).Pairwise (· < ·) := by
  obtain ⟨h, hh, -⟩ : ∃ h, Launch.single.handle = .ok h ∧ True := by decide +kernel
  obtain ⟨d, hd, hlen⟩ : ∃ d, Driver.run .single [.ready, .call .campaign, .save, .advance, .ready,
      .step { type := .app, from_ := 2, term := 1 }, .call (.propose [5]), .save, .advance, .ready,
      .save, .advance] = .ok d ∧ d.delivered.length = 3 := by decide +kernel
  refine ⟨h, d, hh, hd, hlen, ?_⟩
  have hms : Launch.single.config.storage.Numbered := .nil _
  refine (delivers_in_order hms hh _ fun m hm => ?_).2 d hd
  simp [Driver.Event.step.injEq] at hm
  obtain rfl := hm
  exact fun _ => .nil _

end EtcdCompat
