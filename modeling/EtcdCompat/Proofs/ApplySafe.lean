import EtcdCompat.Proofs.LeaseAttach

/-!
# Requests that stop the server

With the item sets in step with the contents only ranges stop the server: one in an order by a
target that has no sorter, and within a transaction one the store refuses although
`checkRequestRange` let it pass.
-/

namespace EtcdCompat

open List History

/-- What of a state decides whether an entry stops the server. -/
structure View where
  main : ℤ
  compactRev : ℤ
  live : Bytes → Option KeyValue
  known : ℤ → Bool
  -- the entry is not above the consistent index
  skip : Bool

/-- A request of a transaction writes, given the live keys before it. -/
def RequestUnion.Writes (live : Bytes → Option KeyValue) : RequestUnion → Prop
  | .requestPut (some _) => True
  | .requestDeleteRange (some dr) => ∃ k, InRange dr.key (gteRange dr.rangeEnd) k ∧ (live k).isSome
  | _ => False

namespace View

def compareOk (v : View) (c : Compare) : Bool :=
  v.compactRev < v.main && compareKV c (v.live c.key)

/-- The requests a transaction executes. -/
def branch (v : View) (txn : TxnRequest) : List RequestUnion :=
  if txn.compare.all v.compareOk then txn.success else txn.failure

def leaseKnown (v : View) : RequestUnion → Bool
  | .requestPut (some p) => v.known p.lease
  | _ => true

def rangeAllowed (v : View) : RequestUnion → Bool
  | .requestRange (some r) => r.revision = 0 || (r.revision ≤ v.main && v.compactRev ≤ r.revision)
  | _ => true

/-- A range of a transaction stops the server, after the requests `pre`. -/
def StopsAt (v : View) (pre : List RequestUnion) (r : RangeRequest) : Prop :=
  r.unsortable ∨ v.skip = false ∧ (0 < r.revision ∧ r.revision = v.compactRev
    ∨ r.revision = 0 ∧ v.main ≤ v.compactRev ∧ ∀ req ∈ pre, ¬ req.Writes v.live)

def Stops (v : View) : Request → Prop
  | .range r => r.unsortable ∧ r.revision ≤ v.main
    ∧ v.compactRev < if r.revision ≤ 0 then v.main else r.revision
  | .txn txn => (v.branch txn).all v.leaseKnown ∧ (v.branch txn).all v.rangeAllowed
    ∧ ∃ pre r post, v.branch txn = pre ++ .requestRange (some r) :: post ∧ v.StopsAt pre r
  | _ => False

end View

theorem Contents.within_eq_nil_iff (m : Contents) (key : Bytes) (stop : Option Bytes) :
    m.within key stop = [] ↔ ∀ k, InRange key stop k → m.find k = none := by
  simp only [Contents.within, filter_eq_nil_iff, decide_eq_true_eq]
  constructor
  · intro hno k hk
    refine Option.eq_none_iff_forall_ne_some.2 fun kv hf => ?_
    exact hno (k, kv) (OrdMap.mem_entries.2 hf) hk
  · intro hno e he hk
    have hf := OrdMap.find_of_mem he
    rw [hno e.1 hk] at hf
    cases hf

namespace Machine

variable {m : Machine} {h : History} {d : ℤ → Bool} {c : ℤ} {skip : Bool}
  {r : RangeRequest} {h' : History} {req : RequestUnion}

theorem union_range_stops (c : ℤ) (skip : Bool) (h : History) (r : RangeRequest) :
    (∃ e, union c skip h (.requestRange (some r)) = .error e)
      ↔ r.unsortable ∨ skip = false ∧ (h.refused c r.revision).isSome := by
  simp only [union, range]
  rcases skip with _ | _
  · rcases h.refused c r.revision with _ | e
    · by_cases hu : r.unsortable <;> simp [hu, bind, Except.bind]
    · simp [bind, Except.bind]
  · by_cases hu : r.unsortable <;> simp [hu, bind, Except.bind]

theorem union_range_ok (hok : union c skip h (.requestRange (some r)) = .ok h') : h' = h := by
  simp only [union] at hok
  rcases hr : range c skip h r with e | _ | e
  · rw [hr] at hok
    cases hok
  · rw [hr] at hok
    cases hok
    rfl
  · rw [hr] at hok
    cases hok

/-- A range `checkRequestRange` lets pass and the store refuses. -/
theorem refused_iff (hw : h.WF) (hc : c ≤ h.main)
    (hr : r.revision = 0 ∨ r.revision ≤ h.main ∧ c ≤ r.revision) :
    (h.refused c r.revision).isSome ↔ 0 < r.revision ∧ r.revision = c
      ∨ r.revision = 0 ∧ h.main ≤ c ∧ h.sub = 0 := by
  have hmain := hw.main_pos
  have hsub := hw.sub_nonneg
  unfold refused curRev
  split_ifs <;> simp <;> omega

theorem union_write (hw : h.WF) (ho : h.Owned m.holds) (hk : m.leaseKnown req)
    (hreq : ∀ r, req ≠ .requestRange (some r)) :
    ∃ h', union c false h req = .ok h' ∧ h'.Owned m.holds ∧ Extends h h'
      ∧ (h'.sub = h.sub ↔ ¬ req.Writes h.contents.find) := by
  have hself : ∃ h', Except.ok h = (Except.ok h' : Except Fatal History) ∧ h'.Owned m.holds
      ∧ Extends h h' ∧ h'.sub = h.sub := ⟨h, rfl, ho, hw.extends_self, rfl⟩
  rcases req with (_ | r) | (_ | p) | (_ | dr) | _
  · simpa [union, RequestUnion.Writes] using hself
  · exact absurd rfl (hreq r)
  · simpa [union, RequestUnion.Writes] using hself
  · obtain ⟨le, hput, ho'⟩ := ho.put p.key p.value (known_iff.1 hk)
    have hext := hw.extends_put p.key p.value p.lease
    rw [hput] at hext
    refine ⟨_, hput, ho', hext.1, ?_⟩
    simp [write, RequestUnion.Writes]
  · simpa [union, RequestUnion.Writes] using hself
  · obtain ⟨h', hdel, ho', -⟩ := ho.deleteRange dr.key (gteRange dr.rangeEnd)
    have hext := extends_deleteKeys
      ((h.contents.within dr.key (gteRange dr.rangeEnd)).map (·.1)) hw
    rw [show foldlM delete h _ = .ok h' from hdel] at hext
    refine ⟨h', hdel, ho', hext.1, ?_⟩
    rw [hext.2.2, length_map, add_eq_left, Int.natCast_eq_zero, length_eq_zero_iff,
      Contents.within_eq_nil_iff]
    simp [RequestUnion.Writes]
  · simpa [union, RequestUnion.Writes] using hself

theorem union_skips (hreq : ∀ r, req ≠ .requestRange (some r)) : union c true h req = .ok h := by
  rcases req with (_ | r) | (_ | p) | (_ | dr) | _
  · rfl
  · exact absurd rfl (hreq r)
  all_goals rfl

theorem union_returns (hw : h.WF) (ho : h.Owned m.holds) (skip : Bool) (hk : m.leaseKnown req)
    (hreq : ∀ r, req ≠ .requestRange (some r)) : ∃ h', union c skip h req = .ok h' := by
  rcases skip with _ | _
  · obtain ⟨h', hok, -⟩ := union_write (c := c) hw ho hk hreq
    exact ⟨h', hok⟩
  · exact ⟨h, union_skips hreq⟩

/-- A range of a transaction stops it, after requests that all returned. -/
def StopsAt (c : ℤ) (skip : Bool) (h : History) (pre : List RequestUnion) (r : RangeRequest) :
    Prop :=
  r.unsortable ∨ skip = false ∧ (0 < r.revision ∧ r.revision = c
    ∨ r.revision = 0 ∧ h.main ≤ c ∧ h.sub = 0 ∧ ∀ req ∈ pre, ¬ req.Writes h.contents.find)

theorem stopsAt_nil (hw : h.WF) (hc : c ≤ h.main)
    (hr : r.revision = 0 ∨ r.revision ≤ h.main ∧ c ≤ r.revision) :
    StopsAt c skip h [] r ↔ ∃ e, union c skip h (.requestRange (some r)) = .error e := by
  rw [union_range_stops, refused_iff hw hc hr]
  simp [StopsAt]

theorem stopsAt_cons (hw : h.WF) (hext : Extends h h')
    (hsub : skip = false → (h'.sub = h.sub ↔ ¬ req.Writes h.contents.find))
    (pre : List RequestUnion) (r : RangeRequest) :
    StopsAt c skip h (req :: pre) r ↔ StopsAt c skip h' pre r := by
  refine or_congr Iff.rfl (and_congr_right fun hskip => or_congr Iff.rfl (and_congr_right fun _ =>
    ?_))
  rw [hext.main]
  refine and_congr_right fun _ => ?_
  have h0 := hw.sub_nonneg
  have hle := hext.sub
  constructor
  · rintro ⟨hz, hpre⟩
    rw [forall_mem_cons] at hpre
    have heq := (hsub hskip).2 hpre.1
    rw [hext.same heq]
    exact ⟨hz, hpre.2⟩
  · rintro ⟨hz, hpre⟩
    have heq : h'.sub = h.sub := by omega
    rw [hext.same heq] at hpre
    exact ⟨by omega, forall_mem_cons.2 ⟨(hsub hskip).1 heq, hpre⟩⟩

theorem union_ok (hw : h.WF) (ho : h.Owned m.holds) (hk : m.leaseKnown req)
    (hok : union c skip h req = .ok h') : h'.Owned m.holds ∧ Extends h h'
      ∧ (skip = false → (h'.sub = h.sub ↔ ¬ req.Writes h.contents.find)) := by
  by_cases hreq : ∀ r, req ≠ .requestRange (some r)
  · rcases skip with _ | _
    · obtain ⟨h₁, hun, ho₁, hext, hsub⟩ := union_write (c := c) hw ho hk hreq
      rw [hun] at hok
      cases hok
      exact ⟨ho₁, hext, fun _ => hsub⟩
    · rw [union_skips hreq] at hok
      cases hok
      exact ⟨ho, hw.extends_self, fun hs => by cases hs⟩
  · push Not at hreq
    obtain ⟨r, rfl⟩ := hreq
    rw [union_range_ok hok]
    exact ⟨ho, hw.extends_self, fun _ => by simp [RequestUnion.Writes]⟩

theorem unions_stop_iff : ∀ (reqs : List RequestUnion) {h : History}, h.WF → h.Owned m.holds →
    c ≤ h.main → (∀ req ∈ reqs, m.leaseKnown req) →
    (∀ r, .requestRange (some r) ∈ reqs → r.revision = 0 ∨ r.revision ≤ h.main ∧ c ≤ r.revision) →
    ((∃ e, reqs.foldlM (union c skip) h = .error e)
      ↔ ∃ pre r post, reqs = pre ++ .requestRange (some r) :: post ∧ StopsAt c skip h pre r)
  | [], h, _, _, _, _, _ => by
    constructor
    · rintro ⟨e, he⟩
      cases he
    · rintro ⟨pre, r, post, heq, -⟩
      simp at heq
  | req :: reqs, h, hw, ho, hc, hk, hr => by
    rw [foldlM_cons]
    rw [forall_mem_cons] at hk
    rcases hun : union c skip h req with e | h'
    · -- only a range stops, and it is the first
      have hrange : ∃ r, req = .requestRange (some r) := by
        by_contra hno
        push Not at hno
        obtain ⟨h₁, hok⟩ := union_returns (c := c) hw ho skip hk.1 hno
        rw [hok] at hun
        cases hun
      obtain ⟨r, rfl⟩ := hrange
      refine ⟨fun _ => ⟨[], r, reqs, rfl, ?_⟩, fun _ => ⟨e, rfl⟩⟩
      exact (stopsAt_nil hw hc (hr r mem_cons_self)).2 ⟨e, hun⟩
    · obtain ⟨ho', hext, hsub⟩ := union_ok hw ho hk.1 hun
      have ih := unions_stop_iff reqs hext.wf ho' (by rw [hext.main]; exact hc) hk.2 fun r hmem =>
        by
        rw [hext.main]
        exact hr r (mem_cons_of_mem _ hmem)
      refine Iff.trans ih ⟨?_, ?_⟩
      · rintro ⟨pre, r, post, rfl, hs⟩
        exact ⟨req :: pre, r, post, rfl, (stopsAt_cons hw hext hsub pre r).2 hs⟩
      · rintro ⟨_ | ⟨req', pre⟩, r, post, heq, hs⟩
        · obtain ⟨rfl, -⟩ := heq
          obtain ⟨e, he⟩ := (stopsAt_nil hw hc (hr r mem_cons_self)).1 hs
          rw [he] at hun
          cases hun
        · obtain ⟨rfl, rfl⟩ := heq
          exact ⟨pre, r, post, rfl, (stopsAt_cons hw hext hsub pre r).1 hs⟩

def view (m : Machine) (index : ℕ) : View where
  main := m.history.main
  compactRev := m.compactRev
  live := m.history.contents.find
  known := m.known
  skip := index ≤ m.consistentIndex

variable {index : ℕ} {order : List Bytes → List Bytes}

theorem transact_stops_iff (m : Machine) (index : ℕ) (f : Bool → History → Except Fatal History) :
    (∃ e, m.transact index f = .error e)
      ↔ ∃ e, f (m.view index).skip m.history = .error e := by
  unfold transact view
  split_ifs with hskip
  · rw [decide_eq_true hskip]
    rcases f true m.history with e | h <;> simp [bind, Except.bind]
  · rw [decide_eq_false hskip]
    rcases f false m.history with e | h <;> simp [bind, Except.bind]

theorem branch_eq (hw : m.history.WF) (hsub : m.history.sub = 0) (txn : TxnRequest) :
    m.branch txn = (m.view index).branch txn := by
  have hmain := hw.main_pos
  have hok : m.compareOk = (m.view index).compareOk := by
    funext c
    simp only [compareOk, View.compareOk, view, refused, curRev, hsub]
    by_cases hc : m.compactRev < m.history.main
    · simp [hc, show ¬ m.history.main < 0 by omega]
    · simp [hc, show ¬ m.history.main < 0 by omega, show m.history.main ≤ m.compactRev by omega]
  unfold branch View.branch
  rw [hok]

theorem leaseKnown_eq : m.leaseKnown = (m.view index).leaseKnown := by
  funext req
  rcases req with (_ | r) | (_ | p) | (_ | dr) | _ <;> rfl

theorem rangeAllowed_eq : m.rangeAllowed = (m.view index).rangeAllowed := by
  funext req
  rcases req with (_ | r) | (_ | p) | (_ | dr) | _ <;> rfl

theorem transact_union_returns (hw : m.history.WF) (ho : m.Owned) (hk : m.leaseKnown req)
    (hreq : ∀ r, req ≠ .requestRange (some r)) :
    ¬ ∃ e, m.transact index (fun skip h => union c skip h req) = .error e := by
  rw [transact_stops_iff]
  obtain ⟨h', hok⟩ := union_returns (c := c) hw ho (m.view index).skip hk hreq
  rintro ⟨e, he⟩
  rw [hok] at he
  cases he

theorem range_stops_iff (hsub : m.history.sub = 0) (r : RangeRequest) :
    (∃ e, m.apply order index (.range r) = .error e) ↔ (m.view index).Stops (.range r) := by
  have hnone : m.history.refused m.compactRev r.revision = none ↔ r.revision ≤ m.history.main
      ∧ m.compactRev < if r.revision ≤ 0 then m.history.main else r.revision := by
    unfold refused curRev
    split_ifs <;> simp <;> omega
  simp only [apply, range, View.Stops, view, ← hnone]
  rcases m.history.refused m.compactRev r.revision with _ | e
  · by_cases hu : r.unsortable <;> simp [hu, bind, Except.bind]
  · simp [bind, Except.bind]

theorem apply_stops_iff (ho : m.Owned) (hrd : m.rd = .watchable) (hw : m.history.WF)
    (hsub : m.history.sub = 0) (hc : m.compactRev ≤ m.history.main)
    {order : List Bytes → List Bytes} (hord : ∀ ks, (order ks).Perm ks) (index : ℕ) (r : Request) :
    (∃ e, m.apply order index r = .error e) ↔ (m.view index).Stops r := by
  rcases r with r | p | dr | txn | rev | ⟨id, ttl⟩ | id
  · exact range_stops_iff hsub r
  · simp only [apply, View.Stops, iff_false]
    split_ifs with hk
    · exact transact_union_returns hw ho hk fun r hr => by cases hr
    · rintro ⟨e, he⟩
      cases he
  · simp only [apply, View.Stops, iff_false]
    exact transact_union_returns hw ho rfl fun r hr => by cases hr
  · simp only [apply, View.Stops, ← branch_eq hw hsub, ← leaseKnown_eq, ← rangeAllowed_eq]
    split_ifs with hk
    · rw [transact_stops_iff, unions_stop_iff (m := m) _ hw ho hc (all_eq_true.1 hk.1)]
      · simp [hk, StopsAt, View.StopsAt, view, hsub]
      · intro r hmem
        simpa [rangeAllowed] using all_eq_true.1 hk.2 _ hmem
    · refine iff_of_false ?_ fun hstop => hk ⟨hstop.1, hstop.2.1⟩
      rintro ⟨e, he⟩
      cases he
  · simp [apply, View.Stops]
  · simp [apply, View.Stops]
  · obtain ⟨m', hrev, -⟩ := ho.revoke hrd hord index id
    simp [apply, View.Stops, hrev]

end Machine

def EtcdServer.view (s : EtcdServer) (index : ℕ) : View where
  main := s.kv.store.currentRev.main
  compactRev := s.kv.store.compactMainRev
  live := s.kv.store.current
  known lease := lease = NoLease || (s.lessor.lookup lease).isSome
  skip := index ≤ s.kv.consistentIndex

theorem Refines.view {fresh : Prop} {s : EtcdServer} {m : Machine} (hr : Refines fresh s m)
    (index : ℕ) :
    s.view index = m.view index := by
  have hf := hr.serves.follows
  unfold EtcdServer.view Machine.view
  rw [show s.kv.store.currentRev.main = s.kv.store.txnBegin.currentRev.main from rfl, hf.cur,
    show s.kv.store.compactMainRev = m.compactRev from hf.compactRev, hr.serves.index,
    funext hr.current]
  simp only [hr.lookup]
  rfl

/-- In every state a run reaches, an entry stops the server exactly where one of its ranges
does. -/
theorem applyV3Request_stops_iff (rt : Runtime) {evs : List EtcdServer.Event} {s : EtcdServer}
    (hrun : EtcdServer.run rt evs = .ok s) (index : ℕ) (r : Request) :
    (∃ e, s.applyV3Request rt index r = .error e) ↔ (s.view index).Stops r := by
  obtain ⟨m, -, hr, ho, hrd⟩ := run_reaches hrun
  have hf := hr.serves.follows
  have hc : m.compactRev ≤ m.history.main := by
    obtain ⟨finished, hs⟩ := hr.sim
    rw [← hf.compactRev]
    exact hs.compacted
  rw [hr.view, ← Machine.apply_stops_iff ho hrd hf.wf hr.serves.sub hc (rt.order_perm index)]
  exact (hr.applyV3Request rt index r).stops_iff

/-- A range in ascending order of no known target. -/
theorem applyV3Request_stops_unsorted : ∃ s,
    EtcdServer.run .stable [.entry 1 (.put { key := [97] })] = .ok s
      ∧ ∃ e, s.applyV3Request .stable 2
        (.range { key := [97], sortOrder := sortAscend, sortTarget := 5 }) = .error e := by
  obtain ⟨s, hrun, hrev, hcompact⟩ : ∃ s,
      EtcdServer.run .stable [.entry 1 (.put { key := [97] })] = .ok s
      ∧ 0 ≤ s.kv.store.currentRev.main
      ∧ s.kv.store.compactMainRev < s.kv.store.currentRev.main := by decide +kernel
  exact ⟨s, hrun, (applyV3Request_stops_iff .stable hrun 2 _).2 ⟨rfl, hrev, hcompact⟩⟩

/-- The entry passes the checks and stops the server a run has brought there. -/
def StopsAfter (evs : List EtcdServer.Event) (r : Request) (e : Fatal) : Prop :=
  errorOf (V3rpc.check r) = none ∧ errorOf (EtcdServer.run .stable evs) = none
    ∧ errorOf (EtcdServer.run .stable evs >>= fun s => s.applyV3Request .stable 4 r) = some e

/-- A sort target without a sorter; in a transaction, a range at the revision of the last
compaction, and one at the current revision, which was compacted. -/
theorem applyV3Request_stops :
    StopsAfter [.entry 1 (.put { key := [97] })]
      (.range { key := [97], sortOrder := sortAscend, sortTarget := 5 }) .nilSorter
    ∧ StopsAfter [.entry 1 (.put { key := [97] }), .entry 2 (.put { key := [97] }),
        .entry 3 (.compaction 2)]
      (.txn { success := [.requestRange (some { key := [97], revision := 2 })] })
      .unexpectedTxnError
    ∧ StopsAfter [.entry 1 (.put { key := [97] }), .entry 2 (.compaction 2)]
      (.txn { success := [.requestRange (some { key := [97] })] }) .unexpectedTxnError := by
  unfold StopsAfter
  decide +kernel

end EtcdCompat
