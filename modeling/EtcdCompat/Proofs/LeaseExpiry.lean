import EtcdCompat.Proofs.LeasePersist

/-!
# When a lease expires

A primary lessor holds every lease with the expiry its last refresh set: the clock then read, and a
`Duration` of the extension and the TTL. It covers the TTL just when the extension is not negative
and the sum fits. A lessor that is not primary has set every expiry to `forever`.
-/

namespace EtcdCompat

open OrdMap

/-- The duration a refresh adds covers the TTL just when nothing of it wraps. -/
theorem le_wrapInt64_iff {extend ttl : ℤ} (he : IsInt64 extend) (hmin : Lease.minLeaseTTL ≤ ttl) :
    second * ttl ≤ wrapInt64 (extend + wrapInt64 (second * ttl))
      ↔ 0 ≤ extend ∧ extend + second * ttl ≤ maxInt64 := by
  unfold IsInt64 minInt64 maxInt64 at he
  unfold Lease.minLeaseTTL at hmin
  unfold wrapInt64 second minInt64 maxInt64
  omega

theorem timeSub_le_zero_iff {t u : ℤ} : timeSub t u ≤ 0 ↔ t ≤ u := by
  unfold timeSub minInt64 maxInt64
  omega

namespace Lease.Lessor

variable {le : Lessor} {id : ℤ} {l : Lease} {primary : Bool} {t : Tenure}

/-- The TTL a lease was granted with, the clock at its last refresh by a primary lessor, and the
extension that refresh was given. -/
structure Tenure where
  ttl : ℤ
  last : Option (ℤ × ℤ)

def tenureStep (st : Lessor × OrdMap ℤ Tenure) (c : Call) : Lessor × OrdMap ℤ Tenure :=
  (st.1.step c, match c with
    | .grant now id ttl => match st.1.grant now id ttl with
      | .ok _ => st.2.insert id ⟨ttl, if st.1.primary then some (now, 0) else none⟩
      | .error _ => st.2
    | .revoke id => match st.1.revoke id with
      | .ok _ => st.2.erase id
      | .error _ => st.2
    | .renew now id => match st.1.renew now id, st.2.find id with
      | .ok _, some t => st.2.insert id { t with last := some (now, 0) }
      | _, _ => st.2
    | .promote clock extend => st.2.mapVal fun id t => { t with last := some (clock id, extend) }
    | .demote => st.2)

def timed (b : OrdMap Bytes LeasePB) (calls : List Call) : Lessor × OrdMap ℤ Tenure :=
  calls.foldl tenureStep (newLessor b, (newLessor b).leaseMap.mapVal fun _ l => ⟨l.ttl, none⟩)

def Call.Int64Extend : Call → Prop
  | .promote _ extend => IsInt64 extend
  | _ => True

/-- The expiry of a lease is that of its last refresh, or `forever`. -/
def Expires (primary : Bool) (l : Lease) (t : Tenure) : Prop :=
  if primary then ∃ now extend, t.last = some (now, extend) ∧ IsInt64 extend
    ∧ l.expiry = now + wrapInt64 (extend + wrapInt64 (second * max t.ttl minLeaseTTL))
  else l.expiry = foreverTime

/-- A lease and its tenure agree. -/
structure OnTime (primary : Bool) (id : ℤ) (l : Lease) (t : Tenure) : Prop where
  id_eq : l.id = id
  ttl : max l.ttl minLeaseTTL = max t.ttl minLeaseTTL
  expires : Expires primary l t

/-- Every lease held has a tenure it agrees with, and no other has one. -/
def Timed (le : Lessor) (ten : OrdMap ℤ Tenure) : Prop :=
  ∀ id, (le.leaseMap.find id = none ∧ ten.find id = none)
    ∨ ∃ l t, le.leaseMap.find id = some l ∧ ten.find id = some t ∧ OnTime le.primary id l t

theorem OnTime.refresh (h : OnTime primary id l t) (now : ℤ) {extend : ℤ} (he : IsInt64 extend) :
    OnTime true id (l.refresh now extend) { t with last := some (now, extend) } := by
  refine ⟨h.id_eq, ?_, now, extend, rfl, he, ?_⟩
  · rw [refresh_ttl, h.ttl]
    exact max_eq_left (le_max_right _ _)
  · rw [← h.ttl, ← refresh_ttl l now extend]
    rfl

theorem OnTime.forever (h : OnTime primary id l t) : OnTime false id l.forever t := by
  refine ⟨h.id_eq, ?_, rfl⟩
  rw [forever_ttl, h.ttl]
  exact max_eq_left (le_max_right _ _)

theorem Timed.step {st : Lessor × OrdMap ℤ Tenure} (h : Timed st.1 st.2) {c : Call}
    (hc : c.Int64Extend) : Timed (tenureStep st c).1 (tenureStep st c).2 := by
  have hzero : IsInt64 0 := by decide
  obtain ⟨le, ten⟩ := st
  rcases c with ⟨now, id, ttl⟩ | id | ⟨now, id⟩ | ⟨clock, extend⟩ | _
  · rcases hg : le.grant now id ttl with e | ⟨le', l⟩
    · simp only [tenureStep, Lessor.step, hg, Except.toOption]
      exact h
    · obtain ⟨-, -, hid, httl, hl, rfl⟩ := grant_ok hg
      simp [tenureStep, Lessor.step, hg, Except.toOption]
      intro id'
      simp only [find_insert]
      split_ifs with heq hp
      · refine .inr ⟨_, _, rfl, rfl, hid.trans heq, ?_, ?_⟩
        · rw [httl]
          exact max_eq_left (le_max_right _ _)
        · rw [hp, if_pos rfl] at hl
          simp only [hp]
          refine ⟨now, 0, rfl, hzero, ?_⟩
          rw [hl, show max ttl minLeaseTTL = _ from (refresh_ttl ⟨id, ttl, 0⟩ now 0).symm]
          rfl
      · refine .inr ⟨_, _, rfl, rfl, hid.trans heq, ?_, ?_⟩
        · rw [httl]
          exact max_eq_left (le_max_right _ _)
        · rw [if_neg hp] at hl
          simp only [hp]
          rw [hl]
          rfl
      · exact h id'
  · rcases hr : le.revoke id with e | le'
    · simp only [tenureStep, Lessor.step, hr, Except.toOption]
      exact h
    · obtain ⟨l, hl, rfl⟩ := revoke_ok hr
      simp [tenureStep, Lessor.step, hr, Except.toOption]
      rcases h id with ⟨hn, -⟩ | ⟨l', t, hl', -, hon⟩
      · rw [hl] at hn
        cases hn
      · rw [hl, Option.some.injEq] at hl'
        obtain rfl := hl'
        obtain rfl := hon.id_eq
        intro id'
        simp only [find_erase]
        split_ifs
        · exact .inl ⟨rfl, rfl⟩
        · exact h id'
  · rcases hr : le.renew now id with e | ⟨le', ttl'⟩
    · simp only [tenureStep, Lessor.step, hr, Except.toOption]
      exact h
    · obtain ⟨hp, l, hl, rfl⟩ := renew_ok hr
      rcases h id with ⟨hn, -⟩ | ⟨l', t, hl', ht, hon⟩
      · rw [hl] at hn
        cases hn
      · rw [hl, Option.some.injEq] at hl'
        obtain rfl := hl'
        simp [tenureStep, Lessor.step, hr, ht, Except.toOption]
        intro id'
        simp only [find_insert]
        split_ifs with heq
        · subst heq
          rw [hp]
          exact .inr ⟨_, _, rfl, rfl, hon.refresh now hzero⟩
        · exact h id'
  · intro id
    simp only [tenureStep, Lessor.step, promote, find_mapVal]
    rcases h id with ⟨hl, ht⟩ | ⟨l, t, hl, ht, hon⟩
    · rw [hl, ht]
      exact .inl ⟨rfl, rfl⟩
    · rw [hl, ht]
      exact .inr ⟨_, _, rfl, rfl, hon.refresh (clock id) hc⟩
  · intro id
    simp only [tenureStep, Lessor.step, demote, find_mapVal]
    rcases h id with ⟨hl, ht⟩ | ⟨l, t, hl, ht, hon⟩
    · rw [hl, ht]
      exact .inl ⟨rfl, rfl⟩
    · rw [hl, ht]
      exact .inr ⟨_, _, rfl, rfl, hon.forever⟩

theorem Timed.calls : ∀ {calls : List Call} {st : Lessor × OrdMap ℤ Tenure}, Timed st.1 st.2 →
    (∀ c ∈ calls, c.Int64Extend) →
    Timed (calls.foldl tenureStep st).1 (calls.foldl tenureStep st).2
  | [], _, h, _ => h
  | _ :: calls, _, h, hc =>
    have hc := List.forall_mem_cons.1 hc
    @Timed.calls calls _ (h.step hc.1) hc.2

theorem newLessor_lease {b : OrdMap Bytes LeasePB} (hl : (newLessor b).leaseMap.find id = some l) :
    l.id = id ∧ l.expiry = foreverTime := by
  unfold newLessor initAndRecover at hl
  generalize (b.slice (int64ToBytes 0) (int64ToBytes maxInt64)).map (·.2) = vs at hl
  have hall : ∀ (vs : List LeasePB) (m : OrdMap ℤ Lease),
      (∀ l, m.find id = some l → l.id = id ∧ l.expiry = foreverTime) →
      ∀ l, (vs.foldl (fun m v => m.insert v.id ⟨v.id, v.ttl, foreverTime⟩) m).find id = some l →
        l.id = id ∧ l.expiry = foreverTime := by
    intro vs
    induction vs with
    | nil => exact fun _ hm => hm
    | cons v vs ih =>
      intro m hm
      refine ih _ fun l hl => ?_
      rw [find_insert] at hl
      split_ifs at hl with heq
      · rw [← Option.some.inj hl]
        exact ⟨heq, rfl⟩
      · exact hm l hl
  exact hall vs .empty (by simp) l hl

theorem timed_timed (b : OrdMap Bytes LeasePB) {calls : List Call}
    (hc : ∀ c ∈ calls, c.Int64Extend) : Timed (timed b calls).1 (timed b calls).2 := by
  refine Timed.calls (fun id => ?_) hc
  simp only [find_mapVal]
  rcases hl : (newLessor b).leaseMap.find id with _ | l
  · exact .inl ⟨rfl, rfl⟩
  · obtain ⟨hid, hexp⟩ := newLessor_lease hl
    exact .inr ⟨l, _, rfl, rfl, hid, rfl, hexp⟩

theorem mem_findExpiredLeases (h : ∀ id l, le.leaseMap.find id = some l → l.id = id)
    (hl : le.leaseMap.find id = some l) (now : ℤ) :
    id ∈ (le.findExpiredLeases now).map (·.id) ↔ l.expiry ≤ now := by
  unfold findExpiredLeases
  simp only [List.mem_map, List.mem_filter, decide_eq_true_eq, timeSub_le_zero_iff]
  constructor
  · rintro ⟨l', ⟨⟨e, he, rfl⟩, hexp⟩, hid⟩
    have hf := find_of_mem he
    rw [← h _ _ hf, hid, hl, Option.some.injEq] at hf
    rw [hf]
    exact hexp
  · exact fun hexp => ⟨l, ⟨⟨(id, l), mem_entries.2 hl, rfl⟩, hexp⟩, h id l hl⟩

theorem not_expired_early_iff (b : OrdMap Bytes LeasePB) {calls : List Call}
    (hc : ∀ c ∈ calls, c.Int64Extend) {id : ℤ} {t : Tenure} {last extend : ℤ}
    (ht : (timed b calls).2.find id = some t) (hlast : t.last = some (last, extend)) :
    ((timed b calls).1.primary = true →
      ((∀ now, now < last + second * max t.ttl minLeaseTTL →
          id ∉ ((timed b calls).1.findExpiredLeases now).map (·.id))
        ↔ 0 ≤ extend ∧ extend + second * max t.ttl minLeaseTTL ≤ maxInt64))
    ∧ ((timed b calls).1.primary = false → ∀ now, now < foreverTime →
      id ∉ ((timed b calls).1.findExpiredLeases now).map (·.id)) := by
  have htimed := timed_timed b hc
  have hids : ∀ id l, (timed b calls).1.leaseMap.find id = some l → l.id = id := by
    intro id l hl
    rcases htimed id with ⟨hn, -⟩ | ⟨l', t, hl', -, hon⟩
    · rw [hl] at hn
      cases hn
    · rw [hl, Option.some.injEq] at hl'
      rw [hl']
      exact hon.id_eq
  rcases htimed id with ⟨-, hn⟩ | ⟨l, t', hl, ht', hon⟩
  · rw [ht] at hn
    cases hn
  rw [ht, Option.some.injEq] at ht'
  obtain rfl := ht'
  have hexp := hon.expires
  unfold Expires at hexp
  simp [mem_findExpiredLeases hids hl]
  refine ⟨fun hp => ?_, fun hp now hnow => ?_⟩
  · rw [hp, if_pos rfl] at hexp
    obtain ⟨now, extend', hlast', hint, hexp⟩ := hexp
    rw [hlast, Option.some.injEq, Prod.mk.injEq] at hlast'
    obtain ⟨rfl, rfl⟩ := hlast'
    rw [hexp, ← le_wrapInt64_iff hint (le_max_right t.ttl minLeaseTTL)]
    constructor
    · intro hall
      by_contra hlt
      have := hall (last + wrapInt64 (extend + wrapInt64 (second * max t.ttl minLeaseTTL)))
        (by omega)
      omega
    · intro hle now hnow
      omega
  · rw [hp, if_neg (by simp)] at hexp
    rw [hexp]
    exact hnow

/-- A lease granted by a primary lessor and renewed once. -/
theorem not_expired_early_renewed :
    (timed .empty [.promote (fun _ => 0) 0, .grant 1000000000 1 10,
      .renew 3000000000 1]).2.find 1 = some ⟨10, some (3000000000, 0)⟩
    ∧ ∀ now, now < 3000000000 + second * 10 →
      1 ∉ ((timed .empty [.promote (fun _ => 0) 0, .grant 1000000000 1 10,
        .renew 3000000000 1]).1.findExpiredLeases now).map (·.id) := by
  have heval : (timed .empty [.promote (fun _ => 0) 0, .grant 1000000000 1 10,
      .renew 3000000000 1]).2.find 1 = some ⟨10, some (3000000000, 0)⟩ := by
    rfl
  refine ⟨heval, ((not_expired_early_iff .empty (fun c hc => ?_) heval rfl).1 rfl).2 (by decide)⟩
  simp at hc
  rcases hc with rfl | rfl | rfl
  · exact (by decide : IsInt64 0)
  · exact trivial
  · exact trivial

/-- A TTL whose nanoseconds are no `int64`: the lease is expired the moment it is granted. -/
theorem expired_when_granted :
    (timed .empty [.promote (fun _ => 0) 0, .grant 1000000000 1 9223372037]).2.find 1
      = some ⟨9223372037, some (1000000000, 0)⟩
    ∧ 1 ∈ ((timed .empty [.promote (fun _ => 0) 0,
      .grant 1000000000 1 9223372037]).1.findExpiredLeases 1000000000).map (·.id) :=
  ⟨rfl, by decide +kernel⟩

end Lease.Lessor

end EtcdCompat
