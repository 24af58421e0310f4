import EtcdCompat.Lease.Lessor

/-!
# Leases across a restart

The lease bucket always holds the leases granted and not revoked, each with the TTL its grant
reported, under the bytes of its id. Recovery walks the bucket from the bytes of 0 to those of the
largest `int64`, so it meets neither a negative id nor the largest.
-/

namespace EtcdCompat

open OrdMap Option

section Bytes

variable {a b : ℤ}

theorem uint64_lt (n : ℤ) : (n % 18446744073709551616).toNat < 256 ^ 8 := by
  have h1 : (256 : ℕ) ^ 8 = 18446744073709551616 := by decide
  have h2 : n % 18446744073709551616 < 18446744073709551616 := Int.emod_lt_of_pos n (by decide)
  rw [h1]
  omega

theorem int64ToBytes_lt_iff : int64ToBytes a < int64ToBytes b
    ↔ a % 18446744073709551616 < b % 18446744073709551616 := by
  have ha : 0 ≤ a % 18446744073709551616 := Int.emod_nonneg a (by decide)
  have hb : 0 ≤ b % 18446744073709551616 := Int.emod_nonneg b (by decide)
  unfold int64ToBytes
  rw [BigEndian.encode_lt_iff (uint64_lt a) (uint64_lt b)]
  omega

theorem int64ToBytes_eq_iff : int64ToBytes a = int64ToBytes b
    ↔ a % 18446744073709551616 = b % 18446744073709551616 := by
  refine ⟨fun heq => ?_, fun heq => by rw [int64ToBytes, heq, int64ToBytes]⟩
  have h1 : ¬ int64ToBytes a < int64ToBytes b := fun h => lt_irrefl _ (heq ▸ h)
  have h2 : ¬ int64ToBytes b < int64ToBytes a := fun h => lt_irrefl _ (heq ▸ h)
  rw [int64ToBytes_lt_iff] at h1 h2
  omega

theorem int64ToBytes_inj (ha : IsInt64 a) (hb : IsInt64 b) :
    int64ToBytes a = int64ToBytes b ↔ a = b := by
  rw [int64ToBytes_eq_iff]
  unfold IsInt64 minInt64 maxInt64 at ha hb
  omega

/-- The walk of a recovery: the sign bit puts the negative ids above all others. -/
theorem int64ToBytes_mem_walk (ha : IsInt64 a) :
    int64ToBytes 0 ≤ int64ToBytes a ∧ int64ToBytes a < int64ToBytes maxInt64
      ↔ 0 ≤ a ∧ a < maxInt64 := by
  rw [← not_lt, int64ToBytes_lt_iff, int64ToBytes_lt_iff]
  unfold IsInt64 minInt64 maxInt64 at ha
  unfold maxInt64
  omega

end Bytes

namespace Lease

theorem refresh_id (l : Lease) (now : ℤ) (extend : ℤ) :
    (l.refresh now extend).id = l.id := rfl

theorem forever_id (l : Lease) : l.forever.id = l.id := rfl

theorem refresh_ttl (l : Lease) (now : ℤ) (extend : ℤ) :
    (l.refresh now extend).ttl = max l.ttl minLeaseTTL := by
  unfold refresh
  simp only []
  split_ifs <;> omega

theorem forever_ttl (l : Lease) : l.forever.ttl = max l.ttl minLeaseTTL := by
  unfold forever
  simp only []
  split_ifs <;> omega

namespace Lessor

variable {le : Lessor} {id ttl : ℤ} {held : OrdMap ℤ ℤ} {le' : Lessor} {l : Lease}
  {now : ℤ} {c : Call}

theorem grant_ok (h : le.grant now id ttl = .ok (le', l)) :
    id ≠ NoLease ∧ le.leaseMap.find id = none ∧ l.id = id ∧ l.ttl = max ttl minLeaseTTL
      ∧ l = (if le.primary then refresh ⟨id, ttl, 0⟩ now 0 else forever ⟨id, ttl, 0⟩)
      ∧ le' = { le with leaseMap := le.leaseMap.insert id l, b := l.persistTo le.b } := by
  unfold grant at h
  split_ifs at h with h1 h2 h3
  all_goals
    obtain ⟨rfl, rfl⟩ := h
    simp only [h3, Bool.false_eq_true, if_true, if_false]
    refine ⟨h1, by simpa using h2, rfl, ?_, trivial, trivial⟩
  · exact refresh_ttl _ _ _
  · exact forever_ttl _

theorem revoke_ok (h : le.revoke id = .ok le') : ∃ l, le.leaseMap.find id = some l
    ∧ le' = { le with leaseMap := le.leaseMap.erase l.id, b := l.removeFrom le.b } := by
  unfold revoke at h
  rcases hl : le.leaseMap.find id with _ | l
  · simp [hl] at h
  · simp [hl] at h
    exact ⟨l, rfl, h.symm⟩

theorem renew_ok {ttl' : ℤ} (h : le.renew now id = .ok (le', ttl')) :
    le.primary ∧ ∃ l, le.leaseMap.find id = some l
      ∧ le' = { le with leaseMap := le.leaseMap.insert id (l.refresh now 0) } := by
  unfold renew at h
  split_ifs at h with hp
  rcases hl : le.leaseMap.find id with _ | l
  · simp [hl] at h
  · simp [hl] at h
    exact ⟨by simpa using hp, l, rfl, h.1.symm⟩

/-- The leases granted and not revoked, each with the TTL its grant reported. -/
def book (le : Lessor) (held : OrdMap ℤ ℤ) : Call → OrdMap ℤ ℤ
  | .grant now id ttl => match le.grant now id ttl with
    | .ok (_, l) => held.insert id l.ttl
    | .error _ => held
  | .revoke id => match le.revoke id with
    | .ok _ => held.erase id
    | .error _ => held
  | _ => held

def Call.Int64Id : Call → Prop
  | .grant _ id _ => IsInt64 id
  | _ => True

/-- What the lessor and its bucket hold is what was granted and not revoked. -/
structure Persisted (le : Lessor) (held : OrdMap ℤ ℤ) : Prop where
  map : ∀ id, (le.leaseMap.find id).map (·.ttl) = held.find id
  lease : ∀ id l, le.leaseMap.find id = some l →
    l.id = id ∧ IsInt64 id ∧ id ≠ NoLease ∧ minLeaseTTL ≤ l.ttl
  bucket : ∀ k pb, le.b.find k = some pb
    ↔ k = int64ToBytes pb.id ∧ held.find pb.id = some pb.ttl

theorem Persisted.empty : Persisted {} .empty where
  map _ := rfl
  lease _ _ h := by simp at h
  bucket _ _ := by simp

section

variable (h : Persisted le held)
include h

theorem Persisted.int64 (hf : held.find id = some ttl) : IsInt64 id ∧ id ≠ NoLease := by
  rw [← h.map id, map_eq_some_iff] at hf
  obtain ⟨l, hl, -⟩ := hf
  exact ⟨(h.lease id l hl).2.1, (h.lease id l hl).2.2.1⟩

theorem Persisted.refreshed (hb : le'.b = le.b)
    (hmap : ∀ id, (le'.leaseMap.find id).map (fun l => (l.id, l.ttl))
      = (le.leaseMap.find id).map fun l => (l.id, l.ttl)) : Persisted le' held := by
  refine ⟨fun id => ?_, fun id l' hl' => ?_, by rw [hb]; exact h.bucket⟩
  · have := congrArg (Option.map Prod.snd) (hmap id)
    simp [Function.comp_def] at this
    rw [this, h.map]
  · have := hmap id
    rw [hl', Option.map_some, eq_comm, Option.map_eq_some_iff] at this
    obtain ⟨l, hl, heq⟩ := this
    simp at heq
    rw [← heq.1, ← heq.2]
    exact h.lease id l hl

theorem Persisted.grant {primary : Bool} (hid : IsInt64 l.id) (hne : l.id ≠ NoLease)
    (hmin : minLeaseTTL ≤ l.ttl) (hnew : le.leaseMap.find l.id = none) :
    Persisted ⟨primary, le.leaseMap.insert l.id l, l.persistTo le.b⟩
      (held.insert l.id l.ttl) := by
  have hfree : held.find l.id = none := by rw [← h.map, hnew]; rfl
  refine ⟨fun id => ?_, fun id l' hl' => ?_, fun k pb => ?_⟩
  · rw [find_insert, find_insert, ← h.map]
    split_ifs <;> rfl
  · rw [find_insert] at hl'
    split_ifs at hl' with heq
    · cases hl'
      exact ⟨heq, heq ▸ hid, heq ▸ hne, hmin⟩
    · exact h.lease id l' hl'
  · unfold persistTo
    rw [find_insert, find_insert]
    by_cases heq : l.id = pb.id
    · rw [if_pos heq, ← heq]
      split_ifs with hk
      · rw [some.injEq, some.injEq]
        refine ⟨fun hpb => ⟨hk.symm, by rw [← hpb]⟩, fun ⟨_, httl⟩ => ?_⟩
        rw [httl, heq]
      · rw [h.bucket, ← heq, hfree]
        simp [Ne.symm hk]
    · rw [if_neg heq]
      split_ifs with hk
      · simp
        refine ⟨fun hpb => absurd (by rw [← hpb]) heq, fun ⟨hk', hf⟩ => ?_⟩
        exact absurd ((int64ToBytes_inj hid (h.int64 hf).1).1 (hk.trans hk')) heq
      · exact h.bucket k pb

theorem Persisted.revoke (hl : le.leaseMap.find id = some l) :
    Persisted { le with leaseMap := le.leaseMap.erase l.id, b := l.removeFrom le.b }
      (held.erase id) := by
  obtain ⟨rfl, hid, -⟩ := h.lease id l hl
  refine ⟨fun id => ?_, fun id l' hl' => ?_, fun k pb => ?_⟩
  · rw [find_erase, find_erase, ← h.map]
    split_ifs <;> rfl
  · rw [find_erase] at hl'
    split_ifs at hl'
    exact h.lease id l' hl'
  · unfold removeFrom
    rw [find_erase, find_erase]
    by_cases heq : pb.id = l.id
    · rw [if_pos heq]
      split_ifs with hk
      · simp
      · rw [h.bucket, heq]
        simp [hk]
    · rw [if_neg heq]
      split_ifs with hk
      · simp only [false_iff]
        rintro ⟨hk', hf⟩
        exact heq ((int64ToBytes_inj (h.int64 hf).1 hid).1 (hk'.symm.trans hk))
      · exact h.bucket k pb

end

def Call.expiryOnly : Call → Bool
  | .grant _ _ _ => false
  | .revoke _ => false
  | _ => true

theorem step_expiryOnly (hmin : ∀ id l, le.leaseMap.find id = some l → minLeaseTTL ≤ l.ttl)
    (hc : c.expiryOnly) : (le.step c).b = le.b ∧ ∀ id,
      ((le.step c).leaseMap.find id).map (fun l => (l.id, l.ttl))
        = (le.leaseMap.find id).map fun l => (l.id, l.ttl) := by
  have hfresh : ∀ id l now extend, le.leaseMap.find id = some l →
      (l.refresh now extend).ttl = l.ttl := fun id l now extend hl => by
    rw [refresh_ttl, max_eq_left (hmin id l hl)]
  rcases c with ⟨now, id, ttl⟩ | id | ⟨now, id⟩ | ⟨clock, extend⟩ | _
  · cases hc
  · cases hc
  · rcases hr : le.renew now id with e | ⟨le', ttl'⟩
    · simp only [Lessor.step, hr, Except.toOption]
      exact ⟨rfl, fun _ => rfl⟩
    · simp only [Lessor.step, hr, Except.toOption]
      obtain ⟨-, l, hl, rfl⟩ := renew_ok hr
      refine ⟨rfl, fun id' => ?_⟩
      simp [find_insert]
      split_ifs with heq
      · rw [← heq, hl, map_some, map_some, refresh_id, hfresh id l _ _ hl]
      · rfl
  · refine ⟨rfl, fun id => ?_⟩
    simp only [Lessor.step, promote, find_mapVal]
    rcases hl : le.leaseMap.find id with _ | l
    · rfl
    · simp [refresh_id, hfresh id l _ _ hl]
  · refine ⟨rfl, fun id => ?_⟩
    simp only [Lessor.step, demote, find_mapVal]
    rcases hl : le.leaseMap.find id with _ | l
    · rfl
    · simp [forever_id, forever_ttl, max_eq_left (hmin id l hl)]

theorem Persisted.step (h : Persisted le held) (hc : c.Int64Id) :
    Persisted (le.step c) (le.book held c) := by
  have hexp : c.expiryOnly → Persisted (le.step c) held := fun hc => by
    obtain ⟨hb, hmap⟩ := step_expiryOnly (fun id l hl => (h.lease id l hl).2.2.2) hc
    exact h.refreshed hb hmap
  rcases c with ⟨now, id, ttl⟩ | id | ⟨now, id⟩ | ⟨clock, extend⟩ | _
  · rcases hg : le.grant now id ttl with e | ⟨le', l⟩
    · simp only [Lessor.step, book, hg, Except.toOption]
      exact h
    · simp only [Lessor.step, book, hg, Except.toOption]
      obtain ⟨hne, hnew, rfl, httl, -, rfl⟩ := grant_ok hg
      exact h.grant hc hne (by rw [httl]; exact le_max_right _ _) hnew
  · rcases hr : le.revoke id with e | le'
    · simp only [Lessor.step, book, hr, Except.toOption]
      exact h
    · simp only [Lessor.step, book, hr, Except.toOption]
      obtain ⟨l, hl, rfl⟩ := revoke_ok hr
      exact h.revoke hl
  · exact hexp rfl
  · exact hexp rfl
  · exact hexp rfl

def bookStep (st : Lessor × OrdMap ℤ ℤ) (c : Call) : Lessor × OrdMap ℤ ℤ :=
  (st.1.step c, st.1.book st.2 c)

theorem Persisted.calls : ∀ {calls : List Call} {st : Lessor × OrdMap ℤ ℤ}, Persisted st.1 st.2 →
    (∀ c ∈ calls, c.Int64Id) →
    Persisted (calls.foldl bookStep st).1 (calls.foldl bookStep st).2
  | [], _, h, _ => h
  | _ :: calls, _, h, hc =>
    have hc := List.forall_mem_cons.1 hc
    @Persisted.calls calls _ (h.step hc.1) hc.2

theorem Persisted.find_recovered (h : Persisted le held) (hb : le'.b = le.b)
    (hempty : le'.leaseMap = .empty) (id ttl : ℤ) :
    (le'.initAndRecover.lookup id).map (·.ttl) = some ttl
      ↔ held.find id = some ttl ∧ 0 < id ∧ id < maxInt64 := by
  have hmem : ∀ pb, pb ∈ (le'.b.slice (int64ToBytes 0) (int64ToBytes maxInt64)).map (·.2)
      ↔ held.find pb.id = some pb.ttl ∧ 0 ≤ pb.id ∧ pb.id < maxInt64 := fun pb => by
    rw [List.mem_map, hb]
    constructor
    · rintro ⟨⟨k, pb⟩, he, rfl⟩
      obtain ⟨hf, hlo, hhi⟩ := mem_slice.1 he
      obtain ⟨rfl, hheld⟩ := (h.bucket k pb).1 hf
      exact ⟨hheld, (int64ToBytes_mem_walk (h.int64 hheld).1).1 ⟨hlo, hhi⟩⟩
    · rintro ⟨hf, hwalk⟩
      have hk := (int64ToBytes_mem_walk (h.int64 hf).1).2 hwalk
      exact ⟨(_, pb), mem_slice.2 ⟨(h.bucket _ pb).2 ⟨rfl, hf⟩, hk⟩, rfl⟩
  have hfind := find_foldl_insert (fun v : LeasePB => v.id)
    (fun v : LeasePB => (⟨v.id, v.ttl, foreverTime⟩ : Lease))
    ((le'.b.slice (int64ToBytes 0) (int64ToBytes maxInt64)).map (·.2)) le'.leaseMap
    (fun x hx y hy hxy => by
      have hx := ((hmem x).1 hx).1
      rw [show x.id = y.id from hxy, ((hmem y).1 hy).1, some.injEq] at hx
      simp only [show x.id = y.id from hxy, hx]) id
  unfold initAndRecover lookup
  simp [hmem, hempty] at hfind
  simp only [map_eq_some_iff, hempty, hfind]
  constructor
  · rintro ⟨l, ⟨pb, ⟨hf, hlo, hhi⟩, rfl, rfl⟩, rfl⟩
    have hne : pb.id ≠ NoLease := (h.int64 hf).2
    unfold NoLease at hne
    exact ⟨hf, by omega, hhi⟩
  · rintro ⟨hf, hlo, hhi⟩
    exact ⟨_, ⟨⟨id, ttl⟩, ⟨hf, hlo.le, hhi⟩, rfl, rfl⟩, rfl⟩

theorem Persisted.recovered_iff (h : Persisted le held) (hb : le'.b = le.b)
    (hempty : le'.leaseMap = .empty) :
    (∀ id, (le'.initAndRecover.lookup id).map (·.ttl) = held.find id)
      ↔ ∀ id ttl, held.find id = some ttl → 0 < id ∧ id < maxInt64 := by
  have hfind := h.find_recovered hb hempty
  constructor
  · intro heq id ttl hf
    exact ((hfind id ttl).1 ((heq id).trans hf)).2
  · intro hin id
    refine ext fun ttl => ?_
    rw [hfind id ttl]
    exact ⟨fun hf => hf.1, fun hf => ⟨hf, hin id ttl hf⟩⟩

def booked (calls : List Call) : Lessor × OrdMap ℤ ℤ := calls.foldl bookStep ({}, .empty)

theorem leases_recovered_iff {calls : List Call} (hc : ∀ c ∈ calls, c.Int64Id) {le' : Lessor}
    (hle : le' = newLessor (booked calls).1.b ∨ ∃ le, le' = recover le (booked calls).1.b) :
    (∀ id, (le'.lookup id).map (·.ttl) = (booked calls).2.find id)
      ↔ ∀ id ttl, (booked calls).2.find id = some ttl → 0 < id ∧ id < maxInt64 := by
  have h : Persisted (booked calls).1 (booked calls).2 := Persisted.empty.calls hc
  rcases hle with rfl | ⟨le, rfl⟩
  · exact h.recovered_iff rfl rfl
  · exact h.recovered_iff rfl rfl

/-- Two leases granted and one revoked. -/
theorem leases_recovered_two :
    (∀ id, ((newLessor (booked [.grant 0 1 10, .grant 0 2 3, .revoke 1]).1.b).lookup id).map (·.ttl)
      = (booked [.grant 0 1 10, .grant 0 2 3, .revoke 1]).2.find id)
    ∧ (booked [.grant 0 1 10, .grant 0 2 3, .revoke 1]).2.entries = [(2, 5)] := by
  have heval : (booked [.grant 0 1 10, .grant 0 2 3, .revoke 1]).2.entries = [(2, 5)] := by
    decide +kernel
  refine ⟨(leases_recovered_iff ?_ (.inl rfl)).2 fun id ttl hf => ?_, heval⟩
  · intro c hc
    simp at hc
    rcases hc with rfl | rfl | rfl
    · exact (by decide : IsInt64 1)
    · exact (by decide : IsInt64 2)
    · exact trivial
  · have hmem := OrdMap.mem_entries.2 hf
    rw [heval, List.mem_singleton, Prod.mk.injEq] at hmem
    rw [hmem.1]
    decide

/-- A negative id and the largest one are granted and not recovered. -/
theorem leases_lost :
    ((booked [.grant 0 (-1) 10]).2.find (-1) = some 10
      ∧ (newLessor (booked [.grant 0 (-1) 10]).1.b).lookup (-1) = none
      ∧ (recover {} (booked [.grant 0 (-1) 10]).1.b).lookup (-1) = none)
    ∧ (booked [.grant 0 maxInt64 10]).2.find maxInt64 = some 10
      ∧ (newLessor (booked [.grant 0 maxInt64 10]).1.b).lookup maxInt64 = none
      ∧ (recover {} (booked [.grant 0 maxInt64 10]).1.b).lookup maxInt64 = none := by
  decide +kernel

end Lessor

end Lease

end EtcdCompat
