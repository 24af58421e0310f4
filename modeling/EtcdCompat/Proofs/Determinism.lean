import EtcdCompat.Proofs.LeaseAttach

/-!
# Two members that apply the same entries

Members that apply the same entries from one state refine one machine, as long as no map iteration
shows: the loop of a revoke takes one revision per key, in the order the map gives it, so it may
meet one key at most.
-/

namespace EtcdCompat

open List

variable {s s' : EtcdServer} {m : Machine}

/-- The committed entries of a run. -/
def EtcdServer.Event.entries : List EtcdServer.Event → List (ℕ × Request)
  | [] => []
  | .entry index r :: evs => (index, r) :: entries evs
  | _ :: evs => entries evs

/-- The contents with their whole history, what the watchers were told, and the leases. -/
structure SameMvcc (s s' : EtcdServer) : Prop where
  rev : s.kv.store.currentRev = s'.kv.store.currentRev
  current : ∀ key, s.kv.store.current key = s'.kv.store.current key
  ranges : ∀ key stop limit rangeRev, s.kv.store.rangeKeys key stop limit rangeRev
    = s'.kv.store.rangeKeys key stop limit rangeRev
  notified : s.kv.notified = s'.kv.notified
  leases : ∀ id, (s.lessor.lookup id).map (·.ttl) = (s'.lessor.lookup id).map (·.ttl)
  items : ∀ id, s.itemSet id = s'.itemSet id

theorem Refines.same (hr : Refines True s m) (hr' : Refines True s' m) : SameMvcc s s' := by
  have hf := hr.serves.follows
  have hf' := hr'.serves.follows
  obtain ⟨finished, hs⟩ := hr.sim
  obtain ⟨finished', hs'⟩ := hr'.sim
  have hrev : s.kv.store.currentRev = s'.kv.store.currentRev := hs.cur.trans hs'.cur.symm
  have hc : s.kv.store.compactMainRev = s'.kv.store.compactMainRev :=
    hf.compactRev.trans hf'.compactRev.symm
  refine ⟨hrev, fun key => ?_, fun key stop limit rangeRev => ?_, ?_, fun id => ?_, fun id => ?_⟩
  · rw [hr.current, hr'.current]
  · refine (hs.rangeKeys_contentsAt key stop limit rangeRev).trans
      (Eq.trans ?_ (hs'.rangeKeys_contentsAt key stop limit rangeRev).symm)
    unfold Store.readRev Store.curRev
    simp only [hrev, hc]
  · rw [hr.serves.notified, hr'.serves.notified]
  · rw [Lease.Lessor.lookup, Lease.Lessor.lookup, hr.leases, hr'.leases]
  · rw [hr.itemSet, hr'.itemSet]

namespace Machine

variable {order order' : ℕ → List Bytes → List Bytes}

theorem foldlM_step_entries (order : ℕ → List Bytes → List Bytes) :
    ∀ (evs : List EtcdServer.Event) (m : Machine), evs.foldlM (step order) m
      = (EtcdServer.Event.entries evs).foldlM (fun m e => m.apply (order e.1) e.1 e.2) m
  | [], _ => rfl
  | ev :: evs, m => by
    rcases ev with ⟨index, r⟩ | _ | _ | _ | _
    · rw [EtcdServer.Event.entries, foldlM_cons, foldlM_cons]
      exact congrArg _ (funext (foldlM_step_entries order evs))
    all_goals exact foldlM_step_entries order evs m

theorem order_eq (hord : ∀ i ks, (order i ks).Perm ks) {ks : List Bytes} (hks : ks.length ≤ 1)
    (index : ℕ) : order index ks = ks := by
  rcases ks with _ | ⟨k, _ | ⟨k', ks⟩⟩
  · exact perm_nil.1 (hord index _)
  · exact perm_singleton.1 (hord index _)
  · simp at hks

theorem step_order (hord : ∀ i ks, (order i ks).Perm ks) (hord' : ∀ i ks, (order' i ks).Perm ks)
    {ev : EtcdServer.Event}
    (hev : ∀ index id, ev = .entry index (.leaseRevoke id) → (m.itemSet id).length ≤ 1) :
    step order m ev = step order' m ev := by
  rcases ev with ⟨index, r | p | dr | txn | rev | ⟨id, ttl⟩ | id⟩ | _ | _ | _ | _
  case entry.leaseRevoke =>
    have hlen := hev index id rfl
    simp only [step, apply, revoke, order_eq hord hlen, order_eq hord' hlen]
  all_goals rfl

end Machine

/-- The machine's runs with both orders, where no revoke of the server's run meets two keys. -/
theorem Refines.run_order (rt rt' : Runtime) : ∀ (evs : List EtcdServer.Event) {s : EtcdServer}
    {m : Machine}, Refines True s m →
    (∀ pre index id post s₁, evs = pre ++ .entry index (.leaseRevoke id) :: post →
      pre.foldlM (EtcdServer.step rt) s = .ok s₁ → (s₁.itemSet id).length ≤ 1) →
    evs.foldlM (Machine.step rt.order) m = evs.foldlM (Machine.step rt'.order) m
  | [], _, _, _, _ => rfl
  | ev :: evs, s, m, hr, hrev => by
    have hstep : Machine.step rt.order m ev = Machine.step rt'.order m ev := by
      refine Machine.step_order rt.order_perm rt'.order_perm fun index id hev => ?_
      rw [← hr.itemSet]
      exact hrev [] index id evs s (by rw [hev]; rfl) rfl
    rw [foldlM_cons, foldlM_cons, ← hstep]
    have hagree := hr.step rt ev
    rcases hs : s.step rt ev with e | s₁ <;>
      rcases hm : Machine.step rt.order m ev with e' | m₁ <;> rw [hs, hm] at hagree
    · rfl
    · exact hagree.elim
    · exact hagree.elim
    · refine Refines.run_order rt rt' evs hagree fun pre index id post s₂ heq hpre => ?_
      refine hrev (ev :: pre) index id post s₂ (by rw [heq]; rfl) ?_
      rw [foldlM_cons, hs]
      exact hpre

/-- Two members go on from one state with the same entries, and no revoke meets two keys. -/
theorem members_agree {rt₀ : Runtime} {evs₀ : List EtcdServer.Event} {s₀ : EtcdServer}
    (hstart : EtcdServer.run rt₀ evs₀ = .ok s₀) (rt rt' : Runtime)
    {evs evs' : List EtcdServer.Event}
    (hentries : EtcdServer.Event.entries evs = EtcdServer.Event.entries evs')
    (hrevoke : ∀ pre index id post s, evs = pre ++ .entry index (.leaseRevoke id) :: post →
      pre.foldlM (EtcdServer.step rt) s₀ = .ok s → (s.itemSet id).length ≤ 1) :
    Agree SameMvcc (evs.foldlM (EtcdServer.step rt) s₀) (evs'.foldlM (EtcdServer.step rt') s₀) := by
  obtain ⟨m, -, hr, -⟩ := run_reaches hstart
  have hm : evs.foldlM (Machine.step rt.order) m = evs'.foldlM (Machine.step rt'.order) m := by
    rw [hr.run_order rt rt' evs hrevoke, Machine.foldlM_step_entries, hentries,
      ← Machine.foldlM_step_entries]
  have h₁ : Agree (Refines True) (evs.foldlM (EtcdServer.step rt) s₀)
      (evs.foldlM (Machine.step rt.order) m) :=
    Agree.foldlM (fun ev _ _ _ hr => hr.step rt ev) hr
  have h₂ : Agree (Refines True) (evs'.foldlM (EtcdServer.step rt') s₀)
      (evs'.foldlM (Machine.step rt'.order) m) :=
    Agree.foldlM (fun ev _ _ _ hr => hr.step rt' ev) hr
  rw [hm] at h₁
  exact (h₁.join h₂).mono fun s s' ⟨_, hs, hs'⟩ => hs.same hs'

/-- Maps iterated the other way round. -/
def Runtime.reversed : Runtime :=
  { Runtime.stable with
    order := fun _ keys => keys.reverse
    order_perm := fun _ keys => keys.reverse_perm }

/-- A lease with one key is revoked. -/
theorem members_agree_one_key : ∃ s₀, EtcdServer.run .stable
      [.entry 1 (.leaseCreate 1 10), .entry 2 (.put { key := [97], lease := 1 })] = .ok s₀
    ∧ Agree SameMvcc ([EtcdServer.Event.entry 3 (.leaseRevoke 1)].foldlM (EtcdServer.step .stable)
      s₀)
      ([.batch, EtcdServer.Event.entry 3 (.leaseRevoke 1)].foldlM (EtcdServer.step .reversed) s₀)
        := by
  obtain ⟨s₀, hstart, hitems⟩ : ∃ s, EtcdServer.run .stable [.entry 1 (.leaseCreate 1 10),
      .entry 2 (.put { key := [97], lease := 1 })] = .ok s ∧ s.itemSet 1 = [[97]] := by
    decide +kernel
  refine ⟨s₀, hstart, members_agree hstart .stable .reversed rfl ?_⟩
  rintro (_ | ⟨ev, pre⟩) index id post s heq hpre
  · cases heq
    cases hpre
    rw [hitems]
    decide
  · simp at heq

/-- Two keys of a revoked lease are deleted at the revisions 4 and 5, in the order of the map: at
revision 4 the one member has lost the key the other still has, and their watchers are told so. -/
theorem members_differ : ∃ s s',
    EtcdServer.run .stable [.entry 1 (.leaseCreate 1 10),
      .entry 2 (.put { key := [97], lease := 1 }), .entry 3 (.put { key := [98], lease := 1 }),
      .entry 4 (.leaseRevoke 1)] = .ok s
    ∧ EtcdServer.run .reversed [.entry 1 (.leaseCreate 1 10),
      .entry 2 (.put { key := [97], lease := 1 }), .entry 3 (.put { key := [98], lease := 1 }),
      .entry 4 (.leaseRevoke 1)] = .ok s'
      ∧ s.kv.store.rangeKeys [97] none 0 4 ≠ s'.kv.store.rangeKeys [97] none 0 4
      ∧ s.kv.notified ≠ s'.kv.notified := by
  have heval : ∀ b : Bool, ∃ s, EtcdServer.run (bif b then .stable else .reversed)
      [.entry 1 (.leaseCreate 1 10), .entry 2 (.put { key := [97], lease := 1 }),
        .entry 3 (.put { key := [98], lease := 1 }), .entry 4 (.leaseRevoke 1)] = .ok s
      ∧ (s.kv.store.rangeKeys [97] none 0 4).toOption.map (·.kvs.length)
        = some (bif b then 1 else 0)
      ∧ s.kv.notified.getLast?
        = some (5, [.delete { key := [bif b then 97 else 98], modRevision := 5 }]) := by
    decide +kernel
  obtain ⟨s, hs, hrange, hlast⟩ := heval true
  obtain ⟨s', hs', hrange', hlast'⟩ := heval false
  refine ⟨s, s', hs, hs', fun heq => ?_, fun heq => ?_⟩
  · rw [heq, hrange'] at hrange
    cases hrange
  · rw [heq, hlast'] at hlast
    simp at hlast

end EtcdCompat
