import EtcdCompat.Proofs.ServerRun

/-!
# The revision in the header of a transaction

`applyTxn` takes the revision the last comparison reports, 0 without one, and adds one if there was
any response. The store's revision grows where a request of the chosen branch writes. The header
tells that revision in the cases `Machine.TellsRev` lists, and in no others.
-/

namespace EtcdCompat

open Machine

/-- The request writes, with these keys live. -/
def RequestUnion.writes (contents : Contents) : RequestUnion → Bool
  | .requestPut (some _) => true
  | .requestDeleteRange (some dr) => !(contents.within dr.key (gteRange dr.rangeEnd)).isEmpty
  | _ => false

namespace Machine

/-- The transaction is executed, and a request of its branch writes. -/
def wrote (m : Machine) (index : ℕ) (txn : TxnRequest) : Bool :=
  decide (m.consistentIndex < index) && (m.branch txn).any (·.writes m.history.contents)

/-- With a comparison that reads, the branch is empty or writes. Without one the header is 0 or 1,
the revision of a store that nothing was ever written to. -/
def TellsRev (m : Machine) (index : ℕ) (txn : TxnRequest) : Prop :=
  if txn.compare ≠ [] ∧ m.compactRev < m.history.main then
    m.branch txn = [] ∨ m.wrote index txn = true
  else m.history.main = 1 ∧ m.branch txn ≠ [] ∧ m.wrote index txn = false

instance (m : Machine) (index : ℕ) (txn : TxnRequest) : Decidable (m.TellsRev index txn) := by
  unfold TellsRev
  infer_instance

end Machine

section Wrote

variable {h : History} {c : ℤ}

/-- What a request does to the records of the transaction under way. -/
structure Wrote (contents : Contents) (h : History) (reqs : List RequestUnion) (h' : History) :
    Prop where
  wf : h'.WF
  main : h'.main = h.main
  sub : h'.sub = 0 ↔ h.sub = 0 ∧ reqs.any (·.writes contents) = false
  same : reqs.any (·.writes contents) = false → h' = h

theorem Wrote.refl (hw : h.WF) : Wrote h.contents h [] h :=
  ⟨hw, rfl, ⟨fun hs => ⟨hs, rfl⟩, fun hs => hs.1⟩, fun _ => rfl⟩

theorem union_wrote (hw : h.WF) (req : RequestUnion) :
    Yields (fun _ => True) (Wrote h.contents h [req]) (union c false h req) := by
  have hsub := hw.sub_nonneg
  have hnone : req.writes h.contents = false → Wrote h.contents h [req] h := fun hno =>
    ⟨hw, rfl, by simp [hno], fun _ => rfl⟩
  rcases req with (_ | r) | (_ | p) | (_ | dr) | _
  · exact hnone rfl
  · refine (Yields.trivial (range c false h r)).bind fun e _ => ?_
    rcases e with _ | e
    · exact hnone rfl
    · exact trivial
  · exact hnone rfl
  · refine ((hw.extends_put p.key p.value p.lease).imp (fun _ _ => trivial)) fun h' hh => ?_
    obtain ⟨hext, le, rfl⟩ := hh
    refine ⟨hext.wf, rfl, iff_of_false ?_ fun hall => (by cases hall.2), fun hno => (by cases hno)⟩
    simp only [History.write]
    omega
  · exact hnone rfl
  · refine ((History.extends_deleteKeys _ hw).imp (fun _ _ => trivial)) fun h' hh => ?_
    obtain ⟨hext, -, hlen⟩ := hh
    rw [List.length_map] at hlen
    have hwrites : ([RequestUnion.requestDeleteRange (some dr)].any (·.writes h.contents) = false)
        ↔ h.contents.within dr.key (gteRange dr.rangeEnd) = [] := by
      simp [RequestUnion.writes]
    refine ⟨hext.wf, hext.main, ?_, fun hno => hext.same ?_⟩
    · rw [hwrites, ← List.length_eq_zero_iff]
      omega
    · rw [hlen, hwrites.1 hno]
      simp
  · exact hnone rfl

theorem unions_wrote : ∀ (reqs : List RequestUnion) {h : History}, h.WF →
    Yields (fun _ => True) (Wrote h.contents h reqs) (reqs.foldlM (union c false) h)
  | [], _, hw => Wrote.refl hw
  | req :: reqs, h, hw => by
    rw [List.foldlM_cons]
    refine (union_wrote hw req).bind fun h₁ hone => ?_
    refine (unions_wrote reqs hone.wf).mono fun h₂ hrest => ?_
    have hfirst : [req].any (·.writes h.contents) = req.writes h.contents := by simp
    have hmain := hrest.main.trans hone.main
    -- a request that writes nothing leaves the history to the rest as it was
    rcases hreq : req.writes h.contents with _ | _
    · obtain rfl := hone.same (hfirst.trans hreq)
      exact ⟨hrest.wf, hmain, by simpa [hreq] using hrest.sub, by simpa [hreq] using hrest.same⟩
    · have hne : h₁.sub ≠ 0 := fun hs => by
        have := (hone.sub.1 hs).2
        rw [hfirst, hreq] at this
        cases this
      refine ⟨hrest.wf, hmain, iff_of_false (fun hs => hne (hrest.sub.1 hs).1) ?_, ?_⟩ <;>
        simp [hreq]

end Wrote

theorem applyUnions_length {rt : Runtime} : ∀ {reqs : List RequestUnion} {kv kv' : ConsistentStore}
    {resps : List (Option ResponseUnion)}, applyUnions rt kv reqs = .ok (kv', resps) →
    resps.length = reqs.length
  | [], _, _, _, h => by
    obtain ⟨-, rfl⟩ := Prod.mk.inj (Except.ok.inj h)
    rfl
  | req :: reqs, _, _, _, h => by
    obtain ⟨⟨kv₁, resp⟩, -, h⟩ := exists_ok_of_bind h
    obtain ⟨⟨kv₂, resps⟩, hrest, h⟩ := exists_ok_of_bind h
    obtain ⟨-, rfl⟩ := Prod.mk.inj (Except.ok.inj h)
    rw [List.length_cons, List.length_cons, applyUnions_length hrest]

section Header

variable {fresh : Prop} {m : Machine} {kv kv' : ConsistentStore} {rt : Runtime} {index : ℕ}

theorem ConsistentStore.Serves.rev_unions (hc : kv.Serves fresh m) {txn : TxnRequest}
    {resps : List (Option ResponseUnion)}
    (h : applyUnions rt (kv.txnBegin index) (m.branch txn) = .ok (kv', resps)) :
    kv'.txnEnd.store.rev = m.history.main + if m.wrote index txn then 1 else 0 := by
  obtain ⟨h', hunions, hin⟩ := ((hc.begin index).unions rt (m.branch txn)).exists_ok h
  obtain ⟨hfollows, -⟩ := txnEnd_eq hin.follows
  rw [Store.rev, hfollows.cur]
  simp only [History.txnEnd]
  rw [txnBegin_skip, hc.index] at hunions
  unfold wrote
  by_cases hle : index ≤ m.consistentIndex
  · rw [decide_eq_true hle] at hunions
    obtain rfl := unions_skip _ hunions
    simp [hc.sub, hle]
  · rw [decide_eq_false hle] at hunions
    have hwrote := (unions_wrote _ hc.follows.wf).of_ok hunions
    have hsub := hwrote.sub
    rw [hwrote.main, decide_eq_true (not_le.1 hle), Bool.true_and]
    rcases hany : (m.branch txn).any (·.writes m.history.contents) with _ | _
    · rw [if_neg (not_not.2 (hsub.2 ⟨hc.sub, hany⟩))]
      simp
    · rw [if_pos fun hs => by rw [hany] at hsub; cases (hsub.1 hs).2]
      simp

theorem header_base (m : Machine) (txn : TxnRequest) :
    (if txn.compare = [] then 0 else m.comparedRev)
      = if txn.compare ≠ [] ∧ m.compactRev < m.history.main then m.history.main else 0 := by
  unfold comparedRev
  by_cases hcmp : txn.compare = []
  · rw [if_pos hcmp, if_neg fun hall => hall.1 hcmp]
  · rw [if_neg hcmp]
    by_cases hle : m.history.main ≤ m.compactRev
    · rw [if_pos hle, if_neg fun hall => not_lt.2 hle hall.2]
    · rw [if_neg hle, if_pos ⟨hcmp, not_le.1 hle⟩]

theorem applyTxn_revision_iff (hc : kv.Serves fresh m) {le : Lease.Lessor} {txn : TxnRequest}
    {resp : TxnResponse} (h : applyTxn rt kv le index txn = .ok (kv', .ok resp)) :
    resp.revision = kv'.store.rev ↔ m.TellsRev index txn := by
  unfold applyTxn at h
  rw [hc.applyCompares txn.compare 0] at h
  simp only [bind, Except.bind] at h
  rw [show (if txn.compare.all m.compareOk then txn.success else txn.failure)
    = m.branch txn from rfl] at h
  rcases hcl : checkRequestLeases le (m.branch txn) with e | _ <;> rw [hcl] at h
  · cases h
  rcases hcr : checkRequestRange kv (m.branch txn) with e | _ <;> rw [hcr] at h
  · cases h
  rcases hunions : applyUnions rt (kv.txnBegin index) (m.branch txn) with e | ⟨kv₁, resps⟩ <;>
    rw [hunions] at h
  · cases h
  obtain ⟨rfl, hresp⟩ := Prod.mk.inj (Except.ok.inj h)
  cases hresp
  have hpos := hc.follows.wf.main_pos
  have hwrote : m.wrote index txn = true → m.branch txn ≠ [] := by
    intro hw hnil
    simp [Machine.wrote, hnil] at hw
  rw [hc.rev_unions hunions]
  simp [applyUnions_length hunions, header_base]
  unfold Machine.TellsRev
  split_ifs with h1 h2 h3 h4 h5
  all_goals simp_all
  all_goals omega

/-- The transaction that puts a key unless it is there. -/
def createTxn (key : Bytes) : TxnRequest where
  compare := [{ target := compareVersion, key, targetUnion := some (.version 0) }]
  success := [.requestPut (some { key })]
  failure := [.requestRange (some { key })]

theorem applyTxn_revision_create : ∃ kv' resp,
    applyTxn .stable ({} : EtcdServer).kv {} 1 (createTxn [97]) = .ok (kv', .ok resp)
      ∧ (resp.revision = kv'.store.rev ↔ ({} : Machine).TellsRev 1 (createTxn [97]))
      ∧ ({} : Machine).TellsRev 1 (createTxn [97]) := by
  obtain ⟨⟨kv', _⟩, happly, resp, rfl, -⟩ : ∃ x,
      applyTxn .stable ({} : EtcdServer).kv {} 1 (createTxn [97]) = .ok x
      ∧ ∃ resp, x.2 = .ok resp ∧ True := by decide +kernel
  exact ⟨kv', resp, happly, applyTxn_revision_iff (@Refines.empty True).serves happly,
    by decide +kernel⟩

def headerAndRev (s : EtcdServer) (index : ℕ) (txn : TxnRequest) : Option (ℤ × ℤ) :=
  (applyTxn .stable s.kv s.lessor index txn).toOption.bind fun x =>
    x.2.toOption.map fun resp => (resp.revision, x.1.store.rev)

/-- After one put: the transaction that finds the key and reads it, one without comparisons that
puts, and one that finds the key and deletes another. -/
theorem applyTxn_revision_wrong : ∃ s,
    EtcdServer.run .stable [.entry 1 (.put { key := [97] })] = .ok s
      ∧ headerAndRev s 2 (createTxn [97]) = some (3, 2)
      ∧ headerAndRev s 2 { success := [.requestPut (some { key := [98] })] } = some (1, 3)
      ∧ headerAndRev s 2
          { createTxn [97] with failure := [.requestDeleteRange (some ⟨[99], none⟩)] }
        = some (3, 2) := by
  decide +kernel

end Header

end EtcdCompat
