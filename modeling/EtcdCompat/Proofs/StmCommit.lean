import EtcdCompat.Proofs.StmSerial

/-!
# Commits are serializable where the keys read are there as they were seen

The transaction of a commit does to each key of the write set what was put last for it, and nothing
else. A failed one changes nothing, and what its gets have read is what there is.
-/

namespace EtcdCompat.Concurrency

open List OrdMap Option Contents

open Clientv3
open Program (Ensures)

section Writes

variable {rt : Runtime} {kv : Kv}

theorem union_fits (rt : Runtime) (kv : Kv) {key : Bytes} {wv : StmPut} (hfits : Fits key wv)
    (st : Contents × Bool) :
    ∃ st' resp, kv.union rt st wv.op = .ok (st', resp) ∧
      (∀ k, st'.1.find k = if key = k then written kv.rev (st.1.find key) key wv
        else st.1.find k) ∧
      (st'.2 = false → st.2 = false ∧ ∀ k, st'.1.find k = st.1.find k) := by
  rcases hfits with ⟨val, lease, hop⟩ | hop
  · refine ⟨_, _, congrArg (kv.union rt st) hop, fun k => ?_, fun h => (by cases h)⟩
    unfold put written
    rw [find_insert, hop]
    split_ifs <;> rfl
  · have hfind (k : Bytes) : (st.1.deleteRange key none).find k =
        if key = k then none else st.1.find k := by
      unfold deleteRange
      rw [find_filter]
      by_cases hk : key = k
      · rw [if_pos hk, if_neg]
        intro h
        exact of_decide_eq_true h hk.symm
      · rw [if_neg hk, if_pos]
        exact decide_eq_true fun h : k = key => hk h.symm
    refine ⟨_, _, congrArg (kv.union rt st) hop, fun k => ?_, fun h => ?_⟩
    · change (st.1.deleteRange key none).find k = _
      unfold written
      rw [hfind, hop]
    · change (st.2 || !(st.1.within key none).isEmpty) = false at h
      obtain ⟨hst, hempty⟩ := Bool.or_eq_false_iff.1 h
      refine ⟨hst, fun k => ?_⟩
      change (st.1.deleteRange key none).find k = st.1.find k
      rw [hfind]
      split_ifs with hk
      · subst hk
        rw [within_none] at hempty
        rcases hf : st.1.find key with _ | pair
        · rfl
        · rw [hf] at hempty
          cases hempty
      · rfl

theorem unions_cons {st st' : Contents × Bool} {req : RequestUnion} {reqs : List RequestUnion}
    {resp : Option ResponseUnion} (h : kv.union rt st req = .ok (st', resp)) :
    kv.unions rt st (req :: reqs) =
      (kv.unions rt st' reqs).bind fun x => .ok (x.1, resp :: x.2) := by
  rw [Kv.unions, h]
  rfl

theorem unions_fits (rt : Runtime) (kv : Kv) : ∀ {es : List (Bytes × StmPut)},
    (es.map (·.1)).Nodup →
    (∀ e ∈ es, Fits e.1 e.2) → ∀ st : Contents × Bool,
    ∃ st' resps, kv.unions rt st (es.map (·.2.op)) = .ok (st', resps) ∧
      (∀ e ∈ es, st'.1.find e.1 = written kv.rev (st.1.find e.1) e.1 e.2) ∧
      (∀ k, k ∉ es.map (·.1) → st'.1.find k = st.1.find k) ∧
      (st'.2 = false → st.2 = false ∧ ∀ k, st'.1.find k = st.1.find k)
  | [], _, _, st => ⟨st, [], rfl, fun e he => (by cases he), fun _ _ => rfl,
      fun h => ⟨h, fun _ => rfl⟩⟩
  | e :: es, hnodup, hfits, st => by
    obtain ⟨hnot, hnodup⟩ := nodup_cons.1 hnodup
    obtain ⟨st₁, resp, hunion, hfind, hsame⟩ := union_fits rt kv
      (hfits e mem_cons_self) st
    obtain ⟨st₂, resps, hunions, hin, hout, hsame'⟩ := unions_fits rt kv hnodup
      (fun e' he' => hfits e' (mem_cons_of_mem _ he')) st₁
    refine ⟨st₂, resp :: resps, ?_, fun e' he' => ?_, fun k hk => ?_, fun h => ?_⟩
    · rw [map_cons, unions_cons hunion, hunions]
      rfl
    · rcases mem_cons.1 he' with rfl | he'
      · rw [hout _ hnot, hfind, if_pos rfl]
      · have hne : e.1 ≠ e'.1 := by
          intro h
          change e.1 ∉ _ at hnot
          rw [h] at hnot
          exact hnot (mem_map_of_mem he')
        rw [hin e' he', hfind, if_neg hne]
    · rw [map_cons, mem_cons, not_or] at hk
      rw [hout k hk.2, hfind, if_neg (Ne.symm hk.1)]
    · obtain ⟨h₁, hsame₂⟩ := hsame' h
      obtain ⟨h₀, hsame₁⟩ := hsame h₁
      exact ⟨h₀, fun k => (hsame₂ k).trans (hsame₁ k)⟩

theorem unions_gets (hw : kv.Wf) : ∀ es : List (Bytes × RangeResponse),
    kv.unions rt (kv.contents, false) (es.map fun e => .requestRange (some { key := e.1 })) =
      .ok ((kv.contents, false), es.map fun e =>
        some (.responseRange ⟨kv.rev, ((kv.contentsOf 0).find e.1).toList, false⟩))
  | [] => rfl
  | e :: es => by
    have hone : (0 : ℤ) ≤ kv.rev := by
      have := hw.one_le
      omega
    have hunion : kv.union rt (kv.contents, false) (.requestRange (some { key := e.1 })) =
        .ok ((kv.contents, false), some (.responseRange
          ⟨kv.rev, ((kv.contentsOf 0).find e.1).toList, false⟩)) := by
      unfold Kv.union
      simp only
      rw [range_key kv e.1 hone]
      rfl
    rw [map_cons, unions_cons hunion, unions_gets hw es]
    rfl

end Writes

section Commit

variable {rt : Runtime} {kv : Kv} {s : Stm} {apply : Apply} {fate : Fate}

theorem checkRanges_puts : ∀ {es : List (Bytes × StmPut)}, (∀ e ∈ es, Fits e.1 e.2) →
    kv.checkRanges (es.map (·.2.op)) = .ok ()
  | [], _ => rfl
  | e :: es, hfits => by
    have hrest := checkRanges_puts fun e' he' => hfits e' (mem_cons_of_mem _ he')
    rw [map_cons]
    rcases hfits e mem_cons_self with ⟨val, lease, hop⟩ | hop
    · rw [hop]
      exact hrest
    · rw [hop]
      exact hrest

theorem checkRanges_gets (hw : kv.Wf) : ∀ es : List (Bytes × RangeResponse),
    kv.checkRanges (es.map fun e => .requestRange (some { key := e.1 })) = .ok ()
  | [] => rfl
  | e :: es => by
    have hone := hw.one_le
    rw [map_cons, Kv.checkRanges, if_neg (show ¬ (0 : ℤ) > kv.rev by omega)]
    exact checkRanges_gets hw es

theorem wset_entries (hs : s.Inv kv) :
    (s.wset.entries.map (·.1)).Nodup ∧ ∀ e ∈ s.wset.entries, Fits e.1 e.2 :=
  ⟨pairwise_map.2 (s.wset.sorted.imp ne_of_lt),
    fun e he => hs.fits e.1 e.2 (find_of_mem he)⟩

theorem txn_eq {t : TxnRequest} {ok : Bool} {reqs : List RequestUnion} {st : Contents × Bool}
    {resps : List (Option ResponseUnion)} (hok : t.compare.all kv.compare = ok)
    (hreqs : (if ok then t.success else t.failure) = reqs) (hcheck : kv.checkRanges reqs = .ok ())
    (hunions : kv.unions rt (kv.contents, false) reqs = .ok (st, resps)) :
    ∃ revision, kv.txn rt t = .ok (kv.commit st, .ok ⟨revision, ok, resps⟩) := by
  unfold Kv.txn
  simp only [hok, hreqs, hcheck, hunions]
  exact ⟨_, rfl⟩

theorem txn_commit (rt : Runtime) (hs : s.Inv kv) (hcmp : s.cmps.all kv.compare = true) :
    ∃ st resp, kv.txn rt s.commitTxn = .ok (kv.commit st, .ok resp) ∧ resp.succeeded = true ∧
      (st.2 = false → st.1 = kv.contents) ∧
      ∀ key, st.1.find key = afterWrites kv.rev kv.contents s.wset key := by
  obtain ⟨hnodup, hfits⟩ := wset_entries hs
  obtain ⟨st, resps, hunions, hin, hout, hsame⟩ := unions_fits rt kv hnodup hfits
    (kv.contents, false)
  obtain ⟨revision, htxn⟩ := txn_eq (t := s.commitTxn) hcmp (show _ = s.puts from rfl)
    (checkRanges_puts hfits) hunions
  refine ⟨st, ⟨revision, true, resps⟩, htxn, rfl, fun h => ext_find (hsame h).2,
    fun key => ?_⟩
  unfold afterWrites
  rcases hf : s.wset.find key with _ | wv
  · refine hout key fun hmem => ?_
    obtain ⟨e, he, rfl⟩ := mem_map.1 hmem
    rw [find_of_mem he] at hf
    cases hf
  · exact hin (key, wv) (mem_entries.2 hf)

theorem txn_conflict (rt : Runtime) (hw : kv.Wf) (hcmp : s.cmps.all kv.compare = false) :
    ∃ revision, kv.txn rt s.commitTxn = .ok (kv, .ok ⟨revision, false,
      if s.serializable then s.rset.entries.map fun e =>
        some (.responseRange ⟨kv.rev, ((kv.contentsOf 0).find e.1).toList, false⟩) else []⟩) := by
  have hreqs : (if (false : Bool) then s.commitTxn.success else s.commitTxn.failure) =
      if s.serializable then s.gets else [] := rfl
  rcases hser : s.serializable with _ | _
  · rw [hser] at hreqs
    exact txn_eq hcmp hreqs rfl rfl
  · rw [hser] at hreqs
    exact txn_eq hcmp hreqs (checkRanges_gets hw _) (unions_gets hw _)

theorem find_prefetched {P : Bytes → RangeResponse → Prop} (f : Bytes → RangeResponse)
    (hf : ∀ key, P key (f key)) : ∀ (es : List (Bytes × RangeResponse))
    {m : OrdMap Bytes RangeResponse}, (∀ key resp, m.find key = some resp → P key resp) →
    ∀ key resp, ((es.zip (es.map fun e => some (.responseRange (f e.1)))).foldl Stm.prefetchOne
      m).find key = some resp → P key resp
  | [], _, hm => hm
  | e :: es, m, hm => by
    refine find_prefetched f hf es (m := m.insert e.1 (f e.1)) fun key resp h => ?_
    rw [find_insert] at h
    split_ifs at h with hkey
    · rw [← hkey, ← some.inj h]
      exact hf e.1
    · exact hm key resp h

/-- What an STM comes with to an attempt. -/
structure Stm.Ready (kv : Kv) (s : Stm) : Prop where
  prefetch : ∀ key resp, s.prefetch.find key = some resp → Seen kv s.serializable key resp
  plain : s.serializable = false → s.prefetch = .empty ∧ s.getRev = none

theorem Stm.Ready.reset (h : s.Ready kv) : s.reset.Inv kv :=
  ⟨fun key resp hr => (by cases hr), h.prefetch, fun key hr => absurd rfl hr, h.plain,
    fun key wv hw => (by cases hw)⟩

theorem conflicted_ready (hw : kv.Wf) (hs : s.Inv kv) :
    (s.conflicted (if s.serializable then s.rset.entries.map fun e =>
      some (.responseRange ⟨kv.rev, ((kv.contentsOf 0).find e.1).toList, false⟩) else [])).Ready
        kv := by
  have hone : (0 : ℤ) ≤ kv.rev := by
    have := hw.one_le
    omega
  unfold Stm.conflicted
  split_ifs with hser
  · refine ⟨?_, fun hplain => ?_⟩
    · exact find_prefetched (fun key => ⟨kv.rev, ((kv.contentsOf 0).find key).toList, false⟩)
        (fun key => seen_of_range hw hone fun _ => rfl) _ hs.rset
    · have hplain : s.serializable = false := hplain
      rw [hser] at hplain
      cases hplain
  · exact ⟨hs.prefetch, hs.plain⟩

theorem change_afterWrites (hs : s.Inv kv) (key : Bytes) : Kv.Change (kv.rev + 1) key
    (kv.contents.find key) (afterWrites kv.rev kv.contents s.wset key) := by
  unfold afterWrites
  rcases hf : s.wset.find key with _ | wv
  · exact .inl rfl
  · rcases hs.fits key wv hf with ⟨val, lease, hop⟩ | hop
    · refine .inr (.inr ⟨putKV (kv.rev + 1) key val lease (kv.contents.find key), ?_, rfl,
        rfl, rfl⟩)
      simp only [written, hop]
    · refine .inr (.inl ?_)
      simp only [written, hop]

/-- A commit is made where its comparisons fail, or every key that was seen is there, and for the
serializable STM none that was not. -/
def steady (_ : Fate) (w : StmWorld) : StmRequest → Bool
  | .commit s _ => !s.cmps.all w.kv.compare || s.rset.entries.all fun e =>
    if e.2.kvs.isEmpty then !s.serializable || (w.kv.contents.find e.1).isNone
    else (w.kv.contents.find e.1).isSome
  | _ => true

abbrev steadyExec (rt : Runtime) := Program.guarded steady (stmExec rt)

theorem steadyExec_within (rt : Runtime) : StmWithin rt (steadyExec rt) :=
  fun _ _ _ _ h => (Program.guarded_eq_some steady h).2

theorem agrees_of_steady {w : StmWorld} (hw : w.kv.Wf) (hs : s.Inv w.kv)
    (hsteady : steady fate w (.commit s apply) = true) (hcmp : s.cmps.all w.kv.compare = true) :
    Agrees w.kv.contents s := by
  intro key resp hf
  have hmem : (key, resp) ∈ s.rset.entries := mem_entries.2 hf
  have hthere : (if resp.kvs.isEmpty then !s.serializable || (w.kv.contents.find key).isNone
      else (w.kv.contents.find key).isSome) = true := by
    unfold steady at hsteady
    simp only [hcmp, Bool.not_true, Bool.false_or] at hsteady
    exact all_eq_true.1 hsteady _ hmem
  refine (hs.rset key resp hf).current hw ?_ (fun hne => ?_) fun hempty hser => ?_
  · exact all_eq_true.1 hcmp _ (mem_map_of_mem hmem)
  · rw [if_neg (by simpa using hne)] at hthere
    exact isSome_iff_ne_none.1 hthere
  · rw [if_pos (by rw [hempty]; rfl), hser] at hthere
    exact isNone_iff_eq_none.1 hthere

theorem exec_commit {w w' : StmWorld} {x : StmResponse} (hw : w.Wf) (hs : s.Inv w.kv)
    (hatomic : ∀ c, Agrees c s → atomically c apply .empty = (true, s.wset))
    (h : steadyExec rt fate w (.commit s apply) = some (w', x)) :
    Advances w w' ∧ ∀ resp, x = .txn resp → resp.succeeded = false →
      (s.conflicted resp.responses).Ready w'.kv := by
  obtain ⟨hsteady, hexec⟩ := Program.guarded_eq_some steady h
  have hexec : w.commit rt fate s apply = some (w', x) := hexec
  unfold StmWorld.commit at hexec
  rcases hcheck : V3rpc.checkTxnRequest s.commitTxn with e | _ <;> simp only [hcheck] at hexec
  · rcases stmCall_eq (some.inj hexec) with ⟨rfl, rfl⟩ | ⟨rfl | rfl, rfl⟩
    all_goals exact ⟨.refl _, fun resp hresp => (by cases hresp)⟩
  rcases hcmp : s.cmps.all w.kv.compare with _ | _
  · obtain ⟨revision, htxn⟩ := txn_conflict rt hw.kv hcmp
    simp only [htxn] at hexec
    rcases stmCall_eq (some.inj hexec) with ⟨rfl, rfl⟩ | ⟨rfl | rfl, rfl⟩
    · refine ⟨.refl _, fun resp hresp _ => ?_⟩
      obtain rfl := StmResponse.txn.inj hresp
      exact conflicted_ready hw.kv hs
    all_goals exact ⟨.refl _, fun resp hresp => (by cases hresp)⟩
  · obtain ⟨st, resp, htxn, hsucc, hsame, hafter⟩ := txn_commit rt hs hcmp
    simp only [htxn] at hexec
    have hagrees := agrees_of_steady hw.kv hs hsteady hcmp
    have hadvance : Advances w (w.committed s apply (w.kv.commit st) resp.succeeded) := by
      unfold StmWorld.committed
      rw [hsucc, if_pos rfl]
      refine fun _ => ⟨⟨hw.kv.commit fun key => ?_, fun c hc => ?_⟩, Kv.extends_commit _ _⟩
      · rw [hafter]
        exact change_afterWrites hs key
      · rcases mem_append.1 hc with hc | hc
        · exact hw.serial c hc
        · obtain rfl := mem_singleton.1 hc
          refine ⟨hagrees, hatomic _ hagrees, fun key => ?_⟩
          rw [Kv.contents_commit hsame]
          exact hafter key
    rcases stmCall_eq (some.inj hexec) with ⟨rfl, rfl⟩ | ⟨rfl | rfl, rfl⟩
    · refine ⟨hadvance, fun resp' hresp hfail => ?_⟩
      obtain rfl := StmResponse.txn.inj hresp
      rw [hsucc] at hfail
      cases hfail
    · exact ⟨hadvance, fun resp hresp => (by cases hresp)⟩
    · exact ⟨.refl _, fun resp hresp => (by cases hresp)⟩

end Commit

section Clients

variable {rt : Runtime} {w : StmWorld} {s : Stm}

theorem runSTM_ensures (apply : ℕ → Apply) : ∀ {fuel n : ℕ} {s : Stm} {w : StmWorld}, w.Wf →
    s.Ready w.kv → Ensures (steadyExec rt) advancing (fun _ _ => True) w (runSTM apply fuel n s)
  | 0, _, _, _, _, _ =>
    stmAsk_ensures fun _ _ _ _ _ hx => (by cases steadyExec_within rt _ _ _ _ hx)
  | fuel + 1, n, s, w, hw, hs => by
    refine (interpret_ensures (steadyExec_within rt) hw hs.reset).bind fun w₁ r hr => ?_
    rcases r with e | ⟨s', _ | _⟩
    · exact fun _ _ => trivial
    · exact fun _ _ => trivial
    obtain ⟨hinv, -, -, hatomic⟩ := hr.2 _ rfl
    refine stmAsk_ensures fun w₂ h₂ fate w₂' x hx => ?_
    obtain ⟨hw₂, he⟩ := h₂ hr.1
    obtain ⟨hadvance, hready⟩ := exec_commit hw₂ (hinv.extends he) hatomic hx
    refine ⟨hadvance, ?_⟩
    cases x with
    | txn resp =>
      change Ensures _ _ _ _ (if resp.succeeded then _ else _)
      split_ifs with hsucc
      · exact fun _ _ => trivial
      · exact runSTM_ensures apply (hadvance hw₂).1 (hready resp rfl (Bool.eq_false_iff.2 hsucc))
    | _ => exact fun _ _ => trivial

theorem advances_put (p : PutRequest) : Advances w { w with kv := w.kv.put p } :=
  fun hw => ⟨⟨hw.kv.put p, hw.serial⟩, Kv.extends_put _ p⟩

theorem advances_deleteRange (dr : DeleteRangeRequest) :
    Advances w { w with kv := w.kv.deleteRange dr } :=
  fun hw => ⟨⟨hw.kv.deleteRange dr, hw.serial⟩, Kv.extends_deleteRange _ dr⟩

theorem advances_call {fate : Fate} {w' w'' : StmWorld} {answer x : StmResponse}
    (hadvance : Advances w w'') (h : w.call fate w'' answer = (w', x)) : Advances w w' := by
  rcases stmCall_eq h with ⟨rfl, -⟩ | ⟨rfl | rfl, -⟩
  · exact hadvance
  · exact hadvance
  · exact .refl _

theorem job_ensures (fuel : ℕ) : ∀ {job : StmJob} {w : StmWorld}, w.Wf →
    Ensures (steadyExec rt) advancing (fun _ _ => True) w (job.program fuel)
  | .stm false apply, w, hw =>
    runSTM_ensures apply hw ⟨fun _ _ h => (by cases h), fun _ => ⟨rfl, rfl⟩⟩
  | .stm true apply, w, hw =>
    runSTM_ensures apply hw ⟨fun _ _ h => (by cases h), fun h => (by cases h)⟩
  | .put p next, w, hw => by
    refine stmAsk_ensures fun w₁ h₁ fate w₁' x hx => ?_
    have hx : w₁.put fate p = (w₁', x) := some.inj (steadyExec_within rt _ _ _ _ hx)
    have hadvance : Advances w₁ w₁' := by
      unfold StmWorld.put at hx
      rcases hcheck : V3rpc.checkPutRequest p with e | _ <;> simp only [hcheck] at hx
      · exact advances_call (.refl _) hx
      · exact advances_call (advances_put p) hx
    exact ⟨hadvance, job_ensures fuel (hadvance (h₁ hw).1).1⟩
  | .delete dr next, w, hw => by
    refine stmAsk_ensures fun w₁ h₁ fate w₁' x hx => ?_
    have hx : w₁.delete fate dr = (w₁', x) := some.inj (steadyExec_within rt _ _ _ _ hx)
    have hadvance : Advances w₁ w₁' := by
      unfold StmWorld.delete at hx
      rcases hcheck : V3rpc.checkDeleteRequest dr with e | _ <;> simp only [hcheck] at hx
      · exact advances_call (.refl _) hx
      · exact advances_call (advances_deleteRange dr) hx
    exact ⟨hadvance, job_ensures fuel (hadvance (h₁ hw).1).1⟩
  | .stop, _, _ => fun _ _ => trivial

/-- The clients at their first requests, and a service where nothing was committed by an STM. -/
def stmClients (fuel : ℕ) (kv : Kv) (jobs : List StmJob) :
    StmWorld × List (StmClient (Except Err (Option TxnResponse))) :=
  (⟨kv, []⟩, jobs.map (StmJob.program fuel))

/-- Every commit of an STM is as if its apply function had run at once where it was made, in every
schedule of steady steps. -/
theorem commits_serial (rt : Runtime) (fuel : ℕ) (kv : Kv) (hkv : kv.Wf) (jobs : List StmJob)
    (schedule : List (ℕ × Fate))
    (hsteady : Program.Heeds steady (stmExec rt) (stmClients fuel kv jobs) schedule) :
    ∀ c ∈ (Program.contend (stmExec rt) (stmClients fuel kv jobs) schedule).1.commits,
      Serial c := by
  have hw : StmWorld.Wf ⟨kv, []⟩ := ⟨hkv, fun c hc => (by cases hc)⟩
  have hall : Program.AllEnsure (steadyExec rt) (fun _ => advancing) (fun _ _ _ => True)
      (stmClients fuel kv jobs) := by
    intro i p hi
    obtain ⟨job, -, rfl⟩ := Option.map_eq_some_iff.1 ((List.getElem?_map ..).symm.trans hi)
    exact job_ensures fuel hw
  rw [← Program.contend_guarded steady hsteady]
  have hend : (Program.contend (steadyExec rt) (stmClients fuel kv jobs) schedule).1.Wf :=
    hall.contend_inv (fun _ w w' hguar hw => (hguar hw).1) (fun _ _ _ _ _ hguar => hguar) hw
  exact hend.serial

def readThenPut : List Bytes → Apply
  | [] => .request (.put [114] [49] 0) fun _ => .done true
  | key :: keys => .request (.get key) fun _ => readThenPut keys

def putAndDelete : List StmJob :=
  [.put ⟨[97], [49], 0⟩ (.delete { key := [97] } .stop), .stm false fun _ => readThenPut [[97]]]

def putOnce : List StmJob :=
  [.put ⟨[98], [49], 0⟩ .stop, .stm true fun _ => readThenPut [[97], [98]]]

def turn (i : ℕ) : ℕ × Fate := (i, .answered)

theorem commits_serial_once :
    (Program.contend (stmExec Runtime.stable) (stmClients 9 .initial putAndDelete)
      [turn 0, turn 1, turn 1]).1.commits.length = 1 ∧
    ∀ c ∈ (Program.contend (stmExec Runtime.stable) (stmClients 9 .initial putAndDelete)
      [turn 0, turn 1, turn 1]).1.commits, Serial c :=
  ⟨by decide +kernel, commits_serial Runtime.stable 9 .initial Kv.initial_wf putAndDelete _
    (by decide +kernel)⟩

/-- Something the commit has read is not there as it was seen. -/
def Committed.stale (c : Committed) : Bool :=
  c.stm.rset.entries.any fun e => e.2.kvs.head? ≠ c.before.find e.1

theorem exists_not_serial {cs : List Committed} (h : cs.any Committed.stale = true) :
    ∃ c ∈ cs, ¬ Serial c := by
  obtain ⟨c, hc, hstale⟩ := any_eq_true.1 h
  obtain ⟨e, he, hne⟩ := any_eq_true.1 hstale
  exact ⟨c, hc, fun hserial => of_decide_eq_true hne
    (hserial.agrees e.1 e.2 (find_of_mem he))⟩

/-- The key is deleted between its read and the commit; the key is put between the first read and
its own. -/
theorem commits_not_serial :
    (∃ c ∈ (Program.contend (stmExec Runtime.stable) (stmClients 9 .initial putAndDelete)
      [turn 0, turn 1, turn 0, turn 1]).1.commits, ¬ Serial c) ∧
    ∃ c ∈ (Program.contend (stmExec Runtime.stable) (stmClients 9 .initial putOnce)
      [turn 1, turn 0, turn 1, turn 1]).1.commits, ¬ Serial c :=
  ⟨exists_not_serial (by decide +kernel), exists_not_serial (by decide +kernel)⟩

end Clients

end EtcdCompat.Concurrency
