import EtcdCompat.Proofs.StoreCompact

/-!
# Multi-version reads

A range above the last compaction returns the contents after the transactions up to its revision,
and once no job is left the key bucket holds the records above the last compaction and the newest
record of each key live at it.
-/

namespace EtcdCompat.Store

open History (live)
open Contents (cut snapshotAt)

variable {s s' s₀ : Store} {h h' : History} {rev : ℤ}

/-- What a range of some contents is. -/
def rangeOf (m : Contents) (key : Bytes) (stop : Option Bytes) (limit : ℤ) : List KeyValue :=
  cut limit ((m.within key stop).map (·.2))

theorem Idle.curRev_main (hs : Idle s h) : s.curRev = s.currentRev.main := by
  rw [hs.1.curRev_eq, hs.2, hs.1.cur]
  rfl

theorem Idle.range_eq (hs : Idle s h) {m : Contents} (hpos : 1 ≤ rev)
    (hcur : rev ≤ s.currentRev.main) (hc : s.compactMainRev < rev)
    (hm : ∀ k, m.find k = (live h.log k rev).map (·.2)) (key : Bytes) (stop : Option Bytes)
    (limit : ℤ) : s.range key stop limit rev
      = .ok ⟨rangeOf m key stop limit, s.currentRev.main, none⟩ := by
  have hmain := hs.curRev_main
  have hread : s.readRev rev = rev := if_neg (by omega)
  rw [Store.range, hs.1.txnBegin hs.2, ← hmain]
  exact hs.1.rangeKeys_eq key stop limit (hmain ▸ hcur) (by rw [hread]; exact hc)
    (by rw [hread]; exact hm)

theorem Idle.range_current (hs : Idle s h) (hrev : rev ≤ 0) (key : Bytes) (stop : Option Bytes)
    (limit : ℤ) : s.range key stop limit rev = s.range key stop limit s.currentRev.main := by
  have hpos := hs.1.wf.main_pos
  have hmain := hs.curRev_main
  have hcur : s.currentRev.main = h.main := by rw [hs.1.cur]
  have hread : s.readRev rev = s.readRev s.currentRev.main := by
    unfold readRev
    rw [if_pos hrev, if_neg (by omega), hmain]
  rw [Store.range, Store.range, hs.1.txnBegin hs.2, rangeKeys_def, rangeKeys_def, hread,
    if_neg (by omega : ¬ rev > s.curRev), if_neg (by omega : ¬ s.currentRev.main > s.curRev)]

theorem range_reads_snapshot (le : Option Lessor) (evs : List Event) :
    Yields LeaseOnly (fun s =>
      (∀ key stop limit rev, 1 ≤ rev → s.compactMainRev < rev → rev ≤ s.currentRev.main →
        s.range key stop limit rev = .ok
          ⟨rangeOf (snapshotAt (Event.txns evs) rev) key stop limit, s.currentRev.main, none⟩)
      ∧ ∀ key stop limit rev, rev ≤ 0 →
        s.range key stop limit rev = s.range key stop limit s.currentRev.main) (run le evs) := by
  refine ((run_sim le evs).yields (History.run_traced le evs)).mono fun s hs => ?_
  obtain ⟨h, hs, ht⟩ := hs
  exact ⟨fun key stop limit rev hpos hc hcur =>
      hs.range_eq hpos hcur hc (ht.snapshotAt rev) key stop limit,
    fun key stop limit rev hrev => hs.range_current hrev key stop limit⟩

/-- At revision 0, above the initial compaction revision, the range is not that of no transaction:
it is the current one. -/
theorem range_zero_not_snapshot : ¬ ∀ (le : Option Lessor) (evs : List Event) (s : Store),
    run le evs = .ok s → ∀ key stop limit rev, s.compactMainRev < rev → rev ≤ s.currentRev.main →
      s.range key stop limit rev = .ok
        ⟨rangeOf (snapshotAt (Event.txns evs) rev) key stop limit, s.currentRev.main, none⟩ := by
  intro hall
  have heval : (run none [.txn [.put [1] [2] 0]]).toOption.map (fun s => (s.compactMainRev,
      s.currentRev.main, (s.range [1] none 0 0).toOption.map (·.kvs.length)))
      = some (-1, 2, some 1) := by decide +kernel
  rcases hs : run none [.txn [.put [1] [2] 0]] with e | s
  · simp [hs, Except.toOption] at heval
  · simp [hs, Except.toOption] at heval
    obtain ⟨hc, hmain, hrange⟩ := heval
    have hnone : rangeOf (snapshotAt (Event.txns [.txn [.put [1] [2] 0]]) 0) [1] none 0 = [] := by
      decide +kernel
    rw [hall none _ s hs [1] none 0 0 (by omega) (by omega), hnone] at hrange
    simp at hrange

def Event.compacts : Event → Bool
  | .compact _ => true
  | .batch => true
  | _ => false

section Uncompacted

/-- Operations leave what the last compaction has set. -/
def Keeps (s₀ : Store) : Except Fatal Store → Prop :=
  Yields (fun _ => True) fun s => s.compactMainRev = s₀.compactMainRev
    ∧ s.scheduledCompact = s₀.scheduledCompact ∧ s.fifoSched = s₀.fifoSched

theorem ops_keeps (s : Store) (ops : List Op) : Keeps s (ops.foldlM txnOp s) :=
  Yields.foldlM (fun op _ _ ha => txnOp_writes (fun _ _ _ _ h => h) ha op) ⟨rfl, rfl, rfl⟩

theorem txn_keeps (s : Store) (ops : List Op) : Keeps s (s.txn ops) :=
  (s.txnBegin.ops_keeps ops).bind fun _ hs => hs

theorem run_keeps (le : Option Lessor) (evs : List Event) (hevs : ∀ ev ∈ evs, ¬ ev.compacts) :
    Yields (fun _ => True) (fun s => s.compactMainRev = -1 ∧ s.fifoSched = []) (run le evs) := by
  refine Yields.foldlM (P := fun a : Store => a.compactMainRev = -1 ∧ a.fifoSched = [])
    (fun ev hev a ha => ?_) ⟨rfl, rfl⟩
  have hno := hevs ev hev
  rcases ev with ops | rev | _ | le
  · exact (a.txn_keeps ops).mono fun s hs => ⟨hs.1.trans ha.1, hs.2.2.trans ha.2⟩
  · exact absurd rfl hno
  · exact absurd rfl hno
  · exact ha

theorem run_filter (evs : List Event) : ∀ h : History,
    (evs.filter fun ev => !ev.compacts).foldlM History.step h = evs.foldlM History.step h := by
  induction evs with
  | nil => exact fun _ => rfl
  | cons ev evs ih =>
    intro h
    rcases ev with ops | rev | _ | le
    · rw [List.filter_cons_of_pos rfl, List.foldlM_cons, List.foldlM_cons]
      exact congrArg _ (funext ih)
    · exact ih h
    · exact ih h
    · exact ih _

end Uncompacted

section Transparent

/-- Whether a record is the newest of its key up to a main revision. -/
def NewestUpTo (bucket : OrdMap RevKey KeyValue) (c : ℤ) (rk : RevKey) (kv : KeyValue) : Prop :=
  rk.rev.main ≤ c ∧ ∀ rk' kv', bucket.find rk' = some kv' → kv'.key = kv.key →
    rk'.rev.main ≤ c → rk' ≤ rk

theorem Sim.bucket_eq (hs : Sim s h) (hc : s.compactMainRev = -1) (rk : RevKey) (kv : KeyValue) :
    s.keyBucket.find rk = some kv ↔ h.log.find rk = some kv := by
  refine ⟨hs.bucket rk kv, fun hf => hs.above rk kv hf ?_⟩
  have := (hs.wf.bound rk kv hf).2.1
  omega

theorem Sim.bucket_done (hs : Sim s h) (hdone : s.fifoSched = []) (rk : RevKey) (kv : KeyValue) :
    s.keyBucket.find rk = some kv ↔ h.log.find rk = some kv ∧ (s.compactMainRev < rk.rev.main
      ∨ (live h.log kv.key s.compactMainRev).isSome ∧ NewestUpTo h.log s.compactMainRev rk kv) := by
  constructor
  · intro hf
    have hlog := hs.bucket rk kv hf
    refine ⟨hlog, or_iff_not_imp_left.2 fun hle => ?_⟩
    obtain ⟨k, kv', hl⟩ := hs.done_live hdone hf (not_lt.1 hle)
    obtain ⟨hfind, hk, hmain⟩ := History.find_of_live hl
    have hrk : rk = ⟨rk.rev, false⟩ := by
      rcases rk with ⟨rev, _ | _⟩
      · rfl
      · exact absurd hlog (hs.wf.unique rev kv' kv hfind)
    rw [← hrk, hlog, Option.some.injEq] at hfind
    subst hfind
    obtain ⟨-, -, -, hmax⟩ := History.newest_eq_some_iff.1 (History.live_eq_some_iff.1 hl)
    rw [← hrk] at hmax
    rw [hk, hl]
    exact ⟨rfl, hmain, fun rk' kv' h1 h2 h3 => hmax rk' kv' h1 (h2.trans hk) h3⟩
  · rintro ⟨hlog, hlt | ⟨hlive, hle, hmax⟩⟩
    · exact hs.above rk kv hlog hlt
    · obtain ⟨⟨rev, kv'⟩, hl⟩ := Option.isSome_iff_exists.1 hlive
      obtain ⟨hfind, hk, hmain, hnew⟩ :=
        History.newest_eq_some_iff.1 (History.live_eq_some_iff.1 hl)
      have hrk : rk = ⟨rev, false⟩ :=
        le_antisymm (hnew rk kv hlog rfl hle) (hmax _ kv' hfind hk hmain)
      rw [hrk] at hlog ⊢
      rw [Option.some.inj (hlog.symm.trans hfind)]
      exact hs.reads kv.key _ rev kv' le_rfl hl

theorem Sim.rangeKeys_congr (hs : Sim s h) (hs₀ : Sim s₀ h) {rangeRev : ℤ}
    (hc : s.compactMainRev < s.readRev rangeRev) (hc₀ : s₀.compactMainRev < s₀.readRev rangeRev)
    (key : Bytes) (stop : Option Bytes) (limit : ℤ) :
    s.rangeKeys key stop limit rangeRev = s₀.rangeKeys key stop limit rangeRev := by
  have hcur : s.currentRev = s₀.currentRev := hs.cur.trans hs₀.cur.symm
  have hcurRev : s.curRev = s₀.curRev := by
    unfold curRev
    rw [hcur]
  have hread : s.readRev rangeRev = s₀.readRev rangeRev := by
    unfold readRev
    rw [hcurRev]
  rw [rangeKeys_def, rangeKeys_def, if_neg (not_le.2 hc), if_neg (not_le.2 hc₀), hcurRev, hcur,
    hread]
  rw [hread] at hc
  obtain ⟨l, hl, hans, hkvs⟩ := hs.rangeKeys_answers key stop limit hc.le
  obtain ⟨l₀, hl₀, hans₀, hkvs₀⟩ := hs₀.rangeKeys_answers key stop limit hc₀.le
  obtain rfl : l = l₀ := OrdMap.entries_ext hans.sorted hans₀.sorted fun e => by
    rw [hs.answers hc.le hans, hs₀.answers hc₀.le hans₀]
  have hrec : (l.map (·.2)).map (recordOf s.keyBucket) =
      (l.map (·.2)).map (recordOf s₀.keyBucket) := by
    refine List.map_congr_left fun rev hrev => ?_
    obtain ⟨e, he, rfl⟩ := List.mem_map.1 hrev
    obtain ⟨-, kv, hkv⟩ := (hs.answers hc.le hans).1 he
    rw [recordOf, recordOf, hs.reads _ _ _ _ hc.le hkv, hs₀.reads _ _ _ _ hc₀.le hkv]
  rw [hl, hl₀]
  simp only [bind, Except.bind, hkvs, hkvs₀, hrec]

/-- The store `s` after some transactions and perhaps within one more, against the store `s₀` it
would be without any compaction. -/
structure Transparent (txns : List (List Op)) (s s₀ : Store) : Prop where
  currentRev : s.currentRev = s₀.currentRev
  uncompacted : s₀.compactMainRev = -1
  range_ok : ∀ key stop limit rev, ∃ res, s.rangeKeys key stop limit rev = .ok res
  range_eq : ∀ key stop limit rev, s.compactMainRev < s.readRev rev →
    s.rangeKeys key stop limit rev = s₀.rangeKeys key stop limit rev
  bucket : s.fifoSched = [] → ∀ rk kv, s.keyBucket.find rk = some kv ↔
    s₀.keyBucket.find rk = some kv ∧ (s.compactMainRev < rk.rev.main
      ∨ ((snapshotAt txns s.compactMainRev).find kv.key).isSome
        ∧ NewestUpTo s₀.keyBucket s.compactMainRev rk kv)

theorem Sim.transparent {txns : List (List Op)} (hs : Sim s h) (hs₀ : Sim s₀ h)
    (hc₀ : s₀.compactMainRev = -1) (hsnap : ∀ k,
      (snapshotAt txns s.compactMainRev).find k = (live h.log k s.compactMainRev).map (·.2)) :
    Transparent txns s s₀ where
  currentRev := hs.cur.trans hs₀.cur.symm
  uncompacted := hc₀
  range_ok := hs.rangeKeys_ok
  range_eq key stop limit rev hc := by
    refine hs.rangeKeys_congr hs₀ hc ?_ key stop limit
    have hpos := hs.wf.main_pos
    have hcur := hs₀.curRev_eq
    unfold readRev
    split_ifs at hcur ⊢ <;> omega
  bucket hdone rk kv := by
    have hnew : NewestUpTo s₀.keyBucket s.compactMainRev rk kv
        ↔ NewestUpTo h.log s.compactMainRev rk kv := by
      simp only [NewestUpTo, hs₀.bucket_eq hc₀]
    rw [hs.bucket_done hdone, hs₀.bucket_eq hc₀, hnew, hsnap, Option.isSome_map]

/-- Any run, with or without a transaction begun: the same run without its compactions stops with
the same panic, one over a lease, or both go on and the compactions are not seen. -/
theorem compaction_transparent (le : Option Lessor) (evs : List Event) (ops : List Op) :
    Yields LeaseOnly (fun _ => True) (run le evs >>= fun s => ops.foldlM txnOp s.txnBegin)
      ∧ Agree (Transparent (Event.txns evs)) (run le evs >>= fun s => ops.foldlM txnOp s.txnBegin)
          (run le (evs.filter fun ev => !ev.compacts) >>= fun s =>
            ops.foldlM txnOp s.txnBegin) := by
  have hkeeps := run_keeps le (evs.filter fun ev => !ev.compacts) fun ev hev => by
    simpa using (List.mem_filter.1 hev).2
  have hsim₀ := run_sim le (evs.filter fun ev => !ev.compacts)
  rw [show History.run le (evs.filter fun ev => !ev.compacts) = History.run le evs from
    run_filter evs _] at hsim₀
  have hsim := (run_sim le evs).and_right (History.run_traced le evs)
  constructor
  · refine ((run_sim le evs).yields (History.run_traced le evs)).bind fun s hs => ?_
    obtain ⟨h, ⟨hs, hsub⟩, -⟩ := hs
    rw [hs.txnBegin hsub]
    exact ((hs.ops ops).yields (History.WF.ops ops hs.wf)).mono fun _ _ => trivial
  · refine ((hsim.join hsim₀).and_right hkeeps).bind fun s s₀ hs => ?_
    obtain ⟨⟨h, ⟨⟨hs, hsub⟩, ht⟩, hs₀, -⟩, hc₀, -⟩ := hs
    rw [hs.txnBegin hsub, hs₀.txnBegin hsub]
    have hops := (hs.ops ops).and_right (History.WF.ops ops hs.wf)
    have hopen := (((hops.and_left (s.ops_keeps ops)).join (hs₀.ops ops)).and_right
      (s₀.ops_keeps ops))
    refine hopen.mono fun s' s₀' hs' => ?_
    obtain ⟨⟨h', ⟨⟨hs', hext, -⟩, hc⟩, hs₀'⟩, hc₀'⟩ := hs'
    refine hs'.transparent hs₀' (hc₀'.1.trans hc₀) fun k => ?_
    rw [ht.snapshotAt, hc.1, hext.live k _ hs.compacted]

end Transparent

end EtcdCompat.Store
