import EtcdCompat.Proofs.StoreRange

/-!
# Compactions, batches and runs

A compaction trims the index and queues a job with the revisions live at it; a batch removes records
the job does not keep. Both keep `Sim`: a record that can still be read was live at every earlier
compaction above it, so every job keeps it.
-/

namespace EtcdCompat.Store

open List

open History (live)

variable {s : Store} {h : History}

theorem Sim.compact (hs : Sim s h) (rev : ℤ) : ∃ s' err, s.compact rev = .ok (s', err)
    ∧ Sim s' h := by
  unfold Store.compact
  split_ifs with h1 h2
  · exact ⟨s, _, rfl, hs⟩
  · exact ⟨s, _, rfl, hs⟩
  obtain ⟨ti, keep, hti, hwf, hlook, hkeep⟩ := hs.index.compact rev
  rw [hti]
  refine ⟨_, _, rfl, ?_⟩
  have hc : s.compactMainRev ≤ rev := (not_le.1 h1).le
  have hmain : rev ≤ h.main := by
    rw [hs.cur] at h2
    exact not_lt.1 h2
  refine ⟨hs.wf, hs.cur, hmain, hwf, fun k r hr => ?_, hs.bucket,
    fun rk kv hf hlt => hs.above rk kv hf (hc.trans_lt hlt),
    fun k r rev' kv hr hl => hs.reads k r rev' kv (hc.trans hr) hl, hs.lessor, fun j hj => ?_,
    fun j hj rk kv hf hlt hle => ?_, fun j hj => ?_, ⟨hs.finished.1.trans hc, hs.finished.2⟩,
    fun hnil => ?_, hs.upper⟩
  · rw [hlook k r hr]
    exact hs.look k r (hc.trans hr)
  · rcases mem_append.1 hj with hj | hj
    · exact ⟨(hs.jobs j hj).1.trans hc, (hs.jobs j hj).2⟩
    · obtain rfl := mem_singleton.1 hj
      refine ⟨le_rfl, fun rev' => ?_⟩
      simp only [hkeep, (hs.look _ rev hc).fst]
      simp
  · rcases mem_append.1 hj with hj | hj
    · exact hs.swept j hj rk kv hf hlt hle
    · obtain rfl := mem_singleton.1 hj
      obtain ⟨-, hpos, -⟩ := hs.wf.bound rk kv (hs.bucket rk kv hf)
      rw [RevKey.lt_plain_iff, Revision.lt_iff] at hlt
      simp only [] at hlt
      omega
  · rw [getLast?_concat, Option.some.injEq] at hj
    rw [← hj]
  · simp at hnil

theorem Sim.compact_eq (hs : Sim s h) {rev : ℤ} (hlow : s.compactMainRev < rev)
    (hhigh : rev ≤ s.currentRev.main) : ∃ kvindex keep, s.compact rev = .ok ({ s with
      compactMainRev := rev
      scheduledCompact := some rev
      kvindex := kvindex
      fifoSched := s.fifoSched ++ [⟨rev, keep, ⟨⟨0, 0⟩, false⟩⟩] }, none) := by
  obtain ⟨kvindex, keep, hti, -⟩ := hs.index.compact rev
  refine ⟨kvindex, keep, ?_⟩
  rw [Store.compact, if_neg (not_le.2 hlow), if_neg (not_lt.2 hhigh), hti]
  rfl

section Batch

variable {j : Job} {js : List Job} {bucket : OrdMap RevKey KeyValue} {rk : RevKey}
  {kv kv' : KeyValue}
  {kv : KeyValue} {rk rk' : RevKey}

def batchKeys (bucket : OrdMap RevKey KeyValue) (j : Job) : List RevKey :=
  ((bucket.slice j.last ⟨⟨j.compactMainRev + 1, 0⟩, false⟩).take batchsize).map (·.1)

def batchBucket (bucket : OrdMap RevKey KeyValue) (j : Job) : OrdMap RevKey KeyValue :=
  (batchKeys bucket j).foldl (fun b key => if key.rev ∈ j.keep then b else b.erase key) bucket

theorem scheduleCompaction_cons (hj : s.fifoSched = j :: js) :
    s.scheduleCompaction = match (batchKeys s.keyBucket j).getLast? with
      | none => { s with
          keyBucket := batchBucket s.keyBucket j
          finishedCompact := some j.compactMainRev
          fifoSched := js }
      | some key =>
        if (batchKeys s.keyBucket j).length < batchsize then { s with
          keyBucket := batchBucket s.keyBucket j
          finishedCompact := some j.compactMainRev
          fifoSched := js }
        else { s with
          keyBucket := batchBucket s.keyBucket j
          fifoSched := { j with last := ⟨⟨key.rev.main, key.rev.sub + 1⟩, false⟩ } :: js } := by
  unfold scheduleCompaction
  rw [hj]
  rfl

theorem scheduleCompaction_frame (s : Store) : ∃ keyBucket finishedCompact fifoSched,
    s.scheduleCompaction = { s with keyBucket, finishedCompact, fifoSched } := by
  rcases hj : s.fifoSched with _ | ⟨j, js⟩
  · rw [Store.scheduleCompaction, hj]
    exact ⟨s.keyBucket, s.finishedCompact, s.fifoSched, rfl⟩
  · rw [scheduleCompaction_cons hj]
    split
    · exact ⟨_, _, _, rfl⟩
    · split_ifs
      · exact ⟨_, _, _, rfl⟩
      · exact ⟨_, s.finishedCompact, _, rfl⟩

theorem find_foldl_keep (keep : List Revision) (rk : RevKey) :
    ∀ (keys : List RevKey) (b : OrdMap RevKey KeyValue),
    (keys.foldl (fun b key => if key.rev ∈ keep then b else b.erase key) b).find rk
      = if rk ∈ keys ∧ rk.rev ∉ keep then none else b.find rk
  | [], b => by simp
  | key :: keys, b => by
    have hkey : (if key.rev ∈ keep then b else b.erase key).find rk
        = if rk = key ∧ rk.rev ∉ keep then none else b.find rk := by
      by_cases heq : rk = key
      · subst heq
        by_cases hk : rk.rev ∈ keep <;> simp [hk, OrdMap.find_erase]
      · by_cases hk : key.rev ∈ keep <;> simp [hk, heq, OrdMap.find_erase]
    rw [foldl_cons, find_foldl_keep keep rk keys, hkey]
    by_cases hk : rk.rev ∈ keep
    · simp [hk]
    · by_cases hmem : rk ∈ keys <;> simp [hk, hmem]

theorem find_batchBucket (bucket : OrdMap RevKey KeyValue) (j : Job) (rk : RevKey) :
    (batchBucket bucket j).find rk
      = if rk ∈ batchKeys bucket j ∧ rk.rev ∉ j.keep then none else bucket.find rk :=
  find_foldl_keep j.keep rk _ bucket

theorem find_of_batchBucket (hf : (batchBucket bucket j).find rk = some kv) :
    bucket.find rk = some kv ∧ (rk ∈ batchKeys bucket j → rk.rev ∈ j.keep) := by
  rw [find_batchBucket] at hf
  split_ifs at hf with hk
  exact ⟨hf, fun hmem => not_not.1 fun hn => hk ⟨hmem, hn⟩⟩

theorem mem_of_mem_batchKeys (hmem : rk ∈ batchKeys bucket j) :
    ∃ kv, bucket.find rk = some kv ∧ rk.rev < ⟨j.compactMainRev + 1, 0⟩ := by
  obtain ⟨e, he, rfl⟩ := mem_map.1 hmem
  obtain ⟨hf, -, hlt⟩ := OrdMap.mem_slice.1 (mem_of_mem_take he)
  exact ⟨e.2, hf, RevKey.lt_plain_iff.1 hlt⟩

theorem mem_batchKeys_or (hf : bucket.find rk = some kv) (hle : j.last ≤ rk)
    (hmain : rk.rev.main ≤ j.compactMainRev) :
    rk ∈ batchKeys bucket j ∨ (batchKeys bucket j).length = batchsize
      ∧ ∀ key ∈ batchKeys bucket j, key < rk := by
  have hstop : rk < ⟨⟨j.compactMainRev + 1, 0⟩, false⟩ :=
    RevKey.lt_plain_iff.2 (Revision.lt_iff.2 (.inl (Int.lt_add_one_of_le hmain)))
  have hslice := OrdMap.mem_slice.2 ⟨hf, hle, hstop⟩
  have hsorted := bucket.slice_sorted j.last ⟨⟨j.compactMainRev + 1, 0⟩, false⟩
  rw [← take_append_drop batchsize (bucket.slice _ _)] at hslice hsorted
  rcases mem_append.1 hslice with hmem | hmem
  · exact .inl (mem_map.2 ⟨_, hmem, rfl⟩)
  · refine .inr ⟨?_, fun key hkey => ?_⟩
    · have := length_pos_of_mem hmem
      rw [length_drop] at this
      rw [batchKeys, length_map, length_take]
      omega
    · obtain ⟨e, he, rfl⟩ := mem_map.1 hkey
      exact (pairwise_append.1 hsorted).2.2 e he _ hmem

variable (hs : Sim s h)
include hs

theorem Sim.le_of_keep (hj : j ∈ s.fifoSched) (hf : s.keyBucket.find rk = some kv)
    (hk : rk.rev ∈ j.keep) (hf' : h.log.find rk' = some kv') (hkey : kv'.key = kv.key)
    (hle : rk'.rev.main ≤ j.compactMainRev) : rk' ≤ rk := by
  obtain ⟨k, kv₁, hl⟩ := ((hs.jobs j hj).2 rk.rev).1 hk
  obtain ⟨hlog, hk₁, -, hmax⟩ := History.newest_eq_some_iff.1 (History.live_eq_some_iff.1 hl)
  have hrk : rk = ⟨rk.rev, false⟩ := by
    rcases rk with ⟨rev, _ | _⟩
    · rfl
    · exact absurd (hs.bucket _ _ hf) (hs.wf.unique rev kv₁ kv hlog)
  have hkv : kv₁ = kv := by
    rw [hrk] at hf
    exact Option.some.inj (hlog.symm.trans (hs.bucket _ _ hf))
  rw [hrk]
  exact hmax rk' kv' hf' (by rw [hkey, ← hkv, hk₁]) hle

theorem Sim.batch_upper (hj : s.fifoSched = j :: js)
    (hf : (batchBucket s.keyBucket j).find rk = some kv) (hf' : h.log.find rk' = some kv')
    (hkey : kv'.key = kv.key) (hlt : rk < rk') :
    (batchBucket s.keyBucket j).find rk' = some kv' := by
  have hmem : j ∈ s.fifoSched := by simp [hj]
  obtain ⟨hold, hkeep⟩ := find_of_batchBucket hf
  have hold' := hs.upper rk kv rk' kv' hold hf' hkey hlt
  rw [find_batchBucket, if_neg, hold']
  rintro ⟨hbatch, -⟩
  obtain ⟨-, -, hstop⟩ := mem_of_mem_batchKeys hbatch
  have hsub := (hs.wf.bound rk' kv' hf').2.2
  have hmain : rk'.rev.main ≤ j.compactMainRev := by
    rw [Revision.lt_iff] at hstop
    simp only [] at hstop
    omega
  have hle : rk.rev.main ≤ j.compactMainRev :=
    (Revision.main_le (RevKey.rev_le hlt.le)).trans hmain
  have hk : rk.rev ∈ j.keep := by
    by_cases hlast : rk < j.last
    · exact hs.swept j hmem rk kv hold hlast hle
    · refine hkeep ((mem_batchKeys_or hold (not_lt.1 hlast) hle).resolve_right fun hfull => ?_)
      exact absurd (hfull.2 rk' hbatch) (not_lt.2 hlt.le)
  exact absurd hlt (not_lt.2 (hs.le_of_keep hmem hold hk hf' hkey hmain))

theorem Sim.batch {js jobs : List Job} {finished : Option ℤ}
    (hj : s.fifoSched = j :: js)
    (hjobs : ∀ j' ∈ jobs, j' ∈ js ∨ j'.compactMainRev = j.compactMainRev ∧ j'.keep = j.keep
      ∧ ∀ rk kv, (batchBucket s.keyBucket j).find rk = some kv → rk < j'.last →
        rk.rev.main ≤ j.compactMainRev → rk.rev ∈ j.keep)
    (hlast : ∀ j', jobs.getLast? = some j' → j'.compactMainRev = s.compactMainRev)
    (hfin : finished = s.finishedCompact ∨ finished = some j.compactMainRev ∧ ∀ rk kv,
      (batchBucket s.keyBucket j).find rk = some kv → rk.rev.main ≤ j.compactMainRev →
        rk.rev ∈ j.keep)
    (hdone : jobs = [] → finished = some s.compactMainRev) :
    Sim { s with
      keyBucket := batchBucket s.keyBucket j
      finishedCompact := finished
      fifoSched := jobs } h := by
  have hhead := hs.jobs j (by simp [hj])
  have hjs : ∀ j' ∈ js, j' ∈ s.fifoSched := fun j' hj' => by simp [hj, hj']
  have hkept : ∀ rk kv, s.keyBucket.find rk = some kv →
      (rk.rev.main ≤ j.compactMainRev → rk.rev ∈ j.keep) →
      (batchBucket s.keyBucket j).find rk = some kv := fun rk kv hf hk => by
    rw [find_batchBucket, if_neg, hf]
    rintro ⟨hmem, hn⟩
    obtain ⟨-, -, hlt⟩ := mem_of_mem_batchKeys hmem
    obtain ⟨-, -, hsub⟩ := hs.wf.bound rk kv (hs.bucket rk kv hf)
    rw [Revision.lt_iff] at hlt
    simp only [] at hlt
    exact hn (hk (by omega))
  refine ⟨hs.wf, hs.cur, hs.compacted, hs.index, hs.look,
    fun rk kv hf => hs.bucket rk kv (find_of_batchBucket hf).1, fun rk kv hf hlt => ?_,
    fun k r rev kv hr hl => ?_, hs.lessor, fun j' hj' => ?_,
    fun j' hj' rk kv hf hlt hle => ?_, hlast, ?_, fun hnil => ?_,
    fun rk kv rk' kv' hf hf' hk hlt => hs.batch_upper hj hf hf' hk hlt⟩
  · refine hkept rk kv (hs.above rk kv hf hlt) fun hle => ?_
    simp only [] at hlt
    omega
  · refine hkept _ kv (hs.reads k r rev kv hr hl) fun hle => ?_
    exact (hhead.2 rev).2 ⟨k, kv, History.live_of_le hl hle (hhead.1.trans hr)⟩
  · rcases hjobs j' hj' with hmem | ⟨h1, h2, -⟩
    · exact hs.jobs j' (hjs j' hmem)
    · rw [h1, h2]
      exact hhead
  · rcases hjobs j' hj' with hmem | ⟨h1, h2, h3⟩
    · exact hs.swept j' (hjs j' hmem) rk kv (find_of_batchBucket hf).1 hlt hle
    · rw [h2]
      exact h3 rk kv hf hlt (h1 ▸ hle)
  · rcases hfin with hfin | ⟨hfin, hkeep⟩
    · simp only [hfin]
      exact ⟨hs.finished.1, fun rk kv hf => hs.finished.2 rk kv (find_of_batchBucket hf).1⟩
    · simp [hfin]
      exact ⟨hhead.1, fun rk kv hf hle => (hhead.2 rk.rev).1 (hkeep rk kv hf hle)⟩
  · rw [hdone hnil]
    rfl

theorem Sim.finish (hj : s.fifoSched = j :: js)
    (hlen : (batchKeys s.keyBucket j).length < batchsize) : Sim { s with
      keyBucket := batchBucket s.keyBucket j
      finishedCompact := some j.compactMainRev
      fifoSched := js } h := by
  have hkeep : ∀ rk kv, (batchBucket s.keyBucket j).find rk = some kv →
      rk.rev.main ≤ j.compactMainRev → rk.rev ∈ j.keep := fun rk kv hf hle => by
    obtain ⟨hf, hk⟩ := find_of_batchBucket hf
    by_cases hlt : rk < j.last
    · exact hs.swept j (by simp [hj]) rk kv hf hlt hle
    · refine hk ((mem_batchKeys_or hf (not_lt.1 hlt) hle).resolve_right fun hfull => ?_)
      exact ne_of_lt hlen hfull.1
  refine hs.batch hj (fun j' hj' => .inl hj') (fun j' hj' => ?_) (.inr ⟨rfl, hkeep⟩) fun hnil => ?_
  · refine hs.lastJob j' ?_
    rw [hj, getLast?_cons, hj']
    rfl
  · rw [hs.lastJob j (by rw [hj, hnil]; rfl)]

theorem Sim.more {key : RevKey} (hj : s.fifoSched = j :: js)
    (hkey : (batchKeys s.keyBucket j).getLast? = some key) : Sim { s with
      keyBucket := batchBucket s.keyBucket j
      fifoSched := { j with last := ⟨⟨key.rev.main, key.rev.sub + 1⟩, false⟩ } :: js } h := by
  have hmem := mem_of_getLast? hkey
  obtain ⟨kv', hfkey, -⟩ := mem_of_mem_batchKeys hmem
  refine hs.batch hj (fun j' hj' => ?_) (fun j' hj' => ?_) (.inl rfl)
    fun hnil => absurd hnil (by simp)
  · rcases mem_cons.1 hj' with rfl | hj'
    · refine .inr ⟨rfl, rfl, fun rk kv hf hlt hle => ?_⟩
      obtain ⟨hf, hk⟩ := find_of_batchBucket hf
      by_cases hold : rk < j.last
      · exact hs.swept j (by simp [hj]) rk kv hf hold hle
      refine hk ((mem_batchKeys_or hf (not_lt.1 hold) hle).resolve_right fun hfull => ?_)
      -- above the last key of the batch only its own tombstone is left out of the next one
      have habove := hfull.2 key hmem
      rw [RevKey.lt_plain_iff, Revision.lt_iff] at hlt
      rw [RevKey.lt_iff, Revision.lt_iff] at habove
      simp only [] at hlt
      rcases habove with habove | ⟨hrev, hmark⟩
      · omega
      · rcases key with ⟨rev, _ | _⟩
        · rcases rk with ⟨rev', _ | _⟩
          · exact absurd hmark (by simp)
          · subst hrev
            exact hs.wf.unique rev kv' kv (hs.bucket _ _ hfkey) (hs.bucket _ _ hf)
        · exact absurd hmark (by simp)
    · exact .inl hj'
  · rcases js with _ | ⟨j'', js⟩
    · have hc := hs.lastJob j (by rw [hj]; rfl)
      simp at hj'
      rw [← hj']
      exact hc
    · refine hs.lastJob j' ?_
      rw [getLast?_cons_cons] at hj'
      rw [hj, getLast?_cons_cons, hj']

theorem Sim.scheduleCompaction : Sim s.scheduleCompaction h := by
  rcases hj : s.fifoSched with _ | ⟨j, js⟩
  · rw [Store.scheduleCompaction, hj]
    exact hs
  rw [scheduleCompaction_cons hj]
  rcases hkey : (batchKeys s.keyBucket j).getLast? with _ | key
  · refine hs.finish hj ?_
    rw [getLast?_eq_none_iff.1 hkey]
    decide
  · split_ifs with hlen
    · exact hs.finish hj hlen
    · exact hs.more hj hkey

end Batch

section Seen

/-- The store, the last compaction and the last one finished taken to be others. -/
def seen (s : Store) (c : ℤ) (finished : Option ℤ) : Store :=
  { s with compactMainRev := c, finishedCompact := finished }

theorem put_seen (s : Store) (c : ℤ) (finished : Option ℤ) (key value : Bytes) (lease : ℤ) :
    (s.seen c finished).put key value lease
      = (s.put key value lease).map (·.seen c finished) := by
  have hbase : (s.seen c finished).putBase key = s.putBase key := rfl
  unfold put
  rw [hbase]
  simp only [seen]
  rcases s.putBase key with e | ⟨created, ver, old⟩
  · rfl
  rcases s.kvindex.put key ⟨s.currentRev.main + 1, s.currentRev.sub⟩ with e | ti
  · rfl
  rcases hd : detachLease s.le old key with e | le
  · simp [bind, Except.bind, hd, Except.map]
  rcases ha : attachLease le lease key with e | le' <;>
    simp [bind, Except.bind, hd, ha, Except.map]

theorem delete_seen (s : Store) (c : ℤ) (finished : Option ℤ) (key : Bytes) (rev : Revision) :
    (s.seen c finished).delete key rev = (s.delete key rev).map (·.seen c finished) := by
  unfold delete
  simp only [seen]
  rcases s.kvindex.tombstone key ⟨s.currentRev.main + 1, s.currentRev.sub⟩ with e | _ | ti
  · rfl
  · rfl
  simp only [bind, Except.bind]
  split
  · rfl
  · rename_i kv _
    rcases hd : detachLease s.le kv.lease kv.key with e | le <;> simp [Except.map]

theorem rangeKeys_seen {c : ℤ} (hc : c ≤ s.compactMainRev) (finished : Option ℤ) (key : Bytes)
    (stop : Option Bytes) (limit : ℤ) {rangeRev : ℤ}
    (hr : s.compactMainRev < s.readRev rangeRev)
      : (s.seen c finished).rangeKeys key stop limit rangeRev
      = s.rangeKeys key stop limit rangeRev := by
  have hr' : ¬ (s.seen c finished).readRev rangeRev ≤ c := not_le.2 (hc.trans_lt hr)
  rw [rangeKeys_def, rangeKeys_def, if_neg (not_le.2 hr),
    show (s.seen c finished).compactMainRev = c from rfl, if_neg hr']
  rfl

theorem scheduleCompaction_seen (s : Store) (c : ℤ) (finished : Option ℤ) : ∃ finished',
    (s.seen c finished).scheduleCompaction = s.scheduleCompaction.seen c finished' := by
  rcases hj : s.fifoSched with _ | ⟨j, js⟩
  · refine ⟨finished, ?_⟩
    simp [Store.scheduleCompaction, seen, hj]
  · have hj' : (s.seen c finished).fifoSched = j :: js := hj
    rw [scheduleCompaction_cons hj, scheduleCompaction_cons hj',
      show (s.seen c finished).keyBucket = s.keyBucket from rfl]
    rcases (batchKeys s.keyBucket j).getLast? with _ | key
    · exact ⟨_, rfl⟩
    · split_ifs
      · exact ⟨_, rfl⟩
      · exact ⟨finished, rfl⟩

end Seen

section Run

variable {err : Option StoreError} {rev : ℤ} {s' : Store}

theorem Sim.setLessor (hs : Sim s h) {le : Option Lessor} (hle : le = none → h.le = none) :
    Sim { s with le := le } { h with le := le } :=
  { hs with wf := hs.wf.setLessor hle, lessor := rfl }

/-- Between transactions. -/
def Idle (s : Store) (h : History) : Prop := Sim s h ∧ h.sub = 0

theorem Idle.step (hs : Idle s h) (ev : Event) : Agree Idle (s.step ev) (h.step ev) := by
  obtain ⟨hs, hsub⟩ := hs
  rcases ev with ops | rev | _ | le
  · simp only [Store.step, Store.txn, hs.txnBegin hsub]
    exact (hs.ops ops).bind fun s' h' hs' => ⟨hs'.txnEnd, rfl⟩
  · obtain ⟨s', err, heq, hs'⟩ := hs.compact rev
    simp only [Store.step, heq]
    exact ⟨hs', hsub⟩
  · exact ⟨hs.scheduleCompaction, hsub⟩
  · simp only [Store.step, History.step, hs.lessor]
    exact ⟨hs.setLessor (by simp), hsub⟩

theorem compact_frame (heq : s.compact rev = .ok (s', err)) :
    (err ≠ none → s' = s) ∧ s'.currentRev = s.currentRev := by
  unfold compact at heq
  split_ifs at heq
  · cases heq
    exact ⟨fun _ => rfl, rfl⟩
  · cases heq
    exact ⟨fun _ => rfl, rfl⟩
  · obtain ⟨x, -, heq⟩ := exists_ok_of_bind heq
    cases heq
    exact ⟨fun herr => absurd rfl herr, rfl⟩

theorem txnBegin_of_sub (hsub : s.currentRev.sub = 0) : s.txnBegin = s := by
  rw [txnBegin, ← hsub]

theorem txnBegin_compact (s : Store) (rev : ℤ) :
    s.txnBegin.compact rev = (s.compact rev).map fun x => (x.1.txnBegin, x.2) := by
  simp only [compact, txnBegin]
  by_cases h1 : rev ≤ s.compactMainRev
  · simp [h1, Except.map]
  · by_cases h2 : rev > s.currentRev.main
    · simp [h1, h2, Except.map]
    · simp [h1, h2]
      rcases s.kvindex.compact rev with e | x <;> rfl

theorem compact_of_txnBegin (heq : s.txnBegin.compact rev = .ok (s', err)) :
    ∃ s₁, s.compact rev = .ok (s₁, err) ∧ s₁.txnBegin = s' := by
  rw [txnBegin_compact] at heq
  rcases hs : s.compact rev with e | ⟨s₁, err₁⟩
  · rw [hs] at heq
    cases heq
  · rw [hs] at heq
    cases heq
    exact ⟨s₁, rfl, rfl⟩

theorem txnBegin_scheduleCompaction (s : Store) :
    s.txnBegin.scheduleCompaction = s.scheduleCompaction.txnBegin := by
  rcases hj : s.fifoSched with _ | ⟨j, js⟩
  · simp [Store.scheduleCompaction, txnBegin, hj]
  · have hj' : s.txnBegin.fifoSched = j :: js := hj
    rw [scheduleCompaction_cons hj, scheduleCompaction_cons hj',
      show s.txnBegin.keyBucket = s.keyBucket from rfl]
    rcases (batchKeys s.keyBucket j).getLast? with _ | key
    · rfl
    · split_ifs <;> rfl

/-- A transaction begins with no sub revision, whatever a restore has left: no event reads it. -/
theorem step_txnBegin (s : Store) (ev : Event) :
    s.txnBegin.step ev = (s.step ev).map txnBegin := by
  rcases ev with ops | rev | _ | le
  · simp only [step, txn]
    rw [show s.txnBegin.txnBegin = s.txnBegin from rfl]
    rcases ops.foldlM txnOp s.txnBegin with e | s' <;> rfl
  · simp only [step, txnBegin_compact]
    rcases s.compact rev with e | x <;> rfl
  · simp only [step, txnBegin_scheduleCompaction]
    rfl
  · rfl

theorem foldlM_txnBegin (evs : List Event) : ∀ s : Store,
    evs.foldlM step s.txnBegin = (evs.foldlM step s).map txnBegin := by
  induction evs with
  | nil => exact fun _ => rfl
  | cons ev evs ih =>
    intro s
    rw [foldlM_cons, foldlM_cons, step_txnBegin]
    rcases s.step ev with e | s'
    · rfl
    · exact ih s'

/-- A run of a store follows its history, and stops just where that does. -/
theorem run_sim (le : Option Lessor) (evs : List Event) :
    Agree Idle (run le evs) (History.run le evs) :=
  Agree.foldlM (fun ev _ _ _ hs => hs.step ev) ⟨Sim.empty le, rfl⟩

end Run

end EtcdCompat.Store
