import EtcdCompat.Client.Recipes
import EtcdCompat.Proofs.KvTimeline
import EtcdCompat.Proofs.PrefixRange
import EtcdCompat.Proofs.Sorters

/-!
# Waiting for the keys created before one's own

A client puts a key of its own under the prefix and waits for the keys created before it. Others
leave the keys of its lease alone, so the keys it waits for only get fewer, and each answer of the
service, cut to one key less than the last, has all of them.
-/

namespace EtcdCompat.Concurrency

open List

open Clientv3
open Program (Ensures)

section Prefix

/-- A key among those a `Get` with `WithPrefix` reads. -/
def InPrefix (pfx k : Bytes) : Prop := InRange pfx (gteRange (some (getPrefix pfx))) k

instance (pfx k : Bytes) : Decidable (InPrefix pfx k) :=
  inferInstanceAs (Decidable (InRange _ _ _))

theorem inPrefix_append (pfx s : Bytes) : InPrefix pfx (pfx ++ s) :=
  (isPrefix_iff_inRange _ _).1 (prefix_append pfx s)

end Prefix

section Contract

variable {pfx k : Bytes} {lease : ℤ}

/-- The key is of the lease, and every other key under the prefix was created after it. -/
def First (pfx : Bytes) (lease : ℤ) (k : Bytes) (kv : Kv) : Prop :=
  InPrefix pfx k ∧ ∃ pair, kv.contents.find k = some pair ∧ pair.lease = lease ∧
    ∀ k' pair', kv.contents.find k' = some pair' → InPrefix pfx k' → k' ≠ k →
      pair.createRevision < pair'.createRevision

/-- Who holds something holds it with the first key. -/
structure World.Wf (pfx : Bytes) (w : World) : Prop where
  kv : w.kv.Wf
  le : w.kv.rev ≤ maxInt64
  first : ∀ lease k, w.holding lease = some k → First pfx lease k w.kv

/-- A step that leaves alone what is of a lease the step is not for. -/
def Acts (pfx : Bytes) (P : ℤ → Prop) (w w' : World) : Prop :=
  w.Wf pfx → w'.Wf pfx ∧ w.kv.Extends w'.kv ∧ ∀ lease, ¬ P lease →
    w'.holding lease = w.holding lease ∧
    ∀ k pair, w.kv.contents.find k = some pair → pair.lease = lease →
      w'.kv.contents.find k = some pair

variable {P P' : ℤ → Prop} {w w' w'' : World}

theorem Acts.refl (w : World) : Acts pfx P w w :=
  fun h => ⟨h, .refl _, fun _ _ => ⟨rfl, fun _ _ hf _ => hf⟩⟩

theorem Acts.trans (h : Acts pfx P w w') (h' : Acts pfx P w' w'') : Acts pfx P w w'' := by
  intro hw
  obtain ⟨hw', hext, hkeep⟩ := h hw
  obtain ⟨hw'', hext', hkeep'⟩ := h' hw'
  refine ⟨hw'', hext.trans hext', fun lease hlease => ?_⟩
  obtain ⟨hhold, hpairs⟩ := hkeep lease hlease
  obtain ⟨hhold', hpairs'⟩ := hkeep' lease hlease
  exact ⟨hhold'.trans hhold, fun k pair hf hl => hpairs' k pair (hpairs k pair hf hl) hl⟩

theorem Acts.mono (hP : ∀ lease, P lease → P' lease) (h : Acts pfx P w w') : Acts pfx P' w w' := by
  intro hw
  obtain ⟨hw', hext, hkeep⟩ := h hw
  exact ⟨hw', hext, fun lease hlease => hkeep lease fun hp => hlease (hP lease hp)⟩

/-- A client's contract: it alone changes what is of its lease. -/
def client (pfx : Bytes) (lease : ℤ) : Contract World where
  rely := Acts pfx (· ≠ lease)
  guar := Acts pfx (· = lease)
  live _ := False
  refl := Acts.refl
  trans := Acts.trans

theorem Acts.find_of_le (h : Acts pfx P w w') (hw : w.Wf pfx) {pair : KeyValue}
    (hf : w'.kv.contents.find k = some pair) (hle : pair.createRevision ≤ w.kv.rev) :
    ∃ old, w.kv.contents.find k = some old ∧ old.createRevision = pair.createRevision := by
  obtain ⟨hw', hext, -⟩ := h hw
  obtain ⟨old, hold, heq⟩ := hw'.kv.alive le_rfl hf hw'.kv.one_le hext.1 hle
  rw [hext.2 _ le_rfl] at hold
  exact ⟨old, hold, heq⟩

theorem First.acts (hf : First pfx lease k w.kv) (hw : w.Wf pfx)
    (h : Acts pfx (· ≠ lease) w w') : First pfx lease k w'.kv := by
  obtain ⟨hk, pair, hpair, hlease, hfirst⟩ := hf
  have hkeep := ((h hw).2.2 lease fun hne => hne rfl).2
  refine ⟨hk, pair, hkeep k pair hpair hlease, hlease, fun k' pair' hf' hk' hne => ?_⟩
  have hcreate := (hw.kv.pair_spec hw.kv.one_le le_rfl hpair)
  rcases le_or_gt pair'.createRevision w.kv.rev with hle | hgt
  · obtain ⟨old, hold, heq⟩ := h.find_of_le hw hf' hle
    rw [← heq]
    exact hfirst k' old hold hk' hne
  · omega

end Contract

section Get

variable {rt : Runtime} {pfx : Bytes} {w w' : World} {pair : KeyValue} {rev limit : ℤ} {kv : Kv}

theorem call_eq {fate : Fate} {answer x : Response} (h : w.call fate kv answer = (w', x)) :
    (w' = { w with kv } ∧ x = answer ∧ fate = .answered) ∨
      ((w' = { w with kv } ∨ w' = w) ∧ x = .err .failed) := by
  rcases fate with _ | _ | _ <;> cases h
  · exact .inl ⟨rfl, rfl, rfl⟩
  · exact .inr ⟨.inl rfl, rfl⟩
  · exact .inr ⟨.inr rfl, rfl⟩

/-- The `Get` of `waitDeletes`. -/
def prefixGet (pfx : Bytes) (rev limit : ℤ) : RangeRequest :=
  ⟨pfx, some (getPrefix pfx), limit, rev, sortAscend, sortByCreate⟩

def pairsAt (pfx : Bytes) (c : Contents) : List KeyValue :=
  (c.within pfx (gteRange (some (getPrefix pfx)))).map (·.2)

theorem mem_pairsAt {c : Contents} :
    pair ∈ pairsAt pfx c ↔ ∃ k, c.find k = some pair ∧ InPrefix pfx k := by
  unfold pairsAt Contents.within
  rw [mem_map]
  constructor
  · rintro ⟨⟨k, p⟩, hmem, rfl⟩
    obtain ⟨hmem, hk⟩ := mem_filter.1 hmem
    exact ⟨k, OrdMap.mem_entries.1 hmem, of_decide_eq_true hk⟩
  · rintro ⟨k, hf, hk⟩
    exact ⟨(k, pair), mem_filter.2 ⟨OrdMap.mem_entries.2 hf, decide_eq_true hk⟩, rfl⟩

/-- What a `Get` of the prefix is answered: the pairs of the revision by their creation, the first
of them where there is a limit. -/
def Listed (pfx : Bytes) (limit : ℤ) (c : Contents) (kvs : List KeyValue) : Prop :=
  ∃ sorted : List KeyValue, sorted.Perm (pairsAt pfx c) ∧
    sorted.Pairwise (·.createRevision ≤ ·.createRevision) ∧
    kvs = if 0 < limit then sorted.take limit.toNat else sorted

theorem sorted_by_create (rt : Runtime) {kvs : List KeyValue}
    (h : ∀ kv ∈ kvs, 1 ≤ kv.createRevision ∧ kv.createRevision ≤ maxInt64) :
    (rt.sort (fun a b => wrapInt64 (a.createRevision - b.createRevision) < 0) kvs).Pairwise
      (·.createRevision ≤ ·.createRevision) :=
  rt.sort_pairwise (fun a ha b hb => wrapInt64_sub_neg_iff (h b hb) (h a ha))
    (fun _ _ _ => le_trans) fun a b => le_total a.createRevision b.createRevision

theorem contentsOf_create (hw : kv.Wf) {rev : ℤ} (hrev : rev ≤ kv.rev) {k : Bytes}
    (hf : (kv.contentsOf rev).find k = some pair) :
    pair.key = k ∧ 2 ≤ pair.createRevision ∧ pair.createRevision ≤ kv.rev := by
  unfold Kv.contentsOf at hf
  split_ifs at hf
  · obtain ⟨hkey, htwo, hle, hmod⟩ := hw.pair_spec hw.one_le le_rfl hf
    exact ⟨hkey, htwo, by omega⟩
  · obtain ⟨hkey, htwo, hle, hmod⟩ := hw.pair_spec (by omega) hrev hf
    exact ⟨hkey, htwo, by omega⟩

theorem range_prefixGet (kv : Kv) (hrev : rev ≤ kv.rev) :
    kv.range rt (kv.contents, false) (prefixGet pfx rev limit) =
      .ok (.ok (Kv.answer kv.rev limit
        (rt.sort (fun a b => wrapInt64 (a.createRevision - b.createRevision) < 0)
          (pairsAt pfx (kv.contentsOf rev))))) := by
  have hread := Kv.readAt_contents hrev
  unfold Kv.range
  rw [if_neg (show ¬ (prefixGet pfx rev limit).revision > kv.shownRev (kv.contents, false).2 from
    not_lt.2 hrev)]
  change Except.ok (Except.ok (Kv.answer kv.rev limit (rt.sort _ (pairsAt pfx
    (kv.readAt (kv.contents, false) rev))))) = _
  rw [hread]

theorem exec_get {ch : Choice} {x : Response} (hw : w.Wf pfx)
    (h : exec rt ch w (.get (prefixGet pfx rev limit)) = some (w', x)) :
    w' = w ∧ ∀ resp, x = .range resp →
      rev ≤ w.kv.rev ∧ Listed pfx limit (w.kv.contentsOf rev) resp.kvs := by
  have h : w.get rt ch.fate (prefixGet pfx rev limit) = some (w', x) := h
  unfold World.get at h
  rcases hcheck : V3rpc.checkRangeRequest (prefixGet pfx rev limit) with e | _ <;>
    simp only [hcheck] at h
  · rcases call_eq (Option.some.inj h) with ⟨rfl, rfl, -⟩ | ⟨rfl | rfl, rfl⟩
    all_goals exact ⟨rfl, fun resp hresp => (by cases hresp)⟩
  rcases le_or_gt rev w.kv.rev with hrev | hrev
  · simp only [range_prefixGet w.kv hrev] at h
    rcases call_eq (Option.some.inj h) with ⟨rfl, rfl, -⟩ | ⟨rfl | rfl, rfl⟩
    · refine ⟨rfl, fun resp hresp => ⟨hrev, _, rt.sort_perm _ _, sorted_by_create rt ?_, ?_⟩⟩
      · intro kv hkv
        obtain ⟨k, hk, -⟩ := mem_pairsAt.1 hkv
        obtain ⟨-, htwo, hle⟩ := contentsOf_create hw.kv hrev hk
        exact ⟨by omega, hle.trans hw.le⟩
      · cases hresp
        exact Kv.answer_kvs _ _ _
    all_goals exact ⟨rfl, fun resp hresp => (by cases hresp)⟩
  · have hrange : w.kv.range rt (w.kv.contents, false) (prefixGet pfx rev limit) =
        .ok (.error .errFutureRev) := if_pos hrev
    simp only [hrange] at h
    rcases call_eq (Option.some.inj h) with ⟨rfl, rfl, -⟩ | ⟨rfl | rfl, rfl⟩
    all_goals exact ⟨rfl, fun resp hresp => (by cases hresp)⟩

end Get

section Wait

variable {rt : Runtime} {pfx k : Bytes} {lease c : ℤ} {w w' : World} {kvs : List KeyValue}
  {rest : List KeyValue} {last : KeyValue}

/-- A client waits with its key: the only one of its creation, and not one it holds with. -/
structure Waits (pfx : Bytes) (lease : ℤ) (k : Bytes) (c : ℤ) (w : World) : Prop where
  wf : w.Wf pfx
  inPrefix : InPrefix pfx k
  mine : ∃ pair, w.kv.contents.find k = some pair ∧ pair.lease = lease ∧ pair.createRevision = c
  only : ∀ k' pair, w.kv.contents.find k' = some pair → pair.createRevision = c → k' = k
  free : w.holding lease ≠ some k

theorem Waits.create (h : Waits pfx lease k c w) : 2 ≤ c ∧ c ≤ w.kv.rev := by
  obtain ⟨pair, hf, -, rfl⟩ := h.mine
  obtain ⟨-, htwo, hle, hmod⟩ := h.wf.kv.pair_spec h.wf.kv.one_le le_rfl hf
  exact ⟨htwo, hle.trans hmod⟩

theorem Waits.acts (h : Waits pfx lease k c w) (ha : Acts pfx (· ≠ lease) w w') :
    Waits pfx lease k c w' := by
  obtain ⟨hw', -, hkeep⟩ := ha h.wf
  obtain ⟨hhold, hpairs⟩ := hkeep lease fun hne => hne rfl
  obtain ⟨pair, hf, hlease, hcreate⟩ := h.mine
  refine ⟨hw', h.inPrefix, ⟨pair, hpairs k pair hf hlease, hlease, hcreate⟩,
    fun k' pair' hf' hcreate' => ?_, ?_⟩
  · obtain ⟨old, hold, heq⟩ := ha.find_of_le h.wf hf' (hcreate'.trans_le h.create.2)
    exact h.only k' old hold (heq.trans hcreate')
  · rw [hhold]
    exact h.free

/-- The keys under the prefix created before the own one are among the pairs. -/
def Pending (pfx : Bytes) (c : ℤ) (kvs : List KeyValue) (w : World) : Prop :=
  ∀ k pair, w.kv.contents.find k = some pair → InPrefix pfx k → pair.createRevision < c →
    ∃ e ∈ kvs, e.key = k ∧ e.createRevision = pair.createRevision

theorem Pending.acts (h : Pending pfx c kvs w) (hw : Waits pfx lease k c w)
    (ha : Acts pfx (· ≠ lease) w w') : Pending pfx c kvs w' := by
  intro k' pair hf hk hlt
  obtain ⟨old, hold, heq⟩ := ha.find_of_le hw.wf hf (hlt.le.trans hw.create.2)
  rw [← heq] at hlt ⊢
  exact h k' old hold hk hlt

theorem Pending.first (h : Pending pfx c [] w) (hw : Waits pfx lease k c w) :
    First pfx lease k w.kv := by
  obtain ⟨pair, hf, hlease, hcreate⟩ := hw.mine
  refine ⟨hw.inPrefix, pair, hf, hlease, fun k' pair' hf' hk' hne => ?_⟩
  rcases lt_trichotomy pair'.createRevision c with hlt | heq | hgt
  · obtain ⟨e, he, -⟩ := h k' pair' hf' hk' hlt
    cases he
  · exact absurd (hw.only k' pair' hf' heq) hne
  · rwa [hcreate]

/-- What a loop of `waitDeletes` comes with: the pairs by their creation, none of the keys waited
for created after `maxRev`. -/
structure Round (pfx : Bytes) (c maxRev : ℤ) (kvs : List KeyValue) (w : World) : Prop where
  pending : Pending pfx c kvs w
  sorted : kvs.Pairwise (·.createRevision ≤ ·.createRevision)
  le : ∀ k pair, w.kv.contents.find k = some pair → InPrefix pfx k → pair.createRevision < c →
    pair.createRevision ≤ maxRev

theorem trimmed_append (maxRev : ℤ) (kvs : List KeyValue) :
    ∃ late, kvs = trimmed maxRev kvs ++ late ∧ ∀ e ∈ late, maxRev < e.createRevision := by
  refine ⟨kvs.rtakeWhile fun kv => !decide (kv.createRevision ≤ maxRev),
    rdropWhile_append_rtakeWhile.symm, fun e he => ?_⟩
  have hlate := mem_rtakeWhile_imp he
  simpa using hlate

theorem Round.trimmed {maxRev : ℤ} (h : Round pfx c maxRev kvs w) :
    Pending pfx c (trimmed maxRev kvs) w ∧
      (Concurrency.trimmed maxRev kvs).Pairwise (·.createRevision ≤ ·.createRevision) := by
  obtain ⟨late, happend, hlate⟩ := trimmed_append maxRev kvs
  refine ⟨fun k pair hf hk hlt => ?_, ?_⟩
  · obtain ⟨e, he, hkey, hcreate⟩ := h.pending k pair hf hk hlt
    rw [happend] at he
    rcases mem_append.1 he with he | he
    · exact ⟨e, he, hkey, hcreate⟩
    · have hlt' := hlate e he
      have hle := h.le k pair hf hk hlt
      omega
  · have hsorted := h.sorted
    rw [happend] at hsorted
    exact (pairwise_append.1 hsorted).1

theorem Pending.deleted (h : Pending pfx c (rest ++ [last]) w) (hw : w.Wf pfx)
    (hdel : w.kv.deletedSince last.key last.createRevision = true) : Pending pfx c rest w := by
  intro k pair hf hk hlt
  obtain ⟨e, he, hkey, hcreate⟩ := h k pair hf hk hlt
  rcases mem_append.1 he with he | he
  · exact ⟨e, he, hkey, hcreate⟩
  · obtain rfl := mem_singleton.1 he
    rw [hkey, hcreate] at hdel
    exact absurd hf (hw.kv.gone hdel)

theorem mem_take_of_sorted {α : Type} {f : α → ℤ} {l : List α} {n : ℕ}
    (hl : l.Pairwise fun a b => f a ≤ f b) (hcount : (l.filter (f · < c)).length ≤ n) {x : α}
    (hx : x ∈ l) (hlt : f x < c) : x ∈ l.take n := by
  rw [← take_append_drop n l] at hl hx hcount
  rcases mem_append.1 hx with hx | hx
  · exact hx
  have hall : (l.take n).filter (f · < c) = l.take n := by
    refine filter_eq_self.2 fun y hy => ?_
    have hle := (pairwise_append.1 hl).2.2 y hy x hx
    exact decide_eq_true (by omega)
  have hlen : (l.take n).length = n := by
    have hpos := length_pos_of_mem hx
    rw [length_drop] at hpos
    rw [length_take]
    omega
  have hpos := length_pos_of_mem (show x ∈ (l.drop n).filter (f · < c) from
    mem_filter.2 ⟨hx, decide_eq_true hlt⟩)
  rw [filter_append, length_append, hall, hlen] at hcount
  omega

theorem nodup_pairsAt {kv : Kv} (hw : kv.Wf) : ((pairsAt pfx kv.contents).map (·.key)).Nodup := by
  have hkeys : (pairsAt pfx kv.contents).map (·.key) =
      (kv.contents.within pfx (gteRange (some (getPrefix pfx)))).map (·.1) := by
    unfold pairsAt
    rw [map_map]
    refine map_congr_left fun e he => ?_
    have hf := OrdMap.find_of_mem (mem_filter.1 he).1
    exact (hw.pair_spec hw.one_le le_rfl hf).1
  rw [hkeys]
  exact pairwise_map.2 ((kv.contents.sorted.filter _).imp ne_of_lt)

theorem Round.start (hw : Waits pfx lease k c w)
    (hl : Listed pfx 0 (w.kv.contentsOf (c - 1)) kvs) : Round pfx c maxInt64 kvs w := by
  obtain ⟨sorted, hperm, hsorted, rfl⟩ := hl
  have hc := hw.create
  refine ⟨fun k' pair hf hk hlt => ?_, hsorted, fun k' pair hf hk hlt => ?_⟩
  · obtain ⟨old, hold, heq⟩ := hw.wf.kv.alive le_rfl hf hw.wf.kv.one_le
      (show c - 1 ≤ w.kv.rev by omega) (by omega)
    have hof : w.kv.contentsOf (c - 1) = w.kv.past (c - 1) := if_neg (by omega)
    have hkey := (hw.wf.kv.pair_spec (by omega) (by omega) hold).1
    refine ⟨old, hperm.mem_iff.2 (mem_pairsAt.2 ⟨k', ?_, hk⟩), hkey, heq⟩
    rw [hof]
    exact hold
  · exact hlt.le.trans (hc.2.trans hw.wf.le)

theorem Round.next (hw : Waits pfx lease k c w) (hp : Pending pfx c rest w)
    (hsorted : (rest ++ [last]).Pairwise (·.createRevision ≤ ·.createRevision)) (hrest : rest ≠ [])
    (hl : Listed pfx rest.length (w.kv.contentsOf 0) kvs) :
    Round pfx c last.createRevision kvs w := by
  obtain ⟨sorted, hperm, hbyCreate, rfl⟩ := hl
  have hpos : 0 < (rest.length : ℤ) := by
    have := length_pos_of_ne_nil hrest
    omega
  have hof : w.kv.contentsOf 0 = w.kv.contents := if_pos le_rfl
  rw [hof] at hperm
  rw [if_pos hpos, Int.toNat_natCast]
  have hcount : (sorted.filter (·.createRevision < c)).length ≤ rest.length := by
    have hnodup : ((sorted.filter (·.createRevision < c)).map (·.key)).Nodup :=
      ((hperm.map _).nodup_iff.2 (nodup_pairsAt hw.wf.kv)).sublist (filter_sublist.map _)
    have hsub : (sorted.filter (·.createRevision < c)).map (·.key) ⊆ rest.map (·.key) := by
      intro key hkey
      obtain ⟨pair, hpair, rfl⟩ := mem_map.1 hkey
      obtain ⟨hmem, hlt⟩ := mem_filter.1 hpair
      obtain ⟨k', hf, hk'⟩ := mem_pairsAt.1 (hperm.mem_iff.1 hmem)
      obtain ⟨e, he, hkey, -⟩ := hp k' pair hf hk' (of_decide_eq_true hlt)
      rw [(hw.wf.kv.pair_spec hw.wf.kv.one_le le_rfl hf).1, ← hkey]
      exact mem_map_of_mem he
    have hle := (hnodup.subperm hsub).length_le
    rwa [length_map, length_map] at hle
  refine ⟨fun k' pair hf hk hlt => ?_, hbyCreate.sublist (take_sublist _ _),
    fun k' pair hf hk hlt => ?_⟩
  · exact ⟨pair, mem_take_of_sorted hbyCreate hcount
      (hperm.mem_iff.2 (mem_pairsAt.2 ⟨k', hf, hk⟩)) hlt,
      (hw.wf.kv.pair_spec hw.wf.kv.one_le le_rfl hf).1, rfl⟩
  · obtain ⟨e, he, -, hcreate⟩ := hp k' pair hf hk hlt
    rw [← hcreate]
    exact (pairwise_append.1 hsorted).2.2 e he last (mem_singleton_self last)

end Wait

section Programs

variable {rt : Runtime} {pfx k : Bytes} {lease c : ℤ} {w₀ w w' : World} {kvs : List KeyValue}
  {α : Type} {Q : World → α → Prop} {ex : Choice → World → Request → Option (World × Response)}
  {f : Response → Client α}
  {ch : Choice} {x : Response}

theorem ask_ensures {r : Request}
    (h : ∀ w', Acts pfx (· ≠ lease) w w' → ∀ ch w'' x, ex ch w' r = some (w'', x) →
      Acts pfx (· = lease) w' w'' ∧ Ensures ex (client pfx lease) Q w'' (f x)) :
    Ensures ex (client pfx lease) Q w (.request r f) :=
  Ensures.ask (fun _ _ hlive => hlive.elim) h

/-- Answers as those of the service, maybe fewer. -/
def Within (rt : Runtime) (ex : Choice → World → Request → Option (World × Response)) : Prop :=
  ∀ ch w r y, ex ch w r = some y → exec rt ch w r = some y

theorem Within.refl (rt : Runtime) : Within rt (exec rt) := fun _ _ _ _ h => h

theorem hang_ensures (hex : Within rt ex) : Ensures ex (client pfx lease) Q w (.request .hang f) :=
  ask_ensures fun _ _ _ _ _ hx => (by cases hex _ _ _ _ hx)

theorem exec_newSession (h : exec rt ch w .newSession = some (w', x)) : w' = w := by
  rcases call_eq (Option.some.inj h) with ⟨rfl, -⟩ | ⟨rfl | rfl, -⟩ <;> rfl

theorem exec_waitDelete {key : Bytes} {rev : ℤ}
    (h : exec rt ch w (.waitDelete key rev) = some (w', x)) :
    w' = w ∧ (x = .err .failed ∨ x = .ok ∧ w.kv.deletedSince key rev = true) := by
  unfold exec at h
  simp only at h
  split_ifs at h with hfate hdel
  · cases h
    exact ⟨rfl, .inl rfl⟩
  · cases h
    exact ⟨rfl, .inr ⟨rfl, hdel⟩⟩

/-- What waiting comes to: nothing of the client's has changed, and without an error its key is
first. -/
def Waited (pfx : Bytes) (lease : ℤ) (k : Bytes) (w₀ w : World) (err : Option Err) : Prop :=
  Acts pfx (· ≠ lease) w₀ w ∧ (err = none → First pfx lease k w.kv)

theorem Waited.done (h₀ : Acts pfx (· ≠ lease) w₀ w) (hw : w.Wf pfx) {err : Option Err}
    (h : err = none → First pfx lease k w.kv) :
    Ensures (exec rt) (client pfx lease) (Waited pfx lease k w₀) w (.done err) :=
  fun _ hw' => ⟨h₀.trans hw', fun he => (h he).acts hw hw'⟩

theorem Waited.failed (h₀ : Acts pfx (· ≠ lease) w₀ w) (e : Err) :
    Ensures (exec rt) (client pfx lease) (Waited pfx lease k w₀) w (.done (some e)) :=
  fun _ hw' => ⟨h₀.trans hw', fun he => (by cases he)⟩

theorem opGet_limit {getOpts : List OpOption} {limit : ℤ}
    (h : opGet pfx getOpts = prefixGet pfx 0 limit) (n : ℤ) :
    opGet pfx (getOpts ++ [withLimit n]) = prefixGet pfx 0 n := by
  have happ : opGet pfx (getOpts ++ [withLimit n]) = withLimit n (opGet pfx getOpts) :=
    foldl_append
  rw [happ, h]
  rfl

theorem waitLoop_ensures : ∀ {fuel : ℕ} {getOpts : List OpOption} {limit maxRev : ℤ}
    {kvs : List KeyValue} {w : World}, opGet pfx getOpts = prefixGet pfx 0 limit →
    Acts pfx (· ≠ lease) w₀ w → Waits pfx lease k c w → Round pfx c maxRev kvs w →
    Ensures (exec rt) (client pfx lease) (Waited pfx lease k w₀) w
      (waitLoop pfx fuel getOpts maxRev kvs)
  | 0, _, _, _, _, _, _, _, _, _ => hang_ensures (Within.refl rt)
  | fuel + 1, getOpts, limit, maxRev, kvs, w, hopts, h₀, hw, hround => by
    obtain ⟨hpending, hsorted⟩ := hround.trimmed
    unfold waitLoop
    rcases eq_nil_or_concat (trimmed maxRev kvs) with hnil | ⟨rest, last, hconcat⟩
    · rw [hnil] at hpending ⊢
      exact Waited.done h₀ hw.wf fun _ => hpending.first hw
    rw [concat_eq_append] at hconcat
    rw [hconcat] at hpending hsorted ⊢
    rw [getLast?_concat]
    refine ask_ensures fun w₁ h₁ ch w₁' x hx => ?_
    obtain ⟨rfl, hx⟩ := exec_waitDelete hx
    have hw₁ := hw.acts h₁
    refine ⟨.refl _, ?_⟩
    rcases hx with rfl | ⟨rfl, hdel⟩
    · exact Waited.failed (h₀.trans h₁) _
    have hrest := (hpending.acts hw h₁).deleted hw₁.wf hdel
    rw [length_append, length_singleton]
    split_ifs with hone
    · obtain rfl := eq_nil_of_length_eq_zero (Nat.succ.inj hone)
      exact Waited.done (h₀.trans h₁) hw₁.wf fun _ => hrest.first hw₁
    have hlimit : ((rest.length + 1 : ℕ) : ℤ) - 1 = rest.length := by omega
    refine ask_ensures fun w₂ h₂ ch w₂' x hx => ?_
    rw [hlimit, opGet_limit hopts] at hx
    have hw₂ := hw₁.acts h₂
    obtain ⟨rfl, hresp⟩ := exec_get hw₂.wf hx
    refine ⟨.refl _, ?_⟩
    have h₀₂ := (h₀.trans h₁).trans h₂
    cases x with
    | range resp =>
      have hne : rest ≠ [] := fun h => hone (by rw [h]; rfl)
      exact waitLoop_ensures (opGet_limit hopts _) h₀₂ hw₂
        (Round.next hw₂ (hrest.acts hw₁ h₂) hsorted hne (hresp resp rfl).2)
    | _ => exact Waited.failed h₀₂ _

theorem waitDeletes_ensures (fuel : ℕ) (hw : Waits pfx lease k c w) :
    Ensures (exec rt) (client pfx lease) (Waited pfx lease k w) w
      (waitDeletes pfx [withPrefix, withRev (c - 1)] fuel) := by
  refine ask_ensures fun w₁ h₁ ch w₁' x hx => ?_
  have hw₁ := hw.acts h₁
  obtain ⟨rfl, hresp⟩ := exec_get (show w₁.Wf pfx from hw₁.wf)
    (show exec rt ch w₁ (.get (prefixGet pfx (c - 1) 0)) = some (w₁', x) from hx)
  refine ⟨.refl _, ?_⟩
  cases x with
  | range resp =>
    exact waitLoop_ensures (show opGet pfx _ = prefixGet pfx 0 0 from rfl) h₁ hw₁
      (Round.start hw₁ (hresp resp rfl).2)
  | _ => exact Waited.failed h₁ _

end Programs

end EtcdCompat.Concurrency
