import EtcdCompat.Proofs.WalLog

/-!
# Logs that end within a record

The record that a crash ends the last segment in is found by `ReadAll` and cut off by `Repair`, so
that `readWAL` reads what it reads of the records that are whole (`readWAL_torn`). What it returns
is right exactly if the journal is `Readable`.
-/

namespace EtcdCompat.Wal

open List Journal

open Overwrite

section TornRecord

variable {c c' : UInt32} {i : Item} {k : ℕ}

theorem next_torn (hs : Small (recordOf c i)) (h0 : 0 < k) (hk : k < (encode c i.1 i.2).1.length) :
    Decoder.next ⟨(encode c i.1 i.2).1.take k, c'⟩ = .error .unexpectedEOF := by
  have hlen := LittleEndian.length_encode 8 (recordOf c i).size
  have hsize : (recordOf c i).marshal.length = (recordOf c i).size := (Record.size_eq _).symm
  have hdecode : Decoder.decode ⟨(encode c i.1 i.2).1.take k, c'⟩ = .error .unexpectedEOF := by
    unfold Decoder.decode
    rw [encode_eq, length_append, hlen] at hk
    rw [encode_eq]
    by_cases hk8 : k < 8
    · have hne : (LittleEndian.encode 8 (recordOf c i).size ++ (recordOf c i).marshal).take k ≠ []
        := by
        rw [← length_pos_iff, length_take, length_append]
        omega
      rw [readInt64, if_neg hne, if_pos (by rw [length_take]; omega)]
      rfl
    · rw [take_append, take_of_length_le (by omega), readInt64_encode hs.fitsInt]
      simp only [bind, Except.bind, Int.toNat_natCast]
      rw [if_neg (by unfold Small at hs; omega), if_pos (by rw [length_take]; omega)]
  rw [Decoder.next, hdecode]
  rfl

/-- The bytes of records up to some point are those of the records before it, and of a part of the
next one if the point is within it. -/
theorem take_encodeAll : ∀ (xs : List Saved) (c : UInt32) (n : ℕ), ∃ ys,
    xs = within c n xs ++ ys
    ∧ ((encodeAll c (xs.map Saved.item)).1.take n
        = (encodeAll c ((within c n xs).map Saved.item)).1
      ∨ ∃ y k, y ∈ ys.head? ∧ 0 < k
        ∧ k < (encode (crcAfter c ((within c n xs).map Saved.item))
          y.item.1 y.item.2).1.length
        ∧ (encodeAll c (xs.map Saved.item)).1.take n
          = (encodeAll c ((within c n xs).map Saved.item)).1
            ++ (encode (crcAfter c ((within c n xs).map Saved.item))
              y.item.1 y.item.2).1.take k)
  | [], c, n => ⟨[], by simp [within, encodeAll]⟩
  | x :: xs, c, n => by
    have hcrc : (encode c x.item.1 x.item.2).2 = (recordOf c x.item).crc := rfl
    simp only [within, map_cons, encodeAll_cons]
    split_ifs with hn
    · obtain ⟨ys, hys, hcut⟩ := take_encodeAll xs (recordOf c x.item).crc
        (n - (encode c x.item.1 x.item.2).1.length)
      rw [hcrc]
      refine ⟨ys, by rw [cons_append, ← hys], ?_⟩
      rw [take_append, take_of_length_le hn, map_cons, encodeAll_cons, crcAfter_cons]
      rcases hcut with hcut | ⟨y, k, hy, h0, hk, hcut⟩
      · exact .inl (by rw [hcut])
      · exact .inr ⟨y, k, hy, h0, hk, by rw [hcut, append_assoc]⟩
    · refine ⟨x :: xs, rfl, ?_⟩
      rw [take_append_of_le_length (by omega)]
      rcases Nat.eq_zero_or_pos n with rfl | h0
      · exact .inl rfl
      · exact .inr ⟨x, n, rfl, h0, by simpa [crcAfter, encodeAll] using hn, rfl⟩

end TornRecord

section Repair

theorem Reads.repairLoop {recs : List Record} {d d' : Decoder} (h : Reads recs d d') (fuel n : ℕ) :
    Wal.repairLoop (recs.length + fuel) d n
      = Wal.repairLoop fuel d' (n + (recs.map fun rec => 8 + rec.size).sum) := by
  induction h generalizing n with
  | nil d => simp
  | cons hnext _ ih =>
    rw [length_cons, Nat.add_right_comm, Wal.repairLoop, hnext]
    simp [ih, Nat.add_assoc]

theorem repairLoop_torn {d : Decoder} (h : d.next = .error .unexpectedEOF) (fuel n : ℕ) :
    Wal.repairLoop (fuel + 1) d n = some (some n) := by
  rw [Wal.repairLoop, h]

theorem sum_recordsOf : ∀ (is : List Item) (c : UInt32),
    ((recordsOf c is).map fun rec => 8 + rec.size).sum = (encodeAll c is).1.length
  | [], _ => rfl
  | i :: is, c => by
    rw [recordsOf, map_cons, sum_cons, sum_recordsOf is, encodeAll_cons, encode_eq, length_append,
      length_append, LittleEndian.length_encode, ← Record.size_eq]

theorem truncateLast_concat : ∀ (fs : List WalFile) (f : WalFile) (n : ℕ),
    truncateLast (fs ++ [f]) n = fs ++ [{ f with bytes := f.bytes.take n }]
  | [], _, _ => rfl
  | [g], f, n => rfl
  | g :: g' :: fs, f, n => by
    have ih := truncateLast_concat (g' :: fs) f n
    simp at ih ⊢
    rw [truncateLast, ih]
    simp

theorem repair_torn {fs : List WalFile} {seq index : ℕ} {c : UInt32} {is : List Item} {tail : Bytes}
    (hsmall : ∀ rec ∈ recordsOf c is, Small rec) (hcrc : ∀ i ∈ is, i.1 = .crc → i.2 = none)
    (hsync : Synced c 0 is)
    (htail : Decoder.next ⟨tail, crcRead c 0 is⟩ = .error .unexpectedEOF) :
    repair (fs ++ [⟨seq, index, (encodeAll c is).1 ++ tail⟩])
      = some (fs ++ [⟨seq, index, (encodeAll c is).1⟩]) := by
  have hlen := length_le_encodeAll is c
  obtain ⟨fuel, hfuel⟩ : ∃ fuel, ((encodeAll c is).1 ++ tail).length + 1 = is.length + (fuel + 1) :=
    ⟨((encodeAll c is).1 ++ tail).length - is.length, by rw [length_append]; omega⟩
  have hloop := (reads_small tail hsmall hcrc hsync).repairLoop (fuel + 1) 0
  rw [length_recordsOf, ← hfuel, Nat.zero_add, sum_recordsOf, repairLoop_torn htail] at hloop
  unfold repair
  simp only [getLast?_concat, Option.bind_eq_bind, Option.bind_some, hloop, truncateLast_concat,
    take_left]

end Repair

namespace Journal

variable {j : Journal} {snap : Snap} {n : ℕ}

theorem within_cons (c : UInt32) (n : ℕ) (x : Saved) (xs : List Saved)
    (h : (encode c x.item.1 x.item.2).1.length ≤ n) : within c n (x :: xs)
      = x :: within (recordOf c x.item).crc (n - (encode c x.item.1 x.item.2).1.length) xs := by
  rw [within]
  simp only
  rw [if_pos h]
  rfl

def headLength (j : Journal) : ℕ := (encodeAll (renderFiles 0 j.closed).2
  ([Saved.crc, .metadata j.metadata].map Saved.item)).1.length

theorem segments_torn (j : Journal) (n : ℕ) : (j.torn n).segments = j.closed
    ++ [{ j.cur with saved := within (renderFiles 0 j.closed).2 n j.cur.saved }] := rfl

theorem all_torn (j : Journal) (n : ℕ) : (j.torn n).all <+: j.all := by
  obtain ⟨ys, hys, -⟩ := take_encodeAll j.cur.saved (renderFiles 0 j.closed).2 n
  refine ⟨ys, ?_⟩
  rw [all, all, segments_torn, segments, records, records, flatMap_append, flatMap_append,
    flatMap_singleton, flatMap_singleton, append_assoc, ← hys]

theorem Wf.torn (h : j.Wf) (hn : j.headLength ≤ n) : (j.torn n).Wf := by
  refine h.rewritten rfl ?_ (fun data hdata => h.metas data ((all_torn j n).subset hdata))
    (fun x hx => h.typed x ((all_torn j n).subset hx)) h.stateTyped
  obtain ⟨ys, hys⟩ := h.heads j.cur (by simp [segments])
  simp [headLength, encodeAll_cons, encodeAll] at hn
  rw [hys, within_cons _ _ _ _ (by omega), within_cons _ _ _ _ (by omega)]
  exact ⟨_, rfl⟩

theorem Wf.reopened (h : j.Wf) (index : ℕ) : (j.reopened index).Wf :=
  ⟨h.seqs, h.first, h.heads, h.metas, h.typed, show (Saved.state {}).Typed by decide⟩

theorem Named.reopened (h : j.Wf) {index : ℕ} (hnamed : j.NamedSegs index) :
    (j.reopened index).Named index where
  segs := hnamed.congr rfl rfl
  cur := by
    obtain ⟨seg, post, hsegs, hopen, hseg, -⟩ := h.opened index
    have hskip : ∀ e ∈ replay Entry.index (Wal.entries (records (j.skipped index))),
        e.index ≤ index := fun e he => by
      have := hnamed _ seg post hsegs e he
      omega
    intro e he
    have hall : (j.reopened index).all = j.all := rfl
    rw [hall, h.records_opened index, entries_append] at he
    have := le_of_mem_replay_append hskip e he
    unfold Journal.reopened
    rcases hlast : (Wal.entries (records (j.opened index))).getLast? with _ | l <;>
      simp [hlast] at this ⊢ <;> omega

def AllSmall (j : Journal) : Prop := ∀ rec ∈ recordsOf 0 (j.all.map Saved.item), Small rec

instance (j : Journal) : Decidable j.AllSmall := inferInstanceAs (Decidable (∀ _ ∈ _, _))

theorem AllSmall.torn (h : j.AllSmall) (n : ℕ) : (j.torn n).AllSmall := by
  obtain ⟨ys, hys⟩ := all_torn j n
  intro rec hrec
  refine h rec ?_
  rw [← hys, map_append, recordsOf_append]
  exact mem_append_left _ hrec

theorem AllSmall.opened (h : j.AllSmall) (hwf : j.Wf) (index : ℕ) :
    ∀ rec ∈ recordsOf (j.crcAt index) (j.items index), Small rec := by
  intro rec hrec
  refine h rec ?_
  rw [hwf.records_opened index, map_append, recordsOf_append, ← renderFiles_snd]
  exact mem_append_right _ hrec

theorem files_render (j : Journal) : j.render.files = (renderFiles 0 j.closed).1
    ++ [⟨j.cur.seq, j.cur.index,
      (encodeAll (renderFiles 0 j.closed).2 (j.cur.saved.map Saved.item)).1⟩] := by
  rw [render, segments, renderFiles_append]
  rfl

theorem torn_files (hsmall : j.AllSmall) (n : ℕ) :
    truncateLast j.render.files n = (j.torn n).render.files
      ∨ ∃ tail, truncateLast j.render.files n = appendLast (j.torn n).render.files tail
        ∧ ∀ c', Decoder.next ⟨tail, c'⟩ = .error .unexpectedEOF := by
  obtain ⟨ys, hys, hcut⟩ := take_encodeAll j.cur.saved (renderFiles 0 j.closed).2 n
  rw [files_render, files_render, truncateLast_concat]
  simp only [appendLast_concat, torn]
  generalize within (renderFiles 0 j.closed).2 n j.cur.saved = ws at hys hcut ⊢
  rcases hcut with hcut | ⟨y, k, hy, h0, hk, hcut⟩
  · exact .inl (by rw [hcut])
  · refine .inr ⟨_, by rw [hcut], fun c' => next_torn ?_ h0 hk⟩
    obtain ⟨zs, rfl⟩ := head?_eq_some_iff.1 hy
    refine hsmall _ ?_
    rw [renderFiles_snd, all, segments, records, flatMap_append, flatMap_singleton, hys, map_append,
      recordsOf_append, map_append, recordsOf_append, map_cons,
      recordsOf]
    simp [records]

theorem repair_appendLast (h : j.Wf) (hsmall : j.AllSmall) {tail : Bytes}
    (htail : ∀ c', Decoder.next ⟨tail, c'⟩ = .error .unexpectedEOF) :
    repair (appendLast j.render.files tail) = some j.render.files := by
  rw [files_render, appendLast_concat]
  refine repair_torn (fun rec hrec => hsmall rec ?_) crc_items ?_ (htail _)
  · rw [all, segments, records, flatMap_append, flatMap_singleton, map_append, recordsOf_append]
    rw [renderFiles_snd] at hrec
    exact mem_append_right _ hrec
  · obtain ⟨xs, hxs⟩ := h.heads j.cur (by simp [segments])
    refine .inr ⟨rfl, fun i is heq => ?_⟩
    rw [hxs, map_cons, cons.injEq] at heq
    rw [← heq.1]
    rfl

theorem readSaved_ne_unexpectedEOF (g : Growth) (snap : Snap) (acc : ReadState) (x : Saved) :
    readSaved g snap acc x ≠ .error (.error .unexpectedEOF) := by
  rcases x with _ | data | e | st | s <;> simp only [readSaved]
  · simp
  · split_ifs <;> simp
  · split_ifs
    · rcases acc.ents.appendAt g (e.index - snap.index - 1) e <;> simp
    · simp
  · simp
  · split_ifs <;> simp

theorem foldlM_ne_unexpectedEOF (g : Growth) (snap : Snap) (acc : ReadState) (xs : List Saved) :
    xs.foldlM (readSaved g snap) acc ≠ .error (.error .unexpectedEOF) := by
  induction xs generalizing acc with
  | nil => intro h; cases h
  | cons x xs ih =>
    have hne := readSaved_ne_unexpectedEOF g snap acc x
    rw [foldlM_cons]
    rcases hx : readSaved g snap acc x with e | acc'
    · rw [hx] at hne
      exact hne
    · exact ih acc'

/-- What is left of a log within a record is read like the records that are whole. -/
theorem readWAL_torn (h : j.Wf) (hsmall : j.AllSmall) (hn : j.headLength ≤ n) (g : Growth)
    (snap : Snap) : readWAL g (truncateLast j.render.files n) snap
      = readWAL g (j.torn n).render.files snap := by
  have ht := h.torn hn
  have hts := (hsmall.torn n).opened ht snap.index
  rcases torn_files hsmall n with heq | ⟨tail, heq, htail⟩
  · rw [heq]
  · have hwhole := ht.openReadAll_small (g := g) hts
    have hopen := ht.openReadAll g snap tail
    obtain ⟨fuel, hloop⟩ := ht.readLoop (g := g) (prefix_refl _) hts
      (show _ ++ tail = _ from rfl)
    rw [hloop] at hopen
    have hend : ∀ acc, Wal.readLoop g snap (fuel + 1) ⟨tail, crcRead ((j.torn n).crcAt snap.index) 0
        ((records ((j.torn n).opened snap.index)).map Saved.item)⟩ acc
          = .error (.error .unexpectedEOF) := fun acc => by rw [Wal.readLoop, htail]
    simp only [hend] at hopen
    rw [heq]
    unfold readWAL
    rw [hopen, hwhole, repair_appendLast ht (hsmall.torn n) htail]
    rcases hf : (records ((j.torn n).opened snap.index)).foldlM (readSaved g snap) {} with e | acc
    · have hne := foldlM_ne_unexpectedEOF g snap {} (records ((j.torn n).opened snap.index))
      rw [hf] at hne
      rcases e with e | _ | _
      · cases e <;> first | rfl | exact absurd rfl hne
      · rfl
      · rfl
    · simp only [Except.bind, hwhole, hf]
      split_ifs <;> rfl

theorem readWAL_torn_panic (h : j.Wf) (hsmall : j.AllSmall) (hn : j.headLength ≤ n) {g : Growth}
    (hf : (records ((j.torn n).opened snap.index)).foldlM (readSaved g snap) {} = .error .panic) :
    readWAL g (truncateLast j.render.files n) snap = .error .panic := by
  rw [readWAL_torn h hsmall hn, readWAL, (h.torn hn).openReadAll_small
    ((hsmall.torn n).opened (h.torn hn) snap.index), hf]
  rfl

/-- The records that are read at a snapshot have it, no other one with its index and no entry too
early, and leave the entries and the state that all records leave. -/
structure Readable (j : Journal) (snap : Snap) : Prop where
  found : .snapshot snap ∈ records (j.opened snap.index)
  matched : Matched snap (records (j.opened snap.index))
  steady : Steady Entry.index snap.index (Wal.entries (records (j.opened snap.index)))
  numbered : Numbered Entry.index (snap.index + 1) (logAbove snap.index j.all)
  below : logAbove snap.index j.all = [] →
    ∀ e ∈ Wal.entries (records (j.opened snap.index)), e.index ≤ snap.index
  state : lastState (records (j.opened snap.index)) = lastState j.all

/-- What `readWAL` should return. -/
def Returns (j : Journal) (snap : Snap) (w : WAL)
    (res : Except Stop (WAL × HardState × List Entry)) :
    Prop :=
  res = .ok (w, lastState j.all, logAbove snap.index j.all) ∧ w.metadata = j.metadata

theorem Wf.metadata_mem (h : j.Wf) (index : ℕ) :
    .metadata j.metadata ∈ records (j.opened index) := by
  obtain ⟨seg, post, hsegs, hopen, -⟩ := h.opened index
  obtain ⟨xs, hxs⟩ := h.heads seg (by rw [hsegs]; simp)
  simp [hopen, records, hxs]

theorem Readable.readWAL (hr : j.Readable snap) (h : j.Wf) (hsmall : j.AllSmall)
    (hnamed : j.NamedSegs snap.index) (g : Growth) :
    j.Returns snap (j.reopened snap.index).render (Wal.readWAL g j.render.files snap) := by
  refine ⟨?_, rfl⟩
  obtain ⟨acc, hacc, hread⟩ := readSaved_ok (g := g) hr.steady (h.metadataOf snap.index) hr.matched
  have hopen := h.openReadAll_small (g := g) (hsmall.opened h snap.index)
  have hlog := And.intro hr.numbered hr.below
  rw [h.logAbove_opened hnamed] at hlog
  have hents := hr.steady.take_placed_eq_iff.2 hlog
  have hfound := (hread.found_iff hr.matched).2 hr.found
  rw [hacc] at hopen
  simp [Except.bind, hfound, hread.state, hread.ents.toList, hents, hr.state, hread.enti,
    hread.metadata_mem (h.metadata_mem _)] at hopen
  rw [Wal.readWAL, hopen, h.logAbove_opened hnamed]
  rfl

theorem readable_of_readWAL (h : j.Wf) (hsmall : j.AllSmall) (hnamed : j.NamedSegs snap.index)
    {w : WAL} (hw : j.Returns snap w (Wal.readWAL .exact j.render.files snap)) :
    j.Readable snap := by
  have hopen := h.openReadAll_small (g := .exact) (hsmall.opened h snap.index)
  have hmeta := h.metadataOf snap.index
  have hne := foldlM_ne_unexpectedEOF .exact snap {} (records (j.opened snap.index))
  have hres := hw.1
  rw [Wal.readWAL, hopen] at hres
  rcases hf : (records (j.opened snap.index)).foldlM (readSaved .exact snap) {} with e | acc
  · rw [hf] at hres hne
    rcases e with e | _ | _
    · cases e <;> first | cases hres | exact absurd rfl hne
    · cases hres
    · cases hres
  · have hmatch := matched_of_ok hf
    have hsteady : Steady Entry.index snap.index (Wal.entries (records (j.opened snap.index))) := by
      by_contra hjump
      rw [readSaved_jump hjump hmeta hmatch] at hf
      cases hf
    obtain ⟨acc', hacc', hread⟩ := readSaved_ok (g := .exact) hsteady hmeta hmatch
    obtain rfl : acc = acc' := Except.ok.inj (hf.symm.trans hacc')
    rw [hf] at hres
    by_cases hfound : acc.found = true
    · simp [Except.bind, hfound, hread.state, hread.ents.toList] at hres
      obtain ⟨-, hstate, hlog⟩ := hres
      rw [h.logAbove_opened hnamed] at hlog
      obtain ⟨hnum, hbelow⟩ := hsteady.take_placed_eq_iff.1 hlog
      refine ⟨(hread.found_iff hmatch).1 hfound, hmatch, hsteady, ?_, ?_, hstate⟩
      · rw [h.logAbove_opened hnamed]
        exact hnum
      · rw [h.logAbove_opened hnamed]
        exact hbelow
    · simp only [Except.bind, hfound, Bool.not_false, if_true] at hres
      cases hres

end Journal

section Recovery

variable {md : Option Bytes} {ops ops' : List WAL.Op} {n : ℕ} {snap : Snap}

/-- The records that are whole in the first bytes of the last segment. -/
def Journal.kept (md : Option Bytes) (ops : List WAL.Op) (n : ℕ) : Journal :=
  (Journal.written md ops).torn n

/-- Those of a process that has read them, with what it then appends. -/
def Journal.continued (md : Option Bytes) (ops : List WAL.Op) (n : ℕ) (snap : Snap)
    (ops' : List WAL.Op) : Journal :=
  ops'.foldl Journal.step ((Journal.kept md ops n).reopened snap.index)

theorem readWAL_torn_iff (hmd : (Saved.metadata md).Typed) (hops : ∀ op ∈ ops, op.Typed)
    (hops' : ∀ op ∈ ops', op.Typed) (hn : (Journal.written md ops).headLength ≤ n)
    (hsmall : (Journal.written md ops).AllSmall)
    (hsmall' : (Journal.continued md ops n snap ops').AllSmall) :
    (∀ g, ∃ w, (Journal.kept md ops n).Returns snap w
        (readWAL g (truncateLast (WAL.written md ops).files n) snap)
      ∧ ∀ g', ∃ w', (Journal.continued md ops n snap ops').Returns snap w'
        (readWAL g' (ops'.foldl WAL.step w).files snap)) ↔
      (Journal.kept md ops n).Readable snap
      ∧ (Journal.continued md ops n snap ops').Readable snap := by
  have hwf := Journal.Wf.written hmd hops
  have hkept : (Journal.kept md ops n).Wf := hwf.torn hn
  have hkeptSmall : (Journal.kept md ops n).AllSmall := hsmall.torn n
  have hnamed : (Journal.kept md ops n).NamedSegs snap.index :=
    (Journal.Named.written md ops snap.index).segs.congr rfl rfl
  have hcont : (Journal.continued md ops n snap ops').Wf := (hkept.reopened snap.index).run hops'
  have hnamed' := ((Journal.Named.reopened hkept hnamed).run ops').segs
  have hfiles : ∀ g, readWAL g (truncateLast (WAL.written md ops).files n) snap
      = readWAL g (Journal.kept md ops n).render.files snap := fun g => by
    rw [← Journal.render_written]
    exact Journal.readWAL_torn hwf hsmall hn g snap
  have hrender : (Journal.continued md ops n snap ops').render
      = ops'.foldl WAL.step ((Journal.kept md ops n).reopened snap.index).render :=
    Journal.render_run _ _
  constructor
  · intro hall
    obtain ⟨w, hw, hnext⟩ := hall .exact
    rw [hfiles] at hw
    have hread := Journal.readable_of_readWAL hkept hkeptSmall hnamed hw
    have hres := (hread.readWAL hkept hkeptSmall hnamed .exact).1
    rw [hw.1] at hres
    obtain rfl := (Prod.mk.inj (Except.ok.inj hres)).1
    obtain ⟨w', hw'⟩ := hnext .exact
    rw [← hrender] at hw'
    exact ⟨hread, Journal.readable_of_readWAL hcont hsmall' hnamed' hw'⟩
  · rintro ⟨hread, hread'⟩ g
    refine ⟨((Journal.kept md ops n).reopened snap.index).render, ?_, fun g' =>
      ⟨((Journal.continued md ops n snap ops').reopened snap.index).render, ?_⟩⟩
    · rw [hfiles]
      exact hread.readWAL hkept hkeptSmall hnamed g
    · rw [← hrender]
      exact hread'.readWAL hcont hsmall' hnamed' g'

/-- A log that ends within its last entry, and a process that goes on with another one. -/
theorem readWAL_torn_entry : ∃ ops ops' : List WAL.Op,
    ops = [.save ⟨1, 1, 2⟩ [⟨.normal, 1, 1, none⟩, ⟨.normal, 1, 2, none⟩], .saveSnapshot ⟨1, 1⟩,
      .save {} [⟨.normal, 1, 3, none⟩]]
    ∧ ops' = [.save ⟨2, 1, 2⟩ [⟨.normal, 2, 3, none⟩], .cut]
    ∧ (Journal.kept none ops 160).all ≠ (Journal.written none ops).all
    ∧ ∀ g, ∃ w, (Journal.kept none ops 160).Returns ⟨1, 1⟩ w
        (readWAL g (truncateLast (WAL.written none ops).files 160) ⟨1, 1⟩)
      ∧ ∀ g', ∃ w', (Journal.continued none ops 160 ⟨1, 1⟩ ops').Returns ⟨1, 1⟩ w'
        (readWAL g' (ops'.foldl WAL.step w).files ⟨1, 1⟩) := by
  refine ⟨_, _, rfl, rfl, by decide +kernel, (readWAL_torn_iff (by decide) (by decide) (by decide)
    (by decide +kernel) (by decide +kernel) (by decide +kernel)).2 ⟨?_, ?_⟩⟩
  · exact ⟨by decide +kernel, by decide +kernel, by decide +kernel, by decide +kernel,
      by decide +kernel, by decide +kernel⟩
  · exact ⟨by decide +kernel, by decide +kernel, by decide +kernel, by decide +kernel,
      by decide +kernel, by decide +kernel⟩

/-- Entries behind an installed snapshot make an older one unreadable. A process that starts at an
installed snapshot forgets how far it reaches, and the next segment is named as if it were above the
snapshot. -/
theorem readWAL_torn_not_right : (∃ ops : List WAL.Op,
      ops = [.saveSnapshot ⟨5, 1⟩, .save {} [⟨.normal, 1, 6, none⟩, ⟨.normal, 1, 7, none⟩]]
      ∧ (Journal.written none ops).headLength ≤ 110 ∧ (Journal.written none ops).AllSmall
      ∧ .snapshot {} ∈ (Journal.kept none ops 110).all
      ∧ ∀ g, readWAL g (truncateLast (WAL.written none ops).files 110) {} = .error .panic)
    ∧ (readWAL .exact (WAL.written none
        [.save ⟨1, 1, 1⟩ [⟨.normal, 1, 1, none⟩], .saveSnapshot ⟨5, 1⟩]).files ⟨5, 1⟩).map (·.2)
      = .ok (⟨1, 1, 1⟩, [])
    ∧ ((readWAL .exact (WAL.written none
        [.save ⟨1, 1, 1⟩ [⟨.normal, 1, 1, none⟩], .saveSnapshot ⟨5, 1⟩]).files ⟨5, 1⟩).bind fun r =>
        (readWAL .exact (([.save ⟨2, 1, 5⟩ [], .cut] : List WAL.Op).foldl WAL.step r.1).files
          ⟨5, 1⟩).map (·.2))
      = .error .fatal := by
  refine ⟨⟨_, rfl, by decide +kernel, by decide +kernel, by decide +kernel, fun g => ?_⟩,
    by decide +kernel, by decide +kernel⟩
  rw [← Journal.render_written]
  refine Journal.readWAL_torn_panic (.written (by decide) (by decide)) (by decide +kernel)
    (by decide +kernel) ?_
  rw [show records (((Journal.written none [.saveSnapshot ⟨5, 1⟩,
      .save {} [⟨.normal, 1, 6, none⟩, ⟨.normal, 1, 7, none⟩]]).torn 110).opened 0)
      = [.crc, .metadata none, .snapshot {}, .snapshot ⟨5, 1⟩, .entry ⟨.normal, 1, 6, none⟩] by
    decide +kernel]
  rfl

end Recovery

end EtcdCompat.Wal
