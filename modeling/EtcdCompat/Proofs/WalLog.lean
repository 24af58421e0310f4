import EtcdCompat.Proofs.WalRead

/-!
# What `ReadAll` returns

The entries that `ReadAll` returns at a snapshot are those left above it when every saved entry
replaces the ones from its index on, exactly if no entry comes more than one above all those read
before it, and what is left begins right after the snapshot or is nothing.
-/

namespace EtcdCompat.Wal

open List Journal Saved

open Overwrite

namespace Journal

variable {j : Journal} {g : Growth} {snap : Snap} {xs : List Saved}

/-- Records that `ReadAll` gets through without an error. -/
def Taken (j : Journal) (snap : Snap) (xs : List Saved) : Prop :=
  Matched snap xs ∧ ∀ rec ∈ recordsOf (j.crcAt snap.index) (xs.map Saved.item), Small rec

theorem Wf.metadataOf (h : j.Wf) (index : ℕ) :
    MetadataOf j.metadata (records (j.opened index)) := fun data hdata =>
  h.metas data (by rw [h.records_opened index]; exact mem_append_right _ hdata)

theorem Wf.typed_opened (h : j.Wf) (index : ℕ) :
    ∀ x ∈ records (j.opened index), x.Typed := fun x hx =>
  h.typed x (by rw [h.records_opened index]; exact mem_append_right _ hx)

theorem Wf.readLoop (h : j.Wf) {tail rest : Bytes}
    (hxs : xs <+: records (j.opened snap.index))
    (hsmall : ∀ rec ∈ recordsOf (j.crcAt snap.index) (xs.map item), Small rec)
    (hrest : (encodeAll (j.crcAt snap.index) (j.items snap.index)).1 ++ tail
      = (encodeAll (j.crcAt snap.index) (xs.map item)).1 ++ rest) :
    ∃ fuel, Wal.readLoop g snap
        (((encodeAll (j.crcAt snap.index) (j.items snap.index)).1 ++ tail).length + 1)
        ⟨(encodeAll (j.crcAt snap.index) (j.items snap.index)).1 ++ tail, 0⟩ {}
      = (xs.foldlM (readSaved g snap) {}).bind fun acc => Wal.readLoop g snap (fuel + 1)
        ⟨rest, crcRead (j.crcAt snap.index) 0 (xs.map item)⟩ acc := by
  have hlen := length_le_encodeAll (xs.map item) (j.crcAt snap.index)
  rw [length_map] at hlen
  have hsync := h.synced snap.index
  have htyped := h.typed_opened snap.index
  obtain ⟨ys, hys⟩ := hxs
  rw [← hys] at htyped
  rw [items, ← hys, map_append] at hsync
  obtain ⟨fuel, hfuel⟩ : ∃ fuel, ((encodeAll (j.crcAt snap.index) (xs.map item)).1
      ++ rest).length + 1 = xs.length + (fuel + 1) :=
    ⟨((encodeAll (j.crcAt snap.index) (xs.map item)).1 ++ rest).length - xs.length, by
      rw [length_append]; omega⟩
  refine ⟨fuel, ?_⟩
  rw [hrest, hfuel]
  exact readLoop_small _ _ _ (fun x hx => htyped x (mem_append_left _ hx)) hsmall
    hsync.of_append

theorem items_of_append {xs ys : List Saved} (heq : xs ++ ys = records (j.opened snap.index)) :
    (encodeAll (j.crcAt snap.index) (j.items snap.index)).1 ++ []
      = (encodeAll (j.crcAt snap.index) (xs.map item)).1
        ++ (encodeAll (crcAfter (j.crcAt snap.index) (xs.map item)) (ys.map item)).1 :=
          by
  rw [items, ← heq, map_append, encodeAll_append, append_nil]

theorem Wf.openReadAll_small (h : j.Wf)
    (hsmall : ∀ rec ∈ recordsOf (j.crcAt snap.index) (j.items snap.index), Small rec) :
    Wal.openReadAll g j.render.files snap
      = ((records (j.opened snap.index)).foldlM (readSaved g snap) {}).bind fun acc =>
        if !acc.found then .error (.error .snapshotNotFound)
        else .ok ({ files := j.render.files, metadata := acc.metadata, enti := acc.enti
                    crc := j.render.crc, seq := j.cur.seq }, acc.state, acc.ents.toList) := by
  obtain ⟨fuel, hloop⟩ := h.readLoop (g := g) (prefix_refl _) hsmall rfl
  have hopen := h.openReadAll g snap []
  rw [hloop, appendLast_nil] at hopen
  rw [hopen]
  rcases (records (j.opened snap.index)).foldlM (readSaved g snap) {} with e | acc
  · rfl
  · have hcrc := h.crc snap.index
    rw [items] at hcrc
    simp only [Except.bind, hcrc, readLoop_nil]

theorem Wf.openReadAll_jump (h : j.Wf) (hxs : xs <+: records (j.opened snap.index))
    (htaken : j.Taken snap xs) (hjump : ¬ Steady Entry.index snap.index (entries xs)) :
    Wal.openReadAll .exact j.render.files snap = .error .panic := by
  obtain ⟨ys, hys⟩ := hxs
  obtain ⟨fuel, hloop⟩ := h.readLoop (g := .exact) ⟨ys, hys⟩ htaken.2 (items_of_append hys)
  have hmeta := h.metadataOf snap.index
  have hopen := h.openReadAll .exact snap []
  rw [← hys] at hmeta
  rw [hloop, appendLast_nil] at hopen
  rw [hopen, readSaved_jump hjump hmeta.of_append htaken.1]
  rfl

theorem Wf.openReadAll_large (h : j.Wf)
    (hlarge : ¬ ∀ rec ∈ recordsOf (j.crcAt snap.index) (j.items snap.index), Small rec) :
    ∃ xs, xs <+: records (j.opened snap.index)
      ∧ (∀ rec ∈ recordsOf (j.crcAt snap.index) (xs.map item), Small rec)
      ∧ Wal.openReadAll g j.render.files snap = (xs.foldlM (readSaved g snap) {}).bind fun _ =>
        .error (.error .maxEntrySizeLimitExceeded) := by
  obtain ⟨pre, i, post, heq, hpre, hi⟩ := exists_first_large hlarge
  obtain ⟨xs, zs, hxz, rfl, hzs⟩ := map_eq_append_iff.1 heq
  obtain ⟨x, ys, rfl, rfl, rfl⟩ := map_eq_cons_iff.1 hzs
  refine ⟨xs, ⟨_, hxz.symm⟩, hpre, ?_⟩
  have htyped : x.Typed := h.typed_opened snap.index x (by rw [hxz]; simp)
  obtain ⟨fuel, hloop⟩ := h.readLoop (g := g) ⟨_, hxz.symm⟩ hpre (items_of_append hxz.symm)
  have hopen := h.openReadAll g snap []
  rw [hloop, appendLast_nil] at hopen
  rw [hopen]
  rcases xs.foldlM (readSaved g snap) {} with e | acc
  · rfl
  · simp [Except.bind, encodeAll_cons, readLoop_large htyped hi]

end Journal

/-- An error, or the entries of a log that begins after an index. -/
def IsLog (index : ℕ) (log : List Entry) (res : Except Stop (WAL × HardState × List Entry))
    : Prop :=
  res ≠ .error .panic ∧ ∀ w st ents, res = .ok (w, st, ents) →
    ents = log ∧ Numbered Entry.index (index + 1) ents

theorem isLog_ok {index : ℕ} {log ents : List Entry} {w : WAL} {st : HardState} :
    IsLog index log (.ok (w, st, ents))
      ↔ ents = log ∧ Numbered Entry.index (index + 1) ents := by
  refine ⟨fun h => h.2 w st ents rfl, fun h => ⟨fun he => ?_, fun _ _ _ he => ?_⟩⟩
  · cases he
  · cases he
    exact h

theorem isLog_error {index : ℕ} {log : List Entry} {stop : Stop} :
    IsLog index log (.error stop) ↔ stop ≠ .panic :=
  ⟨fun h he => h.1 (by rw [he]), fun h => ⟨fun he => h (Except.error.inj he), fun _ _ _ he => by
    cases he⟩⟩

namespace Journal

variable {j : Journal} {snap : Snap}

theorem Wf.logAbove_opened (h : j.Wf) (hnamed : j.NamedSegs snap.index) :
    logAbove snap.index j.all = logAbove snap.index (records (j.opened snap.index)) := by
  obtain ⟨seg, post, hsegs, hopen, hseg, -⟩ := h.opened snap.index
  rw [logAbove, h.records_opened snap.index, entries_append]
  refine above_append _ fun e he => ?_
  have := hnamed _ seg post hsegs e he
  omega

theorem isLog_iff (h : j.Wf) (hnamed : j.NamedSegs snap.index) :
    (∀ g, IsLog snap.index (logAbove snap.index j.all) (openReadAll g j.render.files snap)) ↔
      (∀ xs, xs <+: records (j.opened snap.index) → j.Taken snap xs →
        Steady Entry.index snap.index (entries xs))
      ∧ (j.Taken snap (records (j.opened snap.index)) →
        .snapshot snap ∈ records (j.opened snap.index) →
        Numbered Entry.index (snap.index + 1) (logAbove snap.index j.all)
        ∧ (logAbove snap.index j.all = [] →
          ∀ e ∈ entries (records (j.opened snap.index)), e.index ≤ snap.index)) := by
  have hmeta := h.metadataOf snap.index
  rw [h.logAbove_opened hnamed]
  constructor
  · intro hall
    have hsteady : ∀ xs, xs <+: records (j.opened snap.index) → j.Taken snap xs →
        Steady Entry.index snap.index (entries xs) := by
      intro xs hxs htaken
      by_contra hjump
      have := hall .exact
      rw [h.openReadAll_jump hxs htaken hjump] at this
      exact isLog_error.1 this rfl
    refine ⟨hsteady, fun htaken hmem => ?_⟩
    have hst := hsteady _ (prefix_refl _) htaken
    obtain ⟨acc, hacc, hread⟩ := readSaved_ok (g := .exact) hst hmeta htaken.1
    have hgood := hall .exact
    rw [h.openReadAll_small htaken.2, hacc] at hgood
    simp [Except.bind, hread.found.2 ⟨snap, hmem, rfl⟩, isLog_ok, hread.ents.toList] at hgood
    exact hst.take_placed_eq_iff.1 hgood.1
  · rintro ⟨hsteady, hlog⟩ g
    by_cases hsmall : ∀ rec ∈ recordsOf (j.crcAt snap.index) (j.items snap.index), Small rec
    · by_cases hmatch : Matched snap (records (j.opened snap.index))
      · have hst := hsteady _ (prefix_refl _) ⟨hmatch, hsmall⟩
        obtain ⟨acc, hacc, hread⟩ := readSaved_ok (g := g) hst hmeta hmatch
        rw [h.openReadAll_small hsmall, hacc]
        by_cases hfound : acc.found = true
        · have heq := hst.take_placed_eq_iff.2
            (hlog ⟨hmatch, hsmall⟩ ((hread.found_iff hmatch).1 hfound))
          simp [Except.bind, hfound, isLog_ok, hread.ents.toList]
          exact ⟨heq, hst.numbered_take _⟩
        · simp only [Except.bind, hfound, Bool.not_false, if_true, isLog_error]
          decide
      · have hsafe : (records (j.opened snap.index)).foldlM (readSaved g snap) {}
            ≠ .error .panic := readSaved_safe hmeta fun xs hxs hm => hsteady xs hxs ⟨hm, by
          obtain ⟨ys, hys⟩ := hxs
          intro rec hrec
          refine hsmall rec ?_
          rw [items, ← hys, map_append, recordsOf_append]
          exact mem_append_left _ hrec⟩
        rw [h.openReadAll_small hsmall]
        rcases hf : (records (j.opened snap.index)).foldlM (readSaved g snap) {} with e | acc
        · rw [hf] at hsafe
          exact isLog_error.2 fun he => hsafe (by rw [he])
        · exact absurd (matched_of_ok hf) hmatch
    · obtain ⟨xs, hxs, hsm, heq⟩ := h.openReadAll_large (g := g) hsmall
      have hprefix : ∀ {ys}, ys <+: xs → ∀ rec ∈ recordsOf (j.crcAt snap.index)
          (ys.map item), Small rec := by
        rintro ys ⟨zs, rfl⟩ rec hrec
        refine hsm rec ?_
        rw [map_append, recordsOf_append]
        exact mem_append_left _ hrec
      obtain ⟨ys, hys⟩ := hxs
      rw [← hys] at hmeta
      have hsafe : xs.foldlM (readSaved g snap) {} ≠ .error .panic :=
        readSaved_safe hmeta.of_append fun zs hzs hm =>
          hsteady zs (hzs.trans ⟨ys, hys⟩) ⟨hm, hprefix hzs⟩
      rw [heq]
      rcases hf : xs.foldlM (readSaved g snap) {} with e | acc
      · rw [hf] at hsafe
        exact isLog_error.2 fun he => hsafe (by rw [he])
      · exact isLog_error.2 fun he => by cases he

end Journal

section Written

variable {md : Option Bytes} {ops : List WAL.Op} {snap : Snap}

def WAL.written (md : Option Bytes) (ops : List WAL.Op) : WAL := ops.foldl WAL.step (WAL.create md)

def Journal.written (md : Option Bytes) (ops : List WAL.Op) : Journal :=
  ops.foldl Journal.step (Journal.create md)

namespace Journal

theorem render_written (md : Option Bytes) (ops : List WAL.Op) :
    (written md ops).render = WAL.written md ops := by
  rw [written, render_run, render_create]
  rfl

theorem entries_written (md : Option Bytes) (ops : List WAL.Op) :
    Wal.entries (written md ops).all = ops.flatMap WAL.Op.entries := by
  rw [written, entries_run]
  rfl

theorem Wf.written (hmd : (Saved.metadata md).Typed) (hops : ∀ op ∈ ops, op.Typed) :
    (written md ops).Wf := (Wf.create hmd).run hops

theorem Named.written (md : Option Bytes) (ops : List WAL.Op) (index : ℕ) :
    (written md ops).Named index := (Named.create md index).run ops

end Journal

theorem readAll_isLog_iff (hmd : (Saved.metadata md).Typed) (hops : ∀ op ∈ ops, op.Typed) :
    (∀ g, IsLog snap.index (above Entry.index snap.index (ops.flatMap WAL.Op.entries))
        (openReadAll g (WAL.written md ops).files snap)) ↔
      (∀ xs, xs <+: records ((Journal.written md ops).opened snap.index) →
        (Journal.written md ops).Taken snap xs → Steady Entry.index snap.index (entries xs))
      ∧ ((Journal.written md ops).Taken snap (records ((Journal.written md ops).opened snap.index))
        →
        .snapshot snap ∈ records ((Journal.written md ops).opened snap.index) →
        Numbered Entry.index (snap.index + 1)
          (above Entry.index snap.index (ops.flatMap WAL.Op.entries))
        ∧ (above Entry.index snap.index (ops.flatMap WAL.Op.entries) = [] →
          ∀ e ∈ entries (records ((Journal.written md ops).opened snap.index)),
            e.index ≤ snap.index)) := by
  rw [← Journal.render_written, ← Journal.entries_written md]
  exact Journal.isLog_iff (.written hmd hops) (Journal.Named.written md ops _).segs

theorem steady_of_isPrefix {top : ℕ} {xs ys : List Saved} (h : Steady Entry.index top (entries ys))
    (hxs : xs <+: ys) : Steady Entry.index top (entries xs) := by
  obtain ⟨zs, rfl⟩ := hxs
  rw [entries_append] at h
  exact ((steady_append _).1 h).1

/-- Entries over others, with a snapshot and a cut between. -/
theorem readAll_isLog_cut : ∃ ops : List WAL.Op, ops =
      [.save ⟨1, 1, 2⟩ [⟨.normal, 1, 1, none⟩, ⟨.normal, 1, 2, none⟩, ⟨.normal, 1, 3, none⟩],
        .saveSnapshot ⟨2, 1⟩, .save ⟨2, 1, 2⟩ [⟨.normal, 2, 3, none⟩], .cut,
        .save {} [⟨.normal, 2, 4, none⟩]]
    ∧ ∀ g, IsLog 2 (above Entry.index 2 (ops.flatMap WAL.Op.entries))
      (openReadAll g (WAL.written none ops).files ⟨2, 1⟩) := by
  refine ⟨_, rfl, (@readAll_isLog_iff none _ ⟨2, 1⟩ (by decide) (by decide)).2
    ⟨fun xs hxs _ => ?_, fun _ _ => ?_⟩⟩
  · exact steady_of_isPrefix (by decide) hxs
  · decide

/-- An installed snapshot is behind all entries, so those after it do not go on from an older one,
and entries over those up to a snapshot leave the old ones after it. -/
theorem readAll_not_isLog :
    (∃ ops : List WAL.Op, (∀ op ∈ ops, op.Typed)
      ∧ ops = [.saveSnapshot ⟨5, 1⟩, .save {} [⟨.normal, 1, 6, none⟩]]
      ∧ ∀ g, openReadAll g (WAL.written none ops).files {} = .error .panic)
    ∧ ((openReadAll .exact (WAL.written none
        [.save ⟨1, 1, 0⟩ [⟨.normal, 1, 1, none⟩, ⟨.normal, 1, 2, none⟩, ⟨.normal, 1, 3, none⟩],
          .save ⟨2, 2, 2⟩ [⟨.normal, 2, 1, none⟩, ⟨.normal, 2, 2, none⟩],
          .saveSnapshot ⟨2, 2⟩]).files ⟨2, 2⟩).map fun r => r.2.2)
      = .ok [⟨.normal, 1, 3, none⟩] := by
  refine ⟨⟨_, by decide, rfl, fun g => ?_⟩, by decide +kernel⟩
  rw [← Journal.render_written, (Journal.Wf.written (by decide) (by decide)).openReadAll_small]
  · rfl
  · decide +kernel

end Written

end EtcdCompat.Wal
