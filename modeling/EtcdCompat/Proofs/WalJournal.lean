import EtcdCompat.Proofs.WalCodec
import EtcdCompat.Wal.Journal

/-!
# A write-ahead log and its records

The messages in records are read as they were written, and every operation does to the files of a
journal what it does to the records (`render_run`). Whatever is left of the entries in earlier
segments is below the index a segment is named with (`Journal.Named`).
-/

namespace EtcdCompat.Wal

open List Wire Saved

section Messages

def IsUInt64 (n : ℕ) : Prop := n < 18446744073709551616

instance (n : ℕ) : Decidable (IsUInt64 n) := inferInstanceAs (Decidable (_ < _))

/-- The values a message can have, with data that fits in memory. -/
def Saved.Typed : Saved → Prop
  | .crc => True
  | .metadata data => (data.getD []).length < 4611686018427387904
  | .entry e => IsUInt64 e.term ∧ IsUInt64 e.index
      ∧ (e.data.getD []).length < 4611686018427387904
  | .state st => IsUInt64 st.term ∧ IsUInt64 st.vote ∧ IsUInt64 st.commit
  | .snapshot s => IsUInt64 s.index ∧ IsUInt64 s.term

instance : ∀ x : Saved, Decidable x.Typed
  | .crc => inferInstanceAs (Decidable True)
  | .metadata _ => inferInstanceAs (Decidable (_ < _))
  | .entry _ => inferInstanceAs (Decidable (_ ∧ _ ∧ _))
  | .state _ => inferInstanceAs (Decidable (_ ∧ _ ∧ _))
  | .snapshot _ => inferInstanceAs (Decidable (_ ∧ _))

theorem known_num {kind : ℕ → Option Kind} {num n : ℕ} (hn : IsUInt64 n)
    (h0 : 0 < num := by decide) (h1 : num < 268435456 := by decide)
    (hkind : kind num = some .varint := by rfl) : Known kind (num, .num n) :=
  ⟨h0, h1, hkind, hn⟩

theorem unmarshalSnap_marshalSnap {s : Snap} (h : (snapshot s).Typed) :
    unmarshalSnap (marshalSnap s) = .ok s := by
  have hm : marshalSnap s = [(1, .num s.index), (2, .num s.term)].flatMap putField := by
    simp [marshalSnap, putField, varint_of_lt]
  unfold unmarshalSnap
  rw [hm, fields_putFields]
  · simp [bind, Except.bind, Snap.set]
  · simp
    exact ⟨known_num h.1, known_num h.2⟩

theorem unmarshalState_marshalState {st : HardState} (h : (state st).Typed) :
    unmarshalState (marshalState st) = .ok st := by
  have hm : marshalState st
      = [(1, .num st.term), (2, .num st.vote), (3, .num st.commit)].flatMap putField := by
    simp [marshalState, putField, varint_of_lt]
  unfold unmarshalState
  rw [hm, fields_putFields]
  · simp [bind, Except.bind, setState]
  · simp
    exact ⟨known_num h.1, known_num h.2.1,
      known_num h.2.2⟩

def entryFields (e : Entry) : List (ℕ × Wire.Value) :=
  [(1, .num (entryCode e.type)), (2, .num e.term), (3, .num e.index)]
    ++ (e.data.map fun d => (4, .bytes d)).toList

theorem marshalEntry_eq (e : Entry) :
    marshalEntry e = (entryFields e).flatMap putField := by
  rcases hd : e.data with _ | d <;>
    simp [marshalEntry, entryFields, hd, putField, varint_of_lt]

theorem unmarshalEntry_marshalEntry {e : Entry} (hterm : IsUInt64 e.term)
    (hindex : IsUInt64 e.index) (hdata : (e.data.getD []).length < 9223372036854775808) :
    unmarshalEntry (marshalEntry e) = .ok e := by
  unfold unmarshalEntry
  rw [marshalEntry_eq, fields_putFields]
  · rcases e with ⟨type, term, index, _ | d⟩ <;> cases type <;>
      simp [bind, Except.bind, entryFields, setEntry, entryCode]
  · simp only [entryFields, forall_mem_append, forall_mem_cons, not_mem_nil, false_imp_iff,
      implies_true, and_true]
    refine ⟨⟨known_num ?_, known_num hterm,
      known_num hindex⟩, fun f hf => ?_⟩
    · cases e.type <;> decide
    · rcases hd : e.data with _ | d <;> rw [hd] at hf hdata <;> simp at hf
      rw [hf]
      exact ⟨by decide, by decide, rfl, hdata⟩

theorem length_marshalEntry (e : Entry) :
    (marshalEntry e).length ≤ (e.data.getD []).length + 44 := by
  have h1 := length_varint (entryCode e.type)
  have h2 := length_varint e.term
  have h3 := length_varint e.index
  unfold marshalEntry
  rcases e.data with _ | d
  · simp
    omega
  · have h4 := length_varint d.length
    simp
    omega

theorem Saved.Typed.fitsInt {x : Saved} (h : x.Typed) (c : UInt32) :
    FitsInt (recordOf c x.item) := by
  have hsize := (size_bounds c x.item).2
  unfold FitsInt
  rcases x with _ | data | e | st | s
  · simp [item] at hsize ⊢
    omega
  · simp only [Saved.Typed] at h
    simp only [item] at hsize ⊢
    omega
  · have hlen := length_marshalEntry e
    have hdata := h.2.2
    simp [item] at hsize ⊢
    omega
  · have h1 := length_varint st.term
    have h2 := length_varint st.vote
    have h3 := length_varint st.commit
    simp [item, marshalState] at hsize ⊢
    omega
  · have h1 := length_varint s.index
    have h2 := length_varint s.term
    simp [item, marshalSnap] at hsize ⊢
    omega

end Messages

section Render

theorem renderFiles_append : ∀ (as bs : List Segment) (c : UInt32), renderFiles c (as ++ bs)
    = ((renderFiles c as).1 ++ (renderFiles (renderFiles c as).2 bs).1,
      (renderFiles (renderFiles c as).2 bs).2)
  | [], _, _ => rfl
  | a :: as, bs, c => by
    simp [renderFiles, renderFiles_append as bs]

theorem renderFiles_snd : ∀ (segs : List Segment) (c : UInt32),
    (renderFiles c segs).2 = crcAfter c ((records segs).map item)
  | [], _ => rfl
  | seg :: segs, c => by
    simp [renderFiles, renderFiles_snd segs, records]
    rw [crcAfter, crcAfter, encodeAll_append]
    rfl

theorem flatMap_renderFiles : ∀ (segs : List Segment) (c : UInt32),
    (renderFiles c segs).1.flatMap WalFile.bytes
      = (encodeAll c ((records segs).map item)).1
  | [], _ => rfl
  | seg :: segs, c => by
    simp [renderFiles, flatMap_renderFiles segs, records, encodeAll_append]
    rfl

theorem appendLast_concat : ∀ (fs : List WalFile) (f : WalFile) (bytes : Bytes),
    appendLast (fs ++ [f]) bytes = fs ++ [{ f with bytes := f.bytes ++ bytes }]
  | [], _, _ => rfl
  | [g], f, bytes => rfl
  | g :: g' :: fs, f, bytes => by
    have ih := appendLast_concat (g' :: fs) f bytes
    simp at ih ⊢
    rw [appendLast, ih]
    simp

namespace Journal

section

variable (j : Journal)
include j

theorem render_add (x : Saved) : (j.add x).render = j.render.encode x.item.1 x.item.2 := by
  unfold render WAL.encode add segments
  simp [renderFiles_append, renderFiles, encodeAll_append, appendLast_concat]
  simp [encodeAll, crcAfter]

theorem render_saveEntry (e : Entry) : (j.saveEntry e).render = j.render.saveEntry e := by
  have h := render_add j (.entry e)
  unfold saveEntry WAL.saveEntry
  simp only [item] at h
  rw [← h]
  rfl

theorem render_saveState (st : HardState) : (j.saveState st).render = j.render.saveState st := by
  unfold saveState WAL.saveState
  split_ifs
  · rfl
  · exact render_add { j with state := st } (.state st)

theorem render_save (st : HardState) (ents : List Entry) :
    (j.save st ents).render = j.render.save st ents := by
  unfold save WAL.save
  split_ifs with h
  · rfl
  · rw [render_saveState]
    congr 1
    clear h
    induction ents generalizing j with
    | nil => rfl
    | cons e ents ih => rw [foldl_cons, foldl_cons, ← render_saveEntry, ih]

theorem render_saveSnapshot (e : Snap) : (j.saveSnapshot e).render = j.render.saveSnapshot e := by
  have h := render_add j (.snapshot e)
  unfold saveSnapshot WAL.saveSnapshot
  simp only [item] at h
  simp only [← h]
  rfl

theorem render_cut : j.cut.render = j.render.cut := by
  unfold cut WAL.cut WAL.saveCrc
  simp only [render_saveState]
  congr 1
  rw [render_add, render_add]
  congr 1
  congr 1
  unfold render segments
  simp [renderFiles_append, renderFiles, encodeAll]

end

theorem render_create (metadata : Option Bytes) :
    (create metadata).render = WAL.create metadata := by
  unfold create WAL.create
  rw [render_saveSnapshot, render_add, render_add]
  rfl

theorem render_step (j : Journal) (op : WAL.Op) : (j.step op).render = j.render.step op := by
  rcases op with ⟨st, ents⟩ | e | _
  · exact render_save j st ents
  · exact render_saveSnapshot j e
  · exact render_cut j

theorem render_run (j : Journal) (ops : List WAL.Op) :
    (ops.foldl step j).render = ops.foldl WAL.step j.render := by
  induction ops generalizing j with
  | nil => rfl
  | cons op ops ih => rw [foldl_cons, foldl_cons, ih, render_step]

end Journal

end Render

section Written

def WAL.Op.entries : WAL.Op → List Entry
  | .save _ ents => ents
  | _ => []

/-- What the server gives an operation. -/
def WAL.Op.Typed : WAL.Op → Prop
  | .save st ents => (Saved.state st).Typed ∧ ∀ e ∈ ents, (Saved.entry e).Typed
  | .saveSnapshot e => (Saved.snapshot e).Typed
  | .cut => True

instance : ∀ op : WAL.Op, Decidable op.Typed
  | .save _ _ => inferInstanceAs (Decidable (_ ∧ _))
  | .saveSnapshot e => inferInstanceAs (Decidable (Saved.snapshot e).Typed)
  | .cut => inferInstanceAs (Decidable True)

def states (st : HardState) : List Saved := if st = {} then [] else [.state st]

namespace Journal

variable {j : Journal} {state : HardState} {enti : ℕ}

/-- The journal with records added, and what the process then remembers. -/
def append (j : Journal) (xs : List Saved) (state : HardState) (enti : ℕ) : Journal :=
  { j with cur := { j.cur with saved := j.cur.saved ++ xs }, state, enti }

theorem foldl_saveEntry (j : Journal) (ents : List Entry) : ents.foldl saveEntry j
    = j.append (ents.map .entry) j.state ((ents.getLast?.map Entry.index).getD j.enti) := by
  induction ents using reverseRecOn with
  | nil => simp [append]
  | append_singleton ents e ih =>
    rw [foldl_append, ih]
    simp [saveEntry, add, append]

theorem save_eq (j : Journal) (st : HardState) (ents : List Entry) : j.save st ents
    = j.append (ents.map .entry ++ states st) (if st = {} then j.state else st)
      ((ents.getLast?.map Entry.index).getD j.enti) := by
  unfold save saveState states
  rw [foldl_saveEntry]
  split_ifs with h h' h'
  · simp [append, h.2]
  · exact absurd h.1 h'
  · simp [append]
  · simp [append, add]

theorem saveSnapshot_eq (j : Journal) (e : Snap) :
    j.saveSnapshot e = j.append [.snapshot e] j.state (max j.enti e.index) := by
  unfold saveSnapshot append add
  simp [Journal.mk.injEq]
  split_ifs <;> omega

theorem cut_eq (j : Journal) : j.cut
    = { j with
        closed := j.closed ++ [j.cur]
        cur := ⟨j.cur.seq + 1, j.enti + 1, .crc :: .metadata j.metadata :: states j.state⟩ } := by
  unfold cut saveState states add
  split_ifs <;> simp_all

theorem create_eq (metadata : Option Bytes) : create metadata
    = { cur := ⟨0, 0, [.crc, .metadata metadata, .snapshot {}]⟩, metadata } := rfl

theorem all_append (j : Journal) (xs : List Saved) (state : HardState) (enti : ℕ) :
    (j.append xs state enti).all = j.all ++ xs := by
  simp [all, records, segments, append]

theorem all_cut (j : Journal) :
    j.cut.all = j.all ++ .crc :: .metadata j.metadata :: states j.state := by
  simp [cut_eq, all, records, segments]

theorem entries_states (st : HardState) : Wal.entries (states st) = [] := by
  unfold states
  split_ifs <;> rfl

theorem entries_append (xs ys : List Saved) :
    Wal.entries (xs ++ ys) = Wal.entries xs ++ Wal.entries ys := filterMap_append

theorem entries_map_entry (ents : List Entry) : Wal.entries (ents.map .entry) = ents := by
  simp [Wal.entries, filterMap_map, Function.comp_def, entry?]

theorem entries_step (j : Journal) (op : WAL.Op) :
    Wal.entries (j.step op).all = Wal.entries j.all ++ op.entries := by
  rcases op with ⟨st, ents⟩ | e | _
  · simp [step, save_eq, all_append, entries_append, entries_map_entry, entries_states,
      WAL.Op.entries]
  · simp only [step, saveSnapshot_eq, all_append, entries_append, WAL.Op.entries]
    rfl
  · simp only [step, all_cut, entries_append, WAL.Op.entries]
    exact congrArg _ (entries_states j.state)

theorem entries_run (ops : List WAL.Op) (j : Journal) :
    Wal.entries (ops.foldl step j).all = Wal.entries j.all ++ ops.flatMap WAL.Op.entries := by
  induction ops generalizing j with
  | nil => simp
  | cons op ops ih => rw [foldl_cons, ih, entries_step, append_assoc, flatMap_cons]

/-- Segments are numbered, and each begins with the checksum and the metadata. -/
structure Wf (j : Journal) : Prop where
  seqs : j.segments.map Segment.seq = List.range j.segments.length
  first : ∃ seg segs, j.segments = seg :: segs ∧ seg.index = 0
  heads : ∀ seg ∈ j.segments, ∃ xs, seg.saved = .crc :: .metadata j.metadata :: xs
  metas : ∀ data, .metadata data ∈ j.all → data = j.metadata
  typed : ∀ x ∈ j.all, x.Typed
  stateTyped : (Saved.state j.state).Typed

theorem Wf.create {metadata : Option Bytes} (h : (Saved.metadata metadata).Typed) :
    (Journal.create metadata).Wf := by
  rw [create_eq]
  refine ⟨rfl, ⟨_, _, rfl, rfl⟩, ?_, ?_, ?_, ?_⟩
  · simp [segments]
  · simp [all, records, segments]
  · simp [all, records, segments]
    exact ⟨trivial, h, by decide, by decide⟩
  · exact (show (Saved.state {}).Typed by decide)

theorem Wf.rewritten (h : j.Wf) {saved : List Saved} {j' : Journal}
    (hj : j' = { j with cur := { j.cur with saved }, state, enti })
    (hhead : ∃ xs, saved = .crc :: .metadata j.metadata :: xs)
    (hmetas : ∀ data, .metadata data ∈ j'.all → data = j.metadata) (htyped : ∀ x ∈ j'.all, x.Typed)
    (hstate : (Saved.state state).Typed) : j'.Wf := by
  subst hj
  refine ⟨?_, ?_, fun seg hseg => ?_, hmetas, htyped, hstate⟩
  · simpa [segments] using h.seqs
  · obtain ⟨seg, segs, heq, hindex⟩ := h.first
    unfold segments at heq ⊢
    rcases hc : j.closed with _ | ⟨s, ss⟩ <;> rw [hc] at heq
    all_goals
      simp only [nil_append, cons_append, cons.injEq] at heq ⊢
      exact ⟨_, _, ⟨rfl, rfl⟩, by rw [heq.1, hindex]⟩
  · rcases mem_append.1 hseg with hseg | hseg
    · exact h.heads seg (mem_append_left _ hseg)
    · rw [mem_singleton.1 hseg]
      exact hhead

theorem Wf.append (h : j.Wf) {xs : List Saved} (hmeta : ∀ data, .metadata data ∉ xs)
    (htyped : ∀ x ∈ xs, x.Typed) (hstate : (Saved.state state).Typed) :
    (j.append xs state enti).Wf := by
  refine h.rewritten rfl ?_ (fun data hdata => ?_) (fun x hx => ?_) hstate
  · obtain ⟨ys, hys⟩ := h.heads j.cur (by simp [segments])
    exact ⟨ys ++ xs, by simp [hys]⟩
  · rw [all_append, mem_append] at hdata
    exact h.metas data (hdata.resolve_right (hmeta data))
  · rw [all_append, mem_append] at hx
    exact hx.elim (h.typed x) (htyped x)

theorem typed_states {st : HardState} (h : (Saved.state st).Typed) : ∀ x ∈ states st, x.Typed := by
  unfold states
  split_ifs <;> simp [h]

theorem metadata_not_mem_states (st : HardState) (data : Option Bytes) :
    .metadata data ∉ states st := by
  unfold states
  split_ifs <;> simp

theorem Wf.cut (h : j.Wf) : j.cut.Wf := by
  have hsegs : j.cut.segments = j.segments
      ++ [⟨j.cur.seq + 1, j.enti + 1, .crc :: .metadata j.metadata :: states j.state⟩] := by
    rw [cut_eq]
    rfl
  have hmeta : j.cut.metadata = j.metadata := by rw [cut_eq]
  have hstate : j.cut.state = j.state := by rw [cut_eq]
  refine ⟨?_, ?_, ?_, ?_, ?_, ?_⟩
  · have hs := h.seqs
    have hlast : j.cur.seq = j.closed.length := by
      have hget := congrArg (fun l => l[j.closed.length]?) hs
      simpa [segments] using hget
    rw [hsegs, map_append, hs, length_append, length_singleton, range_succ]
    simp [hlast, segments]
  · obtain ⟨seg, segs, heq, hindex⟩ := h.first
    rw [hsegs, heq, cons_append]
    exact ⟨_, _, rfl, hindex⟩
  · intro seg hseg
    rw [hsegs, mem_append, mem_singleton] at hseg
    rw [hmeta]
    rcases hseg with hseg | rfl
    · exact h.heads seg hseg
    · exact ⟨_, rfl⟩
  · intro data hdata
    rw [all_cut, mem_append, mem_cons, mem_cons] at hdata
    rw [hmeta]
    rcases hdata with hdata | hdata | hdata | hdata
    · exact h.metas data hdata
    · cases hdata
    · exact metadata.inj hdata
    · exact absurd hdata (metadata_not_mem_states _ _)
  · intro x hx
    rw [all_cut, mem_append, mem_cons, mem_cons] at hx
    rcases hx with hx | rfl | rfl | hx
    · exact h.typed x hx
    · trivial
    · obtain ⟨xs, hxs⟩ := h.heads j.cur (by simp [segments])
      exact h.typed _ (by simp [all, records, segments, hxs])
    · exact typed_states h.stateTyped x hx
  · rw [hstate]
    exact h.stateTyped

theorem Wf.step (h : j.Wf) {op : WAL.Op} (hop : op.Typed) : (j.step op).Wf := by
  rcases op with ⟨st, ents⟩ | e | _
  · rw [Journal.step, save_eq]
    refine h.append (fun data hdata => ?_) (fun x hx => ?_) ?_
    · rw [mem_append, mem_map] at hdata
      rcases hdata with ⟨e, -, he⟩ | hdata
      · cases he
      · exact metadata_not_mem_states _ _ hdata
    · rw [mem_append, mem_map] at hx
      rcases hx with ⟨e, he, rfl⟩ | hx
      · exact hop.2 e he
      · exact typed_states hop.1 x hx
    · split_ifs
      · exact h.stateTyped
      · exact hop.1
  · rw [Journal.step, saveSnapshot_eq]
    exact h.append (by simp) (by simpa using show (Saved.snapshot e).Typed from hop)
      h.stateTyped
  · exact h.cut

theorem Wf.run (h : j.Wf) {ops : List WAL.Op} (hops : ∀ op ∈ ops, op.Typed) :
    (ops.foldl Journal.step j).Wf := by
  induction ops generalizing j with
  | nil => exact h
  | cons op ops ih =>
    exact ih (h.step (hops op (by simp))) fun op' hop' => hops op' (by simp [hop'])

section Named

open Overwrite (replay)

variable {index : ℕ} {j : Journal}

/-- Whatever is left of the entries up to a segment is below the index in its name, or within those
that a snapshot stands for. -/
def NamedSegs (j : Journal) (index : ℕ) : Prop :=
  ∀ pre seg post, j.segments = pre ++ seg :: post →
    ∀ e ∈ replay Entry.index (Wal.entries (records pre)), e.index < seg.index ∨ e.index ≤ index

/-- Whatever is left of all is not above `enti`. -/
structure Named (j : Journal) (index : ℕ) : Prop where
  segs : j.NamedSegs index
  cur : ∀ e ∈ replay Entry.index (Wal.entries j.all), e.index ≤ max j.enti index

theorem Named.create (metadata : Option Bytes) (index : ℕ) :
    (Journal.create metadata).Named index := by
  rw [create_eq]
  refine ⟨fun pre seg post heq => ?_, ?_⟩
  · rcases pre with _ | ⟨a, pre⟩
    · simp [records, Wal.entries, replay]
    · simp [segments] at heq
  · intro e he
    cases he

theorem le_of_mem_replay_append {n : ℕ} {as es : List Entry}
    (h : ∀ e ∈ replay Entry.index as, e.index ≤ n) : ∀ e ∈ replay Entry.index (as ++ es),
      e.index ≤ (es.getLast?.map Entry.index).getD n := by
  induction es using reverseRecOn with
  | nil => simpa using h
  | append_singleton es e _ =>
    intro x hx
    rw [← append_assoc] at hx
    simpa using Overwrite.le_of_mem_replay_concat _ hx

theorem NamedSegs.congr {j j' : Journal} (h : j.NamedSegs index) (hclosed : j'.closed = j.closed)
    (hindex : j'.cur.index = j.cur.index) : j'.NamedSegs index := by
  intro pre seg post heq
  rw [segments, hclosed] at heq
  rcases eq_nil_or_concat post with rfl | ⟨post, last, rfl⟩
  · obtain ⟨rfl, hseg⟩ := append_inj' heq rfl
    rw [← singleton_inj.1 hseg, hindex]
    exact h j.closed j.cur [] rfl
  · rw [concat_eq_append, ← cons_append, ← append_assoc] at heq
    have hc := (append_inj' heq rfl).1
    refine h pre seg (post ++ [j.cur]) ?_
    rw [segments, hc, append_assoc, cons_append]

variable (h : j.Named index)
include h

theorem Named.append {xs : List Saved} {state : HardState} {enti : ℕ}
    (henti : ∀ e ∈ replay Entry.index (Wal.entries (j.all ++ xs)), e.index ≤ max enti index) :
    (j.append xs state enti).Named index where
  segs := h.segs.congr rfl rfl
  cur := by
    rw [all_append]
    exact henti

theorem Named.step (op : WAL.Op) : (j.step op).Named index := by
  rcases op with ⟨st, ents⟩ | e | _
  · rw [Journal.step, save_eq]
    refine h.append fun e he => ?_
    rw [entries_append, entries_append, entries_map_entry, entries_states, append_nil] at he
    rcases eq_nil_or_concat ents with rfl | ⟨ents, last, rfl⟩
    · rw [append_nil] at he
      simpa using h.cur e he
    · have := le_of_mem_replay_append h.cur e he
      simp at this ⊢
      omega
  · rw [Journal.step, saveSnapshot_eq]
    refine h.append fun x hx => ?_
    rw [entries_append, show Wal.entries [.snapshot e] = [] from rfl, append_nil] at hx
    have := h.cur x hx
    omega
  · have hsegs : j.cut.segments = j.segments
        ++ [⟨j.cur.seq + 1, j.enti + 1, .crc :: .metadata j.metadata :: states j.state⟩] := by
      rw [cut_eq]
      rfl
    have henti : j.cut.enti = j.enti := by rw [cut_eq]
    refine ⟨fun pre seg post heq => ?_, fun e he => ?_⟩
    · rw [Journal.step, hsegs] at heq
      rcases eq_nil_or_concat post with rfl | ⟨post, last, rfl⟩
      · obtain ⟨rfl, hseg⟩ := append_inj' heq rfl
        obtain rfl := singleton_inj.1 hseg
        intro e he
        have := h.cur e he
        simp only
        omega
      · rw [concat_eq_append, ← cons_append, ← append_assoc] at heq
        exact h.segs pre seg post (append_inj' heq rfl).1
    · rw [Journal.step, henti]
      refine h.cur e ?_
      rwa [entries_step, show WAL.Op.cut.entries = [] from rfl, append_nil] at he

theorem Named.run (ops : List WAL.Op) : (ops.foldl Journal.step j).Named index := by
  induction ops generalizing j with
  | nil => exact h
  | cons op ops ih => exact ih (h.step op)

end Named

end Journal

end Written

end EtcdCompat.Wal
