import EtcdCompat.Raft.Cluster
import EtcdCompat.Proofs.LogWrites

/-!
# The log while a `Ready` is stored

A `Ready` holds the unstable entries and snapshot `u₀` of the log `rl` at the time it was handed
out. Until the `Advance` the node may truncate its log, append to it or restore a newer snapshot
(`Flying`). Storing the `Ready` makes `rl` the stored log.
-/

namespace EtcdCompat

open List MemoryStorage

open Consensus (termAt)

theorem take_eq_of_le {log log' : List Entry} {k m : ℕ} (h : log.take m = log'.take m)
    (hk : k ≤ m) : log.take k = log'.take k := by
  have := congrArg (take k) h
  rwa [take_take, take_take, min_eq_left hk] at this

/-- The node's unstable part `u` and its log, since it handed out `u₀` and `rl` with the commit
index `c`. -/
structure Flying (u : Unstable) (log : List Entry) (u₀ : Unstable) (rl : List Entry) (c : ℕ) :
    Prop where
  plain : u.snapshot = none → u₀.snapshot = none ∧ u.offset ≤ u₀.offset
  still : u.entries = [] → u.snapshot = u₀.snapshot → log = rl
  moved : log = rl ∨ c < log.length
  same : ∀ s, u.snapshot = some s → u₀.snapshot = some s →
    rl.take s.metadata.index = log.take s.metadata.index
  newer : ∀ s, u.snapshot = some s → u₀.snapshot ≠ some s → ¬ log.take s.metadata.index <+: rl

theorem Flying.refl (u : Unstable) (log : List Entry) (c : ℕ) : Flying u log u log c :=
  ⟨fun h => ⟨h, le_rfl⟩, fun _ _ => rfl, .inl rfl, fun _ _ _ => rfl, fun _ h h' => absurd h h'⟩

theorem Flying.append {u u' u₀ : Unstable} {log log' rl : List Entry} {c k : ℕ}
    (h : Flying u log u₀ rl c) (hs : u'.snapshot = u.snapshot) (hne : u'.entries ≠ [])
    (hoff : u'.offset ≤ u.offset) (hk : log'.take k = log.take k) (hc : c ≤ k)
    (hlen : k < log'.length) (hsnap : ∀ s, u.snapshot = some s → s.metadata.index ≤ k) :
    Flying u' log' u₀ rl c := by
  have htake : ∀ s, u.snapshot = some s →
      log'.take s.metadata.index = log.take s.metadata.index :=
    fun s hs => take_eq_of_le hk (hsnap s hs)
  refine ⟨fun hn => ?_, fun he => absurd he hne, .inr (by omega), fun s h1 h2 => ?_,
    fun s h1 h2 => ?_⟩
  · obtain ⟨h1, h2⟩ := h.plain (hs ▸ hn)
    exact ⟨h1, hoff.trans h2⟩
  · rw [htake s (hs ▸ h1)]
    exact h.same s (hs ▸ h1) h2
  · rw [htake s (hs ▸ h1)]
    exact h.newer s (hs ▸ h1) h2

theorem Flying.restore {u u₀ : Unstable} {s : Snapshot} {log' rl : List Entry} {c : ℕ}
    (hne : u₀.snapshot ≠ some s) (hc : c < log'.length)
    (hnew : ¬ log'.take s.metadata.index <+: rl) : Flying (u.restore s) log' u₀ rl c := by
  refine ⟨nofun, fun _ h => absurd h.symm hne, .inr hc, fun s' h1 h2 => ?_, fun s' h1 _ => ?_⟩
  · cases h1
    exact absurd h2 hne
  · cases h1
    exact hnew

/-- The storage, which holds `stored`, can take over `log` from the index `o` on. -/
structure Takes (ms : MemoryStorage) (stored log : List Entry) (o : ℕ) : Prop where
  store : Stores ms stored
  indexed : Indexed log
  len : o - 1 ≤ stored.length
  dummy : ms.ents0.index ≤ log.length
  common : ∀ c, c ≤ o - 1 ∨ c ≤ ms.ents0.index → log.take c = stored.take c
  saved : o - 1 = log.length → stored = log
  whole : log.length = ms.ents0.index → stored = log
  le : o - 1 ≤ log.length

namespace Takes

variable {ms : MemoryStorage} {log stored : List Entry} {o : ℕ} (h : Takes ms stored log o)
include h

theorem append_eq : ∃ ms', ms.append (log.drop (o - 1)) = .ok ms' ∧ Stores ms' log ∧
    ms'.hardState = ms.hardState ∧ ms'.snapshot = ms.snapshot ∧
    ms'.ents0.index = ms.ents0.index := by
  obtain ⟨hstore, hidx, hlen, hd, hcommon, hsaved, hwhole, hle⟩ := h
  have hterm : ms.ents0.term = termAt Entry.term log ms.ents0.index := by
    have hstored : termAt Entry.term (stored.take ms.ents0.index) ms.ents0.index =
        termAt Entry.term stored ms.ents0.index := Consensus.termAt_take le_rfl
    rw [hstore.term, ← hstored, ← hcommon _ (.inr le_rfl), Consensus.termAt_take le_rfl]
  rcases Nat.lt_or_eq_of_le hle with hlt | heq
  · have hdrop := drop_eq_getElem_cons hlt
    have he := hidx _ _ (getElem?_eq_getElem hlt)
    have hfull : (log.drop (o - 1)).length = log.length - (o - 1) := length_drop ..
    rw [hdrop, append, ← hdrop, he, hfull, firstIndex]
    by_cases hdl : log.length = ms.ents0.index
    · rw [if_pos (by omega)]
      exact ⟨ms, rfl, hwhole hdl ▸ hstore, rfl, rfl, rfl⟩
    · have hdlt : ms.ents0.index < log.length := by omega
      have hfresh : ms.fresh (log.drop (o - 1)) (o - 1 + 1) =
          log.drop (max (o - 1) ms.ents0.index) := by
        rw [fresh, firstIndex]
        split_ifs with hgt
        · rw [drop_drop, show o - 1 + (ms.ents0.index + 1 - (o - 1 + 1)) =
            max (o - 1) ms.ents0.index by omega]
        · rw [max_eq_left (by omega)]
      have hmax : max (o - 1) ms.ents0.index < log.length := by omega
      have hd' := drop_eq_getElem_cons hmax
      have hf := hidx _ _ (getElem?_eq_getElem hmax)
      have hents : ms.ents.length = stored.length - ms.ents0.index := by
        rw [hstore.ents, length_drop]
      have hsd := hstore.dummy
      have hkeep : (ms.ents0 :: ms.ents).take (max (o - 1) ms.ents0.index + 1 - ms.ents0.index) ++
          log.drop (max (o - 1) ms.ents0.index) = ms.ents0 :: log.drop ms.ents0.index := by
        rw [show max (o - 1) ms.ents0.index + 1 - ms.ents0.index =
          (max (o - 1) ms.ents0.index - ms.ents0.index) + 1 by omega, take_succ_cons,
          cons_append, hstore.ents, ← drop_take, ← hcommon _ (by omega)]
        congr 1
        have hlen : ms.ents0.index ≤ (log.take (max (o - 1) ms.ents0.index)).length := by
          rw [length_take_of_le hmax.le]
          omega
        rw [← drop_append_of_le_length hlen, take_append_drop]
      rw [if_neg (by omega), hfresh, hd']
      simp only []
      rw [hf, if_neg (by omega), ← hd', hkeep]
      exact ⟨_, rfl, ⟨hd, hterm, rfl⟩, rfl, rfl, rfl⟩
  · rw [heq, drop_length, append]
    exact ⟨ms, rfl, hsaved heq ▸ hstore, rfl, rfl, rfl⟩

theorem setHardState (hs : HardState) :
    Takes (if isEmptyHardState hs then ms else ms.setHardState hs) stored log o := by
  split_ifs
  · exact h
  · exact { h with store := { h.store with } }

end Takes

/-- The dummy entry of the storage once `u₀` is stored. -/
def storedDummy (ms : MemoryStorage) (u₀ : Unstable) : ℕ :=
  (u₀.snapshot.map (·.metadata.index)).getD ms.ents0.index

/-- The storage with the snapshot of a `Ready`, if there is one. -/
def MemoryStorage.installed (ms : MemoryStorage) (rd : Ready) : MemoryStorage :=
  if isEmptySnap rd.snapshot then ms else ms.applySnapshot rd.snapshot

/-- The node's log, with a `Ready` of `u₀` and the log `rl` that is not stored yet. -/
structure Unsaved (l : RaftLog) (log stored : List Entry) (u₀ : Unstable) (rl : List Entry) (c : ℕ)
    (rd : Ready) : Prop where
  shows : Shows l log stored
  handed : Shows { l with unstable := u₀ } rl stored
  flying : Flying l.unstable log u₀ rl c
  pos : ∀ s, u₀.snapshot = some s → 0 < s.metadata.index
  whole : rl.length = l.storage.ents0.index → stored = rl
  entries : rd.entries = u₀.entries
  snapshot : rd.snapshot = u₀.snapshot.getD {}

namespace Unsaved

variable {l : RaftLog} {log rl stored : List Entry} {u₀ : Unstable} {c : ℕ} {rd : Ready}
  (h : Unsaved l log stored u₀ rl c rd)
include h

theorem shows_saved {ms : MemoryStorage} (hms : Stores ms rl)
    (hd : ms.ents0.index = storedDummy l.storage u₀) : Shows { l with storage := ms } log rl := by
  refine { h.shows with
    store := hms
    offset_le := fun hs => ?_
    dummy_le := fun hs => ?_
    common := fun hs k hk => ?_
    saved := fun hs hl => ?_ }
  · have h1 : u₀.offset - 1 ≤ rl.length := h.handed.offset
    have h2 := (h.flying.plain hs).2
    simp only
    omega
  · simp [hd, storedDummy, (h.flying.plain hs).1]
    exact h.shows.dummy_le hs
  · simp [hd, storedDummy, (h.flying.plain hs).1] at hk
    have h2 := (h.flying.plain hs).2
    rw [h.shows.common hs k hk]
    refine (h.handed.common (h.flying.plain hs).1 k (hk.imp_left fun hk => ?_)).symm
    simp only
    omega
  · refine (h.flying.still ?_ (hs.trans (h.flying.plain hs).1.symm)).symm
    rw [h.shows.entries]
    exact drop_eq_nil_of_le (le_of_eq hl.symm)

theorem installed : ∃ stored', Takes (l.storage.installed rd) stored' rl u₀.offset ∧
    Shows { l with storage := l.storage.installed rd } log stored' ∧
    (l.storage.installed rd).hardState = l.storage.hardState ∧
    (l.storage.installed rd).snapshot = u₀.snapshot.getD l.storage.snapshot ∧
    (l.storage.installed rd).ents0.index = storedDummy l.storage u₀ := by
  have hh := h.handed
  rw [MemoryStorage.installed, h.snapshot, storedDummy]
  cases hs : u₀.snapshot with
  | none =>
    exact ⟨stored, ⟨hh.store, hh.indexed, hh.offset_le hs, hh.dummy_le hs, hh.common hs,
      hh.saved hs, h.whole, hh.offset⟩, h.shows, rfl, rfl, rfl⟩
  | some s =>
    obtain ⟨hoff, hterm⟩ := hh.pending s hs
    have hoff : u₀.offset = s.metadata.index + 1 := hoff
    have hle : u₀.offset - 1 ≤ rl.length := hh.offset
    have hlen : (rl.take s.metadata.index).length = s.metadata.index :=
      length_take_of_le (by omega)
    have hstore : Stores (l.storage.applySnapshot s) (rl.take s.metadata.index) :=
      ⟨hlen.ge, hterm.trans (Consensus.termAt_take le_rfl).symm,
        (drop_eq_nil_of_le hlen.le).symm⟩
    have hd : (l.storage.applySnapshot s).ents0.index = s.metadata.index := rfl
    have hne : ¬ isEmptySnap s = true := by simpa [isEmptySnap] using (h.pos s hs).ne'
    have hsome : l.unstable.snapshot ≠ none := fun hn => by
      rw [(h.flying.plain hn).1] at hs
      cases hs
    rw [Option.getD_some, if_neg hne]
    refine ⟨_, ⟨hstore, hh.indexed, by omega, by omega, fun c hc => ?_, fun hl => ?_, fun hl => ?_,
      hle⟩, { h.shows with
        store := hstore
        offset_le := fun hn => absurd hn hsome
        dummy_le := fun hn => absurd hn hsome
        common := fun hn => absurd hn hsome
        saved := fun hn => absurd hn hsome }, rfl, rfl, rfl⟩
    · rw [take_take, min_eq_left (by omega)]
    · exact take_of_length_le (by omega)
    · exact take_of_length_le (by omega)

theorem persist : ∃ ms, l.storage.persist rd = .ok ms ∧ Stores ms rl ∧
    ms.hardState = (if isEmptyHardState rd.hardState then l.storage.hardState else rd.hardState) ∧
    ms.snapshot = u₀.snapshot.getD l.storage.snapshot ∧
    ms.ents0.index = storedDummy l.storage u₀ ∧ Shows { l with storage := ms } log rl := by
  obtain ⟨stored', ht, -, hhard, hsnap, hd⟩ := h.installed
  obtain ⟨ms, h1, h2, h3, h4, h5⟩ := (ht.setHardState rd.hardState).append_eq
  have hents : rd.entries = rl.drop (u₀.offset - 1) := h.entries.trans h.handed.entries
  have hd' : ms.ents0.index = storedDummy l.storage u₀ := by
    rw [h5, ← hd]
    split_ifs <;> rfl
  refine ⟨ms, by rw [← h1, ← hents]; rfl, h2, ?_, ?_, hd', h.shows_saved h2 hd'⟩
  · rw [h3, ← hhard]
    split_ifs <;> rfl
  · rw [h4, ← hsnap]
    split_ifs <;> rfl

end Unsaved

namespace Shows

variable {l : RaftLog} {log rl stored : List Entry} {u₀ : Unstable} {c : ℕ}

/-- The unstable part, or what is left of it once the entries up to `i` are stored. -/
def StableTo (l : RaftLog) (log : List Entry) (i t : ℕ) (u : Unstable) : Prop :=
  u = l.unstable ∨ l.unstable.offset ≤ i ∧ i ≤ log.length ∧ termAt Entry.term log i = t ∧
    u = { l.unstable with entries := log.drop i, offset := i + 1 }

theorem stableTo_eq (h : Shows l log stored) (i t : ℕ) :
    ∃ u, l.stableTo i t = .ok { l with unstable := u } ∧ StableTo l log i t u := by
  have hlen := h.length_entries
  have hpos := h.pos
  rw [RaftLog.stableTo, Unstable.stableTo]
  rcases lt_or_ge i l.unstable.offset with hi | hi
  · refine ⟨l.unstable, ?_, .inl rfl⟩
    rw [Unstable.maybeTerm, if_pos hi]
    cases l.unstable.snapshot with
    | none => rfl
    | some s =>
      simp only [bind, Except.bind, pure, Except.pure]
      split_ifs with hs
      · simp [not_le.2 hi]
      · rfl
  · rcases le_or_gt i log.length with hle | hgt
    · rw [h.maybeTerm_eq hi hle]
      simp [bind, Except.bind, pure, Except.pure, hi]
      split_ifs with ht
      · refine ⟨_, rfl, .inr ⟨hi, hle, ht, ?_⟩⟩
        rw [h.entries, drop_drop, show l.unstable.offset - 1 + (i + 1 - l.unstable.offset) = i
          by omega]
      · exact ⟨_, rfl, .inl rfl⟩
    · refine ⟨l.unstable, ?_, .inl rfl⟩
      have hnone : l.unstable.maybeTerm i = .ok none := by
        rw [Unstable.maybeTerm, if_neg (by omega), Unstable.maybeLastIndex]
        split_ifs with hne
        · simp only []
          rw [if_pos (by omega)]
        · cases hs : l.unstable.snapshot with
          | none => rfl
          | some s =>
            have := (h.pending s hs).1
            simp only [Option.map_some]
            rw [if_pos (by omega)]
      rw [hnone]
      rfl

end Shows

/-- The log `l` of the node, with a stored `Ready` of `u₀` and the log `rl` that is not answered
yet. -/
structure Awaiting (n : Node) (l : RaftLog) (log : List Entry) (u₀ : Unstable) (rl : List Entry)
    (c : ℕ) : Prop where
  shows : Shows l log rl
  flying : Flying l.unstable log u₀ rl c
  dummy : ∀ s, u₀.snapshot = some s → l.storage.ents0.index = s.metadata.index
  last : n.prevLastUnstable = if u₀.entries = [] then none else
    some (rl.length, termAt Entry.term rl rl.length)
  agree : termAt Entry.term log rl.length = termAt Entry.term rl rl.length →
    rl.length ≤ log.length → log.take rl.length = rl
  snapi : ∀ s, l.unstable.snapshot = some s →
    (s.metadata.index = n.prevSnapi ↔ u₀.snapshot = some s)

namespace Awaiting

variable {n : Node} {l : RaftLog} {log rl : List Entry} {u₀ u : Unstable} {c : ℕ}
  (h : Awaiting n l log u₀ rl c)
include h

theorem withApplied (i : ℕ) : Awaiting n { l with applied := i } log u₀ rl c :=
  { h with shows := h.shows.withApplied i }

theorem stableSnapTo (hu : u.snapshot = l.unstable.snapshot) :
    u.stableSnapTo n.prevSnapi = { u with snapshot :=
      if l.unstable.snapshot = u₀.snapshot then none else l.unstable.snapshot } := by
  rw [Unstable.stableSnapTo, hu]
  cases hs : l.unstable.snapshot with
  | none =>
    rw [if_pos (h.flying.plain hs).1.symm]
    cases u
    cases hu.trans hs
    rfl
  | some s =>
    simp only []
    by_cases hin : u₀.snapshot = some s
    · rw [if_pos ((h.snapi s hs).2 hin), if_pos hin.symm]
    · rw [if_neg fun heq => hin ((h.snapi s hs).1 heq), if_neg fun heq => hin heq.symm, ← hs, ← hu]

theorem dummy_eq : RaftLog.dummy { l with unstable := { u with snapshot :=
    if l.unstable.snapshot = u₀.snapshot then none else l.unstable.snapshot } } = l.dummy := by
  unfold RaftLog.dummy
  by_cases hsame : l.unstable.snapshot = u₀.snapshot
  · rw [if_pos hsame]
    cases hs : l.unstable.snapshot with
    | none => rfl
    | some s => exact h.dummy s (hsame ▸ hs)
  · rw [if_neg hsame]

theorem shows_kept : Shows { l with unstable := { l.unstable with snapshot :=
    if l.unstable.snapshot = u₀.snapshot then none else l.unstable.snapshot } } log rl := by
  by_cases hsame : l.unstable.snapshot = u₀.snapshot
  · rw [if_pos hsame]
    cases hs : l.unstable.snapshot with
    | none => exact { h.shows with
        offset_le := fun _ => h.shows.offset_le hs
        dummy_le := fun _ => h.shows.dummy_le hs
        common := fun _ => h.shows.common hs
        saved := fun _ => h.shows.saved hs
        pending := nofun }
    | some s =>
      have ho := (h.shows.pending s hs).1
      have hd := h.dummy s (hsame ▸ hs)
      have hpos := h.shows.pos
      have hoff := h.shows.offset
      have hsd := h.shows.store.dummy
      refine { h.shows with
        offset_le := fun _ => by simp only; omega
        dummy_le := fun _ => by simp only; omega
        common := fun _ k hk => (take_eq_of_le (h.flying.same s hs (hsame ▸ hs)) ?_).symm
        saved := fun _ hl => (h.flying.still ?_ hsame).symm
        pending := nofun }
      · simp only at hk
        omega
      · rw [h.shows.entries]
        exact drop_eq_nil_of_le (le_of_eq hl.symm)
  · rw [if_neg hsame]
    exact { h.shows with pos := h.shows.pos, offset := h.shows.offset }

theorem shows_released (hlo : l.unstable.offset ≤ rl.length) (hhi : rl.length ≤ log.length)
    (hterm : termAt Entry.term log rl.length = termAt Entry.term rl rl.length) :
    Shows { l with unstable := ⟨if l.unstable.snapshot = u₀.snapshot then none
      else l.unstable.snapshot, log.drop rl.length, rl.length + 1⟩ } log rl := by
  have hpre := h.agree hterm hhi
  have hsame : l.unstable.snapshot = u₀.snapshot := by
    cases hs : l.unstable.snapshot with
    | none => exact (h.flying.plain hs).1.symm
    | some s =>
      by_contra hne
      refine h.flying.newer s hs (fun h => hne h.symm) ?_
      have := (h.shows.pending s hs).1
      rw [← hpre]
      exact take_prefix_take_left (by omega)
  have hsd := h.shows.store.dummy
  have htake : log.take rl.length = rl.take rl.length := by rw [hpre, take_length]
  rw [if_pos hsame]
  refine ⟨h.shows.store, h.shows.indexed, by simp only; omega, hhi, rfl, fun _ => le_rfl,
    fun _ => by simp only; omega, fun _ k hk => take_eq_of_le htake ?_, fun _ hl => ?_, nofun⟩
  · simp only at hk
    omega
  · have hl : rl.length = log.length := hl
    rw [← hpre, hl, take_length]

theorem advance : ∃ u, n.advanceStable l = .ok { l with unstable := u } ∧
    Shows { l with unstable := u.stableSnapTo n.prevSnapi } log rl ∧
    (u.stableSnapTo n.prevSnapi).snapshot =
      (if l.unstable.snapshot = u₀.snapshot then none else l.unstable.snapshot) ∧
    RaftLog.dummy { l with unstable := u.stableSnapTo n.prevSnapi } = l.dummy := by
  obtain ⟨u, hstable, hu⟩ : ∃ u, n.advanceStable l = .ok { l with unstable := u } ∧
      Shows.StableTo l log rl.length (termAt Entry.term rl rl.length) u := by
    rw [Node.advanceStable, h.last]
    split_ifs
    · exact ⟨_, rfl, .inl rfl⟩
    · exact h.shows.stableTo_eq _ _
  have hsnap : u.snapshot = l.unstable.snapshot := by
    rcases hu with rfl | ⟨_, _, _, rfl⟩ <;> rfl
  refine ⟨u, hstable, ?_⟩
  rw [h.stableSnapTo hsnap]
  refine ⟨?_, rfl, h.dummy_eq⟩
  rcases hu with rfl | ⟨hlo, hhi, hterm, rfl⟩
  · exact h.shows_kept
  · exact h.shows_released hlo hhi hterm

end Awaiting

namespace Stores

variable {ms : MemoryStorage} {log : List Entry}

theorem compact_cases (h : Stores ms log) (hidx : Indexed log) (i : ℕ) :
    ms.compact i = .ok (.error .compacted) ∨
    ms.compact i = .error (.compactOutOfBound i log.length) ∨
    ∃ ms', ms.compact i = .ok (.ok ms') ∧ Stores ms' log ∧ ms'.ents0.index = i ∧
      ms.ents0.index < i ∧ i ≤ log.length ∧ ms'.snapshot = ms.snapshot ∧
      ms'.hardState = ms.hardState := by
  have hd := h.dummy
  rw [compact, h.lastIndex_eq]
  split_ifs with h1 h2
  · exact .inl rfl
  · exact .inr (.inl rfl)
  · have hlt : i - 1 < log.length := by omega
    have hget : ms.ents[i - ms.ents0.index - 1]? = some log[i - 1] := by
      rw [h.ents, getElem?_drop, show ms.ents0.index + (i - ms.ents0.index - 1) = i - 1 by
        omega, getElem?_eq_getElem hlt]
    have he := hidx _ _ (getElem?_eq_getElem hlt)
    rw [hget]
    refine .inr (.inr ⟨_, rfl, ⟨?_, ?_, ?_⟩, ?_, by omega, by omega, rfl, rfl⟩)
    · simp only [he]
      omega
    · have ht := Consensus.termAt_succ (f := Entry.term) (getElem?_eq_getElem hlt)
      simp only [he]
      exact ht.symm
    · simp only [he]
      rw [h.ents, drop_drop, show ms.ents0.index + (i - ms.ents0.index) = i - 1 + 1 by omega]
    · simp only [he]
      omega

theorem createSnapshot_cases (h : Stores ms log) (i : ℕ) (cs : Option ConfState)
    (data : Option Bytes) :
    ms.createSnapshot i cs data = .ok (.error .snapOutOfDate) ∨
    ms.createSnapshot i cs data = .error (.snapshotOutOfBound i log.length) ∨
    ms.createSnapshot i cs data = .error .indexOutOfRange ∨
    ∃ sn : Snapshot, ms.createSnapshot i cs data = .ok (.ok { ms with snapshot := sn }) ∧
      ms.snapshot.metadata.index < i ∧ sn.metadata.index = i ∧
        sn.metadata.term = termAt Entry.term log i ∧
      sn.metadata.confState = cs.getD ms.snapshot.metadata.confState := by
  rw [createSnapshot, h.lastIndex_eq]
  split_ifs with h1 h2 h3
  · exact .inl rfl
  · exact .inr (.inl rfl)
  · exact .inr (.inr (.inl rfl))
  · have hget := h.getElem? (i := i) (by omega) (by omega)
    cases he : (ms.ents0 :: ms.ents)[i - ms.ents0.index]? with
    | none => simp [he] at hget
    | some e =>
      rw [he] at hget
      exact .inr (.inr (.inr ⟨_, rfl, by omega, rfl, by simpa using hget, rfl⟩))

end Stores

namespace Shows

variable {l : RaftLog} {log stored : List Entry} {ms : MemoryStorage}

theorem of_compact (h : Shows l log stored) {i : ℕ} (hms : Stores ms stored)
    (hi : ms.ents0.index = i) (hle : i ≤ log.length) (hcommon : log.take i = stored.take i) :
    Shows { l with storage := ms } log stored := by
  refine { h with store := hms, dummy_le := fun _ => hi ▸ hle, common := fun hs k hk => ?_ }
  rcases hk with hk | hk
  · exact h.common hs k (.inl hk)
  · exact take_eq_of_le hcommon (hi ▸ hk)

theorem of_snapshot (h : Shows l log stored) (sn : Snapshot) :
    Shows { l with storage := { l.storage with snapshot := sn } } log stored :=
  { h with store := { h.store with } }

theorem of_newLog (h : Stores ms stored) (hidx : Indexed stored) :
    Shows (newLog ms) stored stored := by
  have hlast := h.lastIndex_eq
  refine ⟨h, hidx, Nat.le_add_left .., ?_, ?_, fun _ => ?_, fun _ => h.dummy, fun _ _ _ => rfl,
    fun _ _ => rfl, nofun⟩
  · simp only [newLog]
    omega
  · simp [newLog, hlast]
  · simp only [newLog]
    omega

end Shows

end EtcdCompat
