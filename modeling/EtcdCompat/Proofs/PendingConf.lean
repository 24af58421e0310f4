import EtcdCompat.Proofs.OwnProgress

/-!
# The pending configuration change

A leader turns a configuration change into an empty entry while `pendingConf` is set. The flag
stands for a change in its log that has not been passed to `ApplyConfChange`, unless the last one
passed adds a member once more: `addNode` then does not reset the flag.
-/

namespace EtcdCompat

open List

theorem RaftLog.Has.append {l l' : RaftLog} {e : Entry} {ents : List Entry}
    (h : l.append ents = .ok l') (hents : NumberedFrom (l.lastIndex + 1) ents)
    (he : l.Has e ∨ e ∈ ents) : l'.Has e ∧ (e ∈ ents → l.committed < e.index) := by
  unfold RaftLog.append at h
  rcases ents with _ | ⟨e₀, es⟩
  · cases h
    exact ⟨he.resolve_right (by simp), fun he => by cases he⟩
  simp only at h
  split_ifs at h with hafter
  obtain ⟨u, hu, ⟨⟩⟩ := exists_ok_of_bind h
  have hhead := hents.head
  refine ⟨?_, fun he => ?_⟩
  swap
  · obtain ⟨j, hj⟩ := mem_iff_getElem?.1 he
    have := hents j e hj
    omega
  have hlast : l.unstable.entries.length ≠ 0 →
      l.lastIndex = l.unstable.offset + l.unstable.entries.length - 1 := fun hne => by
    rw [RaftLog.lastIndex, Unstable.maybeLastIndex, if_pos hne, Option.getD_some]
  have hstored : ∀ {u : Unstable}, u.snapshot = l.unstable.snapshot → u.entries.length ≠ 0 →
      e ∈ l.storage.ents → l.firstIndex ≤ e.index → e.index < u.offset →
      RaftLog.Has { l with unstable := u } e := by
    intro u hs hne hmem hfirst hlt
    refine .inr ⟨hmem, ?_, ?_, hlt⟩
    · rwa [RaftLog.firstIndex, Unstable.maybeFirstIndex, hs]
    · rw [RaftLog.lastIndex, Unstable.maybeLastIndex, if_pos hne, Option.getD_some]
      show e.index ≤ u.offset + u.entries.length - 1
      omega
  unfold Unstable.truncateAndAppend at hu
  simp only at hu
  split_ifs at hu with h0 heq hlt
  · cases hu
    rcases he with (he | ⟨h1, h2, _, h3⟩) | he
    · exact .inl (mem_append_left _ he)
    · exact hstored rfl (by simp) h1 h2 h3
    · exact .inl (mem_append_right _ he)
  · cases hu
    rcases he with (he | ⟨h1, h2, h3, _⟩) | he
    · have := length_pos_iff.2 (ne_nil_of_mem he)
      omega
    · exact hstored rfl (by simp) h1 h2 (by simp only; omega)
    · exact .inl he
  · -- the unstable entries would end before the last index
    obtain ⟨kept, hkept, -⟩ := exists_ok_of_bind hu
    obtain ⟨_, hcheck, -⟩ := exists_ok_of_bind hkept
    unfold Unstable.mustCheckOutOfBounds at hcheck
    split_ifs at hcheck
    omega

namespace Raft

theorem exists_mem_stamp {e : Entry} (t : ℕ) : ∀ {k : ℕ} {es : List Entry}, e ∈ es →
    ∃ e' ∈ stamp t k es, e'.type = e.type
  | _, x :: es, he => by
    rcases mem_cons.1 he with rfl | he
    · exact ⟨_, mem_cons_self, rfl⟩
    · obtain ⟨e', hmem, hty⟩ := exists_mem_stamp t he
      exact ⟨e', mem_cons_of_mem _ hmem, hty⟩

/-- A node, and the index of the last change passed to `ApplyConfChange`. -/
structure Applying where
  raft : Raft
  passed : ℕ

namespace Applying

/-- A change in the log that has not been passed to `ApplyConfChange`. -/
def Unapplied (a : Applying) (e : Entry) : Prop :=
  a.raft.raftLog.Has e ∧ e.type = .confChange ∧ a.passed < e.index

/-- The change does not add a member again, nothing is pending, or another change follows. -/
def Settles (a : Applying) (e : Entry) (cc : ConfChange) : Prop :=
  cc.type = .addNode → cc.nodeID ≠ none_ → (a.raft.pr cc.nodeID).isSome →
    a.raft.state = .leader → a.raft.pendingConf = true → ∃ e', a.Unapplied e' ∧ e.index < e'.index

/-- Messages and ticks, the next committed change passed to `ApplyConfChange` if it meets `ok`, and
what `Ready`s, the storage and compactions do to the log. -/
inductive Step (ok : Applying → Entry → ConfChange → Prop) (a : Applying) : Applying → Prop
  | step {m : Message} {r : Raft} : m.Numbered → a.raft.step m = .ok r → Step ok a ⟨r, a.passed⟩
  | tick {rand : ℕ} {r : Raft} : a.raft.tick rand = .ok r → Step ok a ⟨r, a.passed⟩
  | apply {e : Entry} {cc : ConfChange} {r : Raft} : a.Unapplied e →
    e.index ≤ a.raft.raftLog.committed → (∀ e', a.Unapplied e' → e.index ≤ e'.index) →
    ok a e cc → a.raft.applyConfChange cc = .ok r → Step ok a ⟨r, e.index⟩
  | store {l : RaftLog} : l.Numbered → l.committed = a.raft.raftLog.committed →
    (∀ e, a.passed < e.index → a.raft.raftLog.Has e → l.Has e) →
    Step ok a ⟨{ a.raft with raftLog := l }, a.passed⟩

/-- The flag stands for a change not yet passed on. -/
structure Sound (a : Applying) : Prop where
  numbered : a.raft.raftLog.Numbered
  passed : a.passed ≤ a.raft.raftLog.committed
  pending : a.raft.state = .leader → a.raft.pendingConf = true → ∃ e, a.Unapplied e

variable {a a' : Applying} {r r' : Raft} {n b : Prop}

theorem Sound.act {p : ℕ} (h : Sound ⟨r, p⟩) (hact : Act n b r r') (hn : n) : Sound ⟨r', p⟩ := by
  have hm := (Acts.moved (.single hact) h.numbered hn).2
  refine ⟨hm.numbered h.numbered, h.passed.trans hm.committed, ?_⟩
  cases hact with
  | follower t lead => exact fun hs => by cases hs
  | candidate => exact fun hs => by cases hs
  | elect pending hents hp =>
    intro _ hpending
    obtain ⟨e, he, hty⟩ := hp hpending
    have hread := (RaftLog.entries_mild _ _ _).of_ok hents h.numbered _ rfl
    have hp : p ≤ r.raftLog.committed := h.passed
    exact ⟨e, hread.mem e he, hty, by have := (hread.index he).1; simp only; omega⟩
  | append pending es hs hp happend =>
    intro _ hpending
    have hnew := fun e => @RaftLog.Has.append _ _ e _ happend (.stamp _ _ _)
    rcases hp hpending with hold | ⟨e, he, hty⟩
    · obtain ⟨e, hhas, hty, hlt⟩ := h.pending hs hold
      exact ⟨e, (hnew e (.inl hhas)).1, hty, hlt⟩
    · obtain ⟨e', hmem, hty'⟩ := exists_mem_stamp r.term he
      obtain ⟨hhas, hlt⟩ := hnew e' (.inr hmem)
      exact ⟨e', hhas, hty'.trans hty, h.passed.trans_lt (hlt hmem)⟩
  | commit hc =>
    obtain ⟨k, -, rfl⟩ := hc
    exact h.pending
  | accept prs hs hl => exact fun hs' => absurd hs' hs
  | _ => exact h.pending

theorem Sound.acts {p : ℕ} (h : Sound ⟨r, p⟩) (hacts : Acts n b r r') (hn : n) :
    Sound ⟨r', p⟩ := by
  induction hacts with
  | refl => exact h
  | tail _ hact ih => exact ih.act hact hn

theorem Sound.step (h : a.Sound) (hstep : Step Settles a a') : a'.Sound := by
  cases hstep with
  | step hm hr =>
    refine h.acts (b := True) ((step_acts (c := True) (fun _ => hm) ?_ ?_).of_ok hr) trivial
    all_goals exact fun _ => by simp
  | tick hr => exact h.acts ((Raft.tick_acts _ _).of_ok hr) trivial
  | @apply e cc r he hle hnext hok hr =>
    refine Sound.acts (r := a.raft.changed cc) ⟨?_, ?_, fun hs hpending => ?_⟩
      ((Raft.applyConfChange_acts _ cc).of_ok hr) trivial
    · rw [changed_raftLog]
      exact h.numbered
    · rw [changed_raftLog]
      exact hle
    · suffices ∃ e', a.Unapplied e' ∧ e.index < e'.index by
        obtain ⟨e', ⟨hhas, hty, -⟩, hlt⟩ := this
        exact ⟨e', (changed_raftLog cc).symm ▸ hhas, hty, hlt⟩
      unfold changed at hs hpending
      by_cases hnone : cc.nodeID = none_
      · rw [if_pos hnone] at hpending
        cases hpending
      rw [if_neg hnone] at hs hpending
      cases hty : cc.type with
      | addNode =>
        simp only [hty, addNode] at hs hpending
        split_ifs at hs hpending with hsome
        exact hok hty hnone hsome hs hpending
      | removeNode | updateNode =>
        rw [hty] at hpending
        cases hpending
  | store hl hc hhas =>
    refine ⟨hl, hc.symm ▸ h.passed, fun hs hpending => ?_⟩
    obtain ⟨e, he, hty, hlt⟩ := h.pending hs hpending
    exact ⟨e, hhas e hlt he, hty, hlt⟩

end Applying

theorem filterConf_first (e : Entry) (es' : List Entry) : ∀ {es : List Entry},
    (∀ x ∈ es, x.type ≠ .confChange) →
    ∃ rest, (filterConf false (es ++ e :: es')).2 = es ++ e :: rest
  | [], _ => by
    by_cases he : e.type = .confChange
    · exact ⟨_, by simp [filterConf, he]; rfl⟩
    · exact ⟨_, by simp [filterConf, he]; rfl⟩
  | x :: es, h => by
    obtain ⟨rest, hrest⟩ := filterConf_first e es' fun y hy => h y (mem_cons_of_mem _ hy)
    refine ⟨rest, ?_⟩
    simp [filterConf, h x mem_cons_self, hrest]

open Applying (Step Settles)

def proposed : Raft := ((fresh [1]).run [.step { type := .hup },
  .step { type := .prop, entries := [{ type := .confChange }] }]).toOption.getD (fresh [])

def proposal : Entry := { type := .confChange, term := 1, index := 2 }

theorem proposed_reached {ok : Applying → Entry → ConfChange → Prop} :
    Relation.ReflTransGen (Step ok) ⟨fresh [1], 0⟩ ⟨proposed, 0⟩ := by
  have hlocal : ∀ {m : Message}, m.type ≠ .app → m.Numbered := fun hne h => absurd h hne
  obtain ⟨r, hr, hr'⟩ := exists_ok_of_bind (show (fresh [1]).step { type := .hup } >>=
    (·.step { type := .prop, entries := [{ type := .confChange }] }) = .ok proposed by
      decide +kernel)
  exact .tail (.single (.step (hlocal (by decide)) hr)) (.step (hlocal (by decide)) hr')

end Raft

end EtcdCompat
