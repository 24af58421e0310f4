import EtcdCompat.Compactor.Periodic

/-!
# The age of what is compacted

A sample is followed by one wait for each sample from it on, so its place in `revs` bounds its age
from below. The place `getRev` takes is the period in intervals back, as long as the period does not
overflow.
-/

namespace EtcdCompat.Compactor

variable {rev : ℤ → ℤ} {revs : List ℤ} {sampled now h : ℤ} {s : State} {t : Periodic}

/-- Each sample was the store's revision at a time, as many intervals before the last one as samples
follow. -/
def Aged (rev : ℤ → ℤ) (revs : List ℤ) (sampled : ℤ) : Prop :=
  ∀ (i : ℕ) r, revs[i]? = some r →
    ∃ t, rev t = r ∧ t + (revs.length - 1 - i) * checkCompactionInterval ≤ sampled

theorem Aged.nil : Aged rev [] sampled := fun _ _ hr => by cases hr

theorem Aged.sample (ha : Aged rev revs sampled) {next : ℤ}
    (hnext : sampled + checkCompactionInterval ≤ next) : Aged rev (revs ++ [rev next]) next := by
  intro i r hr
  rw [List.length_append, List.length_singleton]
  rcases Nat.lt_or_ge i revs.length with hi | hi
  · rw [List.getElem?_append_left hi] at hr
    obtain ⟨t, ht, hage⟩ := ha i r hr
    unfold checkCompactionInterval minute at *
    exact ⟨t, ht, by omega⟩
  · rw [List.getElem?_append_right hi] at hr
    obtain ⟨h0, rfl⟩ := List.getElem?_eq_some_iff.1 hr
    refine ⟨next, (List.getElem_singleton h0).symm, ?_⟩
    rw [List.length_singleton] at h0
    unfold checkCompactionInterval minute
    omega

theorem Aged.compacted (ha : Aged rev t.revs sampled) (done : ℤ) :
    ∀ err, Aged rev (t.compacted done err).revs sampled
  | none | some .compacted => .nil
  | some .other => ha

structure Good (rev : ℤ → ℤ) (h : ℤ) (s : State) : Prop where
  period : s.t.periodInHour = h
  aged : Aged rev s.t.revs s.sampled
  retained : ∀ call ∈ s.calls, ∃ t, rev t = call.1 ∧ t + h * hour ≤ call.2

section Period

variable (h1 : 1 ≤ h) (h2 : h ≤ 2562047)
include h1 h2

theorem intervals_eq : (hours h).tdiv checkCompactionInterval = h * 12 := by
  unfold hours hour checkCompactionInterval minute
  rw [Int.bmod_eq_of_le (by omega) (by omega), Int.tdiv_eq_ediv_of_nonneg (by omega)]
  omega

theorem Aged.getRev (ha : Aged rev t.revs sampled)
    (hnow : sampled + checkCompactionInterval ≤ now) :
    ∃ r, t.getRev h = some r ∧ (0 ≤ r → ∃ t, rev t = r ∧ t + h * hour ≤ now) := by
  unfold Periodic.getRev
  simp only [intervals_eq h1 h2]
  split_ifs with hi
  · exact ⟨-1, rfl, fun h => absurd h (by decide)⟩
  obtain ⟨r, hr⟩ : ∃ r, t.revs[(t.revs.length - h * 12 : ℤ).toNat]? = some r :=
    ⟨_, List.getElem?_eq_getElem (by omega)⟩
  obtain ⟨t', ht, hage⟩ := ha _ r hr
  refine ⟨r, hr, fun _ => ⟨t', ht, ?_⟩⟩
  unfold hour checkCompactionInterval minute at *
  omega

theorem Good.check (hs : Good rev h s) (hnow : s.sampled + checkCompactionInterval ≤ now) :
    ∃ r, s.t.check now = some r ∧ (0 ≤ r → ∃ t, rev t = r ∧ t + h * hour ≤ now) := by
  unfold Periodic.check
  split_ifs
  · exact ⟨-1, rfl, fun h => absurd h (by decide)⟩
  · exact ⟨-1, rfl, fun h => absurd h (by decide)⟩
  · rw [hs.period]
    exact hs.aged.getRev h1 h2 hnow

theorem Good.step (hs : Good rev h s) {ev : Event} {evs : List Event}
    (htime : Timely s.sampled (ev :: evs)) :
    ∃ s', step rev s ev = some s' ∧ Good rev h s' ∧ Timely s'.sampled evs := by
  cases ev with
  | pause => exact ⟨_, rfl, ⟨hs.period, hs.aged, hs.retained⟩, htime⟩
  | resume => exact ⟨_, rfl, ⟨hs.period, hs.aged, hs.retained⟩, htime⟩
  | fire now err done next =>
    obtain ⟨hnow, hdone, hnext, htime⟩ := htime
    obtain ⟨r, hr, hold⟩ := hs.check h1 h2 hnow
    have hlater : s.sampled + checkCompactionInterval ≤ next := by omega
    rw [Compactor.step, hr, Option.map_some]
    split_ifs with hneg
    · exact ⟨_, rfl, ⟨hs.period, hs.aged.sample hlater, hs.retained⟩, htime⟩
    · refine ⟨_, rfl, ⟨?_, (hs.aged.compacted done err).sample hlater, ?_⟩, htime⟩
      · rcases err with _ | _ | _ <;> exact hs.period
      · exact List.forall_mem_cons.2 ⟨hold (by omega), hs.retained⟩

theorem Good.run : ∀ {evs : List Event} {s : State}, Good rev h s → Timely s.sampled evs →
    ∃ s', evs.foldlM (Compactor.step rev) s = some s' ∧ Good rev h s'
  | [], s, hs, _ => ⟨s, rfl, hs⟩
  | _ :: _, _, hs, htime => by
    obtain ⟨s', hstep, hs', htime'⟩ := hs.step h1 h2 htime
    rw [List.foldlM_cons, hstep]
    exact hs'.run htime'

end Period

theorem compacts_after_period (rev : ℤ → ℤ) (h begin_ first : ℤ) (evs : List Event) (h1 : 1 ≤ h)
    (h2 : h ≤ 2562047) (htime : Timely first evs) :
    ∃ s, evs.foldlM (step rev) (start rev h begin_ first) = some s ∧
      ∀ call ∈ s.calls, ∃ t, rev t = call.1 ∧ t + h * hour ≤ call.2 := by
  have hnil : Aged rev [] (first - checkCompactionInterval) := .nil
  have hstart : Good rev h (start rev h begin_ first) :=
    ⟨rfl, hnil.sample (by omega), fun _ hcall => by cases hcall⟩
  obtain ⟨s, hrun, hs⟩ := hstart.run h1 h2 htime
  exact ⟨s, hrun, hs.retained⟩

/-- The timer fires every interval, at once, and `Compact` returns at once. -/
def regular (n : ℕ) : List Event :=
  (List.range n).map fun k : ℕ =>
    let now := (k + 1) * checkCompactionInterval
    .fire now none now now

theorem compacts_after_period_once :
    ∃ s, (regular 12).foldlM (step id) (start id 1 0 0) = some s ∧ s.calls = [(0, hour)] ∧
      ∀ call ∈ s.calls, ∃ t, id t = call.1 ∧ t + 1 * hour ≤ call.2 := by
  obtain ⟨s, hrun, hcalls⟩ := compacts_after_period id 1 0 0 (regular 12) (by decide) (by decide)
    (by simp [regular, List.range_succ, Timely, checkCompactionInterval, minute])
  have heval : ((regular 12).foldlM (step id) (start id 1 0 0)).map State.calls =
    some [(0, hour)] := by decide +kernel
  rw [hrun] at heval
  exact ⟨s, hrun, Option.some.inj heval, hcalls⟩

/-- A period of 2562048 hours is negative, and the first check is out of range. -/
theorem period_overflows : Timely 0 (regular 1) ∧
    ((regular 1).foldlM (step id) (start id 2562048 0 0)).isNone := by
  refine ⟨?_, rfl⟩
  simp [regular, List.range_succ, Timely, checkCompactionInterval, minute]

end EtcdCompat.Compactor
