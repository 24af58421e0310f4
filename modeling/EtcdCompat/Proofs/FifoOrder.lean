import EtcdCompat.Schedule.Fifo

/-!
# Jobs in order

The jobs accepted are those that have returned and then those the worker still has before it, so
they run in their order, one at a time. A worker that sleeps with jobs pending has a wake-up in its
channel: with every step of the worker a job that has not returned comes closer.
-/

namespace EtcdCompat.Schedule

variable {J : Type*} {f : Fifo J} {evs : List (Event J)}

/-- The job that runs. -/
def Worker.current : Worker J → List J
  | .running j | .cleaningUp j _ => [j]
  | _ => []

namespace Fifo

/-- The jobs that have not returned. -/
def queue (f : Fifo J) : List J :=
  match f.worker with
  | .ran => f.pendings.tail
  | .cleaning js => js
  | .cleaningUp j js => j :: js
  | .returned => []
  | _ => f.pendings

/-- What the worker knows of the state it is in. -/
def Placed (f : Fifo J) : Prop :=
  match f.worker with
  | .top => True
  | .waiting => f.resume = true ∨ f.pendings = []
  | .picked j | .running j => ∃ js, f.pendings = j :: js
  | .ran => f.pendings ≠ []
  | _ => f.canceled = true

structure Inv (f : Fifo J) : Prop where
  accepted : f.accepted = f.ends ++ f.queue
  starts : f.starts.map Prod.fst = f.ends ++ f.worker.current
  placed : f.Placed
  stopped : f.stopped = true → f.worker = .returned

theorem Inv.schedule (h : f.Inv) (j : J) : (f.schedule j).Inv := by
  obtain ⟨h1, h2, h3, h4⟩ := h
  unfold Fifo.schedule
  split_ifs with hc
  · exact ⟨h1, h2, h3, h4⟩
  unfold queue Placed at *
  refine ⟨?_, h2, ?_, h4⟩
  · rw [h1, List.append_assoc]
    unfold queue
    cases hw : f.worker <;> simp_all [List.tail_append_of_ne_nil]
  · unfold Placed
    cases hw : f.worker with
    | picked todo =>
      obtain ⟨js, hjs⟩ := hw ▸ h3
      exact ⟨js ++ [j], by simp [hjs]⟩
    | running todo =>
      obtain ⟨js, hjs⟩ := hw ▸ h3
      exact ⟨js ++ [j], by simp [hjs]⟩
    | _ => simp_all

theorem Inv.work (h : f.Inv) (preferDone : Bool) : (f.work preferDone).Inv := by
  obtain ⟨h1, h2, h3, h4⟩ := h
  unfold queue Placed at *
  unfold Fifo.work
  cases hw : f.worker with
  | top =>
    cases hp : f.pendings <;>
      refine ⟨?_, ?_, ?_, ?_⟩ <;> simp_all [queue, Worker.current, Placed]
  | waiting =>
    simp only []
    split_ifs <;> refine ⟨?_, ?_, ?_, ?_⟩ <;> simp_all [queue, Worker.current, Placed]
  | picked todo =>
    obtain ⟨js, hjs⟩ := hw ▸ h3
    refine ⟨?_, ?_, ?_, ?_⟩ <;> simp_all [queue, Worker.current, Placed, started]
  | running todo =>
    obtain ⟨js, hjs⟩ := hw ▸ h3
    refine ⟨?_, ?_, ?_, ?_⟩ <;> simp_all [queue, Worker.current, Placed, ended]
  | ran => refine ⟨?_, ?_, ?_, ?_⟩ <;> simp_all [queue, Worker.current, Placed]
  | cleaning js =>
    cases js <;> refine ⟨?_, ?_, ?_, ?_⟩ <;> simp_all [queue, Worker.current, Placed, started]
  | cleaningUp todo js =>
    refine ⟨?_, ?_, ?_, ?_⟩ <;> simp_all [queue, Worker.current, Placed, ended]
  | returned => refine ⟨?_, ?_, ?_, ?_⟩ <;> simp_all [queue, Worker.current, Placed]

theorem Inv.step (h : f.Inv) (ev : Event J) : (f.step ev).Inv := by
  cases ev with
  | schedule j => exact h.schedule j
  | stop =>
    refine ⟨h.accepted, h.starts, ?_, h.stopped⟩
    have := h.placed
    unfold Fifo.step Placed at *
    cases hw : f.worker <;> simp_all
  | stopReturns =>
    rw [Fifo.step, Fifo.stopReturns]
    split
    · exact ⟨h.accepted, h.starts, h.placed, fun _ => ‹_›⟩
    · exact h
  | work preferDone => exact h.work preferDone

theorem run_inv (evs : List (Event J)) : (run evs).Inv :=
  List.foldlRecOn evs step (motive := Inv) ⟨rfl, rfl, trivial, fun h => by cases h⟩
    fun _ h ev _ => h.step ev

theorem Inv.current (h : f.Inv) : f.worker.current <+: f.queue := by
  have hplaced := h.placed
  unfold Placed at hplaced
  unfold queue
  cases hw : f.worker with
  | running todo =>
    obtain ⟨js, hjs⟩ := hw ▸ hplaced
    exact ⟨js, hjs.symm⟩
  | cleaningUp todo js => exact ⟨js, rfl⟩
  | _ => exact List.nil_prefix

/-- How many steps of the worker it takes at most to the return of the job at a place. -/
def rank (f : Fifo J) (k : ℕ) : ℕ :=
  4 * (k + 1 - f.ends.length) + match f.worker with
    | .running _ => 0
    | .picked _ | .cleaningUp _ _ => 1
    | .top | .cleaning _ | .returned => 2
    | .waiting | .ran => 3

theorem Inv.rank_work (h : f.Inv) {k : ℕ} (hk : k < f.accepted.length) (hend : f.ends.length ≤ k)
    (preferDone : Bool) : (f.work preferDone).rank k < f.rank k := by
  have hqueue : f.queue ≠ [] := by
    intro hnil
    rw [h.accepted, hnil, List.append_nil] at hk
    omega
  have hplaced := h.placed
  unfold queue Placed at *
  unfold Fifo.work
  cases hw : f.worker with
  | top =>
    cases hp : f.pendings with
    | nil => simp_all
    | cons todo js => simp [rank, hw]
  | waiting =>
    have hresume : f.resume = true := by simp_all
    simp only []
    split_ifs <;> simp_all [rank]
  | picked todo => simp [rank, hw, started]
  | running todo =>
    simp [rank, hw, ended]
    omega
  | ran => simp [rank, hw]
  | cleaning js =>
    cases js with
    | nil => simp_all
    | cons todo js => simp [rank, hw, started]
  | cleaningUp todo js =>
    simp [rank, hw, ended]
    omega
  | returned => simp_all

theorem rank_le (f : Fifo J) (k : ℕ) : f.rank k ≤ 4 * (k + 1 - f.ends.length) + 3 := by
  unfold rank
  split <;> omega

theorem lengths_step (f : Fifo J) (ev : Event J) :
    f.ends.length ≤ (f.step ev).ends.length ∧ f.accepted.length ≤ (f.step ev).accepted.length := by
  cases ev <;> simp only [step, Fifo.schedule, stopReturns, Fifo.work, started, ended]
  all_goals repeat' split
  all_goals simp

/-- The steps of the worker. -/
def works (evs : List (Event J)) : ℕ := evs.countP (· matches .work _)

theorem Inv.ends_of_works {k : ℕ} : ∀ {evs : List (Event J)} {f : Fifo J}, f.Inv →
    k < f.accepted.length → f.rank k ≤ works evs + 3 → k < (evs.foldl Fifo.step f).ends.length
  | [], f, _, _, hr => by
    simp [rank, works] at hr ⊢
    omega
  | ev :: evs, f, h, hk, hr => by
    obtain ⟨hends, haccepted⟩ := f.lengths_step ev
    refine (h.step ev).ends_of_works (Nat.lt_of_lt_of_le hk haccepted) ?_
    rcases Nat.lt_or_ge k f.ends.length with hend | hend
    · have := (f.step ev).rank_le k
      omega
    cases ev with
    | schedule j =>
      refine Nat.le_trans (Nat.le_of_eq ?_) hr
      rw [Fifo.step, Fifo.schedule]
      split_ifs <;> rfl
    | stop => exact hr
    | stopReturns =>
      refine Nat.le_trans (Nat.le_of_eq ?_) hr
      rw [Fifo.step, stopReturns]
      split <;> rfl
    | work preferDone =>
      have hless := h.rank_work hk hend preferDone
      have hworks : works (.work preferDone :: evs) = works evs + 1 := List.countP_cons_of_pos rfl
      rw [Fifo.step]
      omega

/-- The context is done, and was so when the jobs after `starts` were started. -/
def Late (starts : List (J × Bool)) (f : Fifo J) : Prop :=
  f.canceled = true ∧ ∃ new, f.starts = starts ++ new ∧ ∀ x ∈ new, x.2 = true

theorem Late.step {starts : List (J × Bool)} (h : Late starts f) (ev : Event J) :
    Late starts (f.step ev) := by
  obtain ⟨hc, new, hnew, hall⟩ := h
  have hstart (j : J) (worker : Worker J) : Late starts (f.started j worker) :=
    ⟨hc, new ++ [(j, true)], by simp [started, hnew, hc], by simpa using hall⟩
  have hsame {g : Fifo J} (hg : g.canceled = true) (hs : g.starts = f.starts) : Late starts g :=
    ⟨hg, new, hs.trans hnew, hall⟩
  cases ev <;> simp only [Fifo.step, Fifo.schedule, stopReturns, Fifo.work]
  all_goals repeat' split
  all_goals first
    | exact hstart ..
    | exact hsame hc rfl
    | exact hsame rfl rfl

end Fifo

open Fifo

theorem fifo_scheduler (evs : List (Event J)) :
    (run evs).starts.map Prod.fst <+: (run evs).accepted ∧ (run evs).ends <+: (run evs).accepted ∧
    (run evs).starts.length ≤ (run evs).ends.length + 1 ∧
    ((run evs).stopped = true → (run evs).ends = (run evs).accepted) ∧
    (∀ k, k < (run evs).accepted.length → ∀ evs', 4 * (k + 1) ≤ works evs' →
      k < (run (evs ++ evs')).ends.length) ∧
    ∀ evs', ∃ new, (run (evs ++ .stop :: evs')).starts = (run evs).starts ++ new ∧
      ∀ x ∈ new, x.2 = true := by
  have h := run_inv evs
  refine ⟨?_, ?_, ?_, fun hs => ?_, fun k hk evs' hworks => ?_, fun evs' => ?_⟩
  · rw [h.starts, h.accepted]
    exact (List.prefix_append_right_inj _).2 h.current
  · rw [h.accepted]
    exact List.prefix_append _ _
  · have hlen := congrArg List.length h.starts
    have hone : (run evs).worker.current.length ≤ 1 := by
      cases (run evs).worker <;> simp [Worker.current]
    rw [List.length_map, List.length_append] at hlen
    omega
  · have hq := h.accepted
    rw [queue, h.stopped hs] at hq
    exact (List.append_nil _ ▸ hq).symm
  · rw [run, List.foldl_append]
    have hrank := (run evs).rank_le k
    exact h.ends_of_works hk (by omega)
  · rw [run, List.foldl_append, List.foldl_cons]
    have hstop : Late (run evs).starts ((run evs).step .stop) := ⟨rfl, [], by simp [step], by simp⟩
    exact (List.foldlRecOn evs' step (motive := Late (run evs).starts) hstop
      fun _ h ev _ => h.step ev).2

end EtcdCompat.Schedule
