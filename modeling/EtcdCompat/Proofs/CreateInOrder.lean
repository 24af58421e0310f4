import EtcdCompat.Client.HttpClient
import EtcdCompat.Proofs.V2Index

/-!
# How many nodes one `CreateInOrder` creates

The client repeats a request at the next endpoint whenever it hears an error that is not its
context's or a status in the five hundreds. So the call creates at most one node exactly if at most
one of the requests up to the first that is not repeated is executed (`executedSent`).
-/

namespace EtcdCompat.HttpClient

open V2 (Env Op newStore)
open GoPath (ascii)

section Repeat

variable {ctxErr : Option RequestError} {reply : Reply}

/-- The client goes on to the next endpoint after the reply. -/
def Repeated (ctxErr : Option RequestError) : Reply → Prop
  | .error err => ctxErr ≠ some err ∧ err ≠ .canceled ∧ err ≠ .deadlineExceeded
  | .ok status => status / 100 = 5

instance (ctxErr : Option RequestError) : (reply : Reply) → Decidable (Repeated ctxErr reply)
  | .error err => inferInstanceAs
    (Decidable (ctxErr ≠ some err ∧ err ≠ .canceled ∧ err ≠ .deadlineExceeded))
  | .ok status => inferInstanceAs (Decidable (status / 100 = 5))

/-- The client sends another request after one with the outcome, if there is an endpoint left. The
answer of the cluster itself is never a server's failure. -/
def Outcome.repeated (ctxErr : Option RequestError) : Outcome → Bool
  | .answered => false
  | .lost reply | .notExecuted reply => Repeated ctxErr reply

/-- How many requests are executed in `n` rounds from the `i`-th on, of those that are sent: the
first, and each after one that is repeated. -/
def executedSent (outcome : ℕ → Outcome) (ctxErr : ℕ → Option RequestError) : ℕ → ℕ → ℕ
  | 0, _ => 0
  | n + 1, i => (if (outcome i).executed then 1 else 0)
    + if (outcome i).repeated (ctxErr i) then executedSent outcome ctxErr n (i + 1) else 0

theorem step_of_repeated (h : Repeated ctxErr reply) (endpoint : Bytes) :
    ∃ err, step endpoint ctxErr reply = .error err
    := by
  rcases reply with err | status
  · obtain ⟨hctx, hcanceled, hdeadline⟩ := h
    exact ⟨.request err, by rw [step, if_neg hctx, if_neg (not_or.2 ⟨hcanceled, hdeadline⟩)]⟩
  · rw [step, if_pos (show status / 100 = 5 from h)]
    split_ifs
    · exact ⟨_, rfl⟩
    · exact ⟨_, rfl⟩

theorem step_of_not_repeated (h : ¬ Repeated ctxErr reply) (endpoint : Bytes) :
    ∃ r, step endpoint ctxErr reply = .ok r := by
  rcases reply with err | status
  · rw [step]
    split_ifs with hctx hown
    · exact ⟨_, rfl⟩
    · exact ⟨_, rfl⟩
    · exact absurd ⟨hctx, not_or.1 hown⟩ h
  · exact ⟨.ok status, if_neg h⟩

end Repeat

section Request

variable {w w' : Cluster} {act : CreateInOrderAction} {round : Round} {reply : Reply}

theorem statusCode_lt (code : V2.ErrorCode) : statusCode code / 100 ≠ 5 := by
  cases code <;> decide

def Cluster.Logged (w : Cluster) : Prop := ∃ evs, w.store.Logged evs

theorem post_spec (h : w.Logged) (env : Env) (act : CreateInOrderAction) :
    Yields V2.Never (fun r => r.1.Logged ∧ r.2 / 100 ≠ 5 ∧ w.created.length ≤ r.1.created.length
      ∧ r.1.created.length ≤ w.created.length + 1) (w.post env act) := by
  obtain ⟨evs, hlog⟩ := h
  refine (V2.Store.create_settles hlog).bind fun r hr => ?_
  obtain ⟨store, err | e⟩ := r
  · obtain rfl : store = w.store := hr.1 err rfl
    exact ⟨⟨evs, hlog⟩, statusCode_lt _, Nat.le_refl _, Nat.le_succ _⟩
  · refine ⟨⟨_, (hr.2 e rfl).2⟩, show 201 / 100 ≠ 5 by decide, ?_, ?_⟩
    · simp
    · simp

/-- What one request leaves: at most one more node, none if it is not executed, and a reply that the
client goes on after as the outcome says. -/
structure Sent (w : Cluster) (round : Round) (r : Cluster × Reply) : Prop where
  logged : r.1.Logged
  grows : w.created.length ≤ r.1.created.length
  created : r.1.created.length ≤ w.created.length + if round.outcome.executed then 1 else 0
  repeated : Repeated round.ctxErr r.2 ↔ round.outcome.repeated round.ctxErr

theorem request_sent (h : w.Logged) (act : CreateInOrderAction) (round : Round) :
    Yields (fun _ => round.others ≠ []) (Sent w round) (w.request act round) := by
  have hothers : Yields (fun _ => round.others ≠ [])
      (fun store => ∃ evs, V2.Store.Logged store evs) (w.store.run round.others) := by
    obtain ⟨evs, hlog⟩ := h
    rcases hrun : w.store.run round.others with p | store
    · intro hnil
      rw [hnil] at hrun
      cases hrun
    · exact V2.Store.run_logged hlog hrun
  refine hothers.bind fun store hstore => ?_
  have hpost := post_spec (w := ⟨store, w.created⟩) hstore round.env act
  obtain ⟨outcome, ctxErr, env, others⟩ := round
  rcases outcome with _ | reply | reply
  · refine (hpost.imp (fun _ hp => hp.elim) fun _ hr => hr).bind fun r hr => ?_
    obtain ⟨hlog, hstatus, hle, hlt⟩ := hr
    exact ⟨hlog, hle, hlt, iff_of_false hstatus (by simp [Outcome.repeated])⟩
  · refine (hpost.imp (fun _ hp => hp.elim) fun _ hr => hr).bind fun r hr => ?_
    obtain ⟨hlog, -, hle, hlt⟩ := hr
    exact ⟨hlog, hle, hlt, by simp [Outcome.repeated]⟩
  · exact ⟨hstore, Nat.le_refl _, Nat.le_refl _, by simp [Outcome.repeated]⟩

end Request

section Loop

variable {c : HttpClusterClient} {act : CreateInOrderAction} {rounds : ℕ → Round}

/-- The requests that are sent and executed, in `n` rounds from the `i`-th on. -/
abbrev executedIn (rounds : ℕ → Round) : ℕ → ℕ → ℕ :=
  executedSent (fun i => (rounds i).outcome) fun i => (rounds i).ctxErr

theorem doFrom_succ {E : V2.Panic → Prop} {w : Cluster} {P : Cluster × Reply → Prop}
    {Q : HttpClusterClient × Cluster × Except DoError ℕ → Prop} {n i : ℕ}
    {errors : List AttemptError} (h : Yields E P (w.request act (rounds i)))
    (hstop : ∀ r, P r → ¬ Repeated (rounds i).ctxErr r.2 → ∀ c' res, Q (c', r.1, res))
    (hnext : ∀ r, P r → Repeated (rounds i).ctxErr r.2 → ∀ errors,
      Yields E Q (c.doFrom act rounds n (i + 1) errors r.1)) :
    Yields E Q (c.doFrom act rounds (n + 1) i errors w) := by
  refine h.bind fun r hr => ?_
  obtain ⟨w', reply⟩ := r
  dsimp only
  by_cases hrep : Repeated (rounds i).ctxErr reply
  · obtain ⟨err, herr⟩ := step_of_repeated hrep
      (c.endpoints.getD ((c.pinned + i) % c.endpoints.length) [])
    rw [herr]
    exact hnext _ hr hrep _
  · obtain ⟨res, hres⟩ := step_of_not_repeated hrep
      (c.endpoints.getD ((c.pinned + i) % c.endpoints.length) [])
    rw [hres]
    rcases res with err | status
    · exact hstop _ hr hrep _ _
    · exact hstop _ hr hrep _ _

theorem executedIn_succ (rounds : ℕ → Round) (n i : ℕ) : executedIn rounds (n + 1) i
    = (if (rounds i).outcome.executed then 1 else 0)
      + if (rounds i).outcome.repeated (rounds i).ctxErr then executedIn rounds n (i + 1) else 0 :=
  rfl

/-- The call creates no more nodes than requests are sent and executed. -/
theorem doFrom_created_le : ∀ (n i : ℕ) (errors : List AttemptError) {w : Cluster}, w.Logged →
    Yields (fun _ => True)
      (fun r => r.2.1.created.length ≤ w.created.length + executedIn rounds n i)
      (c.doFrom act rounds n i errors w)
  | 0, _, _, _, _ => Nat.le_refl _
  | n + 1, i, errors, w, h => by
    have hsent := (request_sent h act (rounds i)).imp (fun _ _ => True.intro) fun _ hr => hr
    rw [executedIn_succ]
    refine doFrom_succ hsent (fun r hr _ c' res => ?_) fun r hr hrep errors' => ?_
    · exact hr.created.trans (by omega)
    · refine (doFrom_created_le n (i + 1) errors' hr.logged).mono fun r' hr' => ?_
      have := hr.created
      rw [if_pos (hr.repeated.1 hrep)]
      omega

end Loop

section Alone

variable {act : CreateInOrderAction} {env : Env} {w₀ w₁ w₂ : Cluster} {status₁ status₂ : ℕ}
  {m : ℕ} {w : Cluster}

/-- A cluster after some posts, counted up to two, with the first two stores given. -/
inductive Posted (w₀ w₁ : Cluster) : ℕ → Cluster → Prop
  | none : Posted w₀ w₁ 0 w₀
  | one : Posted w₀ w₁ 1 w₁
  | more {w : Cluster} (logged : w.Logged) (created : 2 ≤ w.created.length) : Posted w₀ w₁ 2 w

/-- Each of the first two posts creates a node. -/
structure Creates (env : Env) (act : CreateInOrderAction) (w₀ w₁ : Cluster) : Prop where
  logged : w₀.Logged
  first : ∃ status, w₀.post env act = .ok (w₁, status)
  created : 1 ≤ w₁.created.length
  second : ∃ w₂ status, w₁.post env act = .ok (w₂, status) ∧ 2 ≤ w₂.created.length

theorem Creates.logged_one (h : Creates env act w₀ w₁) : w₁.Logged := by
  obtain ⟨status, hpost⟩ := h.first
  exact ((post_spec h.logged env act).of_ok hpost).1

namespace Posted

variable (hc : Creates env act w₀ w₁) (h : Posted w₀ w₁ m w)
include hc h

theorem logged : w.Logged := by
  cases h with
  | none => exact hc.logged
  | one => exact hc.logged_one
  | more logged => exact logged

theorem le : m ≤ w.created.length := by
  cases h with
  | none => exact Nat.zero_le _
  | one => exact hc.created
  | more _ created => exact created

theorem post :
    Yields V2.Never (fun r => Posted w₀ w₁ (min 2 (m + 1)) r.1) (w.post env act) := by
  cases h with
  | none =>
    obtain ⟨status, hpost⟩ := hc.first
    rw [hpost]
    exact .one
  | one =>
    obtain ⟨w₂, status, hpost, hcreated⟩ := hc.second
    have hlog := ((post_spec hc.logged_one env act).of_ok hpost).1
    rw [hpost]
    exact .more hlog hcreated
  | more logged created =>
    refine (post_spec logged env act).mono fun r hr => ?_
    exact .more hr.1 (created.trans hr.2.2.1)

theorem request (outcome : Outcome)
    (ctxErr : Option RequestError) :
    Yields V2.Never (fun r => Posted w₀ w₁ (min 2 (m + if outcome.executed then 1 else 0)) r.1)
      (w.request act ⟨outcome, ctxErr, env, []⟩) := by
  have hm : min 2 m = m := by cases h <;> rfl
  rcases outcome with _ | reply | reply
  · exact (h.post hc).bind fun r hr => hr
  · exact (h.post hc).bind fun r hr => hr
  · rw [if_neg (by simp [Outcome.executed]), Nat.add_zero, hm]
    exact h

end Posted

/-- With nobody else at work the call creates a node for each of the first two requests executed. -/
theorem le_doFrom_created (hc : Creates env act w₀ w₁) {c : HttpClusterClient}
    (outcome : ℕ → Outcome) (ctxErr : ℕ → Option RequestError) :
    ∀ (n i : ℕ) (errors : List AttemptError) {m : ℕ} {w : Cluster}, Posted w₀ w₁ m w →
    Yields V2.Never (fun r => min 2 (m + executedSent outcome ctxErr n i) ≤ r.2.1.created.length)
      (c.doFrom act (fun i => ⟨outcome i, ctxErr i, env, []⟩) n i errors w)
  | 0, _, _, m, _, h => (min_le_right 2 m).trans (h.le hc)
  | n + 1, i, errors, m, w, h => by
    have hsent := (request_sent (h.logged hc) act ⟨outcome i, ctxErr i, env, []⟩).imp
      (fun _ hne => hne rfl) fun _ hr => hr
    have hboth := hsent.and (h.request hc (outcome i) (ctxErr i))
    rw [executedSent]
    refine doFrom_succ hboth (fun r hr hrep c' res => ?_) fun r hr hrep errors' => ?_
    · have hle := hr.2.le hc
      rw [if_neg (fun hrep' => hrep (hr.1.repeated.2 hrep'))]
      exact hle
    · rw [if_pos (hr.1.repeated.1 hrep)]
      refine (le_doFrom_created hc outcome ctxErr n (i + 1) errors' hr.2).mono fun r' hr' => ?_
      omega

theorem creates_new : ∃ w₁, Creates (.sorted 0) { dir := [], value := [] }
    { store := newStore [] } w₁ := by
  refine ⟨_, ⟨[], V2.Store.newStore_logged []⟩, ⟨_, rfl⟩, ?_, _, _, rfl, ?_⟩
  · exact Nat.le_refl 1
  · exact Nat.le_refl 2

end Alone

/-- A call creates at most one node, in every cluster and whatever others do, for exactly those
patterns of outcomes in which at most one request is executed of those that are sent. -/
theorem createInOrder_once_iff (c : HttpClusterClient) (outcome : ℕ → Outcome)
    (ctxErr : ℕ → Option RequestError) :
    (∀ (act : CreateInOrderAction) (env : ℕ → Env) (others : ℕ → List (Env × Op))
      (namespaces : List Bytes) (ops : List (Env × Op)) (store : V2.Store) (c' : HttpClusterClient)
      (w : Cluster) (res : Except DoError ℕ), (newStore namespaces).run ops = .ok store →
      c.createInOrder act (fun i => ⟨outcome i, ctxErr i, env i, others i⟩) { store }
        = .ok (c', w, res) → w.created.length ≤ 1)
      ↔ executedSent outcome ctxErr c.endpoints.length 0 ≤ 1 := by
  constructor
  · intro h
    obtain ⟨w₁, hc⟩ := creates_new
    have hlow := le_doFrom_created (c := c) hc outcome ctxErr c.endpoints.length 0 [] .none
    by_cases hzero : c.endpoints.length = 0
    · rw [hzero]
      exact Nat.zero_le _
    · rcases hrun : c.doFrom {dir := [], value := []}
        (fun i => ⟨outcome i, ctxErr i, .sorted 0, []⟩) c.endpoints.length 0 []
        { store := newStore [] } with p | ⟨c', w, res⟩
      · rw [hrun] at hlow
        exact hlow.elim
      · have hle := h _ _ _ [] [] (newStore []) c' w res rfl ((if_neg hzero).trans hrun)
        have hge :
            min 2 (0 + executedSent outcome ctxErr c.endpoints.length 0) ≤ w.created.length :=
          hlow.of_ok hrun
        omega
  · intro h act env others namespaces ops store c' w res hrun hcall
    have hlog : Cluster.Logged { store } :=
      V2.Store.run_logged (V2.Store.newStore_logged namespaces) hrun
    rw [HttpClusterClient.createInOrder] at hcall
    split_ifs at hcall with hzero
    · cases hcall
      exact Nat.zero_le 1
    · have hle := (doFrom_created_le _ _ _ hlog).of_ok hcall
      exact hle.trans (by simpa using h)

/-- A call over two endpoints: of the first request, which is executed, the client hears `reply`,
and the second is executed and answered. The keys created, and what the call returns. -/
def createdOver (reply : Reply) : Option (List Bytes × Except DoError ℕ) :=
  ((HttpClusterClient.createInOrder ⟨[[97], [98]], 0⟩ { dir := ascii "/q", value := [120] }
    (fun i => ⟨if i = 0 then .lost reply else .answered, none, .sorted 0, []⟩)
    { store := newStore [] }).map fun r => (r.2.1.created.map (·.node.key), r.2.2)).toOption

/-- The client hears 500, or nothing in time, and the call creates two nodes. -/
theorem createInOrder_twice :
    createdOver (.ok 500)
      = some ([ascii "/1/q/00000000000000000001", ascii "/1/q/00000000000000000002"], .ok 201)
    ∧ createdOver (.error (.other (ascii "exceeded header timeout")))
      = some ([ascii "/1/q/00000000000000000001", ascii "/1/q/00000000000000000002"], .ok 201) :=
  ⟨by decide +kernel, by decide +kernel⟩

end EtcdCompat.HttpClient
