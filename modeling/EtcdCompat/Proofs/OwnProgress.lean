import EtcdCompat.Proofs.RaftMoves

/-!
# Who appends to its log

A leader's `appendEntry` takes the progress of the node itself. It is there whenever the message
that elects the node finds it a member: then no run of messages, ticks and configuration changes
stops at a missing progress, whatever the node was at the start.
-/

namespace EtcdCompat.Raft

/-- `Step`, `Campaign` being the step of a `MsgHup`, `Tick` and `ApplyConfChange`. -/
inductive Op where
  | step (m : Message)
  | tick (rand : ℕ)
  | applyConfChange (cc : ConfChange)
deriving DecidableEq, Repr

def act (r : Raft) : Op → Except Panic Raft
  | .step m => r.step m
  | .tick rand => r.tick rand
  | .applyConfChange cc => r.applyConfChange cc

def run (r : Raft) (ops : List Op) : Except Panic Raft := ops.foldlM act r

def ElectsMembers : Raft → List Op → Prop
  | _, [] => True
  | r, op :: ops => (∀ m, op = .step m → r.Elects m → r.promotable = true) ∧
      ∀ r', r.act op = .ok r' → ElectsMembers r' ops

theorem act_fails {r : Raft} {op : Op} (h : ∀ m, op = .step m → r.Elects m → r.promotable = true) :
    r.act op ≠ .error .nilDereference := by
  intro herr
  have hfails : ∀ {P : Raft → Prop} {x : Except Panic Raft}, Yields (Fails False) P x →
      x ≠ .error .nilDereference := fun hx hxe => by rw [hxe] at hx; exact hx.2 rfl
  cases op with
  | step m =>
    refine hfails (step_acts (fun h => h) (fun h => h) fun helects hnone => ?_) herr
    have := h m rfl helects
    rw [promotable, hnone] at this
    cases this
  | tick rand => exact hfails (r.tick_acts rand) herr
  | applyConfChange cc => exact hfails (r.applyConfChange_acts cc) herr

theorem members_lead : ∀ (ops : List Op) (r : Raft), r.ElectsMembers ops →
    r.run ops ≠ .error .nilDereference
  | [], r, _ => fun h => by cases h
  | op :: ops, r, h => by
    intro herr
    rw [run, List.foldlM_cons] at herr
    rcases hact : r.act op with e | r'
    · rw [hact] at herr
      exact act_fails h.1 (hact.trans herr)
    · rw [hact] at herr
      exact members_lead ops r' (h.2 r' hact) herr

/-- The node 1 as `newRaft` leaves it, with the members `ids`. -/
def fresh (ids : List ℕ) : Raft :=
  let c : Config :=
    { id := 1
      peers := ids
      electionTick := 10
      heartbeatTick := 1
      storage := {}
      maxSizePerMsg := noLimit
      maxInflightMsgs := 256 }
  (c.blank ids).becomeFollower 0 none_

theorem members_lead_alone : (fresh [1]).run [.step { type := .hup }] ≠ .error .nilDereference :=
  members_lead _ _ ⟨fun m hm _ => by cases hm; decide, fun _ _ => trivial⟩

/-- A candidate that is removed and then gets the vote it lacks, and a removed node that
campaigns. -/
theorem removed_nodes_elected :
    (fresh [1, 2, 3]).run [.step { type := .hup }, .applyConfChange ⟨.removeNode, 1⟩,
      .step { type := .voteResp, from_ := 2, term := 1 }] = .error .nilDereference
    ∧ (fresh [1]).run [.applyConfChange ⟨.removeNode, 1⟩, .step { type := .hup }]
      = .error .nilDereference := by
  decide +kernel

end EtcdCompat.Raft
