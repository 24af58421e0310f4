import EtcdCompat.Proofs.Contenders

/-!
# At most one leader

A client that has returned from `Campaign` leads with the first key under the prefix until its
`Resign` deletes it. Two first keys are one, and a key is of one lease.
-/

namespace EtcdCompat.Concurrency

open Clientv3
open Program (Ensures)

variable {rt : Runtime} {pfx key : Bytes} {lease : ℤ} {w w' : World}

section Steps

theorem acts_renew {cmp : Compare} {val : Bytes} (hput : IsPut cmp ⟨key, val, lease⟩ w w')
    (hmine : ∃ pair, w.kv.contents.find key = some pair ∧ pair.lease = lease) :
    Acts pfx (· = lease) w w' := by
  obtain ⟨-, hw', hle⟩ := hput
  obtain ⟨old, hold, hlease⟩ := hmine
  have hfind (k : Bytes) : w'.kv.contents.find k =
      if key = k then some (Contents.putKV (w.kv.rev + 1) key val lease (some old))
      else w.kv.contents.find k := by
    rw [hw', ← hold]
    exact find_put _ _ k
  intro hw
  refine ⟨⟨?_, hle, fun lease' k hk => ?_⟩, ?_, fun lease' hne => ⟨?_, fun k pair hf hpair => ?_⟩⟩
  · rw [hw']
    exact hw.kv.put _
  · rw [hw'] at hk
    obtain ⟨hin, pair, hpair, hpairLease, hfirst⟩ := hw.first lease' k hk
    have hlater (k' : Bytes) (pair' : KeyValue) (hf : w'.kv.contents.find k' = some pair')
        (hk' : InPrefix pfx k') (hne : k' ≠ k) : pair.createRevision < pair'.createRevision := by
      rw [hfind] at hf
      split_ifs at hf with heq
      · cases hf
        subst heq
        exact hfirst key old hold hk' hne
      · exact hfirst k' pair' hf hk' hne
    by_cases heq : key = k
    · subst heq
      cases hold.symm.trans hpair
      exact ⟨hin, _, (hfind key).trans (if_pos rfl), hlease.symm.trans hpairLease, hlater⟩
    · exact ⟨hin, pair, ((hfind k).trans (if_neg heq)).trans hpair, hpairLease, hlater⟩
  · rw [hw']
    exact Kv.extends_commit _ _
  · rw [hw']
  · rw [hfind, if_neg]
    · exact hf
    · rintro rfl
      cases hold.symm.trans hf
      exact hne (hpair.symm.trans hlease)

end Steps

section Calls

/-- Between its calls a client that leads holds with its leader key. -/
structure Between (pfx : Bytes) (lease : ℤ) (e : Election) (w : World) : Prop where
  wf : w.Wf pfx
  pfx_eq : e.keyPrefix = pfx
  holds : e.leaderSession = true → e.leaderKey = [] ∨ w.holding lease = some e.leaderKey

variable {e : Election}

theorem Between.acts (h : Between pfx lease e w) (ha : Acts pfx (· ≠ lease) w w') :
    Between pfx lease e w' := by
  obtain ⟨hw', -, hkeep⟩ := ha h.wf
  refine ⟨hw', h.pfx_eq, fun hs => ?_⟩
  rw [(hkeep lease fun hne => hne rfl).1]
  exact h.holds hs

/-- What `Campaign` comes to. -/
def Campaigned (pfx : Bytes) (lease : ℤ) (w : World) (r : Election × Option Err) : Prop :=
  w.Wf pfx ∧ r.1.keyPrefix = pfx ∧ (r.2 = none → First pfx lease r.1.leaderKey w.kv) ∧
    (r.2 ≠ none → Between pfx lease r.1 w)

section

variable (h : Between pfx lease e w) {k : Bytes}
include h

theorem Campaigned.failed (err : Err) :
    Ensures (exec rt) (client pfx lease) (Campaigned pfx lease) w (.done (e, some err)) :=
  fun _ ha => ⟨(ha h.wf).1, h.pfx_eq, fun he => (by cases he), fun _ => h.acts ha⟩

theorem cleanUp_ensures (err : Err) (hk : k = [] ∨ ∃ c, Waits pfx lease k c w) :
    Ensures (exec rt) (client pfx lease) (Campaigned pfx lease) w (e.cleanUp lease k err) := by
  refine ask_ensures fun w₁ h₁ ch w₁' x hx => ?_
  cases hx
  refine ⟨.refl _, ?_⟩
  rcases ch.cancelled with _ | _
  · exact Campaigned.failed (h.acts h₁) err
  refine ask_ensures fun w₂ h₂ ch w₂' x hx => ?_
  have hb := (h.acts h₁).acts h₂
  rcases delete_eq_some hx with rfl | hdel
  · exact ⟨.refl _, Campaigned.failed hb err⟩
  rcases hk with rfl | ⟨c, hwaits⟩
  · exact absurd rfl hdel.2.2
  have hwaits := (hwaits.acts h₁).acts h₂
  obtain ⟨pair, hf, hlease, -⟩ := hwaits.mine
  have hacts : Acts pfx (· = lease) w₂ w₂' := hdel.acts
    (fun pair' hf' => Option.some.inj (hf.symm.trans hf') ▸ hlease) hwaits.free
  refine ⟨hacts, Campaigned.failed ⟨(hacts hb.wf).1, hb.pfx_eq, fun hs => ?_⟩ err⟩
  rw [hdel.1]
  exact hb.holds hs

theorem await_ensures (fuel : ℕ) {rev : ℤ} (hwaits : Waits pfx lease k rev w) :
    Ensures (exec rt) (client pfx lease) (Campaigned pfx lease) w (e.await lease fuel k rev) := by
  unfold Election.await
  rw [h.pfx_eq]
  refine (waitDeletes_ensures fuel hwaits).bind fun w₁ err hwaited => ?_
  obtain ⟨h₁, hfirst⟩ := hwaited
  rcases err with _ | err
  · intro w₂ h₂
    exact ⟨(h₂ (h₁ h.wf).1).1, rfl, fun _ => (hfirst rfl).acts (h₁ h.wf).1 h₂,
      fun hne => absurd rfl hne⟩
  · exact cleanUp_ensures (h.acts h₁) err (.inr ⟨rev, hwaits.acts h₁⟩)

theorem stand_ensures (fuel : ℕ) (val : Bytes) :
    Ensures (exec rt) (client pfx lease) (Campaigned pfx lease) w (e.stand lease fuel val) := by
  unfold Election.stand
  rw [h.pfx_eq]
  refine (newUniqueKV_ensures (Within.refl rt) (@False.elim _) (.refl w) h.wf).bind
    fun w₁ r hdrawn => ?_
  obtain ⟨k, rev, err⟩ := r
  obtain ⟨⟨h₁, -, hwaits, hfailed⟩, -⟩ := hdrawn
  rcases err with _ | err
  · exact await_ensures (h.acts h₁) fuel (hwaits rfl)
  · exact cleanUp_ensures (h.acts h₁) err (.inl (hfailed fun hnone => (by cases hnone)))

theorem campaign_ensures (fuel : ℕ) (val : Bytes) :
    Ensures (exec rt) (client pfx lease) (Campaigned pfx lease) w (e.campaign lease fuel val) := by
  refine ask_ensures fun w₁ h₁ ch w₁' x hx => ?_
  obtain rfl := exec_newSession hx
  have h₁ := h.acts h₁
  refine ⟨.refl _, ?_⟩
  cases x with
  | err e => exact Campaigned.failed h₁ e
  | _ => exact stand_ensures h₁ fuel val

theorem proclaim_ensures (val : Bytes) :
    Ensures (exec rt) (client pfx lease) (fun w r => Between pfx lease r.1 w) w
      (e.proclaim lease val) := by
  unfold Election.proclaim
  split_ifs with hs
  · refine ask_ensures fun w₁ h₁ ch w₁' x hx => ?_
    have h₁ := h.acts h₁
    have hstep : Acts pfx (· = lease) w₁ w₁' ∧ w₁'.holding = w₁.holding := by
      rcases (exec_put hx).1 with rfl | ⟨hput, hkey⟩
      · exact ⟨.refl _, rfl⟩
      · rcases h₁.holds hs with hnil | hhold
        · exact absurd hnil hkey
        · obtain ⟨-, pair, hf, hlease, -⟩ := h₁.wf.first lease _ hhold
          refine ⟨acts_renew hput ⟨pair, hf, hlease⟩, ?_⟩
          rw [hput.2.1]
    have hnext : Between pfx lease e w₁' :=
      ⟨(hstep.1 h₁.wf).1, h₁.pfx_eq, fun hs => by rw [hstep.2]; exact h₁.holds hs⟩
    refine ⟨hstep.1, ?_⟩
    cases x with
    | txn tresp =>
      change Ensures _ _ _ _ (if tresp.succeeded then _ else _)
      split_ifs
      · exact fun _ ha => hnext.acts ha
      · exact fun _ ha => ⟨(ha hnext.wf).1, h.pfx_eq, fun _ => .inl rfl⟩
    | _ => exact fun _ ha => hnext.acts ha
  · exact fun _ ha => h.acts ha

theorem resign_ensures : Ensures (exec rt) (client pfx lease) (fun w r => Between pfx lease r.1 w) w
      (e.resign lease) := by
  unfold Election.resign
  split_ifs with hs
  · refine ask_ensures fun w₁ h₁ ch w₁' x hx => ?_
    have h₁ := h.acts h₁
    obtain ⟨⟨w₂, x'⟩, hdelete, hx⟩ := Option.map_eq_some_iff.1 hx
    cases hx
    have hreleased : Acts pfx (· = lease) w₁ (w₁.setHolding lease none) :=
      acts_setHolding fun _ hk => (by cases hk)
    have hstep : Acts pfx (· = lease) w₁ (w₂.setHolding lease none) := by
      rcases delete_eq_some hdelete with rfl | hdel
      · exact hreleased
      refine hreleased.trans (@IsDelete.acts _ e.leaderKey _ _ _ ?_ ?_ ?_)
      · obtain ⟨rfl, hle, hkey⟩ := hdel
        exact ⟨rfl, hle, hkey⟩
      · intro pair hf
        rcases h₁.holds hs with hnil | hhold
        · exact absurd hnil hdel.2.2
        · obtain ⟨-, pair', hf', hlease, -⟩ := h₁.wf.first lease _ hhold
          exact Option.some.inj (hf'.symm.trans hf) ▸ hlease
      · intro hhold
        change Function.update w₁.holding lease none lease = _ at hhold
        rw [Function.update_self] at hhold
        cases hhold
    refine ⟨hstep, ?_⟩
    rcases x' with _ | _ | _ | _ | _ | err
    all_goals exact fun _ ha => ⟨(ha (hstep h₁.wf).1).1, h.pfx_eq, fun hs => (by cases hs)⟩
  · exact fun _ ha => h.acts ha

end

theorem calls_ensures (fuel : ℕ) : ∀ {cs : List ElectionCall} {e : Election} {w : World},
    Between pfx lease e w →
    Ensures (exec rt) (client pfx lease) (fun _ _ => True) w (e.calls lease fuel cs)
  | [], _, _, _ => fun _ _ => trivial
  | .campaign val :: cs, e, w, h => by
    refine (campaign_ensures h fuel val).bind fun w₁ r hr => ?_
    obtain ⟨e', err⟩ := r
    obtain ⟨hw₁, hpfx, hfirst, hfailed⟩ := hr
    change Ensures _ _ _ _ (if err = none then _ else _)
    split_ifs with herr
    · refine ask_ensures fun w₂ h₂ ch w₂' x hx => ?_
      cases hx
      have hacts : Acts pfx (· = lease) w₂ (w₂.setHolding lease (some e'.leaderKey)) :=
        acts_setHolding fun k hk => Option.some.inj hk ▸ (hfirst herr).acts hw₁ h₂
      exact ⟨hacts, calls_ensures fuel ⟨(hacts (h₂ hw₁).1).1, hpfx, fun _ =>
        .inr (Function.update_self ..)⟩⟩
    · exact calls_ensures fuel (hfailed herr)
  | .proclaim val :: cs, e, w, h => by
    exact (proclaim_ensures h val).bind fun w₁ r hr => calls_ensures fuel hr
  | .resign :: cs, e, w, h => by
    exact (resign_ensures h).bind fun w₁ r hr => calls_ensures fuel hr

end Calls

section Leader

/-- A client by its lease, with the calls it makes of its election. -/
structure Candidate where
  lease : ℤ
  calls : List ElectionCall

def Candidate.program (pfx : Bytes) (fuel : ℕ) (c : Candidate) : Client Unit :=
  Election.calls c.lease fuel { keyPrefix := pfx } c.calls

/-- The world after the candidates' requests in the order of the schedule, from a service where
nobody leads. -/
def electionAfter (rt : Runtime) (pfx : Bytes) (fuel : ℕ) (kv : Kv) (candidates : List Candidate)
    (schedule : List (ℕ × Choice)) : World :=
  (Program.contend (exec rt) (⟨kv, fun _ => none⟩, candidates.map (Candidate.program pfx fuel))
    schedule).1

/-- Who has returned from `Campaign` and not resigned has the key that was created first of all
under the prefix, so there is one such client at most. -/
theorem one_leader (rt : Runtime) (pfx : Bytes) (fuel : ℕ) (kv : Kv) (hkv : kv.Wf)
    (hle : kv.rev ≤ maxInt64) (candidates : List Candidate)
    (hleases : (candidates.map Candidate.lease).Nodup) (schedule : List (ℕ × Choice)) :
    (∀ lease k, (electionAfter rt pfx fuel kv candidates schedule).holding lease = some k →
      First pfx lease k (electionAfter rt pfx fuel kv candidates schedule).kv) ∧
    ∀ lease lease', (electionAfter rt pfx fuel kv candidates schedule).holding lease ≠ none →
      (electionAfter rt pfx fuel kv candidates schedule).holding lease' ≠ none →
      lease = lease' := by
  have hw : World.Wf pfx ⟨kv, fun _ => none⟩ := ⟨hkv, hle, fun _ _ h => (by cases h)⟩
  have hend : (electionAfter rt pfx fuel kv candidates schedule).Wf pfx := by
    refine wf_contend hleases hw (fun i p hi => ?_) schedule
    obtain ⟨c, hc, rfl⟩ := Option.map_eq_some_iff.1 ((List.getElem?_map ..).symm.trans hi)
    refine ⟨c.lease, by rw [List.getElem?_map, hc]; rfl, ?_⟩
    exact calls_ensures fuel ⟨hw, rfl, fun hs => (by cases hs)⟩
  refine ⟨hend.first, fun lease lease' h h' => ?_⟩
  obtain ⟨k, hk⟩ := Option.ne_none_iff_exists'.1 h
  obtain ⟨k', hk'⟩ := Option.ne_none_iff_exists'.1 h'
  exact hend.unique hk hk'

/-- A candidate that campaigns, leads and resigns, and one that campaigns after it. -/
def twoCandidates : List Candidate := [⟨7, [.campaign [], .resign]⟩, ⟨8, [.campaign []]⟩]

/-- The first candidate's campaign, the second's up to its wait, the resignation, and the rest of
the second's campaign. -/
def handOver : List (ℕ × Choice) :=
  List.replicate 5 (0, { nano := 1 }) ++ List.replicate 5 (1, { nano := 2 }) ++
    [(0, { nano := 3 })] ++ List.replicate 2 (1, { nano := 3 })

theorem one_leader_handOver :
    (electionAfter Runtime.stable [101] 9 .initial twoCandidates handOver).holding 8
      = some [101, 47, 50] ∧
    ((electionAfter Runtime.stable [101] 9 .initial twoCandidates handOver).holding 7 ≠ none →
      (7 : ℤ) = 8) := by
  have hlead : (electionAfter Runtime.stable [101] 9 .initial twoCandidates handOver).holding 8
      = some [101, 47, 50] := by decide +kernel
  refine ⟨hlead, fun h => (one_leader Runtime.stable [101] 9 .initial Kv.initial_wf (by decide)
    twoCandidates (by decide) handOver).2 7 8 h ?_⟩
  rw [hlead]
  exact Option.some_ne_none _

end Leader

end EtcdCompat.Concurrency
