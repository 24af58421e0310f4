import EtcdCompat.Proofs.WaitDeletes

/-!
# Clients that contend under one prefix

A client puts a key that was not there, and deletes keys of its own lease only. Each step keeps the
keys of the others and leaves whoever holds something with the first key. Clients of different
leases do so together, in every schedule.
-/

namespace EtcdCompat.Concurrency

open Clientv3 Option OrdMap Contents
open Program (Ensures)

section Create

variable {rt : Runtime} {pfx key val : Bytes} {lease : ℤ} {w w' : World}
  {cmp : Compare} {p : PutRequest} {ch : Choice} {x : Response} {k : Bytes} {pair : KeyValue}
  {w₀ : World}

theorem txn_put (kv : Kv) (cmp : Compare) (p : PutRequest) :
    kv.txn rt ⟨[cmp], [.requestPut (some p)], []⟩ =
      if kv.compare cmp then
        .ok (kv.put p, .ok ⟨kv.rev + 1, true, [some (.responsePut (kv.rev + 1))]⟩)
      else .ok (kv, .ok ⟨kv.rev, false, []⟩) := by
  unfold Kv.txn
  simp
  rcases kv.compare cmp <;> rfl

/-- The comparison holds, and the pair is put. -/
def IsPut (cmp : Compare) (p : PutRequest) (w w' : World) : Prop :=
  w.kv.compare cmp = true ∧ w' = { w with kv := w.kv.put p } ∧ w'.kv.rev ≤ maxInt64

theorem check_empty (hcmp : cmp.key = []) :
    V3rpc.checkTxnRequest ⟨[cmp], [.requestPut (some p)], []⟩ = .error .errEmptyKey := by
  obtain ⟨result, target, key, union⟩ := cmp
  subst hcmp
  rfl

theorem exec_put (h : exec rt ch w (.txn ⟨[cmp], [.requestPut (some p)], []⟩) = some (w', x)) :
    (w' = w ∨ IsPut cmp p w w' ∧ cmp.key ≠ []) ∧ ∀ resp, x = .txn resp → resp.succeeded = true →
      resp.revision = w.kv.rev + 1 ∧ IsPut cmp p w w' := by
  have h : w.txn rt ch.fate ⟨[cmp], [.requestPut (some p)], []⟩ = some (w', x) := h
  unfold World.txn at h
  rcases hcheck : V3rpc.checkTxnRequest ⟨[cmp], [.requestPut (some p)], []⟩ with e | _ <;>
    simp only [hcheck] at h
  · rcases call_eq (some.inj h) with ⟨rfl, rfl, -⟩ | ⟨rfl | rfl, rfl⟩
    all_goals exact ⟨.inl rfl, fun resp hresp => (by cases hresp)⟩
  have hkey : cmp.key ≠ [] := by
    intro hnil
    rw [check_empty hnil] at hcheck
    cases hcheck
  rw [txn_put] at h
  rcases hcmp : w.kv.compare cmp with _ | _
  · simp only [hcmp, Bool.false_eq_true, if_false] at h
    split_ifs at h
    rcases call_eq (some.inj h) with ⟨rfl, rfl, -⟩ | ⟨rfl | rfl, rfl⟩
    · refine ⟨.inl rfl, fun resp hresp hsucc => ?_⟩
      cases hresp
      cases hsucc
    all_goals exact ⟨.inl rfl, fun resp hresp => (by cases hresp)⟩
  · simp only [hcmp, if_true] at h
    split_ifs at h with hle
    have hput : IsPut cmp p w { w with kv := w.kv.put p } := ⟨hcmp, rfl, hle⟩
    rcases call_eq (some.inj h) with ⟨rfl, rfl, -⟩ | ⟨rfl | rfl, rfl⟩
    · refine ⟨.inr ⟨hput, hkey⟩, fun resp hresp _ => ?_⟩
      cases hresp
      exact ⟨rfl, hput⟩
    · exact ⟨.inr ⟨hput, hkey⟩, fun resp hresp => (by cases hresp)⟩
    · exact ⟨.inl rfl, fun resp hresp => (by cases hresp)⟩

theorem check_nonempty (hcmp : cmp.key ≠ []) (hp : p.key ≠ []) :
    V3rpc.checkTxnRequest ⟨[cmp], [.requestPut (some p)], []⟩ = .ok () := by
  obtain ⟨result, target, _ | ⟨b, bs⟩, union⟩ := cmp
  · exact absurd rfl hcmp
  obtain ⟨_ | ⟨b', bs'⟩, value, lease⟩ := p
  · exact absurd rfl hp
  rfl

theorem exec_put_answered (hfate : ch.fate = .answered) (hcmp : cmp.key ≠ []) (hp : p.key ≠ [])
    (h : exec rt ch w (.txn ⟨[cmp], [.requestPut (some p)], []⟩) = some (w', x)) :
    ∃ resp, x = .txn resp := by
  have h : w.txn rt ch.fate ⟨[cmp], [.requestPut (some p)], []⟩ = some (w', x) := h
  unfold World.txn at h
  simp only [check_nonempty hcmp hp, txn_put, hfate] at h
  rcases hcmp : w.kv.compare cmp with _ | _
  · simp only [hcmp, Bool.false_eq_true, if_false] at h
    split_ifs at h
    exact ⟨_, (Prod.mk.inj (some.inj h)).2.symm⟩
  · simp only [hcmp, if_true] at h
    split_ifs at h
    exact ⟨_, (Prod.mk.inj (some.inj h)).2.symm⟩

theorem compare_modified_zero {kv : Kv} (hw : kv.Wf)
    (h : kv.compare (compareModified key compareEqual 0) = true) : kv.contents.find key = none := by
  rcases hf : kv.contents.find key with _ | pair
  · rfl
  have hspec := hw.pair_spec hw.one_le le_rfl hf
  have hresult : compareResult (compareModified key compareEqual 0) pair = 1 := by
    change compareTo pair.modRevision 0 = 1
    unfold compareTo
    rw [if_neg (by omega), if_pos (by omega)]
  change compareKV _ (kv.contents.find key) = true at h
  rw [hf] at h
  unfold compareKV at h
  simp only [hresult] at h
  cases h

/-- The key was not there and is put. -/
def Created (key val : Bytes) (lease : ℤ) (w w' : World) : Prop :=
  w.kv.contents.find key = none ∧ w' = { w with kv := w.kv.put ⟨key, val, lease⟩ } ∧
    w'.kv.rev ≤ maxInt64

theorem exec_create (hw : w.Wf pfx)
    (h : exec rt ch w (.txn (createTxn key val lease)) = some (w', x)) :
    (w' = w ∨ Created key val lease w w') ∧ ∀ resp, x = .txn resp → resp.succeeded = true →
      resp.revision = w.kv.rev + 1 ∧ Created key val lease w w' := by
  have hcreated (hput : IsPut (compareModified key compareEqual 0) ⟨key, val, lease⟩ w w') :
      Created key val lease w w' := ⟨compare_modified_zero hw.kv hput.1, hput.2⟩
  obtain ⟨hstep, hresp⟩ := exec_put h
  refine ⟨hstep.imp id fun hput => hcreated hput.1, fun resp hx hsucc => ?_⟩
  obtain ⟨hrev, hput⟩ := hresp resp hx hsucc
  exact ⟨hrev, hcreated hput⟩

theorem find_put (kv : Kv) (p : PutRequest) (k : Bytes) : (kv.put p).contents.find k =
    if p.key = k then some (putKV (kv.rev + 1) p.key p.value p.lease
      (kv.contents.find p.key)) else kv.contents.find k := by
  unfold Kv.put
  rw [Kv.contents_commit fun h => (by cases h)]
  unfold put
  rw [find_insert]
  split_ifs <;> rfl

namespace Created

variable {P : ℤ → Prop} (h : Created key val lease w w')
include h

theorem find (k : Bytes) : w'.kv.contents.find k =
    if key = k then some ⟨key, w.kv.rev + 1, w.kv.rev + 1, 1, val, lease⟩
    else w.kv.contents.find k := by
  obtain ⟨hnone, rfl, -⟩ := h
  refine (find_put _ _ k).trans ?_
  rw [hnone]
  rfl

theorem find_ne (hf : w.kv.contents.find k = some pair) :
    w'.kv.contents.find k = some pair := by
  rw [h.find, if_neg fun hk => ?_]
  · exact hf
  · rw [← hk, h.1] at hf
    cases hf

theorem cases (hf : w'.kv.contents.find k = some pair) :
    (k = key ∧ pair.createRevision = w.kv.rev + 1) ∨ w.kv.contents.find k = some pair := by
  rw [h.find] at hf
  split_ifs at hf with hk
  · cases hf
    exact .inl ⟨hk.symm, rfl⟩
  · exact .inr hf

theorem first (hw : w.kv.Wf) {lease' : ℤ}
    (hf : First pfx lease' k w.kv) : First pfx lease' k w'.kv := by
  obtain ⟨hk, pair, hpair, hlease, hfirst⟩ := hf
  have hspec := hw.pair_spec hw.one_le le_rfl hpair
  refine ⟨hk, pair, h.find_ne hpair, hlease, fun k' pair' hf' hk' hne => ?_⟩
  rcases h.cases hf' with ⟨-, hcreate⟩ | hold
  · omega
  · exact hfirst k' pair' hold hk' hne

theorem acts : Acts pfx P w w' := by
  intro hw
  obtain ⟨-, hw', hle⟩ := id h
  refine ⟨⟨?_, hle, fun lease' k hk => ?_⟩, ?_,
    fun lease' _ => ⟨?_, fun k pair hf _ => h.find_ne hf⟩⟩
  · rw [hw']
    exact hw.kv.put _
  · rw [hw'] at hk
    exact h.first hw.kv (hw.first lease' k hk)
  · rw [hw']
    exact Kv.extends_commit _ _
  · rw [hw']

theorem waits (hw : w.Wf pfx) (hkey : InPrefix pfx key) :
    Waits pfx lease key (w.kv.rev + 1) w' := by
  refine ⟨((h.acts (P := fun _ => True)) hw).1, hkey,
    ⟨_, (h.find key).trans (if_pos rfl), rfl, rfl⟩, fun k' pair hf hcreate => ?_, fun hhold => ?_⟩
  · rcases h.cases hf with ⟨hk, -⟩ | hold
    · exact hk
    · have hspec := hw.kv.pair_spec hw.kv.one_le le_rfl hold
      omega
  · rw [h.2.1] at hhold
    obtain ⟨-, pair, hf, -⟩ := hw.first lease key hhold
    rw [h.1] at hf
    cases hf

end Created

/-- What `NewUniqueKV` comes to: nothing the client had has changed, and without an error it waits
with the key. -/
def Drawn (pfx : Bytes) (lease : ℤ) (w₀ w : World) (r : Bytes × ℤ × Option Err) : Prop :=
  Acts pfx (· ≠ lease) w₀ w ∧ w.Wf pfx ∧ (r.2.2 = none → Waits pfx lease r.1 r.2.1 w) ∧
    (r.2.2 ≠ none → r.1 = [])

theorem exec_unixNano (h : exec rt ch w .unixNano = some (w', x)) : w' = w ∧ x = .nano ch.nano := by
  cases h
  exact ⟨rfl, rfl⟩

variable {ex : Choice → World → Request → Option (World × Response)} {safe : Prop}

theorem Drawn.failed (h₀ : Acts pfx (· ≠ lease) w₀ w) (hw : w.Wf pfx) (hsafe : ¬ safe) (e : Err) :
    Ensures ex (client pfx lease) (fun w r => Drawn pfx lease w₀ w r ∧ (safe → r.2.2 = none)) w
      (.done ([], 0, some e)) :=
  fun _ hw' => ⟨⟨h₀.trans hw', (hw' hw).1, fun he => (by cases he), fun _ => rfl⟩,
    fun hs => (hsafe hs).elim⟩

theorem newUniqueKV_ensures (hex : Within rt ex)
    (hsafe : safe → ∀ ch w t y, ex ch w (.txn t) = some y → ch.fate = .answered) :
    ∀ {fuel : ℕ} {w : World}, Acts pfx (· ≠ lease) w₀ w → w.Wf pfx →
    Ensures ex (client pfx lease) (fun w r => Drawn pfx lease w₀ w r ∧ (safe → r.2.2 = none)) w
      (newUniqueKV pfx val lease fuel)
  | 0, _, _, _ => hang_ensures hex
  | fuel + 1, w, h₀, hw => by
    refine ask_ensures fun w₁ h₁ ch₁ w₁' x hx => ?_
    obtain ⟨rfl, rfl⟩ := exec_unixNano (hex _ _ _ _ hx)
    have h₀₁ := h₀.trans h₁
    have hw₁ := (h₁ hw).1
    refine ⟨.refl _, ask_ensures fun w₂ h₂ ch w₂' x hx => ?_⟩
    have hw₂ := (h₂ hw₁).1
    have hkey : pfx ++ slash :: decimal ch₁.nano ≠ [] :=
      List.append_ne_nil_of_right_ne_nil _ (List.cons_ne_nil _ _)
    obtain ⟨hstep, hresp⟩ := exec_create hw₂ (hex _ _ _ _ hx)
    have hanswer (hs : safe) : ∃ resp, x = .txn resp :=
      exec_put_answered (hsafe hs _ _ _ _ hx) hkey hkey (hex _ _ _ _ hx)
    have hacts {P : ℤ → Prop} : Acts pfx P w₂ w₂' :=
      hstep.elim (fun h => h ▸ .refl _) Created.acts
    have hw₂' := ((hacts (P := fun _ => True)) hw₂).1
    have h₀₂ := (h₀₁.trans h₂).trans hacts
    refine ⟨hacts, ?_⟩
    cases x with
    | txn resp =>
      change Ensures _ _ _ _ (if resp.succeeded then _ else _)
      split_ifs with hsucc
      · obtain ⟨hrev, hcreated⟩ := hresp resp rfl hsucc
        have hwaits := hcreated.waits hw₂ (inPrefix_append pfx (slash :: decimal ch₁.nano))
        rw [← hrev] at hwaits
        intro w₃ h₃
        exact ⟨⟨h₀₂.trans h₃, (h₃ hw₂').1, fun _ => hwaits.acts h₃, fun hne => absurd rfl hne⟩,
          fun _ => rfl⟩
      · exact newUniqueKV_ensures hex hsafe h₀₂ hw₂'
    | _ => exact Drawn.failed h₀₂ hw₂' (fun hs => (by cases (hanswer hs).choose_spec)) _

end Create

section Delete

variable {rt : Runtime} {pfx key : Bytes} {lease : ℤ} {w w' : World}

def World.without (w : World) (key : Bytes) : World := { w with kv := w.kv.deleteRange { key } }

theorem find_without (w : World) (key k : Bytes) : (w.without key).kv.contents.find k =
    if k = key then none else w.kv.contents.find k := by
  unfold World.without Kv.deleteRange
  rw [Kv.contents_commit]
  · unfold deleteRange
    rw [find_filter]
    split_ifs with h h' h'
    · exact absurd h' (of_decide_eq_true h)
    · rfl
    · rfl
    · exact absurd (decide_eq_true h') h
  · intro hnone
    have hempty : w.kv.contents.within key (gteRange none) = [] := by
      simpa using hnone
    refine ext_find fun k => ?_
    unfold deleteRange
    rw [find_filter]
    split_ifs with h
    · rfl
    · rcases hf : w.kv.contents.find k with _ | pair
      · rfl
      · have hmem : (k, pair) ∈ w.kv.contents.within key (gteRange none) :=
          List.mem_filter.2 ⟨mem_entries.2 hf, by simpa using h⟩
        rw [hempty] at hmem
        cases hmem

theorem First.without {lease' : ℤ} {k : Bytes} (hf : First pfx lease' k w.kv) (hne : k ≠ key) :
    First pfx lease' k (w.without key).kv := by
  obtain ⟨hk, pair, hpair, hlease, hfirst⟩ := hf
  refine ⟨hk, pair, ?_, hlease, fun k' pair' hf' hk' hne' => ?_⟩
  · rw [find_without, if_neg hne]
    exact hpair
  · rw [find_without] at hf'
    split_ifs at hf'
    exact hfirst k' pair' hf' hk' hne'

def Own (lease : ℤ) (key : Bytes) (w : World) : Prop :=
  ∀ pair, w.kv.contents.find key = some pair → pair.lease = lease

theorem acts_without (hown : Own lease key w) (hfree : w.holding lease ≠ some key)
    (hle : (w.without key).kv.rev ≤ maxInt64) : Acts pfx (· = lease) w (w.without key) := by
  intro hw
  refine ⟨⟨hw.kv.deleteRange _, hle, fun lease' k hk => ?_⟩,
    Kv.extends_commit _ _, fun lease' hne => ⟨rfl, fun k pair hf hlease => ?_⟩⟩
  · have hk : w.holding lease' = some k := hk
    have hfirst := hw.first lease' k hk
    refine hfirst.without fun heq => ?_
    obtain ⟨-, pair, hf, hlease, -⟩ := hfirst
    rw [heq] at hf hk
    obtain rfl := (hown pair hf).symm.trans hlease
    exact hfree hk
  · rw [find_without, if_neg]
    · exact hf
    · rintro rfl
      exact hne (hlease.symm.trans (hown pair hf))

/-- A delete that is carried out, and by a call that has a key. -/
def IsDelete (key : Bytes) (w w' : World) : Prop :=
  w' = w.without key ∧ w'.kv.rev ≤ maxInt64 ∧ key ≠ []

theorem delete_eq_some {fate : Fate} {x : Response} (h : w.delete fate key = some (w', x)) :
    w' = w ∨ IsDelete key w w' := by
  unfold World.delete at h
  rcases hcheck : V3rpc.checkDeleteRequest { key } with e | _ <;> simp only [hcheck] at h
  · rcases call_eq (some.inj h) with ⟨rfl, -⟩ | ⟨rfl | rfl, -⟩
    all_goals exact .inl rfl
  have hkey : key ≠ [] := by
    rintro rfl
    cases hcheck
  split_ifs at h with hle
  rcases call_eq (some.inj h) with ⟨rfl, -⟩ | ⟨rfl | rfl, -⟩
  · exact .inr ⟨rfl, hle, hkey⟩
  · exact .inr ⟨rfl, hle, hkey⟩
  · exact .inl rfl

theorem IsDelete.acts (h : IsDelete key w w') (hown : Own lease key w)
    (hfree : w.holding lease ≠ some key) : Acts pfx (· = lease) w w' := by
  obtain ⟨rfl, hle, -⟩ := h
  exact acts_without hown hfree hle

theorem acts_setHolding {held : Option Bytes}
    (hfirst : ∀ k, held = some k → First pfx lease k w.kv) :
    Acts pfx (· = lease) w (w.setHolding lease held) := by
  intro hw
  refine ⟨⟨hw.kv, hw.le, fun lease' k hk => ?_⟩, .refl _, fun lease' hne =>
    ⟨Function.update_of_ne hne _ _, fun k pair hf _ => hf⟩⟩
  change Function.update w.holding lease held lease' = some k at hk
  rw [Function.update_apply] at hk
  split_ifs at hk with heq
  · rw [heq]
    exact hfirst k hk
  · exact hw.first lease' k hk

end Delete

section Pool

variable {rt : Runtime} {pfx : Bytes} {w : World} {leases : List ℤ} {i : ℕ}

theorem World.Wf.unique (hw : w.Wf pfx) {lease lease' : ℤ} {k k' : Bytes}
    (h : w.holding lease = some k) (h' : w.holding lease' = some k') : lease = lease' := by
  obtain ⟨hk, pair, hf, hlease, hfirst⟩ := hw.first lease k h
  obtain ⟨hk', pair', hf', hlease', hfirst'⟩ := hw.first lease' k' h'
  by_cases heq : k = k'
  · subst heq
    rw [← hlease, ← hlease', some.inj (hf.symm.trans hf')]
  · have hlt := hfirst k' pair' hf' hk' (Ne.symm heq)
    have hlt' := hfirst' k pair hf hk heq
    omega

def contracts (pfx : Bytes) (leases : List ℤ) (i : ℕ) : Contract World :=
  match leases[i]? with
  | some lease => client pfx lease
  | none => ⟨fun _ _ => True, fun _ _ => False, fun _ => False, fun _ => trivial,
    fun _ _ => trivial⟩

theorem contracts_of_some {lease : ℤ} (h : leases[i]? = some lease) :
    contracts pfx leases i = client pfx lease := by
  unfold contracts
  rw [h]

theorem acts_of_contracts {w w' : World} (h : (contracts pfx leases i).guar w w') :
    ∃ lease, leases[i]? = some lease ∧ Acts pfx (· = lease) w w' := by
  rcases hi : leases[i]? with _ | lease
  · unfold contracts at h
    rw [hi] at h
    exact h.elim
  · rw [contracts_of_some hi] at h
    exact ⟨lease, rfl, h⟩

theorem contracts_compatible (hnodup : leases.Nodup) :
    Program.Compatible (contracts pfx leases) := by
  intro i j hij w w' hguar
  obtain ⟨lease, hi, hacts⟩ := acts_of_contracts hguar
  rcases hj : leases[j]? with _ | lease'
  · unfold contracts
    rw [hj]
    trivial
  rw [contracts_of_some hj]
  refine hacts.mono fun l hl hl' => hij ?_
  rw [← hl.symm.trans hl'] at hj
  exact (List.getElem?_inj (List.getElem?_eq_some_iff.1 hi).1 hnodup).1 (hi.trans hj.symm)

/-- Clients that keep their contracts leave the world well-formed, in every schedule. -/
theorem wf_contend {ex : Choice → World → Request → Option (World × Response)}
    (hnodup : leases.Nodup) {programs : List (Client Unit)} (hw : w.Wf pfx)
    (h : ∀ (i : ℕ) (p), programs[i]? = some p → ∃ lease, leases[i]? = some lease ∧
      Ensures ex (client pfx lease) (fun _ _ => True) w p) (schedule : List (ℕ × Choice)) :
    (Program.contend ex (w, programs) schedule).1.Wf pfx := by
  have hall : Program.AllEnsure ex (contracts pfx leases) (fun _ _ _ => True) (w, programs) := by
    intro i p hi
    obtain ⟨lease, hlease, hp⟩ := h i p hi
    rw [contracts_of_some hlease]
    exact hp
  refine hall.contend_inv (fun i w w' hguar hw => ?_) (contracts_compatible hnodup) hw
  obtain ⟨lease, -, hacts⟩ := acts_of_contracts hguar
  exact (hacts hw).1

end Pool

end EtcdCompat.Concurrency
