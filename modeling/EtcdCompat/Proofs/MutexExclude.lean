import EtcdCompat.Proofs.Contenders

/-!
# Mutual exclusion

`Lock` overwrites the error of `NewUniqueKey` and returns nil also after it gave up its key, and
`Unlock` may delete a key that another client has created since. Away from these three a client
whose `Lock` has returned nil has the first key under the prefix until it calls `Unlock`.
-/

namespace EtcdCompat.Concurrency

open Clientv3 Option
open Program (Ensures)

variable {rt : Runtime} {pfx : Bytes} {lease : ℤ} {w w' : World} {m : Mutex}

section Fair

/-- Whether the key is not there, or of the lease. -/
def isOwn (lease : ℤ) (key : Bytes) (w : World) : Bool :=
  (w.kv.contents.find key).all (·.lease = lease)

/-- A step that is none of the three: the transaction for a key does not fail, the context is not
done when the wait has ended without an error, and a delete is of no other client's key. -/
def fair (ch : Choice) (w : World) : Request → Bool
  | .txn _ => ch.fate = .answered
  | .ctxDone none => !ch.cancelled
  | .delete lease key => ch.fate = .unsent || isOwn lease key w
  | _ => true

theorem isOwn_iff {key : Bytes} : isOwn lease key w = true ↔ Own lease key w := by
  unfold isOwn Own
  rcases w.kv.contents.find key with _ | pair
  · exact ⟨fun _ _ h => (by cases h), fun _ => rfl⟩
  · exact ⟨fun h pair' h' => some.inj h' ▸ of_decide_eq_true h,
      fun h => decide_eq_true (h pair rfl)⟩

abbrev fairExec (rt : Runtime) := Program.guarded fair (exec rt)

theorem fairExec_within (rt : Runtime) : Within rt (fairExec rt) :=
  fun _ _ _ _ h => (Program.guarded_eq_some fair h).2

theorem fairExec_txn : True → ∀ ch w t y, fairExec rt ch w (.txn t) = some y →
    ch.fate = .answered :=
  fun _ _ _ _ _ h => of_decide_eq_true (Program.guarded_eq_some fair h).1

theorem fairExec_delete {ch : Choice} {key : Bytes} {x : Response}
    (h : fairExec rt ch w (.delete lease key) = some (w', x)) :
    w' = w ∨ (IsDelete key w w' ∧ Own lease key w) := by
  obtain ⟨hfair, hexec⟩ := Program.guarded_eq_some fair h
  have hexec : w.delete ch.fate key = some (w', x) := hexec
  rcases Bool.or_eq_true_iff.1 hfair with hunsent | hown
  · rw [of_decide_eq_true hunsent] at hexec
    unfold World.delete at hexec
    rcases hcheck : V3rpc.checkDeleteRequest { key } with e | _ <;> simp only [hcheck] at hexec
    · exact .inl (Prod.mk.inj (some.inj hexec)).1.symm
    · split_ifs at hexec
      exact .inl (Prod.mk.inj (some.inj hexec)).1.symm
  · exact (delete_eq_some hexec).imp_right fun hdel => ⟨hdel, isOwn_iff.1 hown⟩

end Fair

section Calls

/-- What `Lock` comes to: without an error the key is first. -/
def Locked (pfx : Bytes) (lease : ℤ) (w : World) (r : Mutex × Option Err) : Prop :=
  w.Wf pfx ∧ r.1.pfx = pfx ∧ (r.2 = none → First pfx lease r.1.myKey w.kv)

theorem Locked.failed (hw : w.Wf pfx) (hm : m.pfx = pfx) (err : Err) :
    Ensures (fairExec rt) (client pfx lease) (Locked pfx lease) w (.done (m, some err)) :=
  fun _ ha => ⟨(ha hw).1, hm, fun he => (by cases he)⟩

theorem unlock_ensures (hw : w.Wf pfx) (hm : m.pfx = pfx) (hfree : w.holding lease ≠ some m.myKey) :
    Ensures (fairExec rt) (client pfx lease) (fun w r => w.Wf pfx ∧ r.1.pfx = pfx) w
      (m.unlock lease) := by
  refine ask_ensures fun w₁ h₁ ch w₁' x hx => ?_
  obtain ⟨hw₁, -, hkeep⟩ := h₁ hw
  have hacts : Acts pfx (· = lease) w₁ w₁' := by
    rcases fairExec_delete hx with rfl | ⟨hdel, hown⟩
    · exact .refl _
    · refine hdel.acts hown ?_
      rw [(hkeep lease fun hne => hne rfl).1]
      exact hfree
  refine ⟨hacts, ?_⟩
  rcases x with _ | _ | _ | _ | _ | err
  all_goals exact fun _ ha => ⟨(ha (hacts hw₁).1).1, hm⟩

theorem settle_ensures {c : ℤ} {err : Option Err} (hm : m.pfx = pfx)
    (hwaits : Waits pfx lease m.myKey c w) (hfirst : err = none → First pfx lease m.myKey w.kv) :
    Ensures (fairExec rt) (client pfx lease) (Locked pfx lease) w (m.settle lease err) := by
  refine ask_ensures fun w₁ h₁ ch w₁' x hx => ?_
  obtain ⟨hfair, hexec⟩ := Program.guarded_eq_some fair hx
  cases hexec
  have hw₁ := hwaits.acts h₁
  have hdone : Ensures (fairExec rt) (client pfx lease) (Locked pfx lease) w₁ (.done (m, err)) :=
    fun w₂ h₂ => ⟨(h₂ hw₁.wf).1, hm, fun he =>
      ((hfirst he).acts hwaits.wf h₁).acts hw₁.wf h₂⟩
  refine ⟨.refl _, ?_⟩
  rcases hc : ch.cancelled with _ | _
  · exact hdone
  · rcases err with _ | err
    · rw [fair, hc] at hfair
      cases hfair
    · refine (unlock_ensures hw₁.wf hm hw₁.free).bind fun w₂ r hr => ?_
      exact Locked.failed hr.1 hr.2 err

theorem lock_stand_ensures (hw : w.Wf pfx) (hm : m.pfx = pfx) (fuel : ℕ) :
    Ensures (fairExec rt) (client pfx lease) (Locked pfx lease) w (m.stand lease fuel) := by
  unfold Mutex.stand newUniqueKey
  rw [hm]
  refine (newUniqueKV_ensures (fairExec_within rt) fairExec_txn (.refl w) hw).bind
    fun w₁ r hdrawn => ?_
  obtain ⟨k, rev, err⟩ := r
  obtain ⟨⟨h₁, hw₁, hwaits, -⟩, hsafe⟩ := hdrawn
  have hwaits := hwaits (hsafe trivial)
  have hwait := (waitDeletes_ensures fuel hwaits).restrict (fun _ h => h) (fairExec_within rt)
  refine hwait.bind fun w₂ err' hwaited => ?_
  obtain ⟨h₂, hfirst⟩ := hwaited
  exact settle_ensures rfl (hwaits.acts h₂) hfirst

theorem lock_ensures (hw : w.Wf pfx) (hm : m.pfx = pfx) (fuel : ℕ) :
    Ensures (fairExec rt) (client pfx lease) (Locked pfx lease) w (m.lock lease fuel) := by
  refine ask_ensures fun w₁ h₁ ch w₁' x hx => ?_
  obtain rfl := exec_newSession (fairExec_within rt _ _ _ _ hx)
  have hw₁ := (h₁ hw).1
  refine ⟨.refl _, ?_⟩
  cases x with
  | err e => exact Locked.failed hw₁ hm e
  | _ => exact lock_stand_ensures hw₁ hm fuel

theorem mutexCalls_ensures (fuel : ℕ) : ∀ {cs : List MutexCall} {m : Mutex} {w : World},
    w.Wf pfx → m.pfx = pfx →
    Ensures (fairExec rt) (client pfx lease) (fun _ _ => True) w (m.calls lease fuel cs)
  | [], _, _, _, _ => fun _ _ => trivial
  | .lock :: cs, m, w, hw, hm => by
    refine (lock_ensures hw hm fuel).bind fun w₁ r hr => ?_
    obtain ⟨m', err⟩ := r
    obtain ⟨hw₁, hm', hfirst⟩ := hr
    change Ensures _ _ _ _ (if err = none then _ else _)
    split_ifs with herr
    · refine ask_ensures fun w₂ h₂ ch w₂' x hx => ?_
      obtain ⟨rfl, rfl⟩ := Prod.mk.inj (some.inj (fairExec_within rt _ _ _ _ hx))
      have hacts : Acts pfx (· = lease) w₂ (w₂.setHolding lease (some m'.myKey)) :=
        acts_setHolding fun k hk => some.inj hk ▸ (hfirst herr).acts hw₁ h₂
      exact ⟨hacts, mutexCalls_ensures fuel (hacts (h₂ hw₁).1).1 hm'⟩
    · exact mutexCalls_ensures fuel hw₁ hm'
  | .unlock :: cs, m, w, hw, hm => by
    refine ask_ensures fun w₁ h₁ ch w₁' x hx => ?_
    obtain ⟨rfl, rfl⟩ := Prod.mk.inj (some.inj (fairExec_within rt _ _ _ _ hx))
    have hacts : Acts pfx (· = lease) w₁ (w₁.setHolding lease none) :=
      acts_setHolding fun _ hk => (by cases hk)
    refine ⟨hacts, (unlock_ensures (hacts (h₁ hw).1).1 hm fun hhold => ?_).bind
      fun w₂ r hr => mutexCalls_ensures fuel hr.1 hr.2⟩
    change Function.update w₁.holding lease none lease = _ at hhold
    rw [Function.update_self] at hhold
    cases hhold

end Calls

section Exclusion

structure Locker where
  lease : ℤ
  calls : List MutexCall

def Locker.program (pfx : Bytes) (fuel : ℕ) (l : Locker) : Client Unit :=
  Mutex.calls l.lease fuel { pfx } l.calls

def lockers (pfx : Bytes) (fuel : ℕ) (kv : Kv) (clients : List Locker) :
    World × List (Client Unit) :=
  (⟨kv, fun _ => none⟩, clients.map (Locker.program pfx fuel))

/-- Nobody but one holds the lock, in every schedule of fair steps. -/
theorem locks_exclude (rt : Runtime) (pfx : Bytes) (fuel : ℕ) (kv : Kv) (hkv : kv.Wf)
    (hle : kv.rev ≤ maxInt64) (clients : List Locker)
    (hleases : (clients.map Locker.lease).Nodup) (schedule : List (ℕ × Choice))
    (hfair : Program.Heeds fair (exec rt) (lockers pfx fuel kv clients) schedule)
    (lease lease' : ℤ)
    (h : (Program.contend (exec rt) (lockers pfx fuel kv clients) schedule).1.holding lease ≠ none)
    (h' : (Program.contend (exec rt) (lockers pfx fuel kv clients) schedule).1.holding lease'
      ≠ none) : lease = lease' := by
  have hw : World.Wf pfx ⟨kv, fun _ => none⟩ := ⟨hkv, hle, fun _ _ h => (by cases h)⟩
  have hend : (Program.contend (exec rt) (lockers pfx fuel kv clients) schedule).1.Wf pfx := by
    rw [← Program.contend_guarded fair hfair]
    refine wf_contend hleases hw (fun i p hi => ?_) schedule
    obtain ⟨l, hl, rfl⟩ := Option.map_eq_some_iff.1 ((List.getElem?_map ..).symm.trans hi)
    exact ⟨l.lease, by rw [List.getElem?_map, hl]; rfl, mutexCalls_ensures fuel hw rfl⟩
  obtain ⟨k, hk⟩ := Option.ne_none_iff_exists'.1 h
  obtain ⟨k', hk'⟩ := Option.ne_none_iff_exists'.1 h'
  exact hend.unique hk hk'

def inTurn (i n : ℕ) (ch : Choice) : List (ℕ × Choice) := List.replicate n (i, ch)

def lockAndUnlock : List Locker := [⟨7, [.lock, .unlock]⟩, ⟨8, [.lock]⟩]

/-- One client has the lock and gives it up to the other, which waits. -/
def passOn : List (ℕ × Choice) :=
  inTurn 0 6 { nano := 1 } ++ inTurn 1 5 { nano := 2 } ++ inTurn 0 2 { nano := 3 } ++
    inTurn 1 3 { nano := 3 }

theorem locks_exclude_passOn :
    (Program.contend (exec Runtime.stable) (lockers [109] 9 .initial lockAndUnlock)
      passOn).1.holding 8 = some [109, 47, 50] ∧
    ((Program.contend (exec Runtime.stable) (lockers [109] 9 .initial lockAndUnlock)
      passOn).1.holding 7 ≠ none → (7 : ℤ) = 8) := by
  have hlock : (Program.contend (exec Runtime.stable) (lockers [109] 9 .initial lockAndUnlock)
      passOn).1.holding 8 = some [109, 47, 50] := by decide +kernel
  have hfair : Program.Heeds fair (exec Runtime.stable) (lockers [109] 9 .initial lockAndUnlock)
      passOn := by decide +kernel
  refine ⟨hlock, fun h => locks_exclude Runtime.stable [109] 9 .initial Kv.initial_wf (by decide)
    lockAndUnlock (by decide) passOn hfair 7 8 h ?_⟩
  rw [hlock]
  exact Option.some_ne_none _

/-- The transaction for the first client's key is not sent; the first client's context is done when
it has waited; the first client's second `Unlock` is of a name the second client has taken. -/
def unsentKey : List (ℕ × Choice) :=
  inTurn 0 2 { nano := 1 } ++ inTurn 0 1 { fate := .unsent } ++ inTurn 0 3 { nano := 1 } ++
    inTurn 1 6 { nano := 2 }

def lateCancel : List (ℕ × Choice) :=
  inTurn 0 4 { nano := 1 } ++ inTurn 0 1 { cancelled := true } ++ inTurn 0 2 { nano := 1 } ++
    inTurn 1 6 { nano := 2 }

def takenName : List (ℕ × Choice) :=
  inTurn 0 7 { nano := 1 } ++ inTurn 0 1 { fate := .unanswered } ++ inTurn 1 6 { nano := 1 } ++
    inTurn 0 2 { nano := 1 } ++ inTurn 2 6 { nano := 2 }

theorem lock_held_twice :
    ((Program.contend (exec Runtime.stable) (lockers [109] 9 .initial [⟨7, [.lock]⟩, ⟨8, [.lock]⟩])
      unsentKey).1.holding 7 ≠ none ∧
    (Program.contend (exec Runtime.stable) (lockers [109] 9 .initial [⟨7, [.lock]⟩, ⟨8, [.lock]⟩])
      unsentKey).1.holding 8 ≠ none) ∧
    ((Program.contend (exec Runtime.stable) (lockers [109] 9 .initial [⟨7, [.lock]⟩, ⟨8, [.lock]⟩])
      lateCancel).1.holding 7 ≠ none ∧
    (Program.contend (exec Runtime.stable) (lockers [109] 9 .initial [⟨7, [.lock]⟩, ⟨8, [.lock]⟩])
      lateCancel).1.holding 8 ≠ none) ∧
    (Program.contend (exec Runtime.stable) (lockers [109] 9 .initial
      [⟨7, [.lock, .unlock, .unlock]⟩, ⟨8, [.lock]⟩, ⟨9, [.lock]⟩]) takenName).1.holding 8 ≠ none ∧
    (Program.contend (exec Runtime.stable) (lockers [109] 9 .initial
      [⟨7, [.lock, .unlock, .unlock]⟩, ⟨8, [.lock]⟩, ⟨9, [.lock]⟩]) takenName).1.holding 9
        ≠ none := by
  decide +kernel

end Exclusion

end EtcdCompat.Concurrency
