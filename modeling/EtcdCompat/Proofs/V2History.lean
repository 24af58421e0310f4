import Mathlib.Data.List.Chain
import EtcdCompat.Lib.Outcome
import EtcdCompat.Proofs.V2Path

/-!
# The history of events

After the events `evs` were added one by one, the history has the newest of them, and `scan` stops
at the first event that is for the key, unless it is misled: by the deletion of a directory whose
path only begins like the key, or by the slash a recursive scan adds to the key.
-/

namespace EtcdCompat.V2

open List RingBuffer

open GoPath

variable {evs : List Event}

/-- Each event has the index after that of the one before. -/
def Consecutive (evs : List Event) : Prop := evs.IsChain fun a b => b.index = a.index + 1

theorem Consecutive.index_get (h : Consecutive evs) {first : Event}
    (hfirst : evs[0]? = some first) : ∀ {k : ℕ} {e : Event}, evs[k]? = some e →
    e.index = first.index + k
  | 0, e, he => by
    rw [hfirst] at he
    cases he
    rfl
  | k + 1, e, he => by
    obtain ⟨hlt, rfl⟩ := List.getElem?_eq_some_iff.1 he
    have hprev := h.index_get hfirst (List.getElem?_eq_getElem (show k < evs.length by omega))
    have hstep := List.isChain_iff_getElem.1 h k hlt
    omega

theorem Consecutive.drop (h : Consecutive evs) (n : ℕ) : Consecutive (evs.drop n) :=
  IsChain.drop h n

namespace EventHistory

variable {eh : EventHistory} {evs : List Event} {capacity : ℕ}

def held (eh : EventHistory) (evs : List Event) : List Event :=
  RingBuffer.newest eh.queue.capacity evs

/-- The history after the events were added. -/
structure Records (eh : EventHistory) (evs : List Event) : Prop where
  ring : eh.queue.Holds (eh.held evs)
  start : eh.startIndex = (eh.held evs)[0]?.elim 0 Event.index
  last : eh.lastIndex = evs.getLast?.elim 0 Event.index

theorem held_nil (eh : EventHistory) : eh.held [] = [] := drop_nil

theorem Records.new (h : 0 < capacity) : Records (newEventHistory capacity) [] where
  ring := by
    rw [held_nil]
    exact RingBuffer.Holds.new h
  start := by
    rw [held_nil]
    rfl
  last := rfl

theorem capacity_insert {α : Type*} (r : RingBuffer α) (x : α)
    : (r.insert x).capacity = r.capacity := by
  unfold RingBuffer.insert
  simp only
  split <;> rfl

theorem eventAt_of_holds {queue : RingBuffer Event} {l : List Event} (h : queue.Holds l) {k : ℕ}
    {e : Event} (he : l[k]? = some e) :
    eventAt queue ((queue.front + k) % queue.capacity) = .ok e := by
  unfold eventAt
  rw [h.get k (List.getElem?_eq_some_iff.1 he).1, he]

theorem Records.addEvent (h : eh.Records evs) (e : Event) : ∃ eh', eh.addEvent e = .ok eh'
    ∧ eh'.Records (evs ++ [e]) ∧ eh'.queue.capacity = eh.queue.capacity := by
  have hcap := capacity_insert eh.queue e
  have hins := h.ring.insert e
  rw [held, newest_newest_append] at hins
  have hlen : 0 < (newest eh.queue.capacity (evs ++ [e])).length := by
    have := h.ring.pos
    rw [length_newest]
    simp [this]
  have hfirst := getElem?_eq_getElem hlen
  have hat := eventAt_of_holds hins hfirst
  rw [Nat.add_zero, Nat.mod_eq_of_lt hins.front] at hat
  refine ⟨_, by rw [EventHistory.addEvent, hat]; rfl, ⟨?_, ?_, ?_⟩, hcap⟩
  · rw [held, hcap]
    exact hins
  · rw [held, hcap, hfirst]
    rfl
  · simp

theorem records_of_foldlM (hpos : 0 < capacity) (evs : List Event)
    (h : evs.foldlM addEvent (newEventHistory capacity) = .ok eh) : eh.Records evs := by
  suffices ∀ (evs done : List Event) (eh₀ : EventHistory), eh₀.Records done →
      evs.foldlM EventHistory.addEvent eh₀ = .ok eh → eh.Records (done ++ evs) from
    this evs [] _ (Records.new hpos) h
  intro evs
  induction evs with
  | nil =>
    intro done eh₀ h₀ heq
    cases heq
    rwa [append_nil]
  | cons e evs ih =>
    intro done eh₀ h₀ heq
    obtain ⟨eh₁, heh₁, h₁, -⟩ := h₀.addEvent e
    rw [foldlM_cons, heh₁] at heq
    have := ih _ _ h₁ heq
    rwa [append_assoc, singleton_append] at this

section Scan

/-- The loop of `scan` over the events themselves. -/
def scanList (recursive : Bool) : Bytes → List Event → Option Event
  | _, [] => none
  | key, e :: es =>
    let keyAfter := if recursive ∧ ¬ e.refresh then addSlash key else key
    if ¬ e.refresh ∧ isFor e key keyAfter recursive then some e
    else scanList recursive keyAfter es

theorem scanFrom_eq {l : List Event} (h : eh.queue.Holds l) (recursive : Bool) :
    ∀ {fuel k : ℕ} (key : Bytes), k < l.length → l.length - k ≤ fuel →
    eh.scanFrom recursive fuel key ((eh.queue.front + k) % eh.queue.capacity)
      = .ok (scanList recursive key (l.drop k))
  | 0, k, key, hk, hfuel => by omega
  | fuel + 1, k, key, hk, hfuel => by
    have he := eventAt_of_holds h (getElem?_eq_getElem hk)
    have hnext : ((eh.queue.front + k) % eh.queue.capacity + 1) % eh.queue.capacity
        = (eh.queue.front + (k + 1)) % eh.queue.capacity := by
      rw [Nat.mod_add_mod, Nat.add_assoc]
    rw [drop_eq_getElem_cons hk, scanFrom, he, scanList]
    simp only [bind, Except.bind]
    generalize (if recursive ∧ ¬ l[k].refresh then addSlash key else key) = keyAfter
    split_ifs with hfor hback
    · rfl
    · rw [hnext, h.next_eq_back hk] at hback
      rw [hback, drop_length]
      rfl
    · rw [hnext, h.next_eq_back hk] at hback
      rw [hnext]
      exact scanFrom_eq h recursive _ (by omega) (by omega)

theorem Records.scan_eq (h : eh.Records evs) (hcons : Consecutive evs) (hne : evs ≠ [])
    {index : ℕ} (hstart : eh.startIndex ≤ index) (hlast : index ≤ eh.lastIndex) (key : Bytes)
    (recursive : Bool) :
    ∃ e es, (eh.held evs).drop (index - eh.startIndex) = e :: es ∧ e.index = index
      ∧ eh.scan key recursive index = .ok (.ok (scanList recursive key (e :: es))) := by
  have hheld : Consecutive (eh.held evs) := hcons.drop _
  have hlen : 0 < (eh.held evs).length := by
    rw [held, length_newest]
    have := h.ring.pos
    have := length_pos_iff.2 hne
    omega
  have hfirst := getElem?_eq_getElem hlen
  have hstart' := h.start
  rw [hfirst, Option.elim_some] at hstart'
  -- the last event is also the last of those held
  have hlastGet : (eh.held evs)[(eh.held evs).length - 1]? = evs.getLast? := by
    rw [← getLast?_eq_getElem?, held, newest, getLast?_drop, if_neg]
    have := h.ring.pos
    have := length_pos_iff.2 hne
    omega
  have hlast' := h.last
  rw [← hlastGet, getElem?_eq_getElem (by omega), Option.elim_some,
    hheld.index_get hfirst (getElem?_eq_getElem (by omega))] at hlast'
  have hk : index - eh.startIndex < (eh.held evs).length := by omega
  have hindex := hheld.index_get hfirst (getElem?_eq_getElem hk)
  refine ⟨_, _, drop_eq_getElem_cons hk, by omega, ?_⟩
  have hle := h.ring.le
  have hfrom := @scanFrom_eq _ _ h.ring recursive eh.queue.capacity _ key hk (by omega)
  rw [scan, if_neg (by omega), if_neg (by omega), ← drop_eq_getElem_cons hk]
  simp only [hfrom]
  rfl

end Scan

end EventHistory

end EtcdCompat.V2
