import EtcdCompat.Client.Stm
import EtcdCompat.Proofs.KvTimeline
import EtcdCompat.Proofs.ServerStore

/-!
# Commits of the STM

An attempt's read set says what it saw at some revision, and the comparisons of its commit let
through only pairs that are not newer. Where the keys read are there as they were seen, a commit
that succeeds has put what the apply function puts when it runs on what is there.
-/

namespace EtcdCompat.Concurrency

open Clientv3 OrdMap Option
open Program (Ensures)

section Atomic

/-- What `Get` returns of the contents, over what was put. -/
def valueAt (c : Contents) (wset : OrdMap Bytes StmPut) (key : Bytes) : Bytes :=
  ((wset.find key).map (·.val)).getD (((c.find key).map (·.value)).getD [])

def modAt (c : Contents) (key : Bytes) : ℤ := ((c.find key).map (·.modRevision)).getD 0

/-- An apply function run at once on the contents: whether it returns nil, and what it has put. -/
def atomically (c : Contents) : Apply → OrdMap Bytes StmPut → Bool × OrdMap Bytes StmPut
  | .done ok, wset => (ok, wset)
  | .request (.get key) k, wset => atomically c (k (.str (valueAt c wset key))) wset
  | .request (.rev key) k, wset => atomically c (k (.int (modAt c key))) wset
  | .request (.put key val lease) k, wset =>
    atomically c (k .unit) (wset.insert key (stmPut key val lease))
  | .request (.del key) k, wset => atomically c (k .unit) (wset.insert key (stmDel key))

/-- The pair a write set leaves of a key. -/
def written (revision : ℤ) (old : Option KeyValue) (key : Bytes) (wv : StmPut) :
    Option KeyValue :=
  match wv.op with
  | .requestPut (some p) => some (Contents.putKV (revision + 1) key p.value p.lease old)
  | _ => none

/-- What a key has after the writes of a commit. -/
def afterWrites (revision : ℤ) (before : Contents) (wset : OrdMap Bytes StmPut) (key : Bytes) :
    Option KeyValue :=
  match wset.find key with
  | some wv => written revision (before.find key) key wv
  | none => before.find key

/-- The STM has seen nothing but the contents. -/
def Agrees (c : Contents) (s : Stm) : Prop :=
  ∀ key resp, s.rset.find key = some resp → resp.kvs.head? = c.find key

/-- A commit as if its apply function had run at once where it was made. -/
structure Serial (c : Committed) : Prop where
  agrees : Agrees c.before c.stm
  atomic : atomically c.before c.apply .empty = (true, c.stm.wset)
  after : ∀ key, c.after.find key = afterWrites c.revision c.before c.stm.wset key

end Atomic

section Seen

variable {rev : ℤ}

/-- The response was of a revision up to its own, and of its own for the repeatable STM. -/
def Seen (kv : Kv) (serializable : Bool) (key : Bytes) (resp : RangeResponse) : Prop :=
  ∃ r, 1 ≤ r ∧ r ≤ resp.revision ∧ resp.revision ≤ kv.rev ∧
    resp.kvs = ((kv.past r).find key).toList ∧ (serializable = false → r = resp.revision)

variable {rt : Runtime} {kv kv' : Kv} {key : Bytes} {resp : RangeResponse} {serializable : Bool}

theorem Seen.extends (h : Seen kv serializable key resp) (he : kv.Extends kv') :
    Seen kv' serializable key resp := by
  obtain ⟨r, hone, hle, hrev, hkvs, hsame⟩ := h
  refine ⟨r, hone, hle, hrev.trans he.1, ?_, hsame⟩
  rw [he.2 r (hle.trans hrev)]
  exact hkvs

theorem range_key (kv : Kv) (key : Bytes) (hrev : rev ≤ kv.rev) :
    kv.range rt (kv.contents, false) { key, revision := rev } =
      .ok (.ok ⟨kv.rev, ((kv.contentsOf rev).find key).toList, false⟩) := by
  have hfound : (((kv.contentsOf rev).within key none).map (·.2)) =
      ((kv.contentsOf rev).find key).toList := by
    rw [Contents.within_none]
    rcases (kv.contentsOf rev).find key with _ | pair <;> rfl
  unfold Kv.range
  rw [if_neg (show ¬ rev > kv.shownRev false from not_lt.2 hrev)]
  change Except.ok (Except.ok (Kv.answer kv.rev 0
    (((kv.readAt (kv.contents, false) rev).within key none).map (·.2)))) = _
  rw [Kv.readAt_contents hrev, hfound]
  rfl

theorem seen_of_range (hw : kv.Wf) (hrev : rev ≤ kv.rev) (hbase : serializable = false → rev = 0) :
    Seen kv serializable key ⟨kv.rev, ((kv.contentsOf rev).find key).toList, false⟩ := by
  by_cases hpos : rev ≤ 0
  · refine ⟨kv.rev, hw.one_le, le_rfl, le_rfl, ?_, fun _ => rfl⟩
    unfold Kv.contentsOf
    rw [if_pos hpos]
    rfl
  · refine ⟨rev, by omega, hrev, le_rfl, ?_, fun hs => absurd (hbase hs) (by omega)⟩
    unfold Kv.contentsOf
    rw [if_neg hpos]

theorem compare_isKeyCurrent (h : kv.compare (isKeyCurrent key resp) = true) {pair : KeyValue}
    (hf : kv.contents.find key = some pair) :
    pair.modRevision ≤ (resp.kvs.head?.map (·.modRevision)).getD resp.revision := by
  have h : compareKV (isKeyCurrent key resp) (kv.contents.find key) = true := h
  rw [hf] at h
  have h : compareHolds (isKeyCurrent key resp) (compareTo pair.modRevision
      ((resp.kvs.head?.map (·.modRevision)).getD resp.revision + 1)) = true := h
  unfold compareTo at h
  by_contra hgt
  split_ifs at h with hlt
  · omega
  · cases h
  · cases h

theorem Seen.current (hw : kv.Wf) (h : Seen kv serializable key resp)
    (hcmp : kv.compare (isKeyCurrent key resp) = true)
    (hthere : resp.kvs ≠ [] → kv.contents.find key ≠ none)
    (habsent : resp.kvs = [] → serializable = true → kv.contents.find key = none) :
    resp.kvs.head? = kv.contents.find key := by
  obtain ⟨r, hone, hle, hrev, hkvs, hsame⟩ := h
  rcases hold : (kv.past r).find key with _ | old
  · rw [hold] at hkvs
    rw [hkvs]
    symm
    rcases hs : serializable with _ | _
    · rcases hf : kv.contents.find key with _ | pair
      · rfl
      have hmod := compare_isKeyCurrent hcmp hf
      rw [hkvs] at hmod
      obtain rfl := hsame hs
      rw [hw.unmodified le_rfl hf hw.one_le hrev hmod] at hold
      cases hold
    · exact habsent hkvs hs
  · rw [hold] at hkvs
    obtain ⟨pair, hf⟩ := ne_none_iff_exists'.1
      (hthere (by rw [hkvs]; exact List.cons_ne_nil _ _))
    have hmod := compare_isKeyCurrent hcmp hf
    rw [hkvs] at hmod
    change pair.modRevision ≤ old.modRevision at hmod
    have hspec := hw.pair_spec hone (hle.trans hrev) hold
    have hpast := hw.unmodified le_rfl hf hw.one_le (hle.trans hrev) (by omega)
    rw [hkvs, hf, ← hpast, hold]
    rfl

end Seen

section Contract

variable {fate : Fate}

structure StmWorld.Wf (w : StmWorld) : Prop where
  kv : w.kv.Wf
  serial : ∀ c ∈ w.commits, Serial c

/-- A step of any client. -/
def Advances (w w' : StmWorld) : Prop := w.Wf → w'.Wf ∧ w.kv.Extends w'.kv

variable {w w' w'' : StmWorld}

theorem Advances.refl (w : StmWorld) : Advances w w := fun h => ⟨h, .refl _⟩

theorem Advances.trans (h : Advances w w') (h' : Advances w' w'') : Advances w w'' := by
  intro hw
  obtain ⟨hw', he⟩ := h hw
  obtain ⟨hw'', he'⟩ := h' hw'
  exact ⟨hw'', he.trans he'⟩

/-- The contract of every client: it advances the service. -/
def advancing : Contract StmWorld where
  rely := Advances
  guar := Advances
  live _ := False
  refl := Advances.refl
  trans := Advances.trans

theorem stmCall_eq {answer x : StmResponse} (h : w.call fate w'' answer = (w', x)) :
    (w' = w'' ∧ x = answer) ∨ ((w' = w'' ∨ w' = w) ∧ x = .err .failed) := by
  rcases fate with _ | _ | _ <;> cases h
  · exact .inl ⟨rfl, rfl⟩
  · exact .inr ⟨.inl rfl, rfl⟩
  · exact .inr ⟨.inr rfl, rfl⟩

theorem exec_getKey {rt : Runtime} {key : Bytes} {rev : ℤ} {x : StmResponse}
    (h : w.get rt fate { key, revision := rev } = some (w', x)) :
    w' = w ∧ ∀ resp, x = .range resp → rev ≤ w.kv.rev ∧
      resp = ⟨w.kv.rev, ((w.kv.contentsOf rev).find key).toList, false⟩ := by
  unfold StmWorld.get at h
  rcases hcheck : V3rpc.checkRangeRequest { key, revision := rev } with e | _ <;>
    simp only [hcheck] at h
  · rcases stmCall_eq (some.inj h) with ⟨rfl, rfl⟩ | ⟨rfl | rfl, rfl⟩
    all_goals exact ⟨rfl, fun resp hresp => (by cases hresp)⟩
  rcases le_or_gt rev w.kv.rev with hrev | hrev
  · simp only [range_key w.kv key hrev] at h
    rcases stmCall_eq (some.inj h) with ⟨rfl, rfl⟩ | ⟨rfl | rfl, rfl⟩
    · exact ⟨rfl, fun resp hresp => ⟨hrev, (StmResponse.range.inj hresp).symm⟩⟩
    all_goals exact ⟨rfl, fun resp hresp => (by cases hresp)⟩
  · have hrange : w.kv.range rt (w.kv.contents, false) { key, revision := rev } =
        .ok (.error .errFutureRev) := if_pos hrev
    simp only [hrange] at h
    rcases stmCall_eq (some.inj h) with ⟨rfl, rfl⟩ | ⟨rfl | rfl, rfl⟩
    all_goals exact ⟨rfl, fun resp hresp => (by cases hresp)⟩

end Contract

section Attempt

variable {rt : Runtime} {w : StmWorld} {s s' : Stm} {key : Bytes}
  {ex : Fate → StmWorld → StmRequest → Option (StmWorld × StmResponse)}
  {α : Type} {Q : StmWorld → α → Prop} {r : Stm × RangeResponse} {kv : Kv}

/-- The operation of a write is one of its key. -/
def Fits (key : Bytes) (wv : StmPut) : Prop :=
  (∃ val lease, wv.op = .requestPut (some ⟨key, val, lease⟩)) ∨
    wv.op = .requestDeleteRange (some { key })

/-- What an STM keeps of the service during an attempt. A key in both sets was put. -/
structure Stm.Inv (kv : Kv) (s : Stm) : Prop where
  rset : ∀ key resp, s.rset.find key = some resp → Seen kv s.serializable key resp
  prefetch : ∀ key resp, s.prefetch.find key = some resp → Seen kv s.serializable key resp
  apart : ∀ key, s.rset.find key ≠ none → s.prefetch.find key ≠ none → s.wset.find key ≠ none
  plain : s.serializable = false → s.prefetch = .empty ∧ s.getRev = none
  fits : ∀ key wv, s.wset.find key = some wv → Fits key wv

theorem Stm.Inv.extends {kv kv' : Kv} (h : s.Inv kv) (he : kv.Extends kv') : s.Inv kv' :=
  ⟨fun key resp hr => (h.rset key resp hr).extends he,
    fun key resp hp => (h.prefetch key resp hp).extends he, h.apart, h.plain, h.fits⟩

/-- More is read, and nothing is put. -/
structure Reads (s s' : Stm) : Prop where
  rset : ∀ key resp, s.rset.find key = some resp → s'.rset.find key = some resp
  wset : s'.wset = s.wset
  serializable : s'.serializable = s.serializable

theorem Reads.refl (s : Stm) : Reads s s := ⟨fun _ _ h => h, rfl, rfl⟩

theorem Reads.trans {s'' : Stm} (h : Reads s s') (h' : Reads s' s'') : Reads s s'' :=
  ⟨fun key resp hr => h'.rset key resp (h.rset key resp hr), h'.wset.trans h.wset,
    h'.serializable.trans h.serializable⟩

/-- A program that returns a value in a service that has advanced, with what holds of the value. -/
def OnOk {α : Type} (Q : StmWorld → α → Prop) (w : StmWorld) (r : Except Err α) : Prop :=
  w.Wf ∧ ∀ a, r = .ok a → Q w a

theorem OnOk.error (hw : w.Wf) (e : Err) : Ensures ex advancing (OnOk Q) w (.done (.error e)) :=
  fun _ ha => ⟨(ha hw).1, fun _ h => (by cases h)⟩

/-- What a read of a key comes to. -/
def Fetched (s : Stm) (key : Bytes) (w : StmWorld) (r : Stm × RangeResponse) : Prop :=
  r.1.Inv w.kv ∧ Reads s r.1 ∧ r.1.rset.find key = some r.2

theorem Fetched.extends {w w' : StmWorld} (h : Fetched s key w r) (he : w.kv.Extends w'.kv) :
    Fetched s key w' r := ⟨h.1.extends he, h.2⟩

theorem Fetched.done (hw : w.Wf) (h : Fetched s key w r) :
    Ensures ex advancing (OnOk (Fetched s key)) w (.done (.ok r)) := by
  intro w' ha
  obtain ⟨hw', he⟩ := ha hw
  refine ⟨hw', fun a ha => ?_⟩
  cases ha
  exact h.extends he

/-- Answers as those of the service, maybe fewer. -/
def StmWithin (rt : Runtime)
    (ex : Fate → StmWorld → StmRequest → Option (StmWorld × StmResponse)) : Prop :=
  ∀ fate w r y, ex fate w r = some y → stmExec rt fate w r = some y

theorem stmAsk_ensures {r : StmRequest}
    {f : StmResponse → StmClient α}
    (h : ∀ w', Advances w w' → ∀ fate w'' x, ex fate w' r = some (w'', x) →
      Advances w' w'' ∧ Ensures ex advancing Q w'' (f x)) :
    Ensures ex advancing Q w (.request r f) :=
  Ensures.ask (fun _ _ hlive => hlive.elim) h

theorem fetch_ensures (hex : StmWithin rt ex) (hw : w.Wf) (hs : s.Inv w.kv)
    (hput : s.rset.find key = none → s.prefetch.find key ≠ none → s.wset.find key ≠ none) :
    Ensures ex advancing (OnOk (Fetched s key)) w (s.fetch key) := by
  unfold Stm.fetch
  rcases hread : s.rset.find key with _ | resp
  · refine stmAsk_ensures fun w₁ h₁ fate w₁' x hx => ?_
    obtain ⟨hw₁, he⟩ := h₁ hw
    obtain ⟨rfl, hresp⟩ := exec_getKey (hex _ _ _ _ hx)
    refine ⟨.refl _, ?_⟩
    rcases x with _ | resp | _ | e
    · exact OnOk.error hw₁ _
    · obtain ⟨hrev, rfl⟩ := hresp _ rfl
      have hs₁ := hs.extends he
      refine Fetched.done hw₁ ⟨⟨fun key' resp' hr => ?_, hs₁.prefetch, fun key' hr hp => ?_,
        hs₁.plain, hs₁.fits⟩, ⟨fun key' resp' hr => ?_, rfl, rfl⟩, find_insert_self _ _ _⟩
      · rw [find_insert] at hr
        split_ifs at hr with hkey
        · subst hkey
          cases hr
          refine seen_of_range hw₁.kv hrev fun hplain => ?_
          have hplain : s.serializable = false := hplain
          rw [(hs.plain hplain).2]
          rfl
        · exact hs₁.rset key' resp' hr
      · rw [find_insert] at hr
        split_ifs at hr with hkey
        · subst hkey
          exact hput hread hp
        · exact hs₁.apart key' hr hp
      · refine (find_insert_ne fun hkey => ?_).trans hr
        rw [← hkey, hread] at hr
        cases hr
    · exact OnOk.error hw₁ _
    · exact OnOk.error hw₁ _
  · exact Fetched.done hw ⟨hs, .refl s, hread⟩

theorem load_spec (hs : s.Inv kv) (hput : s.wset.find key = none) :
    (s.load key).Inv kv ∧ Reads s (s.load key) ∧ (s.load key).prefetch.find key = none := by
  unfold Stm.load
  rcases hpre : s.prefetch.find key with _ | resp
  · exact ⟨hs, .refl s, hpre⟩
  have hunread : s.rset.find key = none := by
    by_contra hread
    exact hs.apart key hread (by rw [hpre]; exact some_ne_none _) hput
  have herase (key' : Bytes) (h : (s.prefetch.erase key).find key' ≠ none) :
      key' ≠ key ∧ (s.prefetch.erase key).find key' = s.prefetch.find key' := by
    rw [find_erase] at h ⊢
    split_ifs at h ⊢ with hkey
    · exact absurd rfl h
    · exact ⟨fun heq => hkey (heq ▸ rfl), rfl⟩
  refine ⟨⟨fun key' resp' hr => ?_, fun key' resp' hp => ?_, fun key' hr hp => ?_,
    fun hplain => ?_, hs.fits⟩, ⟨fun key' resp' hr => ?_, rfl, rfl⟩, ?_⟩
  · rw [find_insert] at hr
    split_ifs at hr with hkey
    · subst hkey
      cases hr
      exact hs.prefetch key resp hpre
    · exact hs.rset key' resp' hr
  · rw [(herase key' (by rw [hp]; exact some_ne_none _)).2] at hp
    exact hs.prefetch key' resp' hp
  · obtain ⟨hne, hsame⟩ := herase key' hp
    rw [find_insert_ne (Ne.symm hne)] at hr
    refine hs.apart key' hr ?_
    rw [← hsame]
    exact hp
  · have hplain : s.serializable = false := hplain
    rw [(hs.plain hplain).1] at hpre
    cases hpre
  · refine (find_insert_ne fun hkey => ?_).trans hr
    rw [← hkey, hunread] at hr
    cases hr
  · by_contra h
    exact (herase key h).1 rfl

theorem Stm.Inv.setBase (hs : s.Inv kv) (hser : s.serializable = true) (firstRead : Bool)
    (resp : RangeResponse) : (s.setBase firstRead resp).Inv kv ∧ Reads s (s.setBase firstRead resp)
      ∧ (s.setBase firstRead resp).rset = s.rset := by
  unfold Stm.setBase
  split_ifs
  · refine ⟨⟨hs.rset, hs.prefetch, hs.apart, fun hplain => ?_, hs.fits⟩,
      ⟨fun _ _ h => h, rfl, rfl⟩, rfl⟩
    rw [hser] at hplain
    cases hplain
  · exact ⟨hs, .refl s, rfl⟩

theorem read_ensures (hex : StmWithin rt ex) (hw : w.Wf) (hs : s.Inv w.kv)
    (hput : s.wset.find key = none) :
    Ensures ex advancing (OnOk (Fetched s key)) w (s.read key) := by
  unfold Stm.read
  split_ifs with hser
  · obtain ⟨hload, hreads, hpre⟩ := load_spec hs hput
    refine (fetch_ensures hex hw hload fun _ h => absurd hpre h).bind fun w₁ r hr => ?_
    rcases r with e | ⟨s', resp⟩
    · exact OnOk.error hr.1 e
    obtain ⟨hinv, hreads', hfind⟩ := hr.2 _ rfl
    obtain ⟨hinv', hreads'', hrset⟩ := hinv.setBase
      ((hreads'.serializable.trans hreads.serializable).trans hser) s.rset.entries.isEmpty resp
    refine Fetched.done hr.1 ⟨hinv', (hreads.trans hreads').trans hreads'', ?_⟩
    rw [hrset]
    exact hfind
  · refine fetch_ensures hex hw hs fun _ hpre => ?_
    rw [(hs.plain (Bool.eq_false_iff.2 hser)).1] at hpre
    exact absurd rfl hpre

/-- A value that is what it is of the contents, if nothing else was seen. -/
def Returns {β : Type} (s : Stm) (value : Contents → β) (w : StmWorld) (r : Stm × β) : Prop :=
  r.1.Inv w.kv ∧ Reads s r.1 ∧ ∀ c, Agrees c r.1 → r.2 = value c

/-- What `Get` comes to. A key that was not put has been read. -/
def Got (s : Stm) (key : Bytes) (w : StmWorld) (r : Stm × Bytes) : Prop :=
  Returns s (fun c => valueAt c s.wset key) w r ∧
    (s.wset.find key = none → r.1.rset.find key ≠ none)

theorem ok_ensures {a : α} (hw : w.Wf) (h : ∀ w', w.kv.Extends w'.kv → Q w' a) :
    Ensures ex advancing (OnOk Q) w (.done (.ok a)) := by
  intro w' ha
  obtain ⟨hw', he⟩ := ha hw
  refine ⟨hw', fun b hb => ?_⟩
  cases hb
  exact h w' he

theorem get_ensures (hex : StmWithin rt ex) (hw : w.Wf) (hs : s.Inv w.kv) :
    Ensures ex advancing (OnOk (Got s key)) w (s.get key) := by
  unfold Stm.get
  rcases hput : s.wset.find key with _ | wv
  · refine (read_ensures hex hw hs hput).bind fun w₁ r hr => ?_
    rcases r with e | ⟨s', resp⟩
    · exact OnOk.error hr.1 e
    obtain ⟨hinv, hreads, hfind⟩ := hr.2 _ rfl
    refine ok_ensures hr.1 fun w₂ he => ⟨⟨hinv.extends he, hreads, fun c hc => ?_⟩, fun _ => ?_⟩
    · unfold respToValue valueAt
      rw [hput, hc key resp hfind]
      rfl
    · rw [hfind]
      exact some_ne_none _
  · refine ok_ensures hw fun w₁ he => ⟨⟨hs.extends he, .refl s, fun c _ => ?_⟩, fun hnone => ?_⟩
    · unfold valueAt
      rw [hput]
      rfl
    · rw [hput] at hnone
      cases hnone

theorem fetchRev_ensures (hex : StmWithin rt ex) (hw : w.Wf) (hs : s.Inv w.kv)
    (hput : s.rset.find key = none → s.prefetch.find key ≠ none → s.wset.find key ≠ none) :
    Ensures ex advancing (OnOk (Returns s fun c => modAt c key)) w (s.fetchRev key) := by
  refine (fetch_ensures hex hw hs hput).bind fun w₁ r hr => ?_
  rcases r with e | ⟨s', resp⟩
  · exact OnOk.error hr.1 e
  obtain ⟨hinv, hreads, hfind⟩ := hr.2 _ rfl
  refine ok_ensures hr.1 fun w₂ he => ⟨hinv.extends he, hreads, fun c hc => ?_⟩
  unfold respToRev modAt
  rw [hc key resp hfind]

theorem rev_ensures (hex : StmWithin rt ex) (hw : w.Wf) (hs : s.Inv w.kv) :
    Ensures ex advancing (OnOk (Returns s fun c => modAt c key)) w (s.rev key) := by
  unfold Stm.rev
  split_ifs with hser
  · refine (get_ensures hex hw hs).bind fun w₁ r hr => ?_
    rcases r with e | ⟨s', v⟩
    · exact OnOk.error hr.1 e
    obtain ⟨⟨hinv, hreads, -⟩, hread⟩ := hr.2 _ rfl
    refine (fetchRev_ensures hex hr.1 hinv fun hunread _ hput => ?_).mono fun w₂ r' hr' =>
      ⟨hr'.1, fun a ha => ?_⟩
    · rw [hreads.wset] at hput
      exact hread hput hunread
    · obtain ⟨hinv', hreads', hrev⟩ := hr'.2 a ha
      exact ⟨hinv', hreads.trans hreads', hrev⟩
  · refine fetchRev_ensures hex hw hs fun _ hpre => ?_
    rw [(hs.plain (Bool.eq_false_iff.2 hser)).1] at hpre
    exact absurd rfl hpre

/-- What an apply function comes to on the STM: as on the contents, if nothing else was seen. -/
def Ran (s : Stm) (p : Apply) (w : StmWorld) (r : Stm × Bool) : Prop :=
  r.1.Inv w.kv ∧ r.1.serializable = s.serializable ∧
    (∀ key resp, s.rset.find key = some resp → r.1.rset.find key = some resp) ∧
    ∀ c, Agrees c r.1 → atomically c p s.wset = (r.2, r.1.wset)

theorem Agrees.of_reads {c : Contents} (h : Agrees c s')
    (hr : ∀ key resp, s.rset.find key = some resp → s'.rset.find key = some resp) : Agrees c s :=
  fun key resp hf => h key resp (hr key resp hf)

theorem Stm.Inv.write (hs : s.Inv kv) {key : Bytes} {wv : StmPut} (hfits : Fits key wv) :
    ({ s with wset := s.wset.insert key wv } : Stm).Inv kv := by
  refine ⟨hs.rset, hs.prefetch, fun key' hr hp => ?_, hs.plain, fun key' wv' hf => ?_⟩
  · rw [find_insert]
    split_ifs
    · exact some_ne_none _
    · exact hs.apart key' hr hp
  · rw [find_insert] at hf
    split_ifs at hf with hkey
    · rw [← hkey, ← some.inj hf]
      exact hfits
    · exact hs.fits key' wv' hf

theorem Returns.ran {β : Type} {value : Contents → β} {w w' : StmWorld} {v : β} {p : Apply}
    {k : β → Apply} {r : Stm × Bool} (h : Returns s value w (s', v)) (hr : Ran s' (k v) w' r)
    (hp : ∀ c, atomically c p s.wset = atomically c (k (value c)) s.wset) : Ran s p w' r := by
  obtain ⟨-, hreads, hvalue⟩ := h
  obtain ⟨hinv, hser, hgrow, hatomic⟩ := hr
  refine ⟨hinv, hser.trans hreads.serializable,
    fun key resp hf => hgrow key resp (hreads.rset key resp hf), fun c hc => ?_⟩
  have hv : v = value c := hvalue c (hc.of_reads hgrow)
  rw [hp, ← hv, ← hreads.wset]
  exact hatomic c hc

theorem interpret_ensures (hex : StmWithin rt ex) : ∀ {p : Apply} {s : Stm} {w : StmWorld},
    w.Wf → s.Inv w.kv → Ensures ex advancing (OnOk (Ran s p)) w (s.interpret p)
  | .done ok, s, w, hw, hs =>
    ok_ensures hw fun w' he => ⟨hs.extends he, rfl, fun _ _ h => h, fun _ _ => rfl⟩
  | .request (.get key) k, s, w, hw, hs => by
    unfold Stm.interpret
    refine (get_ensures hex hw hs).bind fun w₁ r hr => ?_
    rcases r with e | ⟨s', v⟩
    · exact OnOk.error hr.1 e
    have hret := (hr.2 _ rfl).1
    exact (interpret_ensures hex hr.1 hret.1).mono fun w₂ r' hr' => ⟨hr'.1, fun a ha =>
      hret.ran (k := fun v => k (.str v)) (hr'.2 a ha) fun _ => rfl⟩
  | .request (.rev key) k, s, w, hw, hs => by
    unfold Stm.interpret
    refine (rev_ensures hex hw hs).bind fun w₁ r hr => ?_
    rcases r with e | ⟨s', n⟩
    · exact OnOk.error hr.1 e
    have hret := hr.2 _ rfl
    exact (interpret_ensures hex hr.1 hret.1).mono fun w₂ r' hr' => ⟨hr'.1, fun a ha =>
      hret.ran (k := fun n => k (.int n)) (hr'.2 a ha) fun _ => rfl⟩
  | .request (.put key val lease) k, s, w, hw, hs => by
    have hnext : Ensures ex advancing (OnOk (Ran (s.put key val lease) (k .unit))) w
        ((s.put key val lease).interpret (k .unit)) :=
      interpret_ensures hex hw (hs.write (.inl ⟨val, lease, rfl⟩))
    exact hnext.mono fun _ _ hr => hr
  | .request (.del key) k, s, w, hw, hs => by
    have hnext : Ensures ex advancing (OnOk (Ran (s.del key) (k .unit))) w
        ((s.del key).interpret (k .unit)) :=
      interpret_ensures hex hw (hs.write (.inr rfl))
    exact hnext.mono fun _ _ hr => hr

end Attempt

end EtcdCompat.Concurrency
