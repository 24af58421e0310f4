import EtcdCompat.Storage.Backend

/-!
# What a defragmentation leaves readable

The pairs are put into whatever is at the temporary path. Without a file there the backend reads the
same afterwards; with one left over, exactly if each of its buckets and keys is still in the
database.
-/

namespace EtcdCompat.Storage

open OrdMap Option

variable {ok : ℕ → Bool} {limit : ℕ} {name : Bytes}

section Copy

theorem Database.find_alter (db : Database) (name n : Bytes) (f : Bucket → Bucket) :
    (db.alter name f).find n = if n = name then (db.find n).map f else db.find n := by
  rw [Database.alter, find_mapVal]
  split_ifs
  · rfl
  · exact map_id'

theorem Database.find_create (db : Database) (name n : Bytes) :
    (db.createBucketIfNotExists name).find n
      = if n = name then some ((db.find n).getD .empty) else db.find n := by
  unfold Database.createBucketIfNotExists
  by_cases hn : n = name
  · subst hn
    rw [if_pos rfl]
    rcases h : db.find n with _ | b
    · exact find_insert_self ..
    · exact h
  · rw [if_neg hn]
    rcases db.find name with _ | b
    · exact find_insert_ne (Ne.symm hn)
    · rfl

def putAll (name : Bytes) (kvs : List (Bytes × Bytes)) (w : Database) : Database :=
  kvs.foldl (fun w kv => w.put name kv.1 kv.2) w

theorem find_putAll (n : Bytes) : ∀ (kvs : List (Bytes × Bytes)) (w : Database),
    (putAll name kvs w).find n = if n = name
      then (w.find n).map fun b => kvs.foldl (fun b kv => b.insert kv.1 kv.2) b else w.find n
  | [], w => by simp [putAll]
  | kv :: kvs, w => by
    rw [putAll, List.foldl_cons, ← putAll, find_putAll n kvs, Database.put, Database.find_alter]
    split_ifs
    · rw [map_map]
      rfl
    · rfl

theorem copyPairs_tmptx : ∀ (kvs : List (Bytes × Bytes)) (c : Copy) (w : Database),
    c.tmptx = some w → (copyPairs ok limit name kvs c).tmptx = none
      ∨ (copyPairs ok limit name kvs c).tmptx = some (putAll name kvs w)
  | [], c, w, h => .inr h
  | (k, v) :: kvs, c, w, h => by
    simp only [copyPairs, Copy.commit, h]
    split_ifs
    · exact copyPairs_tmptx kvs _ (w.put name k v) rfl
    · exact .inl rfl
    · exact copyPairs_tmptx kvs _ (w.put name k v) rfl

def copyAll (bs : List (Bytes × Bucket)) (w : Database) : Database :=
  bs.foldl (fun w nb => putAll nb.1 nb.2.entries (w.createBucketIfNotExists nb.1)) w

theorem copyBuckets_tmpdb : ∀ (bs : List (Bytes × Bucket)) (c : Copy) (w : Database),
    c.tmptx = some w → (copyBuckets ok limit bs c).2 = true →
    (copyBuckets ok limit bs c).1.tmpdb = copyAll bs w
  | [], c, w, h, hok => by
    simp only [copyBuckets, Copy.commit, h] at hok ⊢
    split_ifs at hok ⊢
    rfl
  | (next, b) :: bs, c, w, h, hok => by
    simp only [copyBuckets, h] at hok ⊢
    rcases @copyPairs_tmptx ok limit next b.entries
      { c with tmptx := some (w.createBucketIfNotExists next) } _ rfl with hc | hc
    · rcases bs with _ | ⟨nb, bs⟩ <;> simp [copyBuckets, Copy.commit, hc] at hok
    · exact copyBuckets_tmpdb bs _ _ hc hok

end Copy

section Overlay

def Bucket.over (b l : Bucket) : Bucket := b.entries.foldl (fun b kv => b.insert kv.1 kv.2) l

theorem Bucket.find_over (b l : Bucket) (k : Bytes) :
    (b.over l).find k = (b.find k).or (l.find k) := by
  have hfold := find_foldl_insert Prod.fst Prod.snd b.entries l
    fun x hx y hy hxy => some.inj (by
      rw [← find_of_mem hx, hxy, find_of_mem hy])
  refine ext fun v => (hfold k v).trans ?_
  rcases hk : b.find k with _ | u
  · refine ⟨?_, fun hv => .inr ⟨fun x hx hxk => ?_, hv⟩⟩
    · rintro (⟨x, hx, rfl, rfl⟩ | ⟨-, hv⟩)
      · rw [find_of_mem hx] at hk
        cases hk
      · exact hv
    · rw [← hxk, find_of_mem hx] at hk
      cases hk
  · refine ⟨?_, fun hv => .inl ⟨(k, u), mem_entries.2 hk, rfl, some.inj hv⟩⟩
    rintro (⟨x, hx, rfl, rfl⟩ | ⟨hno, -⟩)
    · rw [find_of_mem hx] at hk
      rw [hk]
      rfl
    · exact absurd rfl (hno _ (mem_entries.2 hk))

theorem find_copyAll (n : Bytes) : ∀ (bs : List (Bytes × Bucket)) (w : Database),
    (bs.Pairwise fun x y => x.1 < y.1) → (copyAll bs w).find n
      = ((findIn n bs).map fun b => b.over ((w.find n).getD .empty)).or (w.find n)
  | [], w, _ => rfl
  | (m, b) :: bs, w, h => by
    obtain ⟨hm, hbs⟩ := List.pairwise_cons.1 h
    rw [copyAll, List.foldl_cons, ← copyAll, find_copyAll n bs _ hbs, find_putAll,
      Database.find_create]
    by_cases hn : n = m
    · subst hn
      have hnone : findIn n bs = none := by
        rcases hf : findIn n bs with _ | b'
        · rfl
        · exact absurd (hm _ ((findIn_eq_some_iff hbs).1 hf)) (lt_irrefl _)
      rw [hnone, if_pos rfl, if_pos rfl, findIn, if_pos rfl]
      rfl
    · rw [if_neg hn, if_neg hn, findIn, if_neg (Ne.symm hn)]

/-- The buckets and keys of `left` are among those of `db`. -/
def Within (left db : Database) : Prop :=
  ∀ n l, left.find n = some l → ∃ b, db.find n = some b
    ∧ ∀ k, (l.find k).isSome → (b.find k).isSome

theorem copyAll_eq_iff (left db : Database) :
    copyAll db.entries left = db ↔ Within left db := by
  have hfind := fun n => find_copyAll n db.entries left db.sorted
  refine ⟨fun h n l hl => ?_, fun h => ext_find fun n => ?_⟩
  · have hn := hfind n
    rw [h, hl] at hn
    rcases hb : db.find n with _ | b
    · rw [← find, hb] at hn
      cases hn
    · rw [← find, hb] at hn
      refine ⟨b, rfl, fun k hk => ?_⟩
      rw [some.inj hn, getD_some, Bucket.find_over]
      simp [hk]
  · rw [hfind n, ← find]
    rcases hl : left.find n with _ | l
    · rcases db.find n with _ | b
      · rfl
      · refine congrArg some (ext_find fun k => ?_)
        rw [Bucket.find_over]
        exact or_none
    · obtain ⟨b, hb, hkeys⟩ := h n l hl
      rw [hb]
      refine congrArg some (ext_find fun k => ?_)
      rw [Bucket.find_over, getD_some]
      rcases hk : b.find k with _ | v
      · rcases hlk : l.find k with _ | v
        · rfl
        · simpa [hk] using hkeys k (by simp [hlk])
      · rfl

end Overlay

namespace Backend

variable (b : Backend)

theorem commit_stop : (b.commit true).db = b.readable ∧ (b.commit true).tmp = b.tmp := by
  rcases b with ⟨db, tmp, _ | w, pending, batchLimit⟩
  · exact ⟨rfl, rfl⟩
  · rw [commit]
    simp
    exact ⟨rfl, rfl⟩

theorem readable_commit : (b.commit false).readable = b.readable := by
  rcases b with ⟨db, tmp, _ | w, pending, batchLimit⟩
  · rfl
  · rw [commit]
    split_ifs <;> rfl

theorem readable_unlock : b.unlock.readable = b.readable := by
  unfold unlock
  split_ifs
  · exact b.readable_commit
  · rfl

theorem defrag_readable_iff (opened : Bool) (ok : ℕ → Bool)
    (hok : (b.defrag opened ok).2 = true) :
    (b.defrag opened ok).1.readable = b.readable
      ↔ ∀ left, b.tmp = some left → Within left b.readable := by
  unfold defrag at hok ⊢
  simp only [b.commit_stop.1, b.commit_stop.2] at hok ⊢
  split_ifs at hok ⊢ with hopened hdone
  have hcopy := copyBuckets_tmpdb b.readable.entries _ (b.tmp.getD .empty) rfl hdone
  rw [readable_unlock, readable, Option.getD_some, defragdb, hcopy, copyAll_eq_iff]
  rcases b.tmp with _ | left
  · exact ⟨fun _ left h => (by cases h), fun _ n l h => (by cases h)⟩
  · exact ⟨fun h left' hl => Option.some.inj hl ▸ h, fun h => h left rfl⟩

/-- Killed after the last commit of the copy and before the rename, and opened again. -/
def interrupted : Backend where
  db := b.readable
  tmp := some (defragdb (fun _ => true) b.readable .empty defragLimit).1.tmpdb
  tx := some b.readable
  batchLimit := b.batchLimit

/-- A batch with one bucket and one pair in it. -/
def onePair : Backend where
  tx := some ((Database.createBucketIfNotExists .empty [107]).put [107] [1] [2])
  pending := 2
  batchLimit := 10000

theorem defrag_readable_onePair :
    (onePair.defrag true fun _ => true).1.readable = onePair.readable :=
  (defrag_readable_iff onePair true (fun _ => true) (by decide)).2 fun _ h => by cases h

theorem defrag_restores_deleted : ∃ b, onePair.interrupted.unsafeDelete [107] [1] = some b
    ∧ (b.defrag true fun _ => true).2 = true
    ∧ (b.readable.find [107]).bind (·.find [1]) = none
    ∧ ((b.defrag true fun _ => true).1.readable.find [107]).bind (·.find [1]) = some [2] :=
  ⟨_, rfl, by decide, by decide, by decide⟩

section Failed

variable {b b' b₁ : Backend} {w : Database} {x : List (Bytes × Bytes)} {opened : Bool}

theorem tx_commit (h : b.tx = some w) : (b.commit false).tx = some w := by
  simp only [commit, h]
  split_ifs
  · exact h
  · rfl

theorem tx_unlock (h : b.tx = some w) : b.unlock.tx = some w := by
  unfold unlock
  split_ifs
  · exact tx_commit h
  · exact h

theorem call_congr (h : b.tx = some w) (h' : b'.tx = some w) (c : Call) :
    (b.call c = none ∧ b'.call c = none) ∨ ∃ b₁ b₁' w₁ x, b.call c = some (b₁, x)
      ∧ b'.call c = some (b₁', x) ∧ b₁.tx = some w₁ ∧ b₁'.tx = some w₁ := by
  cases c with
  | createBucket name => simp [call, unsafeCreateBucket, write, h, h']
  | put name key value =>
    rcases hw : w.find name <;> simp [call, unsafePut, withBucket, write, h, h', hw]
  | delete name key =>
    rcases hw : w.find name <;> simp [call, unsafeDelete, withBucket, write, h, h', hw]
  | range name key endKey limit =>
    rcases hw : w.find name <;> by_cases hend : endKey = [] <;>
      simp [call, unsafeRange, h, h', hw, hend]
  | commit => simp [call, tx_unlock (tx_commit h), tx_unlock (tx_commit h')]
  | unlock => simp [call, tx_unlock h, tx_unlock h']

def shown (r : Option (Backend × List (List (Bytes × Bytes)))) :
    Option (Database × List (List (Bytes × Bytes))) := r.map fun r => (r.1.readable, r.2)

theorem shown_cons {c : Call} {cs : List Call} (hc : b.call c = some (b₁, x)) :
    shown (b.run (c :: cs)) = (shown (b₁.run cs)).map fun r => (r.1, x :: r.2) := by
  simp [run, hc, bind, shown]
  rcases b₁.run cs <;> rfl

theorem run_congr : ∀ (cs : List Call) {b b' : Backend} {w : Database}, b.tx = some w →
    b'.tx = some w → shown (b'.run cs) = shown (b.run cs)
  | [], _, _, _, h, h' => by simp [run, shown, readable, h, h']
  | c :: cs, _, _, _, h, h' => by
    rcases call_congr h h' c with ⟨hc, hc'⟩ | ⟨b₁, b₁', w₁, x, hc, hc', h₁, h₁'⟩
    · simp [run, hc, hc']
    · rw [shown_cons hc, shown_cons hc', run_congr cs h₁ h₁']

/-- The calls begin a transaction before they use one. -/
def Commits : List Call → Prop
  | [] => True
  | .commit :: _ => True
  | .unlock :: cs => Commits cs
  | _ :: _ => False

/-- Between two calls: without a transaction no writes are pending and the limit is not reached. -/
def Between (b : Backend) : Prop := b.tx = none → b.pending = 0 ∧ 0 < b.batchLimit

theorem Between.unlock (h : b.Between) : b.unlock.Between := by
  rcases htx : b.tx with _ | w
  · obtain ⟨h0, h1⟩ := h htx
    simpa [Backend.unlock, h0, not_le.2 h1] using h
  · exact fun hnone => by simp [tx_unlock htx] at hnone

/-- Without a transaction the calls go on as with one exactly if they begin with a commit. -/
theorem run_none_iff : ∀ (cs : List Call) {b b' : Backend}, b.Between → b'.Between →
    b'.tx = none → b'.db = b.readable → b.run cs ≠ none →
    (shown (b'.run cs) = shown (b.run cs) ↔ Commits cs)
  | [], b, b', _, _, h', hdb, _ => by simp [run, shown, readable, h', hdb, Commits]
  | c :: cs, b, b', hb, hb', h', hdb, hrun => by
    cases c with
    | commit =>
      have htx : (b.commit false).tx = some b.readable := by
        rcases htx : b.tx with _ | w
        · simp [commit, begin, readable, htx]
        · simpa [readable, htx] using tx_commit htx
      have htx' : (b'.commit false).tx = some b.readable := by simp [commit, begin, h', hdb]
      rw [shown_cons rfl, shown_cons rfl, run_congr cs (tx_unlock htx) (tx_unlock htx')]
      exact iff_of_true rfl trivial
    | unlock =>
      have hstay : b'.unlock = b' := by simp [unlock, hb' h', not_le.2 (hb' h').2]
      have hcs : b.unlock.run cs ≠ none := fun hnone => hrun (by simp [run, call, hnone])
      have ih := run_none_iff cs hb.unlock hb' h' (hdb.trans b.readable_unlock.symm) hcs
      rw [shown_cons rfl, shown_cons rfl, hstay, Commits, ← ih]
      exact (map_injective fun r s h => by simpa [Prod.ext_iff] using h).eq_iff
    | _ =>
      refine iff_of_false (fun h => hrun (map_eq_none_iff.1 (h.symm.trans ?_))) id
      simp [run, call, unsafeCreateBucket, unsafePut, unsafeDelete, unsafeRange, withBucket, write,
        h', shown]

/-- A `Defrag` that fails leaves the database committed and no transaction. -/
theorem failed_defrag (hb : b.Between) {ok : ℕ → Bool} (hfail : (b.defrag opened ok).2 = false) :
    ∃ d : Backend, (b.defrag opened ok).1 = d.unlock ∧ d.tx = none ∧ d.pending = 0 ∧
      d.batchLimit = b.batchLimit ∧ d.db = b.readable := by
  have hstop : (b.commit true).pending = 0 ∧ (b.commit true).batchLimit = b.batchLimit := by
    rcases htx : b.tx with _ | w
    · simp [commit, begin, htx, hb htx]
    · simp [commit, begin, htx]
  unfold defrag at hfail ⊢
  simp only [] at hfail ⊢
  split_ifs at hfail ⊢
  · exact ⟨_, rfl, rfl, hstop.1, hstop.2, b.commit_stop.1⟩
  · exact ⟨_, rfl, rfl, hstop.1, hstop.2, b.commit_stop.1⟩

theorem failed_defrag_usable_iff (hb : b.Between) {ok : ℕ → Bool}
    (hfail : (b.defrag opened ok).2 = false) {cs : List Call} (hrun : b.run cs ≠ none) :
    (b.defrag opened ok).1.readable = b.readable ∧
      (shown ((b.defrag opened ok).1.run cs) = shown (b.run cs) ↔
        b.batchLimit ≤ 0 ∨ Commits cs) := by
  obtain ⟨d, hd, htx, hp, hl, hdb⟩ := failed_defrag hb hfail
  rw [hd, readable_unlock]
  refine ⟨by simp [readable, htx, hdb], ?_⟩
  by_cases hlimit : b.batchLimit ≤ 0
  · obtain ⟨w, hw⟩ : ∃ w, b.tx = some w := Option.ne_none_iff_exists'.1 fun hnone =>
      absurd (hb hnone).2 (not_lt.2 hlimit)
    have hd : d.unlock.tx = some w := by
      simp [unlock, hp, hl, hlimit, commit, begin, htx, hdb, readable, hw]
    exact iff_of_true (run_congr cs hw hd) (.inl hlimit)
  · have hstay : d.unlock = d := by simp [unlock, hp, hl, hlimit]
    rw [hstay, run_none_iff cs hb (fun _ => ⟨hp, hl ▸ not_le.1 hlimit⟩) htx hdb hrun,
      or_iff_right hlimit]

/-- Once a commit has begun a transaction the pair is read. -/
theorem failed_defrag_usable_onePair :
    shown ((onePair.defrag false fun _ => true).1.run [.commit, .range [107] [1] [] 0]) =
      shown (onePair.run [.commit, .range [107] [1] [] 0]) :=
  (failed_defrag_usable_iff (fun h => by cases h) rfl (by decide)).2.2 (.inr trivial)

theorem failed_defrag_unusable : (onePair.defrag false fun _ => true).2 = false ∧
    (∃ b, onePair.run [.range [107] [1] [] 0] = some (b, [[([1], [2])]])) ∧
    (onePair.defrag false fun _ => true).1.run [.range [107] [1] [] 0] = none :=
  ⟨rfl, ⟨_, rfl⟩, rfl⟩

end Failed

end Backend

end EtcdCompat.Storage
