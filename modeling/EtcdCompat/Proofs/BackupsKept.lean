import Mathlib.Data.List.Induction
import EtcdCompat.Package.Etcdwrapper

/-!
# Which calls keep the backups

Beside the directory a `Record` has the backups that calls without an error have made and that no
`pruneBackups` has found too old. A call loses one of them exactly if its runner fails in the second
in which a backup of that index was made.
-/

namespace EtcdCompat.Etcdwrapper

variable (format : ℤ → Bytes)

def Call.found (c : Call) (dir : Dir) : List Bytes :=
  if c.reaches format ∧ c.runs ∧ 0 < c.retention ∧ c.listed then
    expired c (dir.insert (c.name format) true)
  else []

structure Record where
  dir : Dir := .empty
  backups : List Bytes := []

namespace Record

def call (s : Record) (c : Call) : Record where
  dir := (createBackupWithinRoots format c s.dir).1
  backups := (if (createBackupWithinRoots format c s.dir).2 then c.name format :: s.backups
    else s.backups).filter fun n => !(c.found format s.dir).contains n

def run (s : Record) (cs : List Call) : Record := cs.foldl (call format) s

/-- Every backup made and not found too old is there. -/
def Kept (s : Record) : Prop := ∀ n ∈ s.backups, s.dir.find n = some true

/-- The call does not fail in the second of a backup. -/
def Clear (s : Record) (c : Call) : Prop :=
  c.reaches format = true → c.runs = false → c.removable (c.name format) = true →
    c.name format ∉ s.backups

variable {format} {s : Record} {c : Call}

theorem find_removeNames {n : Bytes} : ∀ {ns : List Bytes} {dir : Dir}, n ∉ ns →
    (removeNames c ns dir).1.find n = dir.find n
  | [], _, _ => rfl
  | m :: ns, dir, h => by
    obtain ⟨hm, hns⟩ := not_or.1 (mt List.mem_cons.2 h)
    rw [removeNames]
    split_ifs
    · rw [find_removeNames hns, OrdMap.find_erase, if_neg hm]
    · rfl

theorem Kept.ran (h : s.Kept) (hr : c.reaches format = true) (hc : c.runs = true) :
    (s.call format c).Kept := by
  intro n hn
  simp only [call, createBackupWithinRoots, hr, hc, Bool.true_eq_false, if_false, if_true] at hn ⊢
  obtain ⟨hn, hf⟩ := List.mem_filter.1 hn
  have hins : (s.dir.insert (c.name format) true).find n = some true := by
    rw [OrdMap.find_insert]
    split_ifs with hname
    · rfl
    · refine h n ?_
      split_ifs at hn
      · exact (List.mem_cons.1 hn).resolve_left (Ne.symm hname)
      · exact hn
  unfold pruneBackups
  split_ifs with h0 hl
  · exact hins
  · exact hins
  · rw [find_removeNames, hins]
    have hfound : n ∉ c.found format s.dir := by simpa using hf
    rwa [Call.found, if_pos ⟨hr, hc, not_le.1 h0, by simpa using hl⟩] at hfound

theorem call_failed (hr : c.reaches format = true) (hc : c.runs = false) :
    (s.call format c).backups = s.backups ∧ (s.call format c).dir
      = if c.removable (c.name format) then (c.left format s.dir).erase (c.name format)
        else c.left format s.dir := by
  simp [call, createBackupWithinRoots, Call.found, hr, hc]
  by_cases hrem : c.removable (c.name format) = true <;> simp [hrem]

theorem Kept.call_iff (h : s.Kept) (c : Call) : (s.call format c).Kept ↔ s.Clear format c := by
  rcases Bool.eq_false_or_eq_true (c.reaches format) with hr | hr
  · rcases Bool.eq_false_or_eq_true c.runs with hc | hc
    · exact ⟨fun _ _ hc' => absurd (hc.symm.trans hc') (by decide), fun _ => h.ran hr hc⟩
    obtain ⟨hbackups, hdir⟩ := @call_failed format s c hr hc
    have hleft : ∀ n ∈ s.backups, (c.left format s.dir).find n = some true := by
      intro n hn
      unfold Call.left
      split_ifs with hl
      · rw [OrdMap.find_insert, if_neg, h n hn]
        rintro rfl
        rw [h _ hn] at hl
        cases hl.2
      · exact h n hn
    constructor
    · intro hk _ _ hrem hn
      have := hk _ (hbackups.symm ▸ hn)
      rw [hdir, if_pos hrem, OrdMap.find_erase, if_pos rfl] at this
      cases this
    · intro hclear n hn
      rw [hbackups] at hn
      rw [hdir]
      split_ifs with hrem
      · rw [OrdMap.find_erase, if_neg, hleft n hn]
        rintro rfl
        exact hclear hr hc hrem hn
      · exact hleft n hn
  · have hsame : s.call format c = s := by
      simp [call, createBackupWithinRoots, Call.found, hr]
    rw [hsame]
    exact ⟨fun _ hr' => absurd (hr.symm.trans hr') (by decide), fun _ => h⟩

theorem run_append (cs : List Call) (c : Call) :
    s.run format (cs ++ [c]) = (s.run format cs).call format c := by
  simp [run]

end Record

open Record in
theorem backups_kept_iff (format : ℤ → Bytes) (cs : List Call) :
    (∀ pre, pre <+: cs → (run format {} pre).Kept)
      ↔ ∀ pre c, pre ++ [c] <+: cs → (run format {} pre).Clear format c := by
  constructor
  · intro h pre c hpre
    have hk := h _ hpre
    rw [run_append] at hk
    exact ((h pre ((List.prefix_append pre [c]).trans hpre)).call_iff c).1 hk
  · intro h pre hpre
    induction pre using List.reverseRecOn with
    | nil => exact fun n hn => by cases hn
    | append_singleton pre c ih =>
      rw [run_append]
      exact ((ih ((List.prefix_append pre [c]).trans hpre)).call_iff c).2 (h pre c hpre)

/-- A backup in the first second of 1970, and a call in the same second whose runner fails. -/
def sameSecond : List Call :=
  [{ index := 1, retention := 0, now := 1000, runs := true, modTime := fun _ => none },
    { index := 1, retention := 0, now := 2000, runs := false, modTime := fun _ => none }]

def epoch : Bytes := [49, 57, 55, 48, 48, 49, 48, 49, 84, 48, 48, 48, 48, 48, 48, 90]

theorem backup_removed_by_failure : ∃ name,
    name ∈ (Record.run (fun _ => epoch) {} (sameSecond.take 1)).backups
    ∧ name ∈ (Record.run (fun _ => epoch) {} sameSecond).backups
    ∧ (Record.run (fun _ => epoch) {} (sameSecond.take 1)).dir.find name = some true
    ∧ (Record.run (fun _ => epoch) {} sameSecond).dir.find name = none :=
  ⟨backup_ ++ 49 :: 95 :: epoch, by decide, by decide, by decide, by decide⟩

end EtcdCompat.Etcdwrapper
