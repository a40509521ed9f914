import Fnsproxy.Log.Files

/-!
# Runs of `log_write`

* `recordsAt`, `opsAt` : the records and the operations that concern one of the files;
* `opsAt_logWrites` : the files of a log with one file for each level go their own ways;
* `logAppends_spec` : what the stages of a rotation keep holds throughout a run;
* `alwaysLawful_iff` : **the files are always an end of what has been written, and the live file stays within
  the bound, exactly if there are two numbers or more or the records are few**.
-/

namespace Fnsproxy
open Transition

/-- The records that go to a file. -/
def recordsAt (c : LogConf) (index : Nat) (calls : List (Nat × List (BitVec 8))) : List (List (BitVec 8)) :=
  calls.filterMap fun (level, record) => if level ≤ c.level ∧ c.index level = index then some record else none

/-- The operations on a file. -/
def opsAt (index : Nat) (ops : List (Nat × FileOp)) : List FileOp :=
  ops.filterMap fun (i, op) => if i = index then some op else none

/-- The operations of the records of one file. -/
def logAppends (c : LogConf) : LogHistory → List (List (BitVec 8)) → List FileOp
  | _, [] => []
  | h, record :: records =>
    let ops := logAppend c h.toLogFile record
    ops ++ logAppends c (ops.foldl LogHistory.exec h) records

/-! ## One file of many -/

theorem opsAt_cons (index i : Nat) (op : FileOp) (ops : List (Nat × FileOp)) :
    opsAt index ((i, op) :: ops) = if i = index then op :: opsAt index ops else opsAt index ops := by
  by_cases hi : i = index
  · rw [if_pos hi]
    exact List.filterMap_cons_some (if_pos hi)
  · rw [if_neg hi]
    exact List.filterMap_cons_none (if_neg hi)

theorem recordsAt_cons (c : LogConf) (index level : Nat) (record : List (BitVec 8))
    (calls : List (Nat × List (BitVec 8))) : recordsAt c index ((level, record) :: calls) =
      if level ≤ c.level ∧ c.index level = index then record :: recordsAt c index calls else recordsAt c index calls := by
  by_cases hrec : level ≤ c.level ∧ c.index level = index
  · rw [if_pos hrec]
    exact List.filterMap_cons_some (if_pos hrec)
  · rw [if_neg hrec]
    exact List.filterMap_cons_none (if_neg hrec)

theorem foldl_execAt (index : Nat) (ops : List (Nat × FileOp)) (hs : Nat → LogHistory) :
    (ops.foldl execAt hs) index = (opsAt index ops).foldl LogHistory.exec (hs index) := by
  induction ops generalizing hs with
  | nil => rfl
  | cons op ops ih =>
    obtain ⟨i, op⟩ := op
    rw [List.foldl_cons, ih, opsAt_cons, execAt]
    by_cases hi : i = index
    · subst hi
      rw [if_pos rfl, Function.update_self, List.foldl_cons]
    · rw [if_neg hi, Function.update_of_ne (Ne.symm hi)]

theorem opsAt_append (index : Nat) (ops ops' : List (Nat × FileOp)) :
    opsAt index (ops ++ ops') = opsAt index ops ++ opsAt index ops' := List.filterMap_append

theorem opsAt_map (index i : Nat) (ops : List FileOp) :
    opsAt index (ops.map fun op => (i, op)) = if i = index then ops else [] := by
  rw [opsAt, List.filterMap_map]
  split_ifs with hi
  · refine (List.filterMap_congr fun op _ => ?_).trans List.filterMap_some
    exact if_pos hi
  · exact List.filterMap_eq_nil_iff.mpr fun op _ => if_neg hi

theorem opsAt_logWrites (c : LogConf) (index : Nat) (calls : List (Nat × List (BitVec 8))) (hs : Nat → LogHistory) :
    opsAt index (logWrites c hs calls) = logAppends c (hs index) (recordsAt c index calls) := by
  induction calls generalizing hs with
  | nil => rfl
  | cons call calls ih =>
    obtain ⟨level, record⟩ := call
    rw [logWrites, opsAt_append, ih, foldl_execAt, recordsAt_cons]
    have hops : opsAt index (logWrite c (fun i => (hs i).toLogFile) level record) =
        if level ≤ c.level ∧ c.index level = index then logAppend c (hs index).toLogFile record else [] := by
      rw [logWrite]
      by_cases hlevel : level > c.level
      · rw [if_pos hlevel, if_neg (fun h => absurd h.1 (Nat.not_le_of_lt hlevel))]
        rfl
      · rw [if_neg hlevel, opsAt_map]
        by_cases hi : c.index level = index
        · rw [if_pos hi, if_pos ⟨Nat.le_of_not_lt hlevel, hi⟩, hi]
        · rw [if_neg hi, if_neg fun h => hi h.2]
    rw [hops]
    split_ifs with hrec
    · rfl
    · rfl

/-! ## A run -/

variable {c : LogConf} {h : LogHistory}

/-- What holds at the start and is kept at all stages of a rotation holds throughout a run. -/
theorem logAppends_spec {I : Rotation (BitVec 8) → Prop}
    (hI : ∀ v record, I v → ∀ u ∈ v.stages c.number c.size record, I u) (records : List (List (BitVec 8)))
    (hr : AtRest c.number h) (h0 : I (observe c.number h)) :
    Throughout LogHistory.exec (fun h' => I (observe c.number h')) h (logAppends c h records) ∧
      ((logAppends c h records).foldl LogHistory.exec h).written = h.written ++ records := by
  induction records generalizing h with
  | nil => exact ⟨throughout_nil.mpr h0, (List.append_nil _).symm⟩
  | cons record records ih =>
    obtain ⟨hstages, hr', hwritten⟩ := logAppend_spec record hr
    have hone := hstages.mono fun h' hh' => hI _ record h0 _ hh'
    obtain ⟨hrest, hrestw⟩ := ih hr' hone.last
    rw [logAppends, throughout_append, List.foldl_append]
    refine ⟨⟨hone, hrest⟩, ?_⟩
    rw [hrestw, hwritten, List.append_assoc]
    rfl

theorem written_prefix (ops : List FileOp) (h : LogHistory) : h.written <+: (ops.foldl LogHistory.exec h).written := by
  induction ops generalizing h with
  | nil => exact List.prefix_rfl
  | cons op ops ih =>
    refine List.IsPrefix.trans ?_ (ih (h.exec op))
    cases op with
    | write record => exact List.prefix_append _ _
    | rename old new => exact List.prefix_rfl
    | close => exact List.prefix_rfl
    | openAppend => exact List.prefix_rfl

theorem atRest_start (n : Nat) : AtRest n (logStart 0) := by
  refine ⟨⟨rfl, fun ha _ => (by cases ha), fun ha => (by cases ha)⟩, 0, Nat.zero_le n, fun i _ => ?_⟩
  exact iff_of_false (by simp [logStart]) (Nat.not_lt_zero i)

theorem observe_start (n : Nat) : observe n (logStart 0) = ⟨[], none, [], []⟩ := by
  unfold observe
  congr 1
  exact List.filterMap_eq_nil_iff.mpr fun _ _ => rfl

/-- The files of one path keep to the law throughout a run. -/
theorem logAppends_law_iff (c : LogConf) (records : List (List (BitVec 8))) :
    Throughout LogHistory.exec (fun h => (observe c.number h).Law c.size) (logStart 0)
        (logAppends c (logStart 0) records) ↔
      2 ≤ c.number ∨ ¬ Rotation.Overgrown c.size records := by
  have hkept0 : (observe c.number (logStart 0)).Kept c.number := by
    rw [observe_start]
    exact ⟨Nat.zero_le _, List.suffix_rfl, rfl⟩
  obtain ⟨hkept, hwritten⟩ := logAppends_spec (I := Rotation.Kept c.number) (fun v record hv => hv.stages) records
    (atRest_start c.number) hkept0
  rw [show (logStart 0).written = [] from rfl, List.nil_append] at hwritten
  by_cases hn : 2 ≤ c.number
  · refine iff_of_true (fun past hp => ?_) (Or.inl hn)
    have hbound0 : (observe c.number (logStart 0)).Bounded c.number c.size := by
      rw [observe_start]
      exact ⟨Nat.zero_le _, Nat.zero_le _, fun _ => Nat.zero_le _⟩
    have hbound := (logAppends_spec (fun v record hv => Rotation.Bounded.stages hn hv) records (atRest_start c.number)
      hbound0).1
    exact (hkept past hp).law (hbound past hp).two
  · rw [or_iff_right hn]
    have hone : c.number = 1 := by have := c.number_pos; omega
    have halone0 : (observe c.number (logStart 0)).Alone c.size := by
      rw [observe_start]
      exact Or.inl ⟨rfl, rfl, Nat.zero_le _⟩
    have halone := (logAppends_spec (c := c) (fun v record (hv : v.Alone c.size) => by
      rw [hone]
      exact hv.stages) records (atRest_start c.number) halone0).1
    constructor
    · intro hlaw
      have hbound := (Rotation.Alone.bounded_iff halone.last).mp hlaw.last.bounded
      rwa [show (observe c.number _).written = _ from hwritten] at hbound
    · intro hno past hp
      refine (hkept past hp).law ((Rotation.Alone.bounded_iff (halone past hp)).mpr fun hover => hno ?_)
      obtain ⟨rest, hrest⟩ := hp
      have hpre := written_prefix rest (past.foldl LogHistory.exec (logStart 0))
      rw [← List.foldl_append, hrest, hwritten] at hpre
      exact hover.mono hpre

/-- At any time, after any number of the operations of a run, the files of one path keep to the law. -/
def AlwaysLawful (c : LogConf) (calls : List (Nat × List (BitVec 8))) (index : Nat) : Prop :=
  ∀ past, past <+: logWrites c logStart calls →
    (observe c.number ((past.foldl execAt logStart) index)).Law c.size

theorem alwaysLawful_iff_throughout (c : LogConf) (calls : List (Nat × List (BitVec 8))) (index : Nat) :
    AlwaysLawful c calls index ↔ Throughout LogHistory.exec (fun h => (observe c.number h).Law c.size) (logStart 0)
      (logAppends c (logStart 0) (recordsAt c index calls)) := by
  rw [show logStart 0 = logStart index from rfl, ← opsAt_logWrites]
  constructor
  · intro h past hp
    obtain ⟨past', hp', rfl⟩ := List.prefix_filterMap_iff.mp hp
    have hlaw := h past' hp'
    rwa [foldl_execAt] at hlaw
  · intro h past hp
    rw [foldl_execAt]
    exact h _ (hp.filterMap _)

/-- **Log rotation.** At any time the numbered files and the live one are an end of the records written,
only whole files are missing, the oldest ones, and the live file is within the bound, exactly if there are
two numbers or more, or the records but the last two do not fill two files. -/
theorem alwaysLawful_iff (c : LogConf) (calls : List (Nat × List (BitVec 8))) (index : Nat) :
    AlwaysLawful c calls index ↔ 2 ≤ c.number ∨ ¬ Rotation.Overgrown c.size (recordsAt c index calls) := by
  rw [alwaysLawful_iff_throughout, logAppends_law_iff]

/-- A record of 39 bytes. -/
def sampleRecord : List (BitVec 8) := List.replicate 38 0x61 ++ [0x0a]

/-- With one number and no size four records are too many: the last three go to one file. -/
theorem not_alwaysLawful : ¬ AlwaysLawful ⟨4, 0, 1, false, by decide, by decide, by decide, by decide⟩
    (List.replicate 4 (0, sampleRecord)) 0 := by
  rw [alwaysLawful_iff_throughout]
  intro h
  have := h.last.bounded
  revert this
  decide

end Fnsproxy
