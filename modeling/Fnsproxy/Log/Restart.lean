import Fnsproxy.Log.Runs

/-!
# A log across restarts

* `logClose`, `logCalls` : `log_close` before the next `log_init` with the same arguments, between calls of `log_write`;
* `Rotation.LawAcross` : the law of a rotating log whose live file is not looked at when it is opened again;
* `BoundedBy` : how many records too many there may be after so many restarts;
* `Resting` : a log file between two calls, with its descriptor or without;
* `log_restarts` : **no order of records and restarts loses, doubles or disorders a record**.
-/

namespace Fnsproxy
open Transition

/-- `log_write`, or `log_close` and then `log_init` with the arguments of before. -/
inductive LogCall where
  | write (level : Nat) (record : List (BitVec 8))
  | restart

/-- `log_close`; the descriptors are -1 then, as `log_init` sets them too. -/
def logClose (c : LogConf) (files : Nat → LogFile) : List (Nat × FileOp) :=
  if c.multi then (List.range 5).filterMap fun i => (files i).fd.map fun _ => (i, .close) else [(0, .close)]

def logCall (c : LogConf) (hs : Nat → LogHistory) : LogCall → List (Nat × FileOp)
  | .write level record => logWrite c (fun index => (hs index).toLogFile) level record
  | .restart => logClose c fun index => (hs index).toLogFile

/-- The operations of calls, one after the other. -/
def logCalls (c : LogConf) : (Nat → LogHistory) → List LogCall → List (Nat × FileOp)
  | _, [] => []
  | hs, call :: calls => logCall c hs call ++ logCalls c ((logCall c hs call).foldl execAt hs) calls

/-- The records of calls, with their levels. -/
def LogCall.record? : LogCall → Option (Nat × List (BitVec 8))
  | .write level record => some (level, record)
  | .restart => none

def restarts (calls : List LogCall) : Nat := calls.countP fun call => call.record?.isNone

namespace Rotation
variable {α : Type*} {n size j k : Nat} {v : Rotation α} {record : List α}

/-- The law of the log, with one record more in the live file for each restart. -/
structure LawAcross (n size k : Nat) (v : Rotation α) : Prop where
  suffix : v.numbered.flatten ++ v.tail <:+ v.written.flatten
  whole : v.numbered <:+ v.rotated
  complete : v.rotated.flatten ++ v.tail = v.written.flatten
  bounded : 2 ≤ n → v.tail.length ≤ size + (v.written.rtake (k + 2)).flatten.length

/-- `Bounded`, with `k` records more. -/
structure BoundedBy (k n size : Nat) (v : Rotation α) : Prop where
  few : v.numbered.length ≤ n
  two : v.tail.length ≤ size + (v.written.rtake (k + 2)).flatten.length
  one : v.numbered.length = n → v.tail.length ≤ size + (v.written.rtake (k + 1)).flatten.length

theorem rtake_length_mono (ws : List (List α)) (h : j ≤ k) :
    (ws.rtake j).flatten.length ≤ (ws.rtake k).flatten.length := by
  have hj := length_rdrop_add ws j
  have hk := length_rdrop_add ws k
  have hle := flatten_length_le (prefix_rdrop (j := j) (k := k) (List.prefix_refl ws) (List.prefix_refl ws) (by omega))
  omega

theorem BoundedBy.mono (h : BoundedBy j n size v) (hjk : j ≤ k) : BoundedBy k n size v where
  few := h.few
  two := h.two.trans (Nat.add_le_add_left (rtake_length_mono _ (Nat.add_le_add_right hjk 2)) size)
  one := fun hn => (h.one hn).trans (Nat.add_le_add_left (rtake_length_mono _ (Nat.add_le_add_right hjk 1)) size)

theorem BoundedBy.append (h : BoundedBy k n size v) (htail : v.tail.length ≤ size) :
    BoundedBy k n size (v.append record) := by
  have hlen : (v.append record).tail.length = v.tail.length + record.length := by rw [tail_append, List.length_append]
  refine ⟨h.few, ?_, fun _ => ?_⟩
  · rw [hlen, Rotation.append, length_rtake_succ]
    omega
  · rw [hlen, Rotation.append, length_rtake_succ]
    omega

/-- A record for a live file that has been opened again, whatever its length. -/
theorem BoundedBy.reopened (h : BoundedBy k n size v) : BoundedBy (k + 1) n size (v.append record) := by
  have hlen : (v.append record).tail.length = v.tail.length + record.length := by rw [tail_append, List.length_append]
  have htwo := h.two
  refine ⟨h.few, ?_, fun hn => ?_⟩
  · rw [hlen, Rotation.append, length_rtake_succ]
    omega
  · have hone := h.one hn
    rw [hlen, Rotation.append, length_rtake_succ]
    omega

theorem BoundedBy.stages (hn : 2 ≤ n) (h : BoundedBy k n size v) :
    ∀ u ∈ v.stages n size record, BoundedBy k n size u := by
  refine stages_rule (BoundedBy k n size) h (fun _ hu => ⟨hu.few, hu.two, hu.one⟩) (fun _ hu htail => hu.append htail)
    (fun hfew _ => ⟨?_, Nat.zero_le _, fun _ => Nat.zero_le _⟩) fun hfull _ => ?_
  · show (v.numbered ++ [v.tail]).length ≤ n
    rw [List.length_append]
    exact hfew
  · have hlast : v.numbered.length = n := le_antisymm h.few (Nat.le_of_not_lt hfull)
    have hdrop : (v.dropOldest n).numbered.length < n := by
      simp only [Rotation.dropOldest, if_pos (show 1 < n from hn), List.length_drop]
      omega
    refine ⟨⟨hdrop.le, h.two, fun he => absurd he hdrop.ne⟩, ⟨hdrop.le, ?_, fun he => absurd he hdrop.ne⟩⟩
    have hone := h.one hlast
    rw [tail_append, tail_dropOldest, List.length_append, Rotation.append, length_rtake_succ]
    show v.tail.length + record.length ≤ size + ((v.written.rtake (k + 1)).flatten.length + record.length)
    omega

/-- What holds at all times after `k` restarts. -/
structure KeptAcross (k n size : Nat) (v : Rotation α) : Prop where
  kept : v.Kept n
  bounded : 2 ≤ n → BoundedBy k n size v

theorem KeptAcross.mono (h : KeptAcross j n size v) (hjk : j ≤ k) : KeptAcross k n size v :=
  ⟨h.kept, fun hn => (h.bounded hn).mono hjk⟩

theorem KeptAcross.stages (h : KeptAcross k n size v) : ∀ u ∈ v.stages n size record, KeptAcross k n size u :=
  fun u hu => ⟨h.kept.stages u hu, fun hn => (h.bounded hn).stages hn u hu⟩

theorem KeptAcross.reopened (h : KeptAcross k n size v) : KeptAcross (k + 1) n size (v.append record) :=
  ⟨h.kept.append record, fun hn => (h.bounded hn).reopened⟩

theorem KeptAcross.law (h : KeptAcross k n size v) : LawAcross n size k v where
  suffix := by
    obtain ⟨lost, hlost⟩ := h.kept.whole
    refine ⟨lost.flatten, ?_⟩
    rw [← h.kept.complete, ← hlost, List.flatten_append, List.append_assoc]
  whole := h.kept.whole
  complete := h.kept.complete
  bounded := fun hn => (h.bounded hn).two

end Rotation

/-! ## One file -/

/-- A log file whose descriptor has been given up. -/
structure Unlinked (n : Nat) (h : LogHistory) : Prop where
  fd : h.fd = none
  inj : ∀ {a b i}, h.inode a = some i → h.inode b = some i → a = b
  below : ∀ {a i}, h.inode a = some i → i < h.fresh
  packed : Packed n h.toLogFile

/-- A log file between two calls: with the restarts so far its law holds, and if it is still to be opened again one
restart is not used up yet. -/
def Resting (c : LogConf) (k : Nat) (h : LogHistory) : Prop :=
  (AtRest c.number h ∧ (observe c.number h).KeptAcross k c.number c.size) ∨
    (Unlinked c.number h ∧ ∃ j < k, (observe c.number h).KeptAcross j c.number c.size)

section File
variable {c : LogConf} {h : LogHistory} {j k n : Nat} {ops : List FileOp}

theorem Resting.kept (hr : Resting c k h) : (observe c.number h).KeptAcross k c.number c.size := by
  rcases hr with ⟨-, hk⟩ | ⟨-, j, hj, hk⟩
  · exact hk
  · exact hk.mono hj.le

theorem Resting.mono (hr : Resting c j h) (hjk : j ≤ k) : Resting c k h := by
  rcases hr with ⟨hr, hk⟩ | ⟨hu, i, hi, hk⟩
  · exact Or.inl ⟨hr, hk.mono hjk⟩
  · exact Or.inr ⟨hu, i, hi.trans_le hjk, hk⟩

theorem Unlinked.open_again {p : Nat} (hu : Unlinked n h) (hp : h.inode .path = some p) :
    AtRest n (h.exec .openAppend) ∧ observe n (h.exec .openAppend) = observe n h ∧
      ((h.exec .openAppend).inode .path).isSome := by
  have hexec : (h.exec .openAppend).toLogFile = { h.toLogFile with fd := some p } := by
    show h.toLogFile.exec .openAppend = _
    rw [LogFile.exec, hp]
  have hinode : (h.exec .openAppend).inode = h.inode := by rw [hexec]
  refine ⟨⟨⟨?_, fun ha hb => ?_, fun ha => ?_⟩, hu.packed.congr fun i _ => by rw [hinode]⟩, ?_, ?_⟩
  · rw [hinode, hp, hexec]
  · exact hu.inj (hinode ▸ ha) (hinode ▸ hb)
  · rw [hexec]
    exact hu.below (hinode ▸ ha)
  · show (⟨(h.exec .openAppend).toLogFile.numbered n, (h.exec .openAppend).toLogFile.content .path, h.rotated,
      h.written⟩ : Rotation (BitVec 8)) = _
    rw [hexec]
    rfl
  · rw [hinode, hp]
    rfl

/-- **A record** keeps the law, at all times, and leaves the file between two calls. -/
theorem Resting.append (hr : Resting c k h) (record : List (BitVec 8)) :
    Throughout LogHistory.exec (fun h' => (observe c.number h').KeptAcross k c.number c.size) h
        (logAppend c h.toLogFile record) ∧
      Resting c k ((logAppend c h.toLogFile record).foldl LogHistory.exec h) ∧
      ((logAppend c h.toLogFile record).foldl LogHistory.exec h).written = h.written ++ [record] := by
  have hrest : AtRest c.number h → (observe c.number h).KeptAcross k c.number c.size →
      Throughout LogHistory.exec (fun h' => (observe c.number h').KeptAcross k c.number c.size) h
          (logAppend c h.toLogFile record) ∧
        Resting c k ((logAppend c h.toLogFile record).foldl LogHistory.exec h) ∧
        ((logAppend c h.toLogFile record).foldl LogHistory.exec h).written = h.written ++ [record] := by
    intro hr hk
    obtain ⟨hstages, hr', hwritten⟩ := logAppend_spec record hr
    have hall := hstages.mono fun h' (hh' : _ ∈ (observe c.number h).stages _ _ record) => hk.stages _ hh'
    exact ⟨hall, Or.inl ⟨hr', hall.last⟩, hwritten⟩
  rcases hr with ⟨hr, hk⟩ | ⟨hu, j, hj, hk⟩
  · exact hrest hr hk
  · cases hp : h.inode .path with
    | none => exact hrest ⟨⟨hu.fd.trans hp.symm, hu.inj, hu.below⟩, hu.packed⟩ (hk.mono hj.le)
    | some p =>
      obtain ⟨hr', hsame, hopen⟩ := hu.open_again hp
      have hops : logAppend c h.toLogFile record = [.openAppend, .write record] := by rw [logAppend, hu.fd]
      have hwrite := observe_write (n := c.number) hr'.links hopen record
      rw [hsame] at hwrite
      have hk' : (observe c.number ((h.exec .openAppend).exec (.write record))).KeptAcross k c.number c.size := by
        rw [hwrite]
        exact hk.reopened.mono hj
      rw [hops, throughout_cons, throughout_cons, throughout_nil, hsame]
      exact ⟨⟨hk.mono hj.le, hk.mono hj.le, hk'⟩, Or.inl ⟨hr'.write, hk'⟩, rfl⟩

theorem unlinked_close (hinj : ∀ {a b i}, h.inode a = some i → h.inode b = some i → a = b)
    (hbelow : ∀ {a i}, h.inode a = some i → i < h.fresh) (hpacked : Packed n h.toLogFile) :
    Unlinked n (h.exec .close) :=
  ⟨rfl, hinj, hbelow, hpacked⟩

theorem Unlinked.closes (hops : ∀ op ∈ ops, op = .close) (hu : Unlinked n h) :
    Throughout LogHistory.exec (fun h' => observe n h' = observe n h) h ops ∧
      Unlinked n (ops.foldl LogHistory.exec h) ∧ (ops.foldl LogHistory.exec h).written = h.written := by
  induction ops generalizing h with
  | nil => exact ⟨throughout_nil.mpr rfl, hu, rfl⟩
  | cons op ops ih =>
    obtain rfl := hops op List.mem_cons_self
    obtain ⟨hall, hu', hwritten⟩ := ih (h := h.exec .close) (fun op hop => hops op (List.mem_cons_of_mem _ hop))
      (unlinked_close hu.inj hu.below hu.packed)
    exact ⟨throughout_cons.mpr ⟨rfl, hall⟩, hu', hwritten⟩

/-- **A restart** gives the descriptor up, if there is one. -/
theorem Resting.restart (hr : Resting c k h) (hops : ∀ op ∈ ops, op = .close) :
    Throughout LogHistory.exec (fun h' => (observe c.number h').KeptAcross (k + 1) c.number c.size) h ops ∧
      Resting c (k + 1) (ops.foldl LogHistory.exec h) ∧ (ops.foldl LogHistory.exec h).written = h.written := by
  have hk := hr.kept
  cases ops with
  | nil => exact ⟨throughout_nil.mpr (hk.mono (Nat.le_succ k)), hr.mono (Nat.le_succ k), rfl⟩
  | cons op ops =>
    obtain rfl := hops op List.mem_cons_self
    have hu : Unlinked c.number (h.exec .close) := by
      rcases hr with ⟨hr, -⟩ | ⟨hu, -⟩
      · exact unlinked_close hr.links.inj hr.links.below hr.packed
      · exact unlinked_close hu.inj hu.below hu.packed
    obtain ⟨hall, hu', hwritten⟩ := hu.closes (fun op hop => hops op (List.mem_cons_of_mem _ hop))
    have hlast : (observe c.number (ops.foldl LogHistory.exec (h.exec .close))).KeptAcross k c.number c.size := by
      rw [hall.last]
      exact hk
    refine ⟨throughout_cons.mpr ⟨hk.mono (Nat.le_succ k), hall.mono fun h' hh' => ?_⟩,
      Or.inr ⟨hu', k, Nat.lt_succ_self k, hlast⟩, hwritten⟩
    rw [hh']
    exact hk.mono (Nat.le_succ k)

end File

/-! ## Runs -/

theorem opsAt_logClose (c : LogConf) (index : Nat) (files : Nat → LogFile) :
    ∀ op ∈ opsAt index (logClose c files), op = .close := by
  intro op hop
  obtain ⟨⟨i, op'⟩, hmem, hop⟩ := List.mem_filterMap.mp hop
  have hclose : op' = .close := by
    unfold logClose at hmem
    split_ifs at hmem
    · obtain ⟨k, -, hk⟩ := List.mem_filterMap.mp hmem
      obtain ⟨fd, -, heq⟩ := Option.map_eq_some_iff.mp hk
      exact (Prod.mk.inj heq).2.symm
    · exact (Prod.mk.inj (List.mem_singleton.mp hmem)).2
  dsimp only at hop
  split_ifs at hop
  exact (Option.some.inj hop).symm.trans hclose

/-- Calls keep the law of each file, at all times, and write its records. -/
theorem logCalls_spec (c : LogConf) (index : Nat) (calls : List LogCall) (hs : Nat → LogHistory) {k : Nat}
    (hr : Resting c k (hs index)) :
    Throughout LogHistory.exec (fun h => (observe c.number h).KeptAcross (k + restarts calls) c.number c.size) (hs index)
        (opsAt index (logCalls c hs calls)) ∧
      ((opsAt index (logCalls c hs calls)).foldl LogHistory.exec (hs index)).written =
        (hs index).written ++ recordsAt c index (calls.filterMap LogCall.record?) := by
  induction calls generalizing hs k with
  | nil => exact ⟨throughout_nil.mpr hr.kept, (List.append_nil _).symm⟩
  | cons call calls ih =>
    rw [logCalls, opsAt_append, throughout_append, List.foldl_append]
    cases call with
    | write level record =>
      have hcount : restarts (.write level record :: calls) = restarts calls :=
        List.countP_cons_of_neg (p := fun call : LogCall => call.record?.isNone) (by simp [LogCall.record?])
      have hrecords : (LogCall.write level record :: calls).filterMap LogCall.record? =
          (level, record) :: calls.filterMap LogCall.record? := List.filterMap_cons_some rfl
      rw [hcount, hrecords, recordsAt_cons]
      by_cases hrec : level ≤ c.level ∧ c.index level = index
      · have hops : opsAt index (logCall c hs (.write level record)) = logAppend c (hs index).toLogFile record := by
          rw [logCall, logWrite, if_neg (Nat.not_lt_of_le hrec.1), opsAt_map, if_pos hrec.2, hrec.2]
        obtain ⟨hall, hr', hwritten⟩ := hr.append record
        rw [← hops, ← foldl_execAt] at hr' hwritten
        obtain ⟨hrest, hrestw⟩ := ih _ hr'
        rw [foldl_execAt] at hrest hrestw hwritten
        rw [if_pos hrec, hops]
        rw [hops] at hrest hrestw hwritten
        refine ⟨⟨hall.mono fun h hh => hh.mono (Nat.le_add_right k _), hrest⟩, ?_⟩
        rw [hrestw, hwritten, List.append_assoc]
        rfl
      · have hops : opsAt index (logCall c hs (.write level record)) = [] := by
          rw [logCall, logWrite]
          split_ifs with hlevel
          · rfl
          · rw [opsAt_map, if_neg fun hi => hrec ⟨Nat.le_of_not_lt hlevel, hi⟩]
        have hsame : (logCall c hs (.write level record)).foldl execAt hs index = hs index := by
          rw [foldl_execAt, hops]
          rfl
        obtain ⟨hrest, hrestw⟩ := ih _ (hsame.symm ▸ hr)
        rw [hsame] at hrest hrestw
        rw [if_neg hrec, hops]
        exact ⟨⟨throughout_nil.mpr (hr.kept.mono (Nat.le_add_right k _)), hrest⟩, hrestw⟩
    | restart =>
      have hcount : restarts (.restart :: calls) = restarts calls + 1 := List.countP_cons_of_pos rfl
      have hrecords : (LogCall.restart :: calls).filterMap LogCall.record? = calls.filterMap LogCall.record? :=
        List.filterMap_cons_none rfl
      obtain ⟨hall, hr', hwritten⟩ := hr.restart (opsAt_logClose c index fun index => (hs index).toLogFile)
      rw [← foldl_execAt] at hr' hwritten
      obtain ⟨hrest, hrestw⟩ := ih _ hr'
      rw [hwritten] at hrestw
      rw [foldl_execAt] at hrest hrestw
      rw [hcount, hrecords]
      rw [show k + 1 + restarts calls = k + (restarts calls + 1) by omega] at hrest
      exact ⟨⟨hall.mono fun h hh => hh.mono (by omega), hrest⟩, hrestw⟩

/-- **A log across restarts.** At any time, whatever records have been written and however often the log has been
closed and opened again between them, the numbered files and the live one are an end of all that has been written in
its order, and only whole files are missing, the oldest ones; in the end all records have been written. With two numbers
or more the live file is too long by no more than the last two records and one for each restart. -/
theorem log_restarts (c : LogConf) (calls : List LogCall) (index : Nat) :
    (∀ past, past <+: logCalls c logStart calls →
      (observe c.number ((past.foldl execAt logStart) index)).LawAcross c.number c.size (restarts calls)) ∧
    (((logCalls c logStart calls).foldl execAt logStart) index).written =
      recordsAt c index (calls.filterMap LogCall.record?) := by
  have hkept : (observe c.number (logStart 0)).KeptAcross 0 c.number c.size := by
    rw [observe_start]
    exact ⟨⟨Nat.zero_le _, List.suffix_rfl, rfl⟩, fun _ => ⟨Nat.zero_le _, Nat.zero_le _, fun _ => Nat.zero_le _⟩⟩
  obtain ⟨hall, hwritten⟩ := logCalls_spec c index calls logStart (k := 0) (Or.inl ⟨atRest_start c.number, hkept⟩)
  rw [← foldl_execAt] at hwritten
  refine ⟨fun past hp => ?_, hwritten⟩
  rw [foldl_execAt]
  rw [Nat.zero_add] at hall
  exact (hall _ (hp.filterMap _)).law

end Fnsproxy
