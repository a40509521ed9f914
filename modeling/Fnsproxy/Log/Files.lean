import Fnsproxy.Log.Defs
import Fnsproxy.Log.Rotation
import Fnsproxy.Lib.Run

/-!
# The files of a log rotate

* `observe` : the rotation that the files of a log and their history show;
* `Links`, `Packed` : descriptor, names and inodes; the numbers in use, the first ones;
* `observe_openAppend`, `observe_write`, `observe_shelve`, `shift_spec` : what the operations do to it;
* `logAppend_spec` : **`log_write` goes through the stages of a rotation**.
-/

namespace Fnsproxy
open Transition

/-- The rotation that the files of a log with `n` numbers show. -/
def observe (n : Nat) (h : LogHistory) : Rotation (BitVec 8) :=
  ⟨h.numbered n, h.content .path, h.rotated, h.written⟩

/-! ## Numbered slots -/

section Slots
variable {β : Type*} {g : Nat → Option β} {m n i : Nat}

theorem filterMap_range_of_none (hmn : m ≤ n) (h : ∀ i, m ≤ i → i < n → g i = none) :
    (List.range n).filterMap g = (List.range m).filterMap g := by
  induction n, hmn using Nat.le_induction with
  | base => rfl
  | succ n hmn ih =>
    rw [List.range_succ, List.filterMap_append, ih fun i h1 h2 => h i h1 (Nat.lt_succ_of_lt h2),
      List.filterMap_cons_none (h n hmn (Nat.lt_succ_self n)), List.filterMap_nil, List.append_nil]

theorem filterMap_range_congr {g' : Nat → Option β} (h : ∀ i < n, g' i = g i) :
    (List.range n).filterMap g' = (List.range n).filterMap g :=
  List.filterMap_congr fun i hi => h i (List.mem_range.mp hi)

theorem length_filterMap_range (h : ∀ i < n, (g i).isSome) : ((List.range n).filterMap g).length = n := by
  induction n with
  | zero => rfl
  | succ n ih =>
    obtain ⟨x, hx⟩ := Option.isSome_iff_exists.mp (h n (Nat.lt_succ_self n))
    rw [List.range_succ, List.filterMap_append, List.length_append, ih fun i hi => h i (Nat.lt_succ_of_lt hi),
      List.filterMap_cons_some hx]
    rfl

theorem filterMap_range_fill {x : β} (hm : m < n) (h : ∀ i, m ≤ i → i < n → g i = none) :
    (List.range n).filterMap (Function.update g m (some x)) = (List.range n).filterMap g ++ [x] := by
  have hnew : ∀ i, m + 1 ≤ i → i < n → Function.update g m (some x) i = none := fun i h1 h2 => by
    rw [Function.update_of_ne (by omega)]
    exact h i (by omega) h2
  rw [filterMap_range_of_none hm hnew, filterMap_range_of_none hm.le h, List.range_succ, List.filterMap_append,
    List.filterMap_cons_some (Function.update_self ..), List.filterMap_nil,
    filterMap_range_congr fun i hi => Function.update_of_ne (Nat.ne_of_lt hi) ..]

theorem filterMap_range_shift (hi : g i = none) (hn : i + 1 < n) :
    (List.range n).filterMap (Function.update (Function.update g i (g (i + 1))) (i + 1) none) =
      (List.range n).filterMap g := by
  obtain ⟨k, rfl⟩ : ∃ k, n = i + 1 + 1 + k := ⟨n - (i + 2), by omega⟩
  clear hn
  induction k with
  | zero =>
    have hfront : (List.range i).filterMap (Function.update (Function.update g i (g (i + 1))) (i + 1) none) =
        (List.range i).filterMap g := filterMap_range_congr fun j hj => by
      rw [Function.update_of_ne (by omega), Function.update_of_ne (by omega)]
    have h1 : Function.update (Function.update g i (g (i + 1))) (i + 1) none i = g (i + 1) := by
      rw [Function.update_of_ne (Nat.lt_succ_self i).ne, Function.update_self]
    simp only [Nat.add_zero, List.range_succ, List.filterMap_append, hfront, List.filterMap_cons, List.filterMap_nil, h1,
      hi, Function.update_self, List.append_nil]
  | succ k ih =>
    have hk : Function.update (Function.update g i (g (i + 1))) (i + 1) none (i + 1 + 1 + k) = g (i + 1 + 1 + k) := by
      rw [Function.update_of_ne (by omega), Function.update_of_ne (by omega)]
    rw [← Nat.add_assoc, List.range_succ, List.filterMap_append, List.filterMap_append, ih, List.filterMap_cons,
      List.filterMap_cons, List.filterMap_nil, List.filterMap_nil, hk]

theorem filterMap_range_drop (h0 : (g 0).isSome) (hn : 0 < n) :
    (List.range n).filterMap (Function.update g 0 none) = ((List.range n).filterMap g).drop 1 := by
  obtain ⟨k, rfl⟩ : ∃ k, n = k + 1 := ⟨n - 1, by omega⟩
  obtain ⟨x, hx⟩ := Option.isSome_iff_exists.mp h0
  rw [List.range_succ_eq_map, List.filterMap_cons_none (Function.update_self ..), List.filterMap_cons_some hx,
    List.drop_succ_cons, List.drop_zero]
  refine List.filterMap_congr fun i hi => ?_
  obtain ⟨j, -, rfl⟩ := List.mem_map.mp hi
  exact Function.update_of_ne (Nat.succ_ne_zero j) ..

end Slots

/-! ## Operations -/

/-- The descriptor is that of the live file; no two names have one inode, and the next one is free. -/
structure Links (f : LogFile) : Prop where
  fd : f.fd = f.inode .path
  inj : ∀ {a b i}, f.inode a = some i → f.inode b = some i → a = b
  below : ∀ {a i}, f.inode a = some i → i < f.fresh

/-- The numbers in use are the first ones. -/
def Packed (n : Nat) (f : LogFile) : Prop := ∃ m ≤ n, ∀ i < n, (f.inode (.numbered i)).isSome ↔ i < m

section Operations
variable {f : LogFile} {h : LogHistory} {n : Nat} {old new : LogName}

theorem content_isSome {name : LogName} : (f.content name).isSome = (f.inode name).isSome := Option.isSome_map

theorem inode_rename {i : Nat} (hold : f.inode old = some i) :
    (f.rename old new).inode = Function.update (Function.update f.inode new (some i)) old none := by
  rw [LogFile.rename, hold]

theorem content_rename (new : LogName) (hold : (f.inode old).isSome) :
    (f.rename old new).content = Function.update (Function.update f.content new (f.content old)) old none := by
  obtain ⟨i, hi⟩ := Option.isSome_iff_exists.mp hold
  funext a
  have hbytes : (f.rename old new).bytes = f.bytes := by rw [LogFile.rename, hi]
  rw [LogFile.content, hbytes, inode_rename hi]
  by_cases ha : a = old
  · rw [ha, Function.update_self, Function.update_self, Option.map_none]
  · rw [Function.update_of_ne ha, Function.update_of_ne ha]
    by_cases hb : a = new
    · rw [hb, Function.update_self, Function.update_self, LogFile.content, hi]
    · rw [Function.update_of_ne hb, Function.update_of_ne hb, LogFile.content]

theorem inj_rename (hinj : ∀ {a b i}, f.inode a = some i → f.inode b = some i → a = b)
    (hold : (f.inode old).isSome) {a b : LogName} {i : Nat} (ha : (f.rename old new).inode a = some i)
    (hb : (f.rename old new).inode b = some i) : a = b := by
  obtain ⟨k, hk⟩ := Option.isSome_iff_exists.mp hold
  rw [inode_rename hk] at ha hb
  have hwas : ∀ {c}, Function.update (Function.update f.inode new (some k)) old none c = some i →
      (c = new ∧ i = k) ∨ (c ≠ old ∧ f.inode c = some i) := by
    intro c hc
    by_cases hco : c = old
    · rw [hco, Function.update_self] at hc
      cases hc
    · rw [Function.update_of_ne hco] at hc
      by_cases hcn : c = new
      · rw [hcn, Function.update_self] at hc
        exact Or.inl ⟨hcn, (Option.some.inj hc).symm⟩
      · rw [Function.update_of_ne hcn] at hc
        exact Or.inr ⟨hco, hc⟩
  rcases hwas ha with ⟨ha1, hik⟩ | ⟨hao, ha1⟩
  · rcases hwas hb with ⟨hb1, -⟩ | ⟨hbo, hb1⟩
    · rw [ha1, hb1]
    · exact absurd (hinj hb1 (hik ▸ hk)) hbo
  · rcases hwas hb with ⟨-, hik⟩ | ⟨-, hb1⟩
    · exact absurd (hinj ha1 (hik ▸ hk)) hao
    · exact hinj ha1 hb1

theorem below_rename (hbelow : ∀ {a i}, f.inode a = some i → i < f.fresh) (hold : (f.inode old).isSome) {a : LogName}
    {i : Nat} (ha : (f.rename old new).inode a = some i) : i < (f.rename old new).fresh := by
  obtain ⟨k, hk⟩ := Option.isSome_iff_exists.mp hold
  have hfresh : (f.rename old new).fresh = f.fresh := by rw [LogFile.rename, hk]
  rw [inode_rename hk] at ha
  rw [hfresh]
  by_cases hao : a = old
  · rw [hao, Function.update_self] at ha
    cases ha
  · rw [Function.update_of_ne hao] at ha
    by_cases han : a = new
    · rw [han, Function.update_self] at ha
      exact Option.some.inj ha ▸ hbelow hk
    · rw [Function.update_of_ne han] at ha
      exact hbelow ha

theorem content_write (hl : Links f) (hopen : (f.inode .path).isSome) (record : List (BitVec 8)) :
    (f.exec (.write record)).content =
      Function.update f.content .path (some ((f.content .path).getD [] ++ record)) := by
  obtain ⟨p, hp⟩ := Option.isSome_iff_exists.mp hopen
  have hbytes : (f.exec (.write record)).bytes = Function.update f.bytes p (f.bytes p ++ record) := by
    rw [LogFile.exec, hl.fd, hp]
  have hinode : (f.exec (.write record)).inode = f.inode := by rw [LogFile.exec, hl.fd, hp]
  funext a
  rw [LogFile.content, hinode, hbytes]
  by_cases ha : a = .path
  · rw [ha, Function.update_self, hp, LogFile.content, hp, Option.map_some, Function.update_self, Option.map_some,
      Option.getD_some]
  · rw [Function.update_of_ne ha]
    refine Option.map_congr fun k hk => Function.update_of_ne ?_ ..
    rintro rfl
    exact ha (hl.inj hk hp)

theorem inode_openAppend (hnone : f.inode .path = none) :
    (f.exec .openAppend).inode = Function.update f.inode .path (some f.fresh) := by
  rw [LogFile.exec, hnone]

theorem content_openAppend (hbelow : ∀ {a i}, f.inode a = some i → i < f.fresh) (hnone : f.inode .path = none) :
    (f.exec .openAppend).content = Function.update f.content .path (some []) := by
  have hbytes : (f.exec .openAppend).bytes = Function.update f.bytes f.fresh [] := by rw [LogFile.exec, hnone]
  funext a
  rw [LogFile.content, inode_openAppend hnone, hbytes]
  by_cases ha : a = .path
  · rw [ha, Function.update_self, Function.update_self, Option.map_some, Function.update_self]
  · rw [Function.update_of_ne ha, Function.update_of_ne ha]
    exact Option.map_congr fun k hk => Function.update_of_ne (hbelow hk).ne ..

theorem Links.write (hl : Links f) (record : List (BitVec 8)) : Links (f.exec (.write record)) := by
  rw [LogFile.exec]
  split
  · exact hl
  · exact ⟨hl.fd, hl.inj, hl.below⟩

theorem Links.openAppend (hinj : ∀ {a b i}, f.inode a = some i → f.inode b = some i → a = b)
    (hbelow : ∀ {a i}, f.inode a = some i → i < f.fresh) (hnone : f.inode .path = none) :
    Links (f.exec .openAppend) := by
  have hnew : ∀ {a i}, (f.exec .openAppend).inode a = some i →
      (a = .path ∧ i = f.fresh) ∨ (a ≠ .path ∧ f.inode a = some i) := by
    intro a i ha
    rw [inode_openAppend hnone] at ha
    by_cases hap : a = .path
    · rw [hap, Function.update_self] at ha
      exact Or.inl ⟨hap, (Option.some.inj ha).symm⟩
    · rw [Function.update_of_ne hap] at ha
      exact Or.inr ⟨hap, ha⟩
  have hfresh : (f.exec .openAppend).fresh = f.fresh + 1 := by rw [LogFile.exec, hnone]
  refine ⟨?_, fun {a b i} ha hb => ?_, fun {a i} ha => ?_⟩
  · rw [inode_openAppend hnone, Function.update_self, LogFile.exec, hnone]
  · rcases hnew ha with ⟨ha1, hi⟩ | ⟨-, ha1⟩
    · rcases hnew hb with ⟨hb1, -⟩ | ⟨-, hb1⟩
      · rw [ha1, hb1]
      · exact absurd (hbelow hb1) (hi ▸ lt_irrefl _)
    · rcases hnew hb with ⟨-, hi⟩ | ⟨-, hb1⟩
      · exact absurd (hbelow ha1) (hi ▸ lt_irrefl _)
      · exact hinj ha1 hb1
  · rw [hfresh]
    rcases hnew ha with ⟨-, hi⟩ | ⟨-, ha1⟩
    · exact hi ▸ Nat.lt_succ_self _
    · exact Nat.lt_succ_of_lt (hbelow ha1)

/-- Where only the live file changes, the numbered files show as they were. -/
theorem numbered_of_content {f' : LogFile} {x : Option (List (BitVec 8))}
    (hc : f'.content = Function.update f.content .path x) : f'.numbered n = f.numbered n ∧ f'.content .path = x := by
  refine ⟨filterMap_range_congr fun i _ => ?_, by rw [hc, Function.update_self]⟩
  rw [hc]
  exact Function.update_of_ne (by simp) ..

theorem observe_write (hl : Links h.toLogFile) (hopen : (h.inode .path).isSome) (record : List (BitVec 8)) :
    observe n (h.exec (.write record)) = (observe n h).append record := by
  obtain ⟨hnum, hlive⟩ := numbered_of_content (n := n) (content_write hl hopen record)
  show (⟨(h.toLogFile.exec (.write record)).numbered n, (h.toLogFile.exec (.write record)).content .path, h.rotated,
    h.written ++ [record]⟩ : Rotation (BitVec 8)) = _
  rw [hnum, hlive]
  rfl

theorem observe_openAppend (hbelow : ∀ {a i}, h.inode a = some i → i < h.fresh) (hnone : h.inode .path = none) :
    observe n (h.exec .openAppend) = (observe n h).opened := by
  obtain ⟨hnum, hlive⟩ := numbered_of_content (n := n) (content_openAppend hbelow hnone)
  have hlive' : h.content .path = none := by rw [LogFile.content, hnone, Option.map_none]
  show (⟨(h.toLogFile.exec .openAppend).numbered n, (h.toLogFile.exec .openAppend).content .path, h.rotated,
    h.written⟩ : Rotation (BitVec 8)) = _
  rw [hnum, hlive, Rotation.opened, Rotation.tail, observe, hlive']
  rfl

/-- The live file gets the first number that is not in use. -/
theorem observe_shelve {m : Nat} (hopen : (h.inode .path).isSome) (hm : m < n)
    (hfree : ∀ i, m ≤ i → i < n → h.inode (.numbered i) = none) :
    observe n (h.exec (.rename .path (.numbered m))) = (observe n h).shelve := by
  obtain ⟨p, hp⟩ := Option.isSome_iff_exists.mp hopen
  have hlive : h.content .path = some (h.bytes p) := by rw [LogFile.content, hp, Option.map_some]
  have hcontent : (h.toLogFile.exec (.rename .path (.numbered m))).content =
      Function.update (Function.update h.content (.numbered m) (some (h.bytes p))) .path none := by
    rw [← hlive]
    exact content_rename _ hopen
  have hslots : ∀ i, (h.toLogFile.exec (.rename .path (.numbered m))).content (.numbered i) =
      Function.update (fun i => h.content (.numbered i)) m (some (h.bytes p)) i := by
    intro i
    rw [hcontent, Function.update_of_ne (by simp)]
    by_cases hi : i = m
    · rw [hi, Function.update_self, Function.update_self]
    · rw [Function.update_of_ne hi, Function.update_of_ne (by simpa using hi)]
  have hnum : (h.toLogFile.exec (.rename .path (.numbered m))).numbered n = h.numbered n ++ [h.bytes p] := by
    refine (filterMap_range_congr fun i _ => hslots i).trans (filterMap_range_fill hm fun i h1 h2 => ?_)
    rw [LogFile.content, hfree i h1 h2, Option.map_none]
  show (⟨(h.toLogFile.exec (.rename .path (.numbered m))).numbered n,
    (h.toLogFile.exec (.rename .path (.numbered m))).content .path, h.rotated ++ (h.content .path).toList,
    h.written⟩ : Rotation (BitVec 8)) = _
  rw [hnum, hcontent, Function.update_self, Rotation.shelve, Rotation.tail, observe, hlive]
  rfl

theorem Links.rename (hl : Links f) {i j : Nat} (hold : (f.inode (.numbered i)).isSome) :
    Links (f.rename (.numbered i) (.numbered j)) := by
  obtain ⟨k, hk⟩ := Option.isSome_iff_exists.mp hold
  have hfd : (f.rename (.numbered i) (.numbered j)).fd = f.fd := by rw [LogFile.rename, hk]
  refine ⟨?_, inj_rename hl.inj hold, below_rename hl.below hold⟩
  rw [hfd, hl.fd, inode_rename hk, Function.update_of_ne (by simp), Function.update_of_ne (by simp)]

theorem shift_numbered {i : Nat} (hold : (f.inode (.numbered (i + 1))).isSome) (hi : i + 1 < n) :
    (f.rename (.numbered (i + 1)) (.numbered i)).numbered n =
        (List.range n).filterMap (Function.update (fun k => f.content (.numbered k)) i none) ∧
      (f.rename (.numbered (i + 1)) (.numbered i)).content .path = f.content .path := by
  have hcontent := content_rename (.numbered i) hold
  constructor
  · have hslots : ∀ k, (f.rename (.numbered (i + 1)) (.numbered i)).content (.numbered k) =
        Function.update (Function.update (Function.update (fun k => f.content (.numbered k)) i none) i
          (Function.update (fun k => f.content (.numbered k)) i none (i + 1))) (i + 1) none k := by
      intro k
      rw [hcontent, Function.update_idem, Function.update_of_ne (Nat.lt_succ_self i).ne']
      by_cases hk : k = i + 1
      · rw [hk, Function.update_self, Function.update_self]
      · rw [Function.update_of_ne hk, Function.update_of_ne (by simpa using hk)]
        by_cases hki : k = i
        · rw [hki, Function.update_self, Function.update_self]
        · rw [Function.update_of_ne hki, Function.update_of_ne (by simpa using hki)]
    refine (filterMap_range_congr fun k _ => hslots k).trans ?_
    exact filterMap_range_shift (Function.update_self ..) hi
  · rw [hcontent, Function.update_of_ne (by simp), Function.update_of_ne (by simp)]

end Operations

/-! ## Shifting the numbers -/

/-- All numbers but `j` are in use. -/
def GapAt (n j : Nat) (f : LogFile) : Prop := ∀ i < n, (f.inode (.numbered i)).isSome ↔ i ≠ j

theorem GapAt.shift {f : LogFile} {n j : Nat} (hgap : ∀ i < n, i ≠ j → (f.inode (.numbered i)).isSome)
    (hj : j + 1 < n) :
    GapAt n (j + 1) (f.rename (.numbered (j + 1)) (.numbered j)) := by
  obtain ⟨k, hk⟩ := Option.isSome_iff_exists.mp (hgap (j + 1) hj (Nat.succ_ne_self j))
  intro i hi
  rw [inode_rename hk]
  by_cases hij : i = j + 1
  · rw [hij, Function.update_self]
    simp
  · rw [Function.update_of_ne (by simpa using hij)]
    refine iff_of_true ?_ hij
    by_cases hij' : i = j
    · rw [hij', Function.update_self]
      rfl
    · rw [Function.update_of_ne (by simpa using hij')]
      exact hgap i hi hij'

theorem shift_rest (n : Nat) : ∀ (k j : Nat) {h : LogHistory}, Links h.toLogFile → GapAt n j h.toLogFile →
    j + 1 + k = n →
    Throughout LogHistory.exec (fun h' => observe n h' = observe n h) h
        ((List.range' (j + 1) k).map fun i => .rename (.numbered i) (.numbered (i - 1))) ∧
      Links (((List.range' (j + 1) k).map fun i => FileOp.rename (.numbered i) (.numbered (i - 1))).foldl
        LogHistory.exec h).toLogFile ∧
      GapAt n (n - 1) (((List.range' (j + 1) k).map fun i => FileOp.rename (.numbered i) (.numbered (i - 1))).foldl
        LogHistory.exec h).toLogFile := by
  intro k
  induction k with
  | zero =>
    intro j h hl hgap hn
    refine ⟨throughout_nil.mpr rfl, hl, ?_⟩
    rwa [show n - 1 = j by omega]
  | succ k ih =>
    intro j h hl hgap hn
    have hold : (h.inode (.numbered (j + 1))).isSome := (hgap (j + 1) (by omega)).mpr (Nat.succ_ne_self j)
    obtain ⟨hnum, hlive⟩ := shift_numbered (n := n) hold (by omega)
    have hnone : h.content (.numbered j) = none := by
      rw [← Option.not_isSome_iff_eq_none, content_isSome, hgap j (by omega)]
      exact not_not.mpr rfl
    have hempty : Function.update (fun k => h.content (.numbered k)) j none = fun k => h.content (.numbered k) :=
      Function.update_eq_self_iff.mpr hnone.symm
    have hobs : observe n (h.exec (.rename (.numbered (j + 1)) (.numbered j))) = observe n h := by
      show (⟨(h.toLogFile.rename (.numbered (j + 1)) (.numbered j)).numbered n,
        (h.toLogFile.rename (.numbered (j + 1)) (.numbered j)).content .path, h.rotated, h.written⟩ :
          Rotation (BitVec 8)) = _
      rw [hnum, hlive, hempty]
      rfl
    obtain ⟨hall, hl', hgap'⟩ := ih (j + 1) (h := h.exec (.rename (.numbered (j + 1)) (.numbered j)))
      (hl.rename hold) (GapAt.shift (fun i hi => (hgap i hi).mpr) (by omega)) (by omega)
    rw [List.range'_succ, List.map_cons, List.foldl_cons, throughout_cons, Nat.add_sub_cancel]
    rw [hobs] at hall
    exact ⟨⟨rfl, hall⟩, hl', hgap'⟩

/-- With all numbers in use the oldest file gives way, if there are two numbers or more. -/
theorem shift_spec {n : Nat} {h : LogHistory} (hl : Links h.toLogFile) (hall : ∀ i < n, (h.inode (.numbered i)).isSome)
    (hn : 0 < n) :
    Throughout LogHistory.exec (fun h' => observe n h' ∈ [observe n h, (observe n h).dropOldest n]) h
        ((List.range' 1 (n - 1)).map fun i => .rename (.numbered i) (.numbered (i - 1))) ∧
      ∃ h', ((List.range' 1 (n - 1)).map fun i => FileOp.rename (.numbered i) (.numbered (i - 1))).foldl
          LogHistory.exec h = h' ∧
        observe n h' = (observe n h).dropOldest n ∧ Links h'.toLogFile ∧ Packed n h'.toLogFile := by
  obtain ⟨k, rfl⟩ : ∃ k, n = k + 1 := ⟨n - 1, by omega⟩
  cases k with
  | zero =>
    exact ⟨throughout_nil.mpr List.mem_cons_self, h, rfl, rfl, hl, 1, le_rfl, fun i hi => iff_of_true (hall i hi) hi⟩
  | succ k =>
    have hold : (h.inode (.numbered (0 + 1))).isSome := hall _ (by omega)
    obtain ⟨hnum, hlive⟩ := shift_numbered (n := k + 1 + 1) hold (by omega)
    have hobs : observe (k + 1 + 1) (h.exec (.rename (.numbered (0 + 1)) (.numbered 0))) =
        (observe (k + 1 + 1) h).dropOldest (k + 1 + 1) := by
      show (⟨(h.toLogFile.rename (.numbered (0 + 1)) (.numbered 0)).numbered (k + 1 + 1),
        (h.toLogFile.rename (.numbered (0 + 1)) (.numbered 0)).content .path, h.rotated, h.written⟩ :
          Rotation (BitVec 8)) = _
      rw [hnum, hlive, filterMap_range_drop (by rw [content_isSome]; exact hall 0 (by omega)) (by omega),
        Rotation.dropOldest, if_pos (by omega)]
      rfl
    obtain ⟨hrest, hl', hgap⟩ := shift_rest (k + 1 + 1) k 1 (h := h.exec (.rename (.numbered (0 + 1)) (.numbered 0)))
      (hl.rename hold) (GapAt.shift (fun i hi _ => hall i hi) (by omega)) (by omega)
    rw [hobs] at hrest
    rw [show k + 1 + 1 - 1 = k + 1 by omega, List.range'_succ, List.map_cons, List.foldl_cons, throughout_cons]
    refine ⟨⟨List.mem_cons_self, hrest.mono fun h' hh' => ?_⟩, _, rfl, hrest.last, hl', k + 1, by omega, fun i hi => ?_⟩
    · rw [hh']
      exact List.mem_cons_of_mem _ List.mem_cons_self
    · rw [hgap i hi]
      omega

/-! ## `log_write` -/

theorem Packed.congr {n : Nat} {f f' : LogFile} (h : Packed n f)
    (hc : ∀ i < n, f'.inode (.numbered i) = f.inode (.numbered i)) : Packed n f' := by
  obtain ⟨m, hm, hslots⟩ := h
  exact ⟨m, hm, fun i hi => by rw [hc i hi]; exact hslots i hi⟩

theorem Packed.length {n m : Nat} {f : LogFile} (hm : m ≤ n) (hslots : ∀ i < n, (f.inode (.numbered i)).isSome ↔ i < m) :
    (f.numbered n).length = m := by
  have hnone : ∀ i, m ≤ i → i < n → f.content (.numbered i) = none := fun i h1 h2 => by
    rw [← Option.not_isSome_iff_eq_none, content_isSome, hslots i h2]
    omega
  rw [LogFile.numbered, filterMap_range_of_none hm hnone]
  refine length_filterMap_range fun i hi => ?_
  rw [content_isSome, hslots i (by omega)]
  exact hi

theorem find_free {n m : Nat} {f : LogFile} (hm : m ≤ n) (hslots : ∀ i < n, (f.inode (.numbered i)).isSome ↔ i < m) :
    ((List.range n).find? fun i => (f.inode (.numbered i)).isNone) = if m < n then some m else none := by
  have hsome : ∀ i < n, (f.inode (.numbered i)).isNone = true ↔ m ≤ i := fun i hi => by
    rw [Option.isNone_iff_eq_none, ← Option.not_isSome_iff_eq_none, hslots i hi, not_lt]
  split_ifs with hlt
  · rw [List.find?_range_eq_some]
    refine ⟨(hsome m hlt).mpr le_rfl, List.mem_range.mpr hlt, fun j hj => ?_⟩
    rw [Bool.not_eq_true', Bool.eq_false_iff, ne_eq, hsome j (by omega)]
    omega
  · rw [List.find?_eq_none]
    intro i hi
    rw [hsome i (List.mem_range.mp hi)]
    have := List.mem_range.mp hi
    omega

/-- A log file between two records. -/
structure AtRest (n : Nat) (h : LogHistory) : Prop where
  links : Links h.toLogFile
  packed : Packed n h.toLogFile

variable {c : LogConf} {h : LogHistory} {record : List (BitVec 8)}

theorem AtRest.write {n : Nat} (hr : AtRest n h) : AtRest n (h.exec (.write record)) := by
  refine ⟨hr.links.write record, hr.packed.congr fun i _ => ?_⟩
  show (h.toLogFile.exec (.write record)).inode _ = _
  rw [LogFile.exec]
  split <;> rfl

theorem open_write_spec {n : Nat} (record : List (BitVec 8))
    (hinj : ∀ {a b i}, h.inode a = some i → h.inode b = some i → a = b)
    (hbelow : ∀ {a i}, h.inode a = some i → i < h.fresh) (hnone : h.inode .path = none)
    (hpacked : Packed n h.toLogFile) :
    observe n (h.exec .openAppend) = (observe n h).opened ∧
      observe n ((h.exec .openAppend).exec (.write record)) = (observe n h).append record ∧
      AtRest n ((h.exec .openAppend).exec (.write record)) := by
  have hl := Links.openAppend hinj hbelow hnone
  have hopened := observe_openAppend (n := n) hbelow hnone
  have hinode : (h.exec .openAppend).inode = Function.update h.inode .path (some h.fresh) := inode_openAppend hnone
  refine ⟨hopened, ?_, AtRest.write ⟨hl, hpacked.congr fun i _ => ?_⟩⟩
  · rw [observe_write hl (by rw [hinode, Function.update_self]; rfl), hopened]
    rfl
  · show (h.exec .openAppend).inode _ = _
    rw [hinode]
    exact Function.update_of_ne (by simp) ..

/-- The operations go through these stages, leave the file at rest and have written the record. -/
def PassesThrough (n : Nat) (h : LogHistory) (ops : List FileOp) (record : List (BitVec 8))
    (stages : List (Rotation (BitVec 8))) : Prop :=
  Throughout LogHistory.exec (fun h' => observe n h' ∈ stages) h ops ∧ AtRest n (ops.foldl LogHistory.exec h) ∧
    (ops.foldl LogHistory.exec h).written = h.written ++ [record]

theorem append_opened {n : Nat} (hr : AtRest n h) (hp : h.inode .path = none) (record : List (BitVec 8)) :
    PassesThrough n h [.openAppend, .write record] record
      [observe n h, (observe n h).opened, (observe n h).append record] := by
  obtain ⟨ho, hw, hrest⟩ := open_write_spec record hr.links.inj hr.links.below hp hr.packed
  refine ⟨?_, hrest, rfl⟩
  rw [throughout_cons, throughout_cons, throughout_nil, ho, hw]
  simp

theorem append_room {n : Nat} (hr : AtRest n h) (hopen : (h.inode .path).isSome) (record : List (BitVec 8)) :
    PassesThrough n h [.write record] record [observe n h, (observe n h).append record] := by
  refine ⟨?_, hr.write, rfl⟩
  rw [throughout_cons, throughout_nil, observe_write hr.links hopen]
  simp

/-- With the live file full and a number free: the live file gets the number. -/
theorem append_shelved {n m fd : Nat} (hl : Links h.toLogFile) (hp : h.inode .path = some fd) (hfew : m < n)
    (hslots : ∀ i < n, (h.inode (.numbered i)).isSome ↔ i < m) (record : List (BitVec 8)) :
    PassesThrough n h [.rename .path (.numbered m), .close, .openAppend, .write record] record
      [observe n h, (observe n h).shelve, (observe n h).shelve.opened, (observe n h).shelve.append record] := by
  have hopen : (h.inode .path).isSome := by
    rw [hp]
    rfl
  obtain ⟨g, hg⟩ : ∃ g, g = (h.exec (.rename .path (.numbered m))).exec .close := ⟨_, rfl⟩
  have hnumber : observe n (h.exec (.rename .path (.numbered m))) = (observe n h).shelve :=
    observe_shelve hopen hfew fun i h1 h2 => by
      rw [← Option.not_isSome_iff_eq_none, hslots i h2]
      omega
  have hclose : observe n g = (observe n h).shelve := by
    rw [hg, ← hnumber]
    rfl
  have hinode : g.inode = Function.update (Function.update h.inode (.numbered m) (some fd)) .path none := by
    rw [hg]
    exact inode_rename hp
  have hpacked : Packed n g.toLogFile := by
    refine ⟨m + 1, hfew, fun i hi => ?_⟩
    rw [hinode, Function.update_of_ne (by simp)]
    by_cases him : i = m
    · rw [him, Function.update_self]
      exact iff_of_true rfl (Nat.lt_succ_self m)
    · rw [Function.update_of_ne (by simpa using him), hslots i hi]
      omega
  have hwritten : g.written = h.written := by
    rw [hg]
    rfl
  obtain ⟨ho, hw, hrest⟩ := open_write_spec (h := g) record (hg ▸ inj_rename hl.inj hopen)
    (hg ▸ below_rename hl.below hopen) (by rw [hinode, Function.update_self]) hpacked
  rw [hclose] at ho hw
  rw [PassesThrough, throughout_cons, throughout_cons, List.foldl_cons, List.foldl_cons, ← hg, throughout_cons,
    throughout_cons, throughout_nil, hnumber, hclose, ho, hw]
  refine ⟨?_, hrest, ?_⟩
  · simp
  · rw [← hwritten]
    rfl

/-- With the live file full and no number free: the numbered files move down, the live file goes on. -/
theorem append_dropped {n : Nat} (hl : Links h.toLogFile) (hall : ∀ i < n, (h.inode (.numbered i)).isSome)
    (hn : 0 < n) (hopen : (h.inode .path).isSome) (record : List (BitVec 8)) :
    PassesThrough n h
      (((List.range' 1 (n - 1)).map fun i => .rename (.numbered i) (.numbered (i - 1))) ++ [.write record]) record
      [observe n h, (observe n h).dropOldest n, ((observe n h).dropOldest n).append record] := by
  obtain ⟨hshift, g, hg, hobs, hl', hpacked⟩ := shift_spec hl hall hn
  have hopen' : (g.inode .path).isSome := by
    have hlive : g.content .path = h.content .path := congrArg Rotation.live hobs
    rw [← content_isSome, hlive, content_isSome]
    exact hopen
  have hwrite := observe_write (n := n) hl' hopen' record
  rw [hobs] at hwrite
  have hwritten : g.written = h.written := congrArg Rotation.written hobs
  rw [PassesThrough, throughout_append, List.foldl_append, hg, throughout_cons, throughout_nil]
  refine ⟨⟨hshift.mono fun h' hh' => ?_, ?_, ?_⟩, AtRest.write ⟨hl', hpacked⟩, ?_⟩
  · rcases List.mem_pair.mp hh' with he | he <;> simp [he]
  · simp [hobs]
  · simp [hwrite]
  · rw [← hwritten]
    rfl

/-- **`log_write`** goes through the stages of a rotation that gets a record. -/
theorem logAppend_spec (record : List (BitVec 8)) (hr : AtRest c.number h) :
    PassesThrough c.number h (logAppend c h.toLogFile record) record
      ((observe c.number h).stages c.number c.size record) := by
  obtain ⟨hl, m, hm, hslots⟩ := hr
  have hfree := find_free hm hslots
  unfold logAppend Rotation.stages
  rw [hl.fd]
  cases hp : h.inode .path with
  | none =>
    have hlive : (observe c.number h).live = none := by
      show h.content .path = none
      rw [LogFile.content, hp, Option.map_none]
    rw [hlive]
    exact append_opened ⟨hl, m, hm, hslots⟩ hp record
  | some fd =>
    have hlive : (observe c.number h).live = some (h.bytes fd) := by
      show h.content .path = _
      rw [LogFile.content, hp, Option.map_some]
    have hopen : (h.inode .path).isSome := by
      rw [hp]
      rfl
    have hnum : (observe c.number h).numbered.length = m := Packed.length hm hslots
    rw [hlive]
    dsimp only
    rw [hnum, logRotate, hfree]
    by_cases hsize : (h.bytes fd).length ≤ c.size
    · rw [if_neg (Nat.not_lt_of_le hsize), if_pos hsize]
      exact append_room ⟨hl, m, hm, hslots⟩ hopen record
    · rw [if_pos (Nat.lt_of_not_le hsize), if_neg hsize]
      by_cases hfew : m < c.number
      · rw [if_pos hfew, if_pos hfew]
        exact append_shelved hl hp hfew hslots record
      · rw [if_neg hfew, if_neg hfew]
        exact append_dropped hl (fun i hi => (hslots i hi).mpr (by omega)) c.number_pos hopen record

end Fnsproxy
