import Fnsproxy.Vector
import Fnsproxy.Lib.WhileLoop

/-!
# vector.c: iterators

* `VectorIterT`, `vectorIterNew`, `vectorIterInit`, `vectorIterNext`, `vectorIterPrev`, `vectorIterReset` : the
  functions of the source, `-1` their error return;
* `vectorWalkStep`, `vectorWalk` : the loop of a caller, with the iterators it has in its rounds;
* `VectorT.last`, `VectorT.iterAt` : the position the end test looks for, the iterator at a position;
* `Reached`, `IterLaw` : the iterators of a caller, the law of the walk;
* `vectorIterNext_iterAt`, `vectorIterPrev_iterAt` : one call;
* `vectorWalk_iterAt` : a walk visits every position up to the last;
* `iterLaw_iff` : **the walk visits the elements exactly if there are at least two**.
-/

namespace Fnsproxy
open WhileLoop

section Functions
variable {α : Type} (vec : VectorT α)

/-- `vector_iter_t` over the vector `vec`: `data` is the distance from its block in bytes, `none` the null pointer. -/
structure VectorIterT where
  pos : Nat
  data : Option Nat
deriving DecidableEq, Repr

def vectorIterNext (iter : VectorIterT) : Int × VectorIterT :=
  if iter.pos = wrap32 (vec.count + 2 ^ 32 - 1) then (-1, iter)
  else if iter.data = none ∧ iter.pos = 0 then
    -- run for the first time
    (0, { iter with data := some 0 })
  else (0, ⟨wrap32 (iter.pos + 1), some (wrap32 (wrap32 (iter.pos + 1) * vec.size))⟩)

def vectorIterInit : Int × VectorIterT := vectorIterNext vec ⟨0, none⟩

def vectorIterNew (a : Allocs) : Option VectorIterT × Allocs :=
  if a.head then
    match vectorIterInit vec with
    | (ret, iter) => if ret ≠ 0 then (none, a.tail) else (some iter, a.tail)
  else (none, a.tail)

def vectorIterBegin (iter : VectorIterT) : Int := if iter.pos = 0 then 1 else 0

def vectorIterPrev (iter : VectorIterT) : Int × VectorIterT :=
  if vectorIterBegin iter ≠ 0 then (-1, iter)
  else (0, ⟨iter.pos - 1, some (wrap32 ((iter.pos - 1) * vec.size))⟩)

/-- The source does not look at what `vector_iter_init` returns. -/
def vectorIterReset : Int × VectorIterT := vectorIterInit vec

/-- A round of `do … while (vector_iter_next(iter) == 0)`, with the iterators of the rounds before. -/
def vectorWalkStep : VectorIterT × List VectorIterT → Next (VectorIterT × List VectorIterT) (List VectorIterT)
  | (iter, seen) =>
    match vectorIterNext vec iter with
    | (ret, iter') => if ret = 0 then .again (iter', seen ++ [iter]) else .done (seen ++ [iter])

/-- What a caller visits, as far as `fuel` rounds take it: nothing, when there is no iterator. -/
def vectorWalk (fuel : Nat) (a : Allocs) : Option (List VectorIterT) :=
  match vectorIterNew vec a with
  | (some iter, _) => run (vectorWalkStep vec) fuel (iter, [])
  | (none, _) => some []

/-- The position at which `vector_iter_next` finds the end: that of the last element, and with no element the last
number of all. -/
def VectorT.last : Nat := if vec.count = 0 then 2 ^ 32 - 1 else vec.count - 1

/-- The iterator at the element `i`, with the pointer that `vector_get_at` computes. -/
def VectorT.iterAt (i : Nat) : VectorIterT := ⟨i, some (wrap32 (i * vec.size))⟩

/-- The cell an iterator points to. -/
def VectorIterT.deref (iter : VectorIterT) : Option α :=
  match iter.data with
  | some offset => vec.data[offset / vec.size]?
  | none => none

/-- The iterators a caller can have after `vector_iter_new`. -/
inductive Reached : VectorIterT → Prop where
  | new {iter : VectorIterT} {a a' : Allocs} (h : vectorIterNew vec a = (some iter, a')) : Reached iter
  | next {iter : VectorIterT} (h : Reached iter) : Reached (vectorIterNext vec iter).2
  | prev {iter : VectorIterT} (h : Reached iter) : Reached (vectorIterPrev vec iter).2
  | reset {iter : VectorIterT} (h : Reached iter) : Reached (vectorIterReset vec).2

/-- While there is memory for the iterator, a walk ends and has been at every position once, in order, its pointers
lead to the elements of a vector whose block fits, and a step back undoes a step. -/
structure IterLaw : Prop where
  walk : ∀ a : Allocs, a.head = true → ∃ fuel, vectorWalk vec fuel a = some ((List.range vec.count).map vec.iterAt)
  elements : vec.Fits → ((List.range vec.count).map vec.iterAt).map (VectorIterT.deref vec) = vec.entries.map some
  prev : ∀ iter iter' : VectorIterT, Reached vec iter → vectorIterNext vec iter = (0, iter') →
    vectorIterPrev vec iter' = (0, iter)

end Functions

/-! ## One call -/

section Calls
variable {α : Type} {vec : VectorT α} {i : Nat}

/-- The wrapped difference of the end test. -/
theorem VectorT.wrap_last (hcount : vec.count < 2 ^ 32) : wrap32 (vec.count + 2 ^ 32 - 1) = vec.last := by
  unfold VectorT.last wrap32
  split_ifs <;> omega

theorem VectorT.last_lt (hcount : vec.count < 2 ^ 32) : vec.last < 2 ^ 32 := by
  unfold VectorT.last
  split_ifs <;> omega

theorem vectorIterNext_last (hcount : vec.count < 2 ^ 32) :
    vectorIterNext vec (vec.iterAt vec.last) = (-1, vec.iterAt vec.last) := by
  rw [vectorIterNext, vec.wrap_last hcount]
  exact if_pos rfl

theorem vectorIterNext_iterAt (hcount : vec.count < 2 ^ 32) (hi : i < vec.last) :
    vectorIterNext vec (vec.iterAt i) = (0, vec.iterAt (i + 1)) := by
  have hlast := vec.last_lt hcount
  have hwrap : wrap32 (i + 1) = i + 1 := Nat.mod_eq_of_lt (by omega)
  have hne : (vec.iterAt i).pos ≠ wrap32 (vec.count + 2 ^ 32 - 1) := by
    rw [vec.wrap_last hcount]
    exact Nat.ne_of_lt hi
  have hdata : ¬ ((vec.iterAt i).data = none ∧ (vec.iterAt i).pos = 0) := fun h => Option.some_ne_none _ h.1
  rw [vectorIterNext, if_neg hne, if_neg hdata]
  simp only [VectorT.iterAt, hwrap]

theorem vectorIterPrev_iterAt : vectorIterPrev vec (vec.iterAt (i + 1)) = (0, vec.iterAt i) := rfl

theorem vectorIterPrev_first : vectorIterPrev vec (vec.iterAt 0) = (-1, vec.iterAt 0) := rfl

/-- The call inside `vector_iter_init` finds the end only in a vector of one element. -/
theorem vectorIterInit_eq (hcount : vec.count < 2 ^ 32) :
    vectorIterInit vec = if vec.count = 1 then (-1, ⟨0, none⟩) else (0, vec.iterAt 0) := by
  have hfirst : (0 = wrap32 (vec.count + 2 ^ 32 - 1)) ↔ vec.count = 1 := by
    unfold wrap32
    omega
  have hzero : vec.iterAt 0 = ⟨0, some 0⟩ := by
    rw [VectorT.iterAt, Nat.zero_mul]
    rfl
  rw [vectorIterInit, vectorIterNext, hzero]
  simp only [hfirst, and_self, if_true]

theorem vectorIterNew_eq (hcount : vec.count < 2 ^ 32) {a : Allocs} (ha : a.head = true) :
    vectorIterNew vec a = (if vec.count = 1 then none else some (vec.iterAt 0), a.tail) := by
  rw [vectorIterNew, if_pos ha, vectorIterInit_eq hcount]
  by_cases h1 : vec.count = 1
  · rw [if_pos h1, if_pos h1]
    rfl
  · rw [if_neg h1, if_neg h1]
    rfl

theorem vectorIterReset_eq (hcount : vec.count < 2 ^ 32) (h1 : vec.count ≠ 1) :
    vectorIterReset vec = (0, vec.iterAt 0) := by
  rw [vectorIterReset, vectorIterInit_eq hcount, if_neg h1]

end Calls

/-! ## The walk -/

section Walk
variable {α : Type} {vec : VectorT α}

theorem run_vectorWalkStep (hcount : vec.count < 2 ^ 32) : ∀ (k i : Nat), i + k = vec.last →
    run (vectorWalkStep vec) (k + 1) (vec.iterAt i, (List.range i).map vec.iterAt) =
      some ((List.range (vec.last + 1)).map vec.iterAt) := by
  have hseen : ∀ i, (List.range i).map vec.iterAt ++ [vec.iterAt i] = (List.range (i + 1)).map vec.iterAt := fun i => by
    rw [List.range_succ, List.map_append, List.map_singleton]
  intro k
  induction k with
  | zero =>
    intro i hi
    obtain rfl : i = vec.last := hi
    have hstep : vectorWalkStep vec (vec.iterAt vec.last, (List.range vec.last).map vec.iterAt) =
        .done ((List.range (vec.last + 1)).map vec.iterAt) := by
      simp only [vectorWalkStep, vectorIterNext_last hcount, hseen]
      exact if_neg (by decide)
    exact run_done hstep 0
  | succ k ih =>
    intro i hi
    have hstep : vectorWalkStep vec (vec.iterAt i, (List.range i).map vec.iterAt) =
        .again (vec.iterAt (i + 1), (List.range (i + 1)).map vec.iterAt) := by
      simp only [vectorWalkStep, vectorIterNext_iterAt hcount (show i < vec.last by omega), hseen, if_true]
    rw [run_again hstep]
    exact ih (i + 1) (by omega)

theorem vectorWalk_some {fuel : Nat} {a a' : Allocs} {iter : VectorIterT} (hnew : vectorIterNew vec a = (some iter, a')) :
    vectorWalk vec fuel a = run (vectorWalkStep vec) fuel (iter, []) := by
  simp only [vectorWalk, hnew]

theorem vectorWalk_none {fuel : Nat} {a a' : Allocs} (hnew : vectorIterNew vec a = (none, a')) :
    vectorWalk vec fuel a = some [] := by
  simp only [vectorWalk, hnew]

/-- **What a walk visits**, when there is an iterator: every position up to the last, in order. -/
theorem vectorWalk_iterAt (hcount : vec.count < 2 ^ 32) (h1 : vec.count ≠ 1) {a : Allocs} (ha : a.head = true) :
    vectorWalk vec (vec.last + 1) a = some ((List.range (vec.last + 1)).map vec.iterAt) := by
  have hnew := vectorIterNew_eq hcount ha
  rw [if_neg h1] at hnew
  rw [vectorWalk_some hnew]
  exact run_vectorWalkStep hcount vec.last 0 (Nat.zero_add _)

theorem vectorWalk_unique {n m : Nat} {a : Allocs} {xs ys : List VectorIterT} (hn : vectorWalk vec n a = some xs)
    (hm : vectorWalk vec m a = some ys) : xs = ys := by
  obtain ⟨iter, a', hnew⟩ : ∃ iter a', vectorIterNew vec a = (iter, a') := ⟨_, _, rfl⟩
  cases iter with
  | none =>
    rw [vectorWalk_none hnew] at hn hm
    exact Option.some.inj (hn.symm.trans hm)
  | some iter =>
    rw [vectorWalk_some hnew] at hn hm
    exact Returns.unique ⟨n, hn⟩ ⟨m, hm⟩

theorem deref_iterAt {i : Nat} (hi : i < vec.slots) : (vec.iterAt i).deref vec = vectorGetAt vec i := by
  rw [vectorGetAt, if_neg (Nat.not_le.mpr hi)]
  rfl

/-- The pointers of a walk lead to the elements of the vector. -/
theorem VectorT.Fits.deref_walk (h : vec.Fits) :
    ((List.range vec.count).map vec.iterAt).map (VectorIterT.deref vec) = vec.entries.map some := by
  refine List.ext_getElem? fun i => ?_
  rcases Nat.lt_or_ge i vec.count with hi | hi
  · have hlt : i < vec.slots := hi.trans h.count_lt
    have hlen : i < vec.entries.length := by rwa [h.length_entries]
    have hdata : vec.data[i]? = some vec.entries[i] := by
      rw [← List.getElem?_eq_getElem hlen, VectorT.entries, List.getElem?_take_of_lt hi]
    rw [List.getElem?_map, List.getElem?_map, List.getElem?_range hi, List.getElem?_map, List.getElem?_eq_getElem hlen]
    simp only [Option.map_some, deref_iterAt hlt, vectorGetAt, if_neg (Nat.not_le.mpr hlt), h.cell_eq hlt, hdata]
  · have h1 : vec.entries.length ≤ i := h.length_entries.le.trans hi
    simp only [List.getElem?_map, List.getElem?_eq_none h1, Option.map_none, Option.map_eq_none_iff]
    exact List.getElem?_eq_none (List.length_range.le.trans hi)

theorem Reached.iterAt (hcount : vec.count < 2 ^ 32) {iter : VectorIterT} (h : Reached vec iter) :
    vec.count ≠ 1 ∧ ∃ i ≤ vec.last, iter = vec.iterAt i := by
  induction h with
  | @new iter a a' h =>
    cases ha : a.head with
    | false =>
      rw [vectorIterNew, ha] at h
      cases h
    | true =>
      rw [vectorIterNew_eq hcount ha] at h
      split_ifs at h with h1
      · cases h
      · cases h
        exact ⟨h1, 0, Nat.zero_le _, rfl⟩
  | next _ ih =>
    obtain ⟨h1, i, hi, rfl⟩ := ih
    refine ⟨h1, ?_⟩
    rcases Nat.lt_or_eq_of_le hi with hlt | rfl
    · rw [vectorIterNext_iterAt hcount hlt]
      exact ⟨i + 1, hlt, rfl⟩
    · rw [vectorIterNext_last hcount]
      exact ⟨vec.last, le_rfl, rfl⟩
  | prev _ ih =>
    obtain ⟨h1, i, hi, rfl⟩ := ih
    refine ⟨h1, ?_⟩
    cases i with
    | zero =>
      rw [vectorIterPrev_first]
      exact ⟨0, hi, rfl⟩
    | succ i =>
      rw [vectorIterPrev_iterAt]
      exact ⟨i, by omega, rfl⟩
  | reset _ ih =>
    rw [vectorIterReset_eq hcount ih.1]
    exact ⟨ih.1, 0, Nat.zero_le _, rfl⟩

/-- **A step back undoes a step**, however many elements there are. -/
theorem Reached.prev_next (hcount : vec.count < 2 ^ 32) {iter iter' : VectorIterT} (h : Reached vec iter)
    (hnext : vectorIterNext vec iter = (0, iter')) : vectorIterPrev vec iter' = (0, iter) := by
  obtain ⟨-, i, hi, rfl⟩ := h.iterAt hcount
  rcases Nat.lt_or_eq_of_le hi with hlt | rfl
  · rw [vectorIterNext_iterAt hcount hlt] at hnext
    cases hnext
    exact vectorIterPrev_iterAt
  · rw [vectorIterNext_last hcount] at hnext
    cases hnext

/-- **The walk of an iterator** visits the elements of a vector in order, once each, and ends, and a step back undoes
a step, exactly if the vector has at least two elements. -/
theorem iterLaw_iff (vec : VectorT α) (hcount : vec.count < 2 ^ 32) : IterLaw vec ↔ 2 ≤ vec.count := by
  constructor
  · intro h
    obtain ⟨fuel, hwalk⟩ := h.walk (fun _ => true) rfl
    by_cases h1 : vec.count = 1
    · have hnew := vectorIterNew_eq hcount (a := fun _ => true) rfl
      rw [if_pos h1] at hnew
      rw [vectorWalk_none hnew, h1] at hwalk
      cases hwalk
    · have hlen := congrArg List.length (vectorWalk_unique hwalk (vectorWalk_iterAt hcount h1 rfl))
      rw [List.length_map, List.length_range, List.length_map, List.length_range] at hlen
      unfold VectorT.last at hlen
      split_ifs at hlen with h0
      · omega
      · omega
  · intro h2
    refine ⟨fun a ha => ⟨vec.last + 1, ?_⟩, fun h => h.deref_walk, fun iter iter' h hnext => h.prev_next hcount hnext⟩
    have hlast : vec.last + 1 = vec.count := by
      rw [VectorT.last, if_neg (by omega)]
      omega
    rw [vectorWalk_iterAt hcount (by omega) ha, hlast]

end Walk

theorem iterLaw_iff_two : IterLaw (⟨2, 3, 4, [7, 8, 0]⟩ : VectorT Nat) :=
  (iterLaw_iff _ (by decide)).mpr (by decide)

/-- The only element of a vector is not visited, and the walk of an empty one does not end with nothing. -/
theorem not_iterLaw : vectorNew 2 4 (fun _ => true) = (some (⟨0, 2, 4, [0, 0]⟩ : VectorT Nat), fun _ => true) ∧
    vectorPush ⟨0, 2, 4, [0, 0]⟩ 7 (fun _ => true) = (0, (⟨1, 2, 4, [7, 0]⟩ : VectorT Nat), fun _ => true) ∧
    ¬ IterLaw (⟨1, 2, 4, [7, 0]⟩ : VectorT Nat) ∧ ¬ IterLaw (⟨0, 2, 4, [0, 0]⟩ : VectorT Nat) := by
  refine ⟨rfl, rfl, fun h => ?_, fun h => ?_⟩
  · obtain ⟨fuel, hwalk⟩ := h.walk (fun _ => true) rfl
    have hnothing : vectorWalk (⟨1, 2, 4, [7, 0]⟩ : VectorT Nat) fuel (fun _ => true) = some [] := rfl
    exact absurd (hwalk.symm.trans hnothing) (by decide)
  · obtain ⟨fuel, hwalk⟩ := h.walk (fun _ => true) rfl
    have hlen := congrArg List.length (vectorWalk_unique hwalk (vectorWalk_iterAt (by decide) (by decide) rfl))
    rw [List.length_map, List.length_map, List.length_range, List.length_range] at hlen
    exact absurd hlen (Nat.succ_ne_zero _).symm

end Fnsproxy
