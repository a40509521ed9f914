import Mathlib.Tactic.Common
import Mathlib.Data.List.Basic

/-!
# Memory blocks as lists of cells

* `memmove xs dst src n` : the block after copying `n` cells from `src` to `dst`, the ranges may
  overlap;
* `memmove_gap` : moving a middle part up opens a gap before it;
* `memmove_close` : moving a last part down closes the gap before it;
* `set_gap` : writing into a block at the seam of two parts;
* `Agree` : two blocks begin with the same cells; `Agree.getD`, `Agree.set`, `Agree.memmove` : what is done within
  these cells.
-/

namespace Block

variable {α : Type*}

/-- Copy the `n` cells from `src` on to `dst`. -/
def memmove (xs : List α) (dst src n : Nat) : List α :=
  xs.take dst ++ (xs.drop src).take n ++ xs.drop (dst + n)

/-- Moving `B` up by the length of `C` leaves a gap of that length behind `A`. -/
theorem memmove_gap (A B C R : List α) :
    memmove (A ++ (B ++ (C ++ R))) (A.length + C.length) A.length B.length =
      A ++ ((B ++ C).take C.length ++ (B ++ R)) := by
  have h1 : (A ++ (B ++ (C ++ R))).take (A.length + C.length) = A ++ (B ++ C).take C.length := by
    rw [List.take_length_add_append, ← List.append_assoc,
      List.take_append_of_le_length (by simp)]
  have h2 : ((A ++ (B ++ (C ++ R))).drop A.length).take B.length = B := by
    rw [List.drop_left, List.take_left]
  have h3 : (A ++ (B ++ (C ++ R))).drop (A.length + C.length + B.length) = R := by
    rw [Nat.add_assoc, List.drop_length_add_append, Nat.add_comm, ← List.append_assoc,
      ← List.length_append, List.drop_left]
  rw [memmove, h1, h2, h3]
  simp only [List.append_assoc]

/-- Moving `B` down over the part `C` before it leaves the last cells of both behind. -/
theorem memmove_close (A C B R : List α) :
    memmove (A ++ (C ++ (B ++ R))) A.length (A.length + C.length) B.length =
      A ++ (B ++ ((C ++ B).drop B.length ++ R)) := by
  have h1 : (A ++ (C ++ (B ++ R))).take A.length = A := List.take_left
  have h2 : ((A ++ (C ++ (B ++ R))).drop (A.length + C.length)).take B.length = B := by
    rw [List.drop_length_add_append, List.drop_left, List.take_left]
  have h3 : (A ++ (C ++ (B ++ R))).drop (A.length + B.length) = (C ++ B).drop B.length ++ R := by
    rw [List.drop_length_add_append, ← List.append_assoc, List.drop_append_of_le_length (by simp)]
  rw [memmove, h1, h2, h3, List.append_assoc]

theorem set_gap (A R : List α) (x y : α) : (A ++ y :: R).set A.length x = A ++ x :: R := by
  rw [List.set_append_right _ _ (Nat.le_refl _), Nat.sub_self, List.set_cons_zero]

theorem set_gap_succ (A R : List α) (x y z : α) :
    (A ++ y :: z :: R).set (A.length + 1) x = A ++ y :: x :: R := by
  have := set_gap (A ++ [y]) R x z
  simpa only [List.length_append, List.length_singleton, List.append_assoc, List.singleton_append]
    using this

theorem set_gap_add_two (A R : List α) (w x y z : α) :
    (A ++ w :: y :: z :: R).set (A.length + 2) x = A ++ w :: y :: x :: R := by
  have := set_gap_succ (A ++ [w]) R x y z
  simpa only [List.length_append, List.length_singleton, List.append_assoc, List.singleton_append,
    Nat.add_assoc] using this

/-! ## Blocks that begin alike -/

theorem memmove_append {A R : List α} {dst src n : Nat} (hd : dst + n ≤ A.length) (hs : src + n ≤ A.length) :
    memmove (A ++ R) dst src n = memmove A dst src n ++ R := by
  have h1 : (A ++ R).take dst = A.take dst := List.take_append_of_le_length (by omega)
  have h2 : ((A ++ R).drop src).take n = (A.drop src).take n := by
    rw [List.drop_append_of_le_length (by omega), List.take_append_of_le_length (by rw [List.length_drop]; omega)]
  have h3 : (A ++ R).drop (dst + n) = A.drop (dst + n) ++ R := List.drop_append_of_le_length hd
  rw [memmove, memmove, h1, h2, h3, List.append_assoc, List.append_assoc, List.append_assoc]

theorem length_memmove {A : List α} {dst src n : Nat} (hd : dst + n ≤ A.length) (hs : src + n ≤ A.length) :
    (memmove A dst src n).length = A.length := by
  simp only [memmove, List.length_append, List.length_take, List.length_drop]
  omega

/-- The same `c` cells, and then `R` in the one block and `R'` in the other. -/
def Agree (c : Nat) (R R' xs ys : List α) : Prop := ∃ A : List α, A.length = c ∧ xs = A ++ R ∧ ys = A ++ R'

section Agree
variable {c : Nat} {R R' xs ys : List α}

theorem Agree.length (h : Agree c R R' xs ys) : xs.length = c + R.length ∧ ys.length = c + R'.length := by
  obtain ⟨A, rfl, rfl, rfl⟩ := h
  exact ⟨List.length_append, List.length_append⟩

theorem Agree.take (h : Agree c R R' xs ys) : xs.take c = ys.take c := by
  obtain ⟨A, rfl, rfl, rfl⟩ := h
  rw [List.take_left, List.take_left]

theorem Agree.getD (h : Agree c R R' xs ys) (i : Nat) (hi : i < c) (x : α) : ys.getD i x = xs.getD i x := by
  obtain ⟨A, rfl, rfl, rfl⟩ := h
  rw [List.getD_eq_getElem?_getD, List.getD_eq_getElem?_getD, List.getElem?_append_left hi, List.getElem?_append_left hi]

theorem Agree.set (h : Agree c R R' xs ys) (i : Nat) (hi : i < c) (x : α) : Agree c R R' (xs.set i x) (ys.set i x) := by
  obtain ⟨A, rfl, rfl, rfl⟩ := h
  exact ⟨A.set i x, List.length_set, List.set_append_left _ _ hi, List.set_append_left _ _ hi⟩

theorem Agree.memmove (h : Agree c R R' xs ys) (dst src n : Nat) (hd : dst + n ≤ c) (hs : src + n ≤ c) :
    Agree c R R' (memmove xs dst src n) (memmove ys dst src n) := by
  obtain ⟨A, rfl, rfl, rfl⟩ := h
  exact ⟨Block.memmove A dst src n, length_memmove hd hs, memmove_append hd hs, memmove_append hd hs⟩

end Agree

end Block
