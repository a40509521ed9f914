import Mathlib.Tactic.Common
import Mathlib.Data.BitVec
import Mathlib.Data.Nat.Basic

/-!
# Bit prefixes of a word, and the longest of a set of prefixes

* `bitAt w d` : the word whose only bit is number `d` from the top, `0` from `d = w` on;
* `leadingMask w n` : the word whose first `n` bits are set;
* `path key n` : the first `n` bits of `key`, the last of them first;
* `path_eq_iff` : two keys share a path exactly if they agree under the mask;
* `longest f n` : the last value other than zero among `f 0, ..., f n`.
-/

namespace BitPrefix

variable {w : Nat}

/-! ## Single bits and masks -/

/-- Bit `d` from the top, as a word. -/
def bitAt (w d : Nat) : BitVec w := BitVec.twoPow w (w - 1) >>> d

/-- The word whose first `n` bits are set. -/
def leadingMask (w n : Nat) : BitVec w := BitVec.allOnes w <<< (w - n)

theorem bitAt_succ (w d : Nat) : bitAt w d >>> 1 = bitAt w (d + 1) := by
  rw [bitAt, bitAt, BitVec.shiftRight_add]

theorem getMsbD_bitAt (w d i : Nat) : (bitAt w d).getMsbD i = decide (i = d ∧ d < w) := by
  unfold bitAt
  rw [BitVec.getMsbD_ushiftRight, BitVec.getMsbD_twoPow]
  by_cases hi : i < w
  · by_cases hd : i < d
    · simp [hd, show ¬ i = d by omega]
    · simp only [hi, hd, decide_true, Bool.true_and]
      rw [Bool.eq_iff_iff]
      simp
      omega
  · simp [hi]
    omega

theorem getMsbD_leadingMask {n : Nat} (hn : n ≤ w) (i : Nat) :
    (leadingMask w n).getMsbD i = decide (i < n) := by
  unfold leadingMask
  rw [BitVec.getMsbD_shiftLeft, BitVec.getMsbD_allOnes]
  rw [Bool.eq_iff_iff]
  simp
  omega

theorem and_bitAt_eq_zero (x : BitVec w) (d : Nat) : x &&& bitAt w d = 0 ↔ x.getMsbD d = false := by
  constructor
  · intro h
    have := congrArg (fun y => y.getMsbD d) h
    simp only [BitVec.getMsbD_and, getMsbD_bitAt] at this
    by_cases hd : d < w
    · simpa [hd] using this
    · exact BitVec.getMsbD_of_ge x d (Nat.le_of_not_lt hd)
  · intro h
    apply BitVec.eq_of_getMsbD_eq
    intro i hi
    rw [BitVec.getMsbD_and, getMsbD_bitAt]
    by_cases hid : i = d
    · subst hid
      simp [h]
    · simp [hid]

theorem bitAt_and_leadingMask {n d : Nat} (hn : n ≤ w) :
    bitAt w d &&& leadingMask w n = 0 ↔ n ≤ d := by
  rw [BitVec.and_comm, and_bitAt_eq_zero, getMsbD_leadingMask hn]
  simp

/-! ## Paths -/

/-- The first `n` bits of `key`, the last of them first. -/
def path (key : BitVec w) : Nat → List Bool
  | 0 => []
  | n + 1 => key.getMsbD n :: path key n

@[simp] theorem length_path (key : BitVec w) (n : Nat) : (path key n).length = n := by
  induction n with
  | zero => rfl
  | succ n ih => rw [path, List.length_cons, ih]

/-- Shorter prefixes are the later parts of the path. -/
theorem path_suffix (key : BitVec w) {m n : Nat} (h : m ≤ n) : path key m <:+ path key n := by
  induction n, h using Nat.le_induction with
  | base => exact List.suffix_rfl
  | succ n _ ih => exact ih.trans (List.suffix_cons _ _)

theorem path_eq_iff_getMsbD {key key' : BitVec w} {n : Nat} :
    path key n = path key' n ↔ ∀ d < n, key.getMsbD d = key'.getMsbD d := by
  induction n with
  | zero => simp [path]
  | succ n ih =>
    rw [path, path, List.cons.injEq, ih]
    constructor
    · rintro ⟨hn, h⟩ d hd
      rcases Nat.lt_succ_iff_lt_or_eq.mp hd with hd | rfl
      · exact h d hd
      · exact hn
    · intro h
      exact ⟨h n (Nat.lt_succ_self n), fun d hd => h d (Nat.lt_succ_of_lt hd)⟩

/-- Keys share their first `n` bits exactly if they agree under the mask. -/
theorem path_eq_iff {key key' : BitVec w} {n : Nat} (hn : n ≤ w) :
    path key n = path key' n ↔ key &&& leadingMask w n = key' &&& leadingMask w n := by
  rw [path_eq_iff_getMsbD]
  constructor
  · intro h
    apply BitVec.eq_of_getMsbD_eq
    intro i hi
    rw [BitVec.getMsbD_and, BitVec.getMsbD_and, getMsbD_leadingMask hn]
    by_cases hin : i < n
    · rw [h i hin]
    · simp [hin]
  · intro h d hd
    have := congrArg (fun y => y.getMsbD d) h
    simpa [BitVec.getMsbD_and, getMsbD_leadingMask hn, hd] using this

theorem path_inj {key key' : BitVec w} {n n' : Nat} (hn : n ≤ w)
    (h : path key n = path key' n') : n = n' ∧ key &&& leadingMask w n = key' &&& leadingMask w n' := by
  have hl := congrArg List.length h
  rw [length_path, length_path] at hl
  subst hl
  exact ⟨rfl, (path_eq_iff hn).mp h⟩

/-! ## The longest prefix with a value -/

section Longest
variable {β : Type*} [Zero β] [DecidableEq β]

/-- The last value other than zero among `f 0, ..., f n`. -/
def longest (f : Nat → β) : Nat → β
  | 0 => f 0
  | n + 1 => if f (n + 1) ≠ 0 then f (n + 1) else longest f n

/-- `v` is the value of the longest of the prefixes `0, ..., n` that has one, zero when none has. -/
def IsLongest (f : Nat → β) (n : Nat) (v : β) : Prop :=
  (v ≠ 0 ∧ ∃ m ≤ n, f m = v ∧ ∀ k, m < k → k ≤ n → f k = 0) ∨ (v = 0 ∧ ∀ k ≤ n, f k = 0)

theorem longest_spec (f : Nat → β) (n : Nat) : IsLongest f n (longest f n) := by
  induction n with
  | zero =>
    by_cases h : f 0 = 0
    · exact Or.inr ⟨h, fun k hk => by rw [Nat.le_zero.mp hk, h]⟩
    · exact Or.inl ⟨h, 0, Nat.le_refl 0, rfl, fun k h1 h2 => by omega⟩
  | succ n ih =>
    rw [longest]
    by_cases h : f (n + 1) = 0
    · rw [if_neg (not_not.mpr h)]
      have hlast : ∀ k, k ≤ n + 1 → (k ≤ n → f k = 0) → f k = 0 := by
        intro k hk hkn
        rcases Nat.lt_or_ge n k with h1 | h1
        · rw [show k = n + 1 by omega, h]
        · exact hkn h1
      rcases ih with ⟨hv, m, hm, hfm, hrest⟩ | ⟨hv, hall⟩
      · exact Or.inl ⟨hv, m, by omega, hfm, fun k h1 h2 => hlast k h2 (hrest k h1)⟩
      · exact Or.inr ⟨hv, fun k hk => hlast k hk (hall k)⟩
    · rw [if_pos h]
      exact Or.inl ⟨h, n + 1, Nat.le_refl _, rfl, fun k h1 h2 => by omega⟩

theorem longest_congr {f g : Nat → β} {n : Nat} (h : ∀ k ≤ n, f k = g k) : longest f n = longest g n := by
  induction n with
  | zero => exact h 0 (Nat.le_refl 0)
  | succ n ih =>
    rw [longest, longest, h (n + 1) (Nat.le_refl _), ih (fun k hk => h k (by omega))]

theorem longest_of_zero {f : Nat → β} {m n : Nat} (hmn : m ≤ n) (h : ∀ k, m < k → k ≤ n → f k = 0) :
    longest f n = longest f m := by
  induction n with
  | zero => rw [Nat.le_zero.mp hmn]
  | succ n ih =>
    rcases Nat.lt_or_ge n m with h1 | h1
    · rw [show m = n + 1 by omega]
    · rw [longest, if_neg (not_not.mpr (h (n + 1) (by omega) (Nat.le_refl _))),
        ih h1 (fun k h2 h3 => h k h2 (by omega))]

theorem longest_set {f g : Nat → β} {m n : Nat} (hmn : m ≤ n) (hsame : ∀ k ≤ n, k ≠ m → g k = f k) (h0 : f m = 0)
    (hbeyond : ∀ k, m < k → k ≤ n → f k = 0) : longest g n = if g m ≠ 0 then g m else longest f n := by
  rw [longest_of_zero hmn hbeyond,
    longest_of_zero hmn fun k h1 h2 => (hsame k h2 (by omega)).trans (hbeyond k h1 h2)]
  cases m with
  | zero =>
    rw [longest, longest, h0]
    split_ifs with hg
    · rfl
    · exact not_not.mp hg
  | succ m =>
    rw [longest, longest, h0, if_neg (not_not.mpr rfl), longest_congr fun k hk => hsame k (by omega) (by omega)]

end Longest

end BitPrefix
