import Mathlib.Tactic.Common
import Mathlib.Data.Nat.Bitwise

/-!
# Fixed-width words

* `U8`, `U32` : bytes and 32-bit words;
* `toNat_high`, `toNat_low`, `toNat_fillLow`, `toNat_nextHigh` : the high and low half of a
  word, and the shift-and-mask arithmetic on them, as division by `2 ^ 16`;
* `be16`, `be32` : big-endian reads; `beByte` : the bytes of a word, `be32_beByte` the round trip.
-/

namespace Word

/-- A byte. -/
abbrev U8 := BitVec 8

/-- A 32-bit word. -/
abbrev U32 := BitVec 32

/-! ## Halves of a word -/

theorem or_low (n k : Nat) : n ||| (2 ^ k - 1) = n / 2 ^ k * 2 ^ k + (2 ^ k - 1) := by
  apply Nat.eq_of_testBit_eq
  intro i
  rw [Nat.mul_comm, Nat.testBit_two_pow_mul_add _ (by have := Nat.two_pow_pos k; omega),
    Nat.testBit_or, Nat.testBit_two_pow_sub_one]
  by_cases h : i < k
  · simp [h]
  · simp [h, Nat.testBit_div_two_pow, Nat.sub_add_cancel (Nat.le_of_not_lt h)]

theorem and_high (n k m : Nat) (h : n < 2 ^ (k + m)) :
    n &&& (2 ^ k * (2 ^ m - 1)) = n / 2 ^ k * 2 ^ k := by
  apply Nat.eq_of_testBit_eq
  intro i
  rw [Nat.testBit_and, Nat.testBit_two_pow_mul, Nat.mul_comm, Nat.testBit_two_pow_mul,
    Nat.testBit_two_pow_sub_one, Nat.testBit_div_two_pow]
  by_cases hk : i < k
  · simp [Nat.not_le.mpr hk]
  · have hki : k ≤ i := Nat.le_of_not_lt hk
    rw [Nat.sub_add_cancel hki]
    by_cases hm : i - k < m
    · simp [hki, hm]
    · have : n.testBit i = false :=
        Nat.testBit_lt_two_pow (Nat.lt_of_lt_of_le h (Nat.pow_le_pow_right (by decide) (by omega)))
      simp [this]

theorem toNat_high (n : U32) : (n >>> 16).toNat = n.toNat / 65536 := by
  simp [Nat.shiftRight_eq_div_pow]

theorem toNat_low (n : U32) : (n &&& 0xffff#32).toNat = n.toNat % 65536 := by
  rw [BitVec.toNat_and]
  exact Nat.and_two_pow_sub_one_eq_mod n.toNat 16

theorem toNat_fillLow (n : U32) : (n ||| 0xffff#32).toNat = n.toNat / 65536 * 65536 + 65535 := by
  rw [BitVec.toNat_or]
  exact or_low n.toNat 16

theorem toNat_nextHigh (n : U32) :
    ((n + 0x10000#32) &&& 0xffff0000#32).toNat = (n.toNat / 65536 + 1) % 65536 * 65536 := by
  have hn := n.isLt
  have hmask : (0xffff0000#32).toNat = 2 ^ 16 * (2 ^ 16 - 1) := rfl
  rw [BitVec.toNat_and, hmask, and_high _ 16 16 (BitVec.isLt _), BitVec.toNat_add]
  simp only [BitVec.toNat_ofNat]
  omega

/-! ## Big-endian bytes -/

/-- The 16-bit number in two bytes, high byte first. -/
def be16 (b0 b1 : U8) : Nat := b0.toNat * 256 + b1.toNat

/-- The 32-bit word in four bytes, high byte first. -/
def be32 (b0 b1 b2 b3 : U8) : U32 := b0 ++ b1 ++ b2 ++ b3

/-- Byte `i` of a word, byte `0` the highest. -/
def beByte (w : U32) (i : Nat) : U8 := w.extractLsb' (24 - 8 * i) 8

theorem be32_beByte (w : U32) : be32 (beByte w 0) (beByte w 1) (beByte w 2) (beByte w 3) = w := by
  apply BitVec.eq_of_getLsbD_eq
  intro i hi
  simp only [be32, beByte, BitVec.getLsbD_append, BitVec.getLsbD_extractLsb']
  rcases Nat.lt_or_ge i 8 with h | h
  · simp [h]
  · rcases Nat.lt_or_ge i 16 with h' | h'
    · simp [Nat.not_lt.mpr h, show i - 8 < 8 by omega, show 8 + (i - 8) = i by omega]
    · rcases Nat.lt_or_ge i 24 with h'' | h''
      · simp [Nat.not_lt.mpr h, show ¬ i - 8 < 8 by omega, show i - 8 - 8 < 8 by omega,
          show 16 + (i - 8 - 8) = i by omega]
      · simp [Nat.not_lt.mpr h, show ¬ i - 8 < 8 by omega, show ¬ i - 8 - 8 < 8 by omega,
          show i - 8 - 8 - 8 < 8 by omega, show 24 + (i - 8 - 8 - 8) = i by omega]

theorem beByte_be32 (b0 b1 b2 b3 : U8) :
    beByte (be32 b0 b1 b2 b3) 0 = b0 ∧ beByte (be32 b0 b1 b2 b3) 1 = b1 ∧
      beByte (be32 b0 b1 b2 b3) 2 = b2 ∧ beByte (be32 b0 b1 b2 b3) 3 = b3 := by
  refine ⟨?_, ?_, ?_, ?_⟩ <;> apply BitVec.eq_of_getLsbD_eq <;> intro i hi <;>
    simp only [be32, beByte, BitVec.getLsbD_append, BitVec.getLsbD_extractLsb']
  · simp [hi, show ¬ 24 + i < 8 by omega, show ¬ 24 + i - 8 < 8 by omega,
      show ¬ 24 + i - 8 - 8 < 8 by omega, show 24 + i - 8 - 8 - 8 = i by omega]
  · simp [hi, show ¬ 16 + i < 8 by omega, show ¬ 16 + i - 8 < 8 by omega,
      show 16 + i - 8 - 8 = i by omega]
  · simp [hi, show ¬ 8 + i < 8 by omega]
  · simp [hi]

end Word
