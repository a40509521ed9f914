import Mathlib.Tactic.Common
import Mathlib.Data.BitVec
import Mathlib.Data.Nat.Basic

/-!
# Counters

A counter starts at `0` and goes up and down by one. A fixed-width counter falls back to `0` once it is
full, a `Nat` never is:

* `Counter C` : the counters of type `C`, with the number each stands for;
* `Counter.Room` : the number behind this one is a counter too;
* the instances for `Nat` and for `BitVec w`.
-/

/-- A type to count in. -/
class Counter (C : Type) extends One C, Add C, Sub C where
  zero : C
  count : C → Nat
  zero_iff : ∀ c : C, c = zero ↔ count c = 0
  count_add : ∀ c d : C, count d = count c + 1 → count (c + 1) = count c + 1
  count_sub : ∀ c : C, 0 < count c → count (c - 1) = count c - 1

namespace Counter
variable {C : Type} [Counter C]

-- of a low priority: a type that has a zero of its own keeps it
instance (priority := 50) : Zero C := ⟨zero⟩

theorem count_eq_zero (c : C) : c = 0 ↔ count c = 0 := zero_iff c

/-- The counter is not full. -/
def Room (c : C) : Prop := ∃ d : C, count d = count c + 1

theorem Room.count_add {c : C} (h : Room c) : count (c + 1) = count c + 1 := by
  obtain ⟨d, hd⟩ := h
  exact Counter.count_add c d hd

@[simp] theorem count_zero : count (0 : C) = 0 := (count_eq_zero 0).mp rfl

theorem eq_zero_of_count {c : C} (h : count c = 0) : c = 0 := (count_eq_zero c).mpr h

theorem exists_count (d : C) : ∀ k ≤ count d, ∃ e : C, count e = count d - k := by
  intro k
  induction k with
  | zero => exact fun _ => ⟨d, rfl⟩
  | succ k ih =>
    intro hk
    obtain ⟨e, he⟩ := ih (Nat.le_of_succ_le hk)
    exact ⟨e - 1, by rw [count_sub e (by omega), he]; omega⟩

theorem Room.of_lt {c d : C} (h : count c < count d) : Room c := by
  obtain ⟨e, he⟩ := exists_count d (count d - (count c + 1)) (Nat.sub_le ..)
  exact ⟨e, by omega⟩

instance : Counter Nat where
  zero := 0
  one := 1
  add := Nat.add
  sub := Nat.sub
  count := id
  zero_iff _ := Iff.rfl
  count_add _ _ _ := rfl
  count_sub _ _ := rfl

theorem room_nat (n : Nat) : Room n := ⟨n + 1, rfl⟩

instance (w : Nat) : Counter (BitVec w) where
  zero := 0#w
  one := 1#w
  count := BitVec.toNat
  zero_iff c := by
    rw [← BitVec.toNat_inj]
    rfl
  count_add c d h := by
    have hlt : c.toNat + 1 < 2 ^ w := h ▸ d.isLt
    show (c + 1#w).toNat = c.toNat + 1
    rw [BitVec.toNat_add, BitVec.toNat_ofNat, Nat.add_mod_mod, Nat.mod_eq_of_lt hlt]
  count_sub c h := by
    have hpos : 0 < c.toNat := h
    have hle : 1#w ≤ c := by
      rw [BitVec.le_def, BitVec.toNat_ofNat]
      exact le_trans (Nat.mod_le 1 _) hpos
    show (c - 1#w).toNat = c.toNat - 1
    rw [BitVec.toNat_sub_of_le hle, BitVec.toNat_ofNat, Nat.mod_eq_of_lt]
    exact lt_of_le_of_lt hpos c.isLt

theorem room_bitVec {w : Nat} {c : BitVec w} : Room c ↔ c.toNat + 1 < 2 ^ w := by
  constructor
  · rintro ⟨d, hd⟩
    exact hd ▸ d.isLt
  · intro h
    exact ⟨BitVec.ofNat w (c.toNat + 1), by
      show (BitVec.ofNat w (c.toNat + 1)).toNat = _
      rw [BitVec.toNat_ofNat, Nat.mod_eq_of_lt h]
      rfl⟩

end Counter
