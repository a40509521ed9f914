import Fnsproxy.Lib.CString

/-!
# Numbers and addresses as text

* `numText`, `numText_eq` : `%d` of a number that is not negative, and its last digit;
* `inetNtoa` : `inet_ntoa` of an address in host order;
* `decimal_numText`, `inetAton_inetNtoa` : **what is printed is read back**;
* `inetNtoa_length` : a text has at most 15 bytes.
-/

namespace CString
open Word

/-- `%d` of a number that is not negative. -/
def numText (n : Nat) : Str := (Nat.toDigits 10 n).map fun c => BitVec.ofNat 8 c.toNat

/-- `inet_ntoa` of an address in host order. -/
def inetNtoa (a : U32) : Str :=
  numText (a.toNat / 2 ^ 24) ++ 0x2e :: (numText (a.toNat / 2 ^ 16 % 256) ++
    0x2e :: (numText (a.toNat / 2 ^ 8 % 256) ++ 0x2e :: numText (a.toNat % 256)))

/-! ## Digits -/

/-- The digits, with the last one apart. -/
theorem numText_eq (n : Nat) :
    numText n = (if n < 10 then [] else numText (n / 10)) ++ [BitVec.ofNat 8 (0x30 + n % 10)] := by
  have hdigit : ∀ d < 10, BitVec.ofNat 8 (Nat.digitChar d).toNat = BitVec.ofNat 8 (0x30 + d) := by decide
  unfold numText
  rw [Nat.toDigits_eq_if (by decide)]
  split_ifs with h
  · rw [List.map_singleton, hdigit n h, Nat.mod_eq_of_lt h, List.nil_append]
  · rw [List.map_append, List.map_singleton, hdigit _ (Nat.mod_lt n (by decide))]

theorem numText_of_lt {n : Nat} (h : n < 10) : numText n = [BitVec.ofNat 8 (0x30 + n)] := by
  rw [numText_eq, if_pos h, List.nil_append, Nat.mod_eq_of_lt h]

theorem isDigit_ofNat : ∀ d < 10, isDigit (BitVec.ofNat 8 (0x30 + d)) = true := by decide

theorem digitVal_ofNat : ∀ d < 10, digitVal (BitVec.ofNat 8 (0x30 + d)) = d := by decide

/-- An induction over the digits of a number. -/
theorem digits_induct {P : Nat → Prop} (h1 : ∀ n < 10, P n) (h2 : ∀ n, 10 ≤ n → P (n / 10) → P n) (n : Nat) : P n := by
  induction n using Nat.strong_induction_on with
  | _ n ih =>
    rcases Nat.lt_or_ge n 10 with h | h
    · exact h1 n h
    · exact h2 n h (ih (n / 10) (by omega))

theorem numText_of_ge {n : Nat} (h : 10 ≤ n) : numText n = numText (n / 10) ++ [BitVec.ofNat 8 (0x30 + n % 10)] := by
  rw [numText_eq, if_neg (Nat.not_lt.mpr h)]

theorem isDigit_numText (n : Nat) : ∀ c ∈ numText n, isDigit c = true := by
  induction n using digits_induct with
  | h1 n h =>
    rw [numText_of_lt h]
    exact fun c hc => List.mem_singleton.mp hc ▸ isDigit_ofNat n h
  | h2 n h ih =>
    rw [numText_of_ge h]
    intro c hc
    rcases List.mem_append.mp hc with hc | hc
    · exact ih c hc
    · exact List.mem_singleton.mp hc ▸ isDigit_ofNat _ (Nat.mod_lt n (by decide))

theorem numText_ne_nil (n : Nat) : numText n ≠ [] := by
  rw [numText_eq]
  exact List.append_ne_nil_of_right_ne_nil _ (List.cons_ne_nil _ _)

/-- **The printed number is read back.** -/
theorem decimal_numText (n : Nat) : decimal (numText n) = n := by
  induction n using digits_induct with
  | h1 n h =>
    rw [numText_of_lt h]
    exact (Nat.zero_add _).trans (digitVal_ofNat n h)
  | h2 n h ih =>
    unfold decimal at ih ⊢
    rw [numText_of_ge h, List.foldl_append, ih, List.foldl_cons, List.foldl_nil, digitVal_ofNat _ (Nat.mod_lt n (by decide))]
    omega

theorem numText_length {n k : Nat} (hk : 0 < k) (h : n < 10 ^ k) : (numText n).length ≤ k := by
  unfold numText
  rw [List.length_map]
  exact (Nat.length_toDigits_le_iff (by decide) hk).mpr h

theorem numText_front (n : Nat) : n = 0 ∨ ∃ c s, numText n = c :: s ∧ c ≠ 0x30 := by
  induction n using digits_induct with
  | h1 n h =>
    rcases Nat.eq_zero_or_pos n with h0 | h0
    · exact Or.inl h0
    · right
      have hne : ∀ d < 10, 0 < d → BitVec.ofNat 8 (0x30 + d) ≠ 0x30 := by decide
      exact ⟨_, [], numText_of_lt h, hne n h h0⟩
  | h2 n h ih =>
    right
    rcases ih with h0 | ⟨c, s, hs, hc⟩
    · omega
    · rw [numText_of_ge h, hs]
      exact ⟨c, _, rfl, hc⟩

/-! ## Reading -/

/-- What stands behind a printed number does not go on with it. -/
def Stops (rest : Str) : Prop := ∀ c s, rest = c :: s → isDigit c = false ∧ c ≠ 0x78 ∧ c ≠ 0x58

theorem stops_nil : Stops [] := fun _ _ h => nomatch h

theorem stops_cons {c : U8} {s : Str} (h : isDigit c = false ∧ c ≠ 0x78 ∧ c ≠ 0x58) : Stops (c :: s) := by
  intro c' s' heq
  rw [← (List.cons.inj heq).1]
  exact h

theorem Stops.digits {rest : Str} (h : Stops rest) : rest.dropWhile isDigit = rest ∧ rest.takeWhile isDigit = [] := by
  cases rest with
  | nil => exact ⟨rfl, rfl⟩
  | cons c s =>
    have hc : ¬ isDigit c = true := by
      rw [(h c s rfl).1]
      decide
    exact ⟨List.dropWhile_cons_of_neg hc, List.takeWhile_cons_of_neg hc⟩

theorem digits_numText (n : Nat) {rest : Str} (h : Stops rest) : digits 10 0 (numText n ++ rest) = (n, rest) := by
  rw [digits_ten, List.takeWhile_append_of_pos (isDigit_numText n), List.dropWhile_append_of_pos (isDigit_numText n),
    h.digits.1, h.digits.2, List.append_nil]
  exact Prod.ext (decimal_numText n) rfl

theorem digits_zero {rest : Str} (h : Stops rest) : digits 8 0 (0x30 :: rest) = (0, rest) := by
  have hzero : digitVal 0x30 < 8 := by decide
  rw [digits, if_pos hzero]
  cases rest with
  | nil => rfl
  | cons c s =>
    have hc : ¬ digitVal c < 10 := fun hlt => by
      rw [digitVal_lt_ten, (h c s rfl).1] at hlt
      exact absurd hlt (by decide)
    rw [digits, if_neg (by omega)]
    rfl

theorem strtoul_numText (n : Nat) {rest : Str} (h : Stops rest) : strtoul (numText n ++ rest) = (n, rest) := by
  rcases numText_front n with rfl | ⟨c, s, hs, hc⟩
  · have hzero := digits_zero h
    rw [numText_of_lt (by decide), List.singleton_append]
    cases rest with
    | nil => exact hzero
    | cons x s =>
      cases s with
      | nil => exact hzero
      | cons c s =>
        have hx : ¬ ((x = 0x78 ∨ x = 0x58) ∧ digitVal c < 16) := by
          obtain ⟨-, h1, h2⟩ := h x _ rfl
          exact fun hx => hx.1.elim h1 h2
        exact (if_neg hx).trans hzero
  · have hdigits := digits_numText n h
    rw [hs, List.cons_append] at hdigits ⊢
    unfold strtoul
    split
    · next heq => exact absurd (List.cons.inj heq).1 hc
    · next heq => exact absurd (List.cons.inj heq).1 hc
    · exact hdigits

theorem dot_stops : isDigit 0x2e = false ∧ (0x2e : U8) ≠ 0x78 ∧ (0x2e : U8) ≠ 0x58 := by decide

theorem inetParts_dot {dots acc v : Nat} (hv : v ≤ 255) (s : Str) :
    inetParts (dots + 1) acc (numText v ++ 0x2e :: s) = inetParts dots (acc * 256 + v) s := by
  have hread := strtoul_numText v (stops_cons (s := s) dot_stops)
  obtain ⟨c, t, ht⟩ := List.exists_cons_of_ne_nil (numText_ne_nil v)
  have hc : isDigit c = true := isDigit_numText v c (ht ▸ List.mem_cons_self)
  rw [ht, List.cons_append] at hread ⊢
  rw [inetParts, if_pos hc]
  · exact if_pos hv
  · exact hread

theorem inetParts_last {dots acc v : Nat} (hv : v < 256 ^ (dots + 1)) :
    inetParts dots acc (numText v) = some (BitVec.ofNat 32 (acc * 256 ^ (dots + 1) + v)) := by
  have hread := strtoul_numText v stops_nil
  obtain ⟨c, t, ht⟩ := List.exists_cons_of_ne_nil (numText_ne_nil v)
  have hc : isDigit c = true := isDigit_numText v c (ht ▸ List.mem_cons_self)
  rw [ht, List.append_nil] at hread
  rw [ht]
  unfold inetParts
  simp only [if_pos hc, hread]
  exact if_pos ⟨rfl, hv⟩

theorem inetParts_junk {dots acc v : Nat} {c : U8} {s : Str} (hc : isDigit c = false ∧ c ≠ 0x78 ∧ c ≠ 0x58)
    (hdot : c ≠ 0x2e) (hspace : isSpace c = false) : inetParts dots acc (numText v ++ c :: s) = none := by
  have hread := strtoul_numText v (stops_cons (s := s) hc)
  obtain ⟨x, t, ht⟩ := List.exists_cons_of_ne_nil (numText_ne_nil v)
  have hx : isDigit x = true := isDigit_numText v x (ht ▸ List.mem_cons_self)
  rw [ht, List.cons_append] at hread ⊢
  unfold inetParts
  simp only [if_pos hx, hread]
  split
  · next heq => exact absurd (List.cons.inj (Prod.mk.inj heq).2).1 hdot
  · next heq => exact absurd (List.cons.inj (Prod.mk.inj heq).2).1 hdot
  · next heq _ _ =>
    rw [← (Prod.mk.inj heq).2]
    exact if_neg fun h => by simp [hspace] at h

/-- **The printed address is read back.** -/
theorem inetAton_inetNtoa (a : U32) : inetAton (inetNtoa a) = some a := by
  have ha := a.isLt
  rw [inetAton, inetNtoa, inetParts_dot (by omega), inetParts_dot (by omega), inetParts_dot (by omega),
    inetParts_last (by omega)]
  congr 1
  apply BitVec.eq_of_toNat_eq
  rw [BitVec.toNat_ofNat]
  omega

theorem inetAton_junk (a : U32) {c : U8} {s : Str} (hc : isDigit c = false ∧ c ≠ 0x78 ∧ c ≠ 0x58) (hdot : c ≠ 0x2e)
    (hspace : isSpace c = false) : inetAton (inetNtoa a ++ c :: s) = none := by
  have ha := a.isLt
  unfold inetAton inetNtoa
  rw [List.append_assoc, List.cons_append, List.append_assoc, List.cons_append, List.append_assoc, List.cons_append,
    inetParts_dot (by omega), inetParts_dot (by omega), inetParts_dot (by omega), inetParts_junk hc hdot hspace]

/-! ## The bytes of an address -/

/-- A digit or a dot. -/
def isDotted (c : U8) : Bool := isDigit c || c = 0x2e

theorem isDotted_inetNtoa (a : U32) : ∀ c ∈ inetNtoa a, isDotted c = true := by
  have hnum : ∀ n, ∀ c ∈ numText n, isDotted c = true := fun n c hc => by
    rw [isDotted, isDigit_numText n c hc, Bool.true_or]
  unfold inetNtoa
  simp only [List.mem_append, List.mem_cons]
  rintro c (hc | rfl | hc | rfl | hc | rfl | hc)
  all_goals first | exact hnum _ _ hc | rfl

theorem inetNtoa_ne_nil (a : U32) : inetNtoa a ≠ [] := List.append_ne_nil_of_left_ne_nil (numText_ne_nil _) _

theorem inetNtoa_length (a : U32) : (inetNtoa a).length ≤ 15 := by
  have ha := a.isLt
  have hnum : ∀ n < 256, (numText n).length ≤ 3 := fun n hn => numText_length (by decide) (by omega)
  have h1 := hnum (a.toNat / 2 ^ 24) (by omega)
  have h2 := hnum (a.toNat / 2 ^ 16 % 256) (by omega)
  have h3 := hnum (a.toNat / 2 ^ 8 % 256) (by omega)
  have h4 := hnum (a.toNat % 256) (by omega)
  unfold inetNtoa
  simp only [List.length_append, List.length_cons]
  omega

end CString
