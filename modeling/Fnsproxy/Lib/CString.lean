import Fnsproxy.Lib.Buffer
import Mathlib.Data.List.TakeWhile

/-!
# C strings

A string is the list of the bytes before its terminator.

* `isSpace`, `isDigit`, `digitVal` : `isspace`, `isdigit` on ASCII, the value of a digit up to base 16;
* `digits`, `strtoul`, `atoi`, `inetAton` : the conversions of the standard library;
* `str` : the string at an offset of a buffer;
* `decimal`, `leadingNumber`, `atoi_eq` : the number `atoi` finds, before it is cut to 32 bits.
-/

namespace CString
open Word Bytes

/-- The bytes before the terminator. -/
abbrev Str := List U8

def isSpace (c : U8) : Bool := c = 0x20 ∨ (0x09 ≤ c ∧ c ≤ 0x0d)

def isDigit (c : U8) : Bool := 0x30 ≤ c ∧ c ≤ 0x39

/-- The value of a digit, 16 for what is none. -/
def digitVal (c : U8) : Nat :=
  if isDigit c then c.toNat - 0x30
  else if 0x41 ≤ c ∧ c ≤ 0x46 then c.toNat - 0x41 + 10
  else if 0x61 ≤ c ∧ c ≤ 0x66 then c.toNat - 0x61 + 10
  else 16

/-- Read digits of a base on from `acc`: the number, and the string behind. -/
def digits (base : Nat) : Nat → Str → Nat × Str
  | acc, [] => (acc, [])
  | acc, c :: s => if digitVal c < base then digits base (acc * base + digitVal c) s else (acc, c :: s)

/-- `strtoul` with base 0, on a string that begins with a digit; a number that does not fit stays as it is. -/
def strtoul (s : Str) : Nat × Str :=
  match s with
  | 0x30#8 :: x :: c :: s' =>
    if (x = 0x78 ∨ x = 0x58) ∧ digitVal c < 16 then digits 16 0 (c :: s') else digits 8 0 s
  | 0x30#8 :: _ => digits 8 0 s
  | _ => digits 10 0 s

/-- `atoi`, which goes through `long`. -/
def atoi (s : Str) : U32 :=
  let s := s.dropWhile isSpace
  let n : Int := match s with
    | 0x2d#8 :: s => max (-(digits 10 0 s).1) (-2 ^ 63)
    | 0x2b#8 :: s => min (digits 10 0 s).1 (2 ^ 63 - 1)
    | _ => min (digits 10 0 s).1 (2 ^ 63 - 1)
  BitVec.ofInt 32 n

/-- The parts of an address that up to `dots` further dots divide, behind those that make up `acc`. -/
def inetParts : Nat → Nat → Str → Option U32
  | _, _, [] => none
  | dots, acc, c :: s =>
    if isDigit c then
      match strtoul (c :: s), dots with
      | (val, 0x2e#8 :: s), dots + 1 => if val ≤ 0xff then inetParts dots (acc * 256 + val) s else none
      | (_, 0x2e#8 :: _), 0 => none
      | (val, s), dots =>
        if (s.head?.all isSpace) ∧ val < 256 ^ (dots + 1) then some (BitVec.ofNat 32 (acc * 256 ^ (dots + 1) + val))
        else none
    else none

/-- `inet_aton` and `ntohl`. -/
def inetAton (s : Str) : Option U32 := inetParts 3 0 s

/-- The string at offset `p` of a buffer of `size` bytes. -/
def str (b : Buffer) (p size : Nat) : Str := ((List.range (size - p)).map fun i => b (p + i)).takeWhile (· ≠ 0)

theorem str_eq {b : Buffer} {p size : Nat} {s : Str} {rest : List U8} (h : Holds b p (s ++ 0 :: rest)) (h0 : (0 : U8) ∉ s)
    (hsize : p + s.length < size) : str b p size = s := by
  obtain ⟨hs, hrest⟩ := holds_append.mp h
  obtain ⟨k, hk⟩ : ∃ k, size - p = s.length + (k + 1) := ⟨size - p - s.length - 1, by omega⟩
  have hfront : (List.range s.length).map (fun i => b (p + i)) = s := by
    refine List.ext_getElem (by simp) fun i h1 h2 => ?_
    rw [List.getElem_map, List.getElem_range]
    exact hs i h2
  rw [str, hk, List.range_add, List.map_append, hfront, List.takeWhile_append_of_pos fun c hc => by
    rw [decide_eq_true_eq]
    rintro rfl
    exact h0 hc, List.range_succ_eq_map, List.map_cons, List.map_cons, List.takeWhile_cons_of_neg, List.append_nil]
  rw [Nat.add_zero, (holds_cons.mp hrest).1]
  decide

/-! ## Decimal numbers -/

/-- The value of a string of digits. -/
def decimal (s : Str) : Nat := s.foldl (fun n c => n * 10 + digitVal c) 0

/-- The number at the front of a string, behind blanks and a sign; 0 where there is none. -/
def leadingNumber (s : Str) : Int :=
  match s.dropWhile isSpace with
  | 0x2d#8 :: s => -(decimal (s.takeWhile isDigit))
  | 0x2b#8 :: s => decimal (s.takeWhile isDigit)
  | s => decimal (s.takeWhile isDigit)

/-- The `long` next to a number. -/
def clampLong (n : Int) : Int := max (-2 ^ 63) (min n (2 ^ 63 - 1))

theorem digitVal_lt_ten (c : U8) : digitVal c < 10 ↔ isDigit c = true := by
  unfold digitVal
  by_cases h : isDigit c = true
  · rw [if_pos h]
    refine iff_of_true ?_ h
    simp only [isDigit, decide_eq_true_eq, BitVec.le_def, BitVec.reduceToNat] at h
    omega
  · rw [if_neg h]
    refine iff_of_false ?_ h
    split_ifs <;> omega

theorem digits_ten (acc : Nat) (s : Str) :
    digits 10 acc s = ((s.takeWhile isDigit).foldl (fun n c => n * 10 + digitVal c) acc, s.dropWhile isDigit) := by
  induction s generalizing acc with
  | nil => rfl
  | cons c s ih =>
    rw [digits]
    by_cases h : isDigit c = true
    · rw [if_pos ((digitVal_lt_ten c).mpr h), ih, List.takeWhile_cons_of_pos h, List.dropWhile_cons_of_pos h,
        List.foldl_cons]
    · rw [if_neg (fun hc => h ((digitVal_lt_ten c).mp hc)), List.takeWhile_cons_of_neg h, List.dropWhile_cons_of_neg h,
        List.foldl_nil]

/-- `atoi` cuts the number at the front of the string to 32 bits. -/
theorem atoi_eq (s : Str) : atoi s = BitVec.ofInt 32 (clampLong (leadingNumber s)) := by
  unfold atoi leadingNumber clampLong
  simp only [digits_ten, decimal]
  split <;> (congr 1; omega)

theorem atoi_le_iff {s : Str} {n : Nat} (hn : n < 2 ^ 32) :
    (atoi s).toNat ≤ n ↔ clampLong (leadingNumber s) % 2 ^ 32 ≤ n := by
  rw [atoi_eq, BitVec.toNat_ofInt]
  omega

theorem leadingNumber_of_digits {s : Str} (h : ∀ c ∈ s, isDigit c = true) : leadingNumber s = decimal s := by
  cases s with
  | nil => rfl
  | cons c s =>
    have hc : isDigit c = true := h c List.mem_cons_self
    have hspace : isSpace c = false := by
      simp only [isDigit, isSpace, decide_eq_true_eq, decide_eq_false_iff_not, BitVec.le_def, BitVec.reduceToNat,
        ← BitVec.toNat_inj] at hc ⊢
      omega
    have htake : (c :: s).takeWhile isDigit = c :: s := List.takeWhile_eq_self_iff.mpr h
    unfold leadingNumber
    rw [List.dropWhile_cons_of_neg (by rw [hspace]; decide)]
    split
    · rename_i heq
      rw [(List.cons.inj heq).1] at hc
      exact absurd hc (by decide)
    · rename_i heq
      rw [(List.cons.inj heq).1] at hc
      exact absurd hc (by decide)
    · rw [htake]

end CString
