import Fnsproxy.Lib.WhileLoop
import Fnsproxy.Lib.Word
import Mathlib.Data.Nat.Find

/-!
# Byte buffers

* `Buffer` : bytes by offset;
* `half`, `word`, `putWord` : big-endian reads and writes;
* `Holds b o bs` : the bytes `bs` lie in `b` from offset `o` on, with `Holds.append`, `Holds.half`;
* `scanStep` : the loop that advances a cursor while a condition holds, with `scan_eq` and `scan_exists`.
-/

namespace Bytes
open Word

/-- Bytes by offset. -/
abbrev Buffer := Nat → U8

/-- The buffer that holds `bs` from its start on, with zeros behind. -/
def ofList (bs : List U8) : Buffer := fun i => bs.getD i 0

/-- The 16-bit number at offset `o`. -/
def half (b : Buffer) (o : Nat) : Nat := be16 (b o) (b (o + 1))

/-- The 32-bit word at offset `o`. -/
def word (b : Buffer) (o : Nat) : U32 := be32 (b o) (b (o + 1)) (b (o + 2)) (b (o + 3))

/-- Write a 32-bit word at offset `o`. -/
def putWord (b : Buffer) (o : Nat) (w : U32) : Buffer := fun i =>
  if o ≤ i ∧ i < o + 4 then beByte w (i - o) else b i

theorem putWord_of_lt {b : Buffer} {o i : Nat} (h : i < o) (w : U32) : putWord b o w i = b i :=
  if_neg (by omega)

theorem putWord_of_ge {b : Buffer} {o i : Nat} (h : o + 4 ≤ i) (w : U32) : putWord b o w i = b i :=
  if_neg (by omega)

theorem putWord_add {b : Buffer} {o k : Nat} (h : k < 4) (w : U32) : putWord b o w (o + k) = beByte w k := by
  rw [putWord, if_pos (by omega), Nat.add_sub_cancel_left]

theorem word_putWord (b : Buffer) (o : Nat) (w : U32) : word (putWord b o w) o = w := by
  rw [word, putWord_add (by decide), putWord_add (by decide), putWord_add (by decide),
    show putWord b o w o = beByte w 0 from putWord_add (k := 0) (by decide) w, be32_beByte]

theorem putWord_word (b : Buffer) (o : Nat) : putWord b o (word b o) = b := by
  funext i
  unfold putWord
  split_ifs with h
  · obtain ⟨h0, h1, h2, h3⟩ := beByte_be32 (b o) (b (o + 1)) (b (o + 2)) (b (o + 3))
    obtain ⟨k, rfl⟩ : ∃ k, i = o + k := ⟨i - o, by omega⟩
    rw [Nat.add_sub_cancel_left, word]
    match k, (show k < 4 by omega) with
    | 0, _ => exact h0
    | 1, _ => exact h1
    | 2, _ => exact h2
    | 3, _ => exact h3
  · rfl

theorem half_congr {b b' : Buffer} {o n : Nat} (h : ∀ i < n, b' i = b i) (ho : o + 2 ≤ n) :
    half b' o = half b o := by
  rw [half, half, h o (by omega), h (o + 1) (by omega)]

theorem word_congr {b b' : Buffer} {o n : Nat} (h : ∀ i < n, b' i = b i) (ho : o + 4 ≤ n) :
    word b' o = word b o := by
  rw [word, word, h o (by omega), h (o + 1) (by omega), h (o + 2) (by omega), h (o + 3) (by omega)]

/-! ## Contents -/

/-- The bytes `bs` lie in `b` from offset `o` on. -/
def Holds (b : Buffer) (o : Nat) (bs : List U8) : Prop := ∀ (i : Nat) (h : i < bs.length), b (o + i) = bs.get ⟨i, h⟩

theorem holds_ofList (bs : List U8) : Holds (ofList bs) 0 bs := by
  intro i h
  rw [Nat.zero_add, ofList, List.getD_eq_getElem _ _ h]
  rfl

theorem holds_append {b : Buffer} {o : Nat} {xs ys : List U8} :
    Holds b o (xs ++ ys) ↔ Holds b o xs ∧ Holds b (o + xs.length) ys := by
  constructor
  · intro h
    constructor
    · intro i hi
      have := h i (by rw [List.length_append]; omega)
      simpa [List.getElem_append_left hi] using this
    · intro i hi
      have := h (xs.length + i) (by rw [List.length_append]; omega)
      simpa [List.getElem_append_right, Nat.add_assoc] using this
  · rintro ⟨h1, h2⟩ i hi
    rcases Nat.lt_or_ge i xs.length with hx | hx
    · have := h1 i hx
      simpa [List.getElem_append_left hx] using this
    · rw [List.length_append] at hi
      have := h2 (i - xs.length) (by omega)
      rw [Nat.add_assoc, Nat.add_sub_cancel' hx] at this
      simpa [List.getElem_append_right hx] using this

theorem holds_cons {b : Buffer} {o : Nat} {x : U8} {xs : List U8} :
    Holds b o (x :: xs) ↔ b o = x ∧ Holds b (o + 1) xs := by
  rw [← List.singleton_append, holds_append]
  refine and_congr ⟨fun h => h 0 (by simp), fun h i hi => ?_⟩ Iff.rfl
  obtain rfl : i = 0 := by simpa using hi
  exact h

theorem Holds.ne_zero {b : Buffer} {o : Nat} {bs : List U8} (h : Holds b o bs) (h0 : (0 : U8) ∉ bs) {i : Nat}
    (hoi : o ≤ i) (hi : i < o + bs.length) : b i ≠ 0 := by
  intro hz
  have := h (i - o) (by omega)
  rw [Nat.add_sub_cancel' hoi, hz] at this
  exact h0 (this ▸ List.get_mem ..)

theorem Holds.update {b : Buffer} {o q : Nat} {bs : List U8} (h : Holds b o bs) (hq : q < o ∨ o + bs.length ≤ q) (c : U8) :
    Holds (Function.update b q c) o bs := by
  intro i hi
  rw [Function.update_of_ne (by omega)]
  exact h i hi

theorem Holds.set {b : Buffer} {o q : Nat} {xs : List U8} (h : Holds b o xs) (hq : q = o + xs.length) (c : U8) :
    Holds (Function.update b q c) o (xs ++ [c]) := by
  refine holds_append.mpr ⟨h.update (Or.inr hq.ge) c, holds_cons.mpr ⟨?_, fun i hi => absurd hi (Nat.not_lt_zero i)⟩⟩
  rw [hq]
  exact Function.update_self ..

/-! ## Scans -/

/-- Advance the cursor while `c` holds. -/
def scanStep (c : Nat → Prop) [DecidablePred c] (p : Nat) : WhileLoop.Next Nat Nat :=
  if c p then .again (p + 1) else .done p

section Scan
variable {c : Nat → Prop} [DecidablePred c]

/-- A scan ends at the first offset where the condition fails. -/
theorem scan_eq {q : Nat} (hq : ¬ c q) : ∀ {fuel p : Nat}, p ≤ q → (∀ i, p ≤ i → i < q → c i) → q - p < fuel →
    WhileLoop.run (scanStep c) fuel p = some q := by
  intro fuel
  induction fuel with
  | zero => intro p _ _ h; exact absurd h (Nat.not_lt_zero _)
  | succ fuel ih =>
    intro p hpq hc hfuel
    rcases Nat.eq_or_lt_of_le hpq with rfl | hlt
    · exact WhileLoop.run_done (show scanStep c p = _ from if_neg hq) fuel
    · rw [WhileLoop.run_again (show scanStep c p = _ from if_pos (hc p (Nat.le_refl p) hlt))]
      exact ih hlt (fun i h1 h2 => hc i (by omega) h2) (by omega)

theorem scan_over {d : U8 → Prop} [DecidablePred d] {b : Buffer} {o fuel : Nat} {xs ys : List U8} {y : U8}
    (h : Holds b o (xs ++ y :: ys)) (hxs : ∀ x ∈ xs, d x) (hy : ¬ d y) (hfuel : xs.length < fuel) :
    WhileLoop.run (scanStep fun p => d (b p)) fuel o = some (o + xs.length) := by
  obtain ⟨hx, hrest⟩ := holds_append.mp h
  refine scan_eq ?_ (Nat.le_add_right ..) (fun i h1 h2 => ?_) (by omega)
  · rw [(holds_cons.mp hrest).1]
    exact hy
  · have := hx (i - o) (by omega)
    rw [Nat.add_sub_cancel' h1] at this
    rw [this]
    exact hxs _ (List.get_mem ..)

theorem scan_exists {p e : Nat} (hpe : p ≤ e) (he : ¬ c e) :
    ∃ q, p ≤ q ∧ q ≤ e ∧ (∀ i, p ≤ i → i < q → c i) ∧ ¬ c q := by
  have hex : ∃ q, p ≤ q ∧ ¬ c q := ⟨e, hpe, he⟩
  obtain ⟨h1, h2⟩ := Nat.find_spec hex
  exact ⟨Nat.find hex, h1, Nat.find_min' hex ⟨hpe, he⟩,
    fun i h3 h4 => by_contra fun h5 => Nat.find_min hex h4 ⟨h3, h5⟩, h2⟩

end Scan

end Bytes
