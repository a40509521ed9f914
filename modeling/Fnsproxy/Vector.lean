import Fnsproxy.Lib.Block
import Mathlib.Data.Stream.Defs
import Mathlib.Data.Nat.Basic
import Mathlib.Tactic.Ring

/-!
# vector.c: the growing array

The block is a list of cells, one for each element that fits; sizes and products are the 32-bit
`unsigned int` arithmetic of the source.

* `vectorNew`, `vectorInit`, `vectorPush`, `vectorSetAt`, `vectorGetAt`, `vectorResize` :
  the functions of the source, `-1` their error return;
* `VectorT.entries` : the first `count` cells;
* `VectorT.Fits` : the block holds `slots` cells and its byte count is a power of two;
* `vectorPush_spec` : a push on such a vector appends its element or leaves it as it was;
* `Willing`, `VectorT.Room`, `vectorPush_willing` : when a push cannot fail.
-/

namespace Fnsproxy

/-- The outcomes of the allocations a call makes, in order: `true` when the allocator delivers. -/
abbrev Allocs := Stream' Bool

/-- `vector_t`; `data` is the block as cells of one element each. -/
structure VectorT (α : Type) where
  count : Nat
  slots : Nat
  size : Nat
  data : List α
deriving Repr

/-- `unsigned int` arithmetic. -/
abbrev wrap32 (n : Nat) : Nat := n % 2 ^ 32

section Functions
variable {α : Type} [Inhabited α]

/-- The cells of a block of `bytes` bytes: those of the old block as far as they fit, then cells
nobody has written yet. -/
def cellsOf (bytes size : Nat) (old : List α) : List α :=
  old.take (bytes / size) ++ List.replicate (bytes / size - old.length) default

def vectorInit (slots size : Nat) (a : Allocs) : Int × VectorT α × Allocs :=
  let slots := if slots = 0 then 16 else slots
  if a.head then (0, ⟨0, slots, size, cellsOf (wrap32 (slots * size)) size []⟩, a.tail)
  else (-1, ⟨0, slots, size, []⟩, a.tail)

def vectorNew (slots size : Nat) (a : Allocs) : Option (VectorT α) × Allocs :=
  if a.head then
    match vectorInit slots size a.tail with
    | (ret, vec, a) => if ret < 0 then (none, a) else (some vec, a)
  else (none, a.tail)

/-- `realloc` of zero bytes delivers no block. -/
def vectorResize (vec : VectorT α) (a : Allocs) : Int × VectorT α × Allocs :=
  let bytes := wrap32 (wrap32 (vec.slots * 2) * vec.size)
  if a.head ∧ bytes ≠ 0 then
    (0, { vec with data := cellsOf bytes vec.size vec.data, slots := wrap32 (vec.slots * 2) }, a.tail)
  else (-1, vec, a.tail)

/-- The `while (index >= vec->slots)` loop of `vector_set_at`. Doubling empties `slots` after 32
rounds, where `vectorResize` fails, so 33 rounds are all the loop can make. -/
def vectorGrow (index : Nat) : Nat → VectorT α → Allocs → Int × VectorT α × Allocs
  | 0, vec, a => (-1, vec, a)
  | rounds + 1, vec, a =>
    if vec.slots ≤ index then
      match vectorResize vec a with
      | (ret, vec, a) => if ret < 0 then (-1, vec, a) else vectorGrow index rounds vec a
    else (0, vec, a)

/-- The cell at `(char *)data + index * size`. -/
def VectorT.cell (vec : VectorT α) (index : Nat) : Nat := wrap32 (index * vec.size) / vec.size

def vectorSetAt (vec : VectorT α) (index : Nat) (x : α) (a : Allocs) : Int × VectorT α × Allocs :=
  match vectorGrow index 33 vec a with
  | (ret, vec, a) =>
    if ret < 0 then (-1, vec, a)
    else (0, { vec with data := vec.data.set (vec.cell index) x, count := wrap32 (vec.count + 1) }, a)

def vectorPush (vec : VectorT α) (x : α) (a : Allocs) : Int × VectorT α × Allocs :=
  if vec.count = wrap32 (vec.slots + 2 ^ 32 - 1) then
    match vectorResize vec a with
    | (ret, vec, a) => if ret < 0 then (-1, vec, a) else vectorSetAt vec vec.count x a
  else vectorSetAt vec vec.count x a

def vectorGetAt (vec : VectorT α) (index : Nat) : Option α :=
  if vec.slots ≤ index then none else vec.data[vec.cell index]?

end Functions

/-! ## Vectors whose block fits -/

section Fits
variable {α : Type}

/-- The elements of the vector. -/
def VectorT.entries (vec : VectorT α) : List α := vec.data.take vec.count

/-- The block has a cell for every slot, at least one of them free, and `2 ^ k` bytes. -/
structure VectorT.Fits (vec : VectorT α) : Prop where
  size_pos : 0 < vec.size
  count_lt : vec.count < vec.slots
  length_data : vec.data.length = vec.slots
  bytes : ∃ k < 32, vec.slots * vec.size = 2 ^ k

theorem VectorT.Fits.bytes_lt {vec : VectorT α} (h : vec.Fits) : vec.slots * vec.size < 2 ^ 32 := by
  obtain ⟨k, hk, e⟩ := h.bytes
  rw [e]
  exact Nat.pow_lt_pow_right (by decide) hk

theorem VectorT.Fits.slots_lt {vec : VectorT α} (h : vec.Fits) : vec.slots < 2 ^ 32 :=
  lt_of_le_of_lt (Nat.le_mul_of_pos_right _ h.size_pos) h.bytes_lt

theorem VectorT.Fits.length_entries {vec : VectorT α} (h : vec.Fits) :
    vec.entries.length = vec.count := by
  have := h.count_lt
  rw [entries, List.length_take, h.length_data]
  omega

theorem VectorT.Fits.cell_eq {vec : VectorT α} (h : vec.Fits) {index : Nat}
    (hi : index < vec.slots) : vec.cell index = index := by
  have hb : index * vec.size < 2 ^ 32 :=
    lt_of_le_of_lt (Nat.mul_le_mul_right _ hi.le) h.bytes_lt
  rw [VectorT.cell, wrap32, Nat.mod_eq_of_lt hb, Nat.mul_div_cancel _ h.size_pos]

variable [Inhabited α]

theorem length_cellsOf {bytes size : Nat} {old : List α} :
    (cellsOf bytes size old).length = bytes / size := by
  rw [cellsOf, List.length_append, List.length_take, List.length_replicate]
  omega

theorem cellsOf_take {bytes size n : Nat} {old : List α} (h : old.length ≤ bytes / size)
    (hn : n ≤ old.length) : (cellsOf bytes size old).take n = old.take n := by
  rw [cellsOf, List.take_of_length_le h, List.take_append_of_le_length hn]

theorem vectorNew_spec {slots size k : Nat} (hs : 1 < slots) (hz : 0 < size) (hk : k < 32)
    (hb : slots * size = 2 ^ k) (a : Allocs) :
    (∃ a', vectorNew slots size a = ((none : Option (VectorT α)), a')) ∨
      ∃ (vec : VectorT α) (a' : Allocs), vectorNew slots size a = (some vec, a') ∧ vec.Fits ∧
        vec.entries = [] := by
  have hlt : slots * size < 2 ^ 32 := by
    rw [hb]
    exact Nat.pow_lt_pow_right (by decide) hk
  cases h0 : a.head with
  | false => left; simp [vectorNew, h0]
  | true =>
    cases h1 : a.tail.head with
    | false => left; simp [vectorNew, vectorInit, h0, h1]
    | true =>
      right
      refine ⟨⟨0, slots, size, cellsOf (slots * size) size []⟩, a.tail.tail, ?_, ⟨hz, ?_, ?_, k, hk, hb⟩,
        rfl⟩
      · simp [vectorNew, vectorInit, h0, h1, show slots ≠ 0 by omega, Nat.mod_eq_of_lt hlt]
      · exact Nat.lt_of_lt_of_le Nat.zero_lt_one hs.le
      · exact length_cellsOf.trans (Nat.mul_div_cancel _ hz)

/-- Doubling the block keeps every element, or fails and changes nothing. -/
theorem vectorResize_spec {vec : VectorT α} (h : vec.Fits) (a : Allocs) :
    vectorResize vec a = (-1, vec, a.tail) ∨
      ∃ vec' : VectorT α, vectorResize vec a = (0, vec', a.tail) ∧ vec'.Fits ∧
        vec'.count = vec.count ∧ vec'.slots = vec.slots * 2 ∧ vec'.entries = vec.entries := by
  obtain ⟨k, hk, hb⟩ := h.bytes
  have hcount := h.count_lt
  have hpow : (2 : Nat) ^ (k + 1) = 2 ^ k * 2 := pow_succ 2 k
  by_cases hc : a.head ∧ wrap32 (wrap32 (vec.slots * 2) * vec.size) ≠ 0
  · right
    have hk1 : k + 1 < 32 := by
      by_contra hge
      obtain rfl : k = 31 := by omega
      apply hc.2
      have e : vec.slots * 2 * vec.size = 2 ^ 32 := by
        rw [Nat.mul_right_comm, hb, ← hpow]
      rw [wrap32, wrap32, Nat.mod_mul_mod, e, Nat.mod_self]
    have hlt : vec.slots * 2 * vec.size < 2 ^ 32 := by
      rw [Nat.mul_right_comm, hb, ← hpow]
      exact Nat.pow_lt_pow_right (by decide) hk1
    have hslots : wrap32 (vec.slots * 2) = vec.slots * 2 :=
      Nat.mod_eq_of_lt (lt_of_le_of_lt (Nat.le_mul_of_pos_right _ h.size_pos) hlt)
    have hbytes : wrap32 (wrap32 (vec.slots * 2) * vec.size) = vec.slots * 2 * vec.size := by
      rw [hslots]
      exact Nat.mod_eq_of_lt hlt
    have hcells : vec.slots * 2 * vec.size / vec.size = vec.slots * 2 :=
      Nat.mul_div_cancel _ h.size_pos
    refine ⟨⟨vec.count, vec.slots * 2, vec.size, cellsOf (vec.slots * 2 * vec.size) vec.size vec.data⟩,
      ?_, ⟨h.size_pos, ?_, ?_, k + 1, hk1, ?_⟩, rfl, rfl, ?_⟩
    · simp only [vectorResize, if_pos hc]
      rw [hbytes, hslots]
    · show vec.count < vec.slots * 2
      omega
    · exact length_cellsOf.trans hcells
    · show vec.slots * 2 * vec.size = 2 ^ (k + 1)
      rw [Nat.mul_right_comm, hb, hpow]
    · refine cellsOf_take ?_ ?_
      · rw [hcells, h.length_data]
        omega
      · rw [h.length_data]
        exact hcount.le
  · left
    simp only [vectorResize, if_neg hc]

theorem vectorSetAt_count {vec : VectorT α} (h : vec.Fits) (hroom : vec.count + 1 < vec.slots)
    (x : α) (a : Allocs) : ∃ vec' : VectorT α, vectorSetAt vec vec.count x a = (0, vec', a) ∧
      vec'.Fits ∧ vec'.entries = vec.entries ++ [x] := by
  have hslots := h.slots_lt
  have hlen := h.length_data
  have hgrow : vectorGrow vec.count 33 vec a = (0, vec, a) := by
    rw [vectorGrow, if_neg (by omega)]
  have hwrap : wrap32 (vec.count + 1) = vec.count + 1 := Nat.mod_eq_of_lt (by omega)
  refine ⟨⟨vec.count + 1, vec.slots, vec.size, vec.data.set vec.count x⟩, ?_,
    ⟨h.size_pos, hroom, ?_, h.bytes⟩, ?_⟩
  · rw [vectorSetAt, hgrow]
    simp only [h.cell_eq h.count_lt, hwrap]
    rfl
  · rw [List.length_set, hlen]
  · have hlt : vec.count < vec.data.length := by omega
    show (vec.data.set vec.count x).take (vec.count + 1) = vec.data.take vec.count ++ [x]
    rw [List.take_add_one, List.take_set_of_le (Nat.le_refl _), List.getElem?_set_self hlt]
    rfl

/-- **A push appends its element or fails and changes nothing.** -/
theorem vectorPush_spec {vec : VectorT α} (h : vec.Fits) (x : α) (a : Allocs) :
    (∃ a', vectorPush vec x a = (-1, vec, a')) ∨
      ∃ (vec' : VectorT α) (a' : Allocs), vectorPush vec x a = (0, vec', a') ∧ vec'.Fits ∧
        vec'.entries = vec.entries ++ [x] := by
  have hcount := h.count_lt
  have hslots := h.slots_lt
  have hlast : wrap32 (vec.slots + 2 ^ 32 - 1) = vec.slots - 1 := by
    unfold wrap32
    omega
  unfold vectorPush
  rw [hlast]
  by_cases hfull : vec.count = vec.slots - 1
  · rw [if_pos hfull]
    rcases vectorResize_spec h a with h1 | ⟨vec', h1, hfits, hc, hs, he⟩
    · left
      rw [h1]
      exact ⟨a.tail, rfl⟩
    · right
      obtain ⟨vec'', h2, hfits', he'⟩ := vectorSetAt_count hfits (by omega) x a.tail
      rw [h1]
      exact ⟨vec'', a.tail, h2, hfits', by rw [he', he]⟩
  · rw [if_neg hfull]
    right
    obtain ⟨vec', h2, hfits', he'⟩ := vectorSetAt_count h (by omega) x a
    exact ⟨vec', a, h2, hfits', he'⟩

/-- Whether a push succeeds and what it allocates does not depend on the element. -/
theorem vectorPush_value (vec : VectorT α) (x y : α) (a : Allocs) :
    (vectorPush vec x a).1 = (vectorPush vec y a).1 ∧ (vectorPush vec x a).2.2 = (vectorPush vec y a).2.2 := by
  have hset : ∀ (vec : VectorT α) (i : Nat) (a : Allocs),
      (vectorSetAt vec i x a).1 = (vectorSetAt vec i y a).1 ∧ (vectorSetAt vec i x a).2.2 = (vectorSetAt vec i y a).2.2 := by
    intro vec i a
    simp only [vectorSetAt]
    split_ifs <;> exact ⟨rfl, rfl⟩
  simp only [vectorPush]
  split_ifs
  · exact ⟨rfl, rfl⟩
  · exact hset _ _ _
  · exact hset _ _ _

theorem vectorGrow_size (index : Nat) : ∀ (rounds : Nat) (vec : VectorT α) (a : Allocs),
    (vectorGrow index rounds vec a).2.1.size = vec.size := by
  intro rounds
  induction rounds with
  | zero => exact fun _ _ => rfl
  | succ rounds ih =>
    intro vec a
    have hresize : (vectorResize vec a).2.1.size = vec.size := by
      simp only [vectorResize]
      split_ifs <;> rfl
    simp only [vectorGrow]
    split_ifs
    · exact hresize
    · rw [ih, hresize]
    · rfl

theorem vectorNew_size {slots size : Nat} {a a' : Allocs} {vec : VectorT α}
    (h : vectorNew slots size a = (some vec, a')) : vec.size = size := by
  simp only [vectorNew, vectorInit] at h
  split_ifs at h <;> cases h <;> rfl

theorem vectorPush_size (vec : VectorT α) (x : α) (a : Allocs) : (vectorPush vec x a).2.1.size = vec.size := by
  have hset : ∀ (vec : VectorT α) (i : Nat) (a : Allocs), (vectorSetAt vec i x a).2.1.size = vec.size := by
    intro vec i a
    simp only [vectorSetAt]
    split_ifs <;> exact vectorGrow_size i 33 vec a
  have hresize : (vectorResize vec a).2.1.size = vec.size := by
    simp only [vectorResize]
    split_ifs <;> rfl
  simp only [vectorPush]
  split_ifs
  · exact hresize
  · rw [hset, hresize]
  · exact hset _ _ _

/-! ## Pushes that cannot fail -/

/-- The allocator always delivers. -/
def Willing (a : Allocs) : Prop := ∀ i, a.get i = true

theorem Willing.head {a : Allocs} (h : Willing a) : a.head = true := h 0

theorem Willing.tail {a : Allocs} (h : Willing a) : Willing a.tail := fun i => h (i + 1)

/-- There is a free cell behind the next one, or the block can be doubled. -/
def VectorT.Room (vec : VectorT α) : Prop := vec.count + 1 < vec.slots ∨ vec.slots * 2 * vec.size < 2 ^ 32

theorem vectorPush_willing {vec : VectorT α} (h : vec.Fits) (hroom : vec.Room) (x : α) {a : Allocs}
    (ha : Willing a) : ∃ vec' a', vectorPush vec x a = (0, vec', a') ∧ vec'.Fits ∧ Willing a' := by
  have hcount := h.count_lt
  have hslots := h.slots_lt
  have hlast : wrap32 (vec.slots + 2 ^ 32 - 1) = vec.slots - 1 := by
    unfold wrap32
    omega
  unfold vectorPush
  rw [hlast]
  by_cases hfull : vec.count = vec.slots - 1
  · have hlt : vec.slots * 2 * vec.size < 2 ^ 32 := hroom.resolve_left (by omega)
    rw [if_pos hfull]
    rcases vectorResize_spec h a with h1 | ⟨vec', h1, hfits, hc, hs, -⟩
    · have hdone : a.head ∧ wrap32 (wrap32 (vec.slots * 2) * vec.size) ≠ 0 := by
        refine ⟨ha.head, ?_⟩
        have hpos : 0 < vec.slots * 2 * vec.size := Nat.mul_pos (by omega) h.size_pos
        rw [wrap32, wrap32, Nat.mod_mul_mod, Nat.mod_eq_of_lt hlt]
        omega
      simp only [vectorResize, if_pos hdone] at h1
      cases h1
    · obtain ⟨vec'', h2, hfits', -⟩ := vectorSetAt_count hfits (by omega) x a.tail
      rw [h1]
      exact ⟨vec'', a.tail, h2, hfits', ha.tail⟩
  · rw [if_neg hfull]
    obtain ⟨vec', h2, hfits', -⟩ := vectorSetAt_count h (by omega) x a
    exact ⟨vec', a, h2, hfits', ha⟩

theorem vectorPush_room {vec : VectorT α} (h : vec.Fits) {x : α} {a a' : Allocs} {ret : Int} {vec' : VectorT α}
    (hpush : vectorPush vec x a = (ret, vec', a')) (hret : ¬ ret < 0) : vec.Room := by
  have hcount := h.count_lt
  by_contra hroom
  obtain ⟨hfull, hbig⟩ := not_or.mp hroom
  have hlast : vec.count = wrap32 (vec.slots + 2 ^ 32 - 1) := by
    have := h.slots_lt
    unfold wrap32
    omega
  have hfail : vectorResize vec a = (-1, vec, a.tail) := by
    rcases vectorResize_spec h a with h1 | ⟨vec'', h1, hfits, hc, hs, -⟩
    · exact h1
    · have hsize : vec''.size = vec.size := by
        simp only [vectorResize] at h1
        split_ifs at h1
        · cases h1
          rfl
        · cases h1
      have := hfits.bytes_lt
      rw [hs, hsize] at this
      exact absurd this hbig
  unfold vectorPush at hpush
  rw [if_pos hlast, hfail] at hpush
  cases hpush
  exact hret (by decide)

theorem vectorNew_willing {slots size k : Nat} (hs : 1 < slots) (hz : 0 < size) (hk : k < 32)
    (hb : slots * size = 2 ^ k) {a : Allocs} (ha : Willing a) :
    ∃ (vec : VectorT α) (a' : Allocs), vectorNew slots size a = (some vec, a') ∧ vec.Fits ∧ vec.entries = [] ∧
      vec.Room ∧ Willing a' := by
  rcases vectorNew_spec (α := α) hs hz hk hb a with ⟨a', h1⟩ | ⟨vec, a', h1, hf, he⟩
  · unfold vectorNew vectorInit at h1
    rw [if_pos ha.head, if_pos ha.tail.head] at h1
    cases h1
  · refine ⟨vec, a', h1, hf, he, ?_⟩
    unfold vectorNew vectorInit at h1
    rw [if_pos ha.head, if_pos ha.tail.head, if_neg (by omega)] at h1
    cases h1
    exact ⟨Or.inl (show 0 + 1 < slots by omega), ha.tail.tail⟩

end Fits

end Fnsproxy
