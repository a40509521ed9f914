import Fnsproxy.Vector.Growth

/-!
# The header of a vector

Runs of all four mutators from `vector_new`, with allocations that succeed and products below `2 ^ 32`:

* `vectorClear` : `vector_clear`, which clears the header instead of the block;
* `VectorOp`, `VectorOp.perform`, `VectorOp.top` : the calls, and one more than the highest index written;
* `VectorT.Valid`, `KeepsHeader` : a valid header, and a run that keeps it and counts what it has written;
* `Smooth`, `Appends` : allocations and products of a run, and its calls all writing at the end;
* `perform_appending`, `perform_other` : a call that does, and one that does not;
* `header_iff` : the header is kept exactly when every call does.
-/

namespace Fnsproxy
open Word

section Model
variable {α : Type}

/-- A little-endian number with its `n` lowest bytes set to zero. -/
def clearLow (n x : Nat) : Nat := x / 256 ^ n * 256 ^ n

/-- `vector_clear`. The `memset` begins at the header: `count`, `slots` and `size` are the first twelve bytes, the
pointer to the block the last eight of twenty-four; behind them it is undefined. -/
def vectorClear (vec : VectorT α) : Option (VectorT α) :=
  let n := wrap32 (vec.slots * vec.size)
  if 24 < n then none
  else some {
    count := clearLow (min n 4) vec.count
    slots := clearLow (min (n - 4) 4) vec.slots
    size := clearLow (min (n - 8) 4) vec.size
    data := if 16 < n then [] else vec.data }

/-- The calls of a run. -/
inductive VectorOp (α : Type) where
  | push (x : α)
  | setAt (index : U32) (x : α)
  | resize
  | clear

/-- The call, with what it returns. -/
def VectorOp.perform [Inhabited α] (vec : VectorT α) (a : Allocs) : VectorOp α → Option (Int × VectorT α × Allocs)
  | .push x => some (vectorPush vec x a)
  | .setAt index x => some (vectorSetAt vec index.toNat x a)
  | .resize => some (vectorResize vec a)
  | .clear => (vectorClear vec).map fun vec => (0, vec, a)

/-- One more than the highest index written since the vector was made or cleared. -/
def VectorOp.top (vec : VectorT α) (top : Nat) : VectorOp α → Nat
  | .push _ => max top (vec.count + 1)
  | .setAt index _ => max top (index.toNat + 1)
  | .resize => top
  | .clear => 0

/-- Doubling the slots until `index` is one of them keeps the product below `2 ^ 32`. -/
def VectorT.Reaches (vec : VectorT α) (index : Nat) : Prop :=
  ∃ j, index < vec.slots * 2 ^ j ∧ vec.slots * 2 ^ j * vec.size < 2 ^ 32

/-- The products of a call are below `2 ^ 32`. -/
def VectorOp.NoWrap (vec : VectorT α) : VectorOp α → Prop
  | .push _ => if vec.count + 1 = vec.slots then vec.slots * 2 * vec.size < 2 ^ 32 else vec.Reaches vec.count
  | .setAt index _ => vec.Reaches index.toNat
  | .resize => vec.slots * 2 * vec.size < 2 ^ 32
  | .clear => vec.slots * vec.size < 2 ^ 32

/-- The products of the run are below `2 ^ 32`, and its allocations have succeeded: every call returns `0`. -/
def Smooth [Inhabited α] : VectorT α → Allocs → List (VectorOp α) → Prop
  | _, _, [] => True
  | vec, a, op :: ops => op.NoWrap vec ∧ ∀ ret vec' a', op.perform vec a = some (ret, vec', a') →
    ret = 0 ∧ Smooth vec' a' ops

/-- The header of a vector of elements of `size` bytes, with a block for its slots. -/
structure VectorT.Valid (size : Nat) (vec : VectorT α) : Prop where
  slots_pos : 1 ≤ vec.slots
  size_eq : vec.size = size
  block : vec.data.length * size = vec.slots * size
  count_le : vec.count ≤ vec.slots

/-- In every state of the run the header is valid and the count is one more than the highest index written. -/
def KeepsHeader [Inhabited α] (size : Nat) : VectorT α → Nat → Allocs → List (VectorOp α) → Prop
  | vec, top, _, [] => vec.Valid size ∧ vec.count = top
  | vec, top, a, op :: ops => (vec.Valid size ∧ vec.count = top) ∧
    ∃ ret vec' a', op.perform vec a = some (ret, vec', a') ∧ KeepsHeader size vec' (op.top vec top) a' ops

/-- `vector_set_at` writes right behind the last element, and `vector_clear` clears no more than the count. -/
def VectorOp.Appending (vec : VectorT α) : VectorOp α → Prop
  | .setAt index _ => index.toNat = vec.count
  | .clear => vec.slots * vec.size ≤ 4 ∧ (vec.size = 0 → vec.count = 0)
  | .push _ | .resize => True

/-- All calls of the run are of this kind. -/
def Appends [Inhabited α] : VectorT α → Allocs → List (VectorOp α) → Prop
  | _, _, [] => True
  | vec, a, op :: ops => op.Appending vec ∧ ∀ ret vec' a', op.perform vec a = some (ret, vec', a') →
    Appends vec' a' ops

end Model

section Steps
variable {α : Type} {vec vec' : VectorT α} {size top : Nat} {a a' : Allocs}

/-- A valid header whose products are exact. -/
structure VectorT.Exact (size : Nat) (vec : VectorT α) : Prop where
  valid : vec.Valid size
  slots_lt : vec.slots < 2 ^ 32
  bytes_lt : vec.slots * size < 2 ^ 32

theorem VectorT.Exact.last_iff (h : vec.Exact size) :
    vec.count = wrap32 (vec.slots + 2 ^ 32 - 1) ↔ vec.count + 1 = vec.slots := by
  have h1 := h.slots_lt
  have h2 := h.valid.slots_pos
  unfold wrap32
  omega

theorem VectorT.Exact.counted {data : List α} {count : Nat} (h : vec.Exact size) (hdata : data.length = vec.data.length)
    (hcount : count ≤ vec.slots) : VectorT.Exact size { vec with data := data, count := count } :=
  ⟨⟨h.valid.slots_pos, h.valid.size_eq, by rw [hdata]; exact h.valid.block, hcount⟩, h.slots_lt, h.bytes_lt⟩

theorem VectorT.Exact.length_data (h : vec.Exact size) (hz : 0 < size) : vec.data.length = vec.slots :=
  Nat.eq_of_mul_eq_mul_right hz h.valid.block

section Grow
variable [Inhabited α]

theorem VectorT.Exact.resize (h : vec.Exact size) (hfits : vec.slots * 2 * vec.size < 2 ^ 32) {ret : Int}
    (hdone : vectorResize vec a = (ret, vec', a')) (hret : ¬ ret < 0) :
    vec'.Exact size ∧ vec'.slots = vec.slots * 2 ∧ vec'.count = vec.count := by
  by_cases hc : a.head ∧ wrap32 (wrap32 (vec.slots * 2) * vec.size) ≠ 0
  · have hz : 0 < vec.size := by
      rcases Nat.eq_zero_or_pos vec.size with hz | hz
      · rw [hz] at hc
        exact absurd rfl hc.2
      · exact hz
    have hcount := h.valid.count_le
    have hslots := h.valid.slots_pos
    rw [vectorResize_fits hz (by omega) hfits hc.1] at hdone
    cases hdone
    rw [h.valid.size_eq] at hz hfits ⊢
    have hcells : vec.slots * 2 * size / size = vec.slots * 2 := Nat.mul_div_cancel _ hz
    refine ⟨⟨⟨by show 1 ≤ vec.slots * 2; omega, rfl, ?_, by show vec.count ≤ vec.slots * 2; omega⟩,
      lt_of_le_of_lt (Nat.le_mul_of_pos_right _ hz) hfits, hfits⟩, rfl, rfl⟩
    rw [length_cellsOf, hcells]
  · rw [vectorResize, if_neg hc] at hdone
    cases hdone
    exact absurd (by decide) hret

theorem VectorT.Exact.grow (h : vec.Exact size) {index : Nat} (hle : index ≤ vec.slots) (hreach : vec.Reaches index)
    {ret : Int} (hgrow : vectorGrow index 33 vec a = (ret, vec', a')) (hret : ¬ ret < 0) :
    vec'.Exact size ∧ vec'.count = vec.count ∧ index < vec'.slots := by
  rcases Nat.lt_or_eq_of_le hle with hlt | rfl
  · rw [vectorGrow, if_neg (by omega)] at hgrow
    cases hgrow
    exact ⟨h, rfl, hlt⟩
  · obtain ⟨j, hj, hfits⟩ := hreach
    have hpos := h.valid.slots_pos
    have hdouble : vec.slots * 2 * vec.size < 2 ^ 32 := by
      have hle : 2 ^ 1 ≤ 2 ^ j := by
        refine Nat.pow_le_pow_right (by decide) (Nat.one_le_iff_ne_zero.mpr ?_)
        rintro rfl
        omega
      exact lt_of_le_of_lt (Nat.mul_le_mul_right _ (Nat.mul_le_mul_left _ hle)) hfits
    obtain ⟨r, vec₁, a₁, hresize⟩ : ∃ r vec₁ a₁, vectorResize vec a = (r, vec₁, a₁) := ⟨_, _, _, rfl⟩
    rw [vectorGrow, if_pos (Nat.le_refl _), hresize] at hgrow
    dsimp only at hgrow
    split_ifs at hgrow with hr
    · cases hgrow
      exact absurd (by decide) hret
    · obtain ⟨h₁, hs, hc⟩ := h.resize hdouble hresize hr
      rw [vectorGrow, if_neg (by omega)] at hgrow
      cases hgrow
      exact ⟨h₁, hc, by omega⟩

theorem vectorGrow_count (index : Nat) : ∀ (rounds : Nat) (vec : VectorT α) (a : Allocs),
    (vectorGrow index rounds vec a).2.1.count = vec.count := by
  intro rounds
  induction rounds with
  | zero => exact fun _ _ => rfl
  | succ rounds ih =>
    intro vec a
    have hresize : (vectorResize vec a).2.1.count = vec.count := by
      simp only [vectorResize]
      split_ifs <;> rfl
    simp only [vectorGrow]
    split_ifs
    · exact hresize
    · rw [ih, hresize]
    · rfl

theorem vectorSetAt_cases {index : Nat} {x : α} (hset : vectorSetAt vec index x a = (0, vec', a')) :
    ∃ ret g, vectorGrow index 33 vec a = (ret, g, a') ∧ ¬ ret < 0 ∧
      vec' = { g with data := g.data.set (g.cell index) x, count := wrap32 (vec.count + 1) } := by
  have hcount := vectorGrow_count index 33 vec a
  obtain ⟨ret, g, a'', hgrow⟩ : ∃ ret g a'', vectorGrow index 33 vec a = (ret, g, a'') := ⟨_, _, _, rfl⟩
  rw [hgrow] at hcount
  dsimp only at hcount
  rw [vectorSetAt, hgrow] at hset
  dsimp only at hset
  split_ifs at hset with hret
  · exact absurd (Prod.mk.inj hset).1 (by decide)
  · obtain ⟨rfl, rfl⟩ := Prod.mk.inj (Prod.mk.inj hset).2
    exact ⟨ret, g, hgrow, hret, by rw [hcount]⟩

theorem VectorT.Exact.setAt (h : vec.Exact size) {x : α} (hreach : vec.Reaches vec.count)
    (hset : vectorSetAt vec vec.count x a = (0, vec', a')) : vec'.Exact size ∧ vec'.count = vec.count + 1 := by
  obtain ⟨ret, g, hgrow, hret, rfl⟩ := vectorSetAt_cases hset
  obtain ⟨hg, hcount, hlt⟩ := h.grow h.valid.count_le hreach hgrow hret
  have hslots := hg.slots_lt
  have hwrap : wrap32 (vec.count + 1) = vec.count + 1 := Nat.mod_eq_of_lt (by omega)
  rw [hwrap]
  exact ⟨hg.counted List.length_set hlt, rfl⟩

/-- `vector_push` on a valid header. -/
theorem VectorT.Exact.push (h : vec.Exact size) {x : α} (hwrap : (VectorOp.push x).NoWrap vec)
    (hpush : vectorPush vec x a = (0, vec', a')) : vec'.Exact size ∧ vec'.count = vec.count + 1 := by
  rw [VectorOp.NoWrap] at hwrap
  unfold vectorPush at hpush
  by_cases hlast : vec.count + 1 = vec.slots
  · rw [if_pos hlast] at hwrap
    rw [if_pos (h.last_iff.mpr hlast)] at hpush
    obtain ⟨r, vec₁, a₁, hresize⟩ : ∃ r vec₁ a₁, vectorResize vec a = (r, vec₁, a₁) := ⟨_, _, _, rfl⟩
    rw [hresize] at hpush
    dsimp only at hpush
    split_ifs at hpush with hr
    · exact absurd (Prod.mk.inj hpush).1 (by decide)
    · obtain ⟨h₁, hs, hc⟩ := h.resize hwrap hresize hr
      obtain ⟨h', hc'⟩ := h₁.setAt ⟨0, by omega, by rw [Nat.pow_zero, Nat.mul_one, h₁.valid.size_eq]; exact h₁.bytes_lt⟩
        hpush
      exact ⟨h', hc'.trans (congrArg (· + 1) hc)⟩
  · rw [if_neg hlast] at hwrap
    rw [if_neg (fun he => hlast (h.last_iff.mp he))] at hpush
    exact h.setAt hwrap hpush

/-! ### Pushes that cannot fail -/

theorem VectorT.Exact.resize_willing (h : vec.Exact size) (hz : 0 < size) (hfits : vec.slots * 2 * size < 2 ^ 32)
    (ha : a.head = true) : ∃ vec₁, vectorResize vec a = (0, vec₁, a.tail) ∧ vec₁.Exact size ∧
      vec₁.slots = vec.slots * 2 ∧ vec₁.count = vec.count ∧ vec₁.entries = vec.entries := by
  have hslots := h.valid.slots_pos
  have hcount := h.valid.count_le
  have hlength := h.length_data hz
  rw [← h.valid.size_eq] at hz hfits
  have hres := vectorResize_fits hz hslots hfits ha
  obtain ⟨hexact, hs, hc⟩ := h.resize hfits hres (Int.lt_irrefl 0)
  refine ⟨_, hres, hexact, hs, hc, ?_⟩
  have hcells : vec.slots * 2 * vec.size / vec.size = vec.slots * 2 := Nat.mul_div_cancel _ hz
  show (cellsOf (vec.slots * 2 * vec.size) vec.size vec.data).take vec.count = vec.data.take vec.count
  refine cellsOf_take ?_ ?_
  · rw [hcells, hlength]
    omega
  · rwa [hlength]

theorem VectorT.Exact.setAt_free (h : vec.Exact size) (hz : 0 < size) (hlt : vec.count < vec.slots) (x : α) (a : Allocs) :
    ∃ vec', vectorSetAt vec vec.count x a = (0, vec', a) ∧ vec'.Exact size ∧ vec'.count = vec.count + 1 ∧
      vec'.entries = vec.entries ++ [x] := by
  have hgrow : vectorGrow vec.count 33 vec a = (0, vec, a) := by
    rw [vectorGrow, if_neg (by omega)]
  have hslots := h.slots_lt
  have hwrap : wrap32 (vec.count + 1) = vec.count + 1 := Nat.mod_eq_of_lt (by omega)
  have hbytes : vec.count * vec.size < 2 ^ 32 := by
    rw [h.valid.size_eq]
    exact lt_of_le_of_lt (Nat.mul_le_mul_right _ hlt.le) h.bytes_lt
  have hcell : vec.cell vec.count = vec.count := by
    rw [VectorT.cell, wrap32, Nat.mod_eq_of_lt hbytes, Nat.mul_div_cancel _ (by rwa [h.valid.size_eq])]
  have hdata : vec.count < vec.data.length := by rwa [h.length_data hz]
  refine ⟨{ vec with data := vec.data.set vec.count x, count := vec.count + 1 }, ?_, h.counted List.length_set hlt, rfl, ?_⟩
  · rw [vectorSetAt, hgrow]
    simp only [hcell, hwrap]
    rfl
  · show (vec.data.set vec.count x).take (vec.count + 1) = vec.data.take vec.count ++ [x]
    rw [List.take_add_one, List.take_set_of_le (Nat.le_refl _), List.getElem?_set_self hdata]
    rfl

theorem VectorT.Exact.push_willing (h : vec.Exact size) (hz : 0 < size) (hroom : (vec.count + 1) * 2 * size < 2 ^ 32)
    (x : α) (ha : Willing a) : ∃ vec' a', vectorPush vec x a = (0, vec', a') ∧ Willing a' ∧ vec'.Exact size ∧
      vec'.count = vec.count + 1 ∧ vec'.entries = vec.entries ++ [x] := by
  have hcount := h.valid.count_le
  have hfits : vec.slots ≤ vec.count + 1 → vec.slots * 2 * size < 2 ^ 32 := fun hle =>
    lt_of_le_of_lt (Nat.mul_le_mul_right _ (Nat.mul_le_mul_right _ hle)) hroom
  unfold vectorPush
  by_cases hlast : vec.count + 1 = vec.slots
  · rw [if_pos (h.last_iff.mpr hlast)]
    obtain ⟨vec₁, hres, h₁, hs₁, hc₁, he₁⟩ := h.resize_willing hz (hfits hlast.ge) ha.head
    obtain ⟨vec', hset, h', hc', he'⟩ := h₁.setAt_free hz (by omega) x a.tail
    rw [hres]
    exact ⟨vec', a.tail, hset, ha.tail, h', by omega, by rw [he', he₁]⟩
  · rw [if_neg (fun he => hlast (h.last_iff.mp he))]
    rcases Nat.lt_or_eq_of_le hcount with hlt | hfull
    · obtain ⟨vec', hset, h', hc', he'⟩ := h.setAt_free hz hlt x a
      exact ⟨vec', a, hset, ha, h', hc', he'⟩
    · obtain ⟨vec₁, hres, h₁, hs₁, hc₁, he₁⟩ := h.resize_willing hz (hfits (by omega)) ha.head
      have hslots := h.valid.slots_pos
      obtain ⟨vec', hset, h', hc', he'⟩ := h₁.setAt_free hz (by omega) x a.tail
      have hgrow : vectorGrow vec.count 33 vec a = (0, vec₁, a.tail) := by
        rw [vectorGrow, if_pos (by omega), hres]
        simp only [vectorGrow, Int.lt_irrefl, if_false]
        rw [if_neg (by omega)]
      have hgrow₁ : vectorGrow vec₁.count 33 vec₁ a.tail = (0, vec₁, a.tail) := by
        rw [vectorGrow, if_neg (by omega)]
      rw [vectorSetAt, hgrow₁, hc₁] at hset
      rw [vectorSetAt, hgrow]
      exact ⟨vec', a.tail, hset, ha.tail, h', by omega, by rw [he', he₁]⟩

end Grow

/-! ## Clearing -/

theorem clearLow_zero (x : Nat) : clearLow 0 x = x := by
  rw [clearLow, Nat.pow_zero, Nat.div_one, Nat.mul_one]

theorem clearLow_small {n x : Nat} (hn : 1 ≤ n) (hx : x < 256) : clearLow n x = 0 := by
  have hlt : x < 256 ^ n := lt_of_lt_of_le hx (Nat.pow_le_pow_right (show 0 < 256 by decide) hn)
  rw [clearLow, Nat.div_eq_of_lt hlt, Nat.zero_mul]

/-- `vector_clear` with at most four bytes, none of them only when nothing is counted. -/
theorem VectorT.Exact.clear (h : vec.Exact size) (hc : VectorOp.clear.Appending vec) :
    ∃ vec', vectorClear vec = some vec' ∧ vec'.Exact size ∧ vec'.count = 0 := by
  obtain ⟨hle, hzero⟩ := hc
  have hcount := h.valid.count_le
  have hn : wrap32 (vec.slots * vec.size) = vec.slots * vec.size := Nat.mod_eq_of_lt (by omega)
  refine ⟨{ vec with data := vec.data, count := 0 }, ?_, h.counted rfl (Nat.zero_le _), rfl⟩
  have hcleared : clearLow (vec.slots * vec.size) vec.count = 0 := by
    rcases Nat.eq_zero_or_pos vec.size with hz | hz
    · rw [hz, Nat.mul_zero, clearLow_zero, hzero hz]
    · have hslots : vec.slots ≤ vec.slots * vec.size := Nat.le_mul_of_pos_right _ hz
      exact clearLow_small (le_trans h.valid.slots_pos hslots) (by omega)
  rw [vectorClear, hn]
  rw [if_neg (show ¬ 24 < vec.slots * vec.size by omega), if_neg (show ¬ 16 < vec.slots * vec.size by omega),
    Nat.min_eq_left hle, hcleared, Nat.sub_eq_zero_of_le hle,
    Nat.sub_eq_zero_of_le (show vec.slots * vec.size ≤ 8 by omega), Nat.zero_min, clearLow_zero, clearLow_zero]

theorem VectorT.Exact.clear_other (h : vec.Exact size) (hc : ¬ VectorOp.clear.Appending vec)
    (hclear : vectorClear vec = some vec') : vec'.slots = 0 ∨ vec'.count ≠ 0 := by
  have hn : wrap32 (vec.slots * vec.size) = vec.slots * vec.size :=
    Nat.mod_eq_of_lt (by rw [h.valid.size_eq]; exact h.bytes_lt)
  rw [vectorClear, hn] at hclear
  by_cases hbig : 24 < vec.slots * vec.size
  · rw [if_pos hbig] at hclear
    exact absurd hclear (by simp)
  · rw [if_neg hbig] at hclear
    rcases Nat.eq_zero_or_pos vec.size with hz | hz
    · right
      have hcount : ¬ vec.count = 0 := fun he => hc ⟨by rw [hz, Nat.mul_zero]; exact Nat.zero_le 4, fun _ => he⟩
      rw [← Option.some.inj hclear]
      show clearLow (min (vec.slots * vec.size) 4) vec.count ≠ 0
      rwa [hz, Nat.mul_zero, Nat.zero_min, clearLow_zero]
    · left
      have hslots : vec.slots ≤ vec.slots * vec.size := Nat.le_mul_of_pos_right _ hz
      have hfive : 4 < vec.slots * vec.size := by
        by_contra hle
        exact hc ⟨Nat.not_lt.mp hle, fun he => absurd he hz.ne'⟩
      rw [← Option.some.inj hclear]
      exact clearLow_small (by omega) (by omega)

end Steps

section Runs
variable {α : Type} [Inhabited α] {vec vec' : VectorT α} {size top : Nat} {a a' : Allocs}

/-- A call that writes behind the last element or clears the count keeps the header. -/
theorem perform_appending (h : vec.Exact size) (htop : vec.count = top) {op : VectorOp α} (hwrap : op.NoWrap vec)
    (happ : op.Appending vec) (hzero : ∀ ret vec' a', op.perform vec a = some (ret, vec', a') → ret = 0) :
    ∃ vec' a', op.perform vec a = some (0, vec', a') ∧ vec'.Exact size ∧ vec'.count = op.top vec top := by
  cases op with
  | push x =>
    obtain ⟨ret, vec', a', hpush⟩ : ∃ ret vec' a', vectorPush vec x a = (ret, vec', a') := ⟨_, _, _, rfl⟩
    obtain rfl := hzero ret vec' a' (congrArg some hpush)
    obtain ⟨h', hcount⟩ := h.push hwrap hpush
    exact ⟨vec', a', congrArg some hpush, h', by rw [hcount, VectorOp.top, ← htop]; omega⟩
  | setAt index x =>
    have hindex : index.toNat = vec.count := happ
    rw [VectorOp.NoWrap, hindex] at hwrap
    obtain ⟨ret, vec', a', hset⟩ : ∃ ret vec' a', vectorSetAt vec index.toNat x a = (ret, vec', a') := ⟨_, _, _, rfl⟩
    obtain rfl := hzero ret vec' a' (congrArg some hset)
    obtain ⟨h', hcount⟩ := h.setAt hwrap (hindex ▸ hset)
    exact ⟨vec', a', congrArg some hset, h', by rw [hcount, VectorOp.top, hindex, ← htop]; omega⟩
  | resize =>
    obtain ⟨ret, vec', a', hresize⟩ : ∃ ret vec' a', vectorResize vec a = (ret, vec', a') := ⟨_, _, _, rfl⟩
    obtain rfl := hzero ret vec' a' (congrArg some hresize)
    obtain ⟨h', -, hcount⟩ := h.resize hwrap hresize (by decide)
    exact ⟨vec', a', congrArg some hresize, h', hcount.trans htop⟩
  | clear =>
    obtain ⟨vec', hclear, h', hcount⟩ := h.clear happ
    exact ⟨vec', a, by rw [VectorOp.perform, hclear, Option.map_some], h', hcount⟩

/-- Any other call breaks the header or counts what it has not written. -/
theorem perform_other (h : vec.Exact size) (htop : vec.count = top) {op : VectorOp α} (happ : ¬ op.Appending vec)
    (hp : op.perform vec a = some (0, vec', a')) : ¬ (vec'.Valid size ∧ vec'.count = op.top vec top) := by
  rintro ⟨hvalid, hcount⟩
  cases op with
  | push x => exact happ trivial
  | resize => exact happ trivial
  | setAt index x =>
    obtain ⟨ret, g, -, -, rfl⟩ := vectorSetAt_cases (Option.some.inj hp)
    have hne : ¬ index.toNat = vec.count := happ
    have hcount : (vec.count + 1) % 2 ^ 32 = max top (index.toNat + 1) := hcount
    have hle := h.valid.count_le
    have hlt := h.slots_lt
    omega
  | clear =>
    obtain ⟨v, hclear, hv⟩ := Option.map_eq_some_iff.mp hp
    obtain ⟨-, hv⟩ := Prod.mk.inj hv
    obtain ⟨rfl, -⟩ := Prod.mk.inj hv
    rcases h.clear_other happ hclear with hslots | hne
    · have := hvalid.slots_pos
      omega
    · exact hne hcount

theorem Smooth.cons {op : VectorOp α} {ops : List (VectorOp α)} (hwrap : op.NoWrap vec)
    (hp : op.perform vec a = some (0, vec', a')) (h : Smooth vec' a' ops) : Smooth vec a (op :: ops) := by
  refine ⟨hwrap, fun ret v b hp' => ?_⟩
  obtain ⟨rfl, rfl, rfl⟩ : 0 = ret ∧ vec' = v ∧ a' = b := by simpa using hp.symm.trans hp'
  exact ⟨rfl, h⟩

theorem Appends.cons {op : VectorOp α} {ops : List (VectorOp α)} {ret : Int} (happ : op.Appending vec)
    (hp : op.perform vec a = some (ret, vec', a')) (h : Appends vec' a' ops) : Appends vec a (op :: ops) := by
  refine ⟨happ, fun r v b hp' => ?_⟩
  obtain ⟨-, rfl, rfl⟩ : ret = r ∧ vec' = v ∧ a' = b := by simpa using hp.symm.trans hp'
  exact h

theorem KeepsHeader.tail {op : VectorOp α} {ops : List (VectorOp α)} {ret : Int}
    (h : KeepsHeader size vec top a (op :: ops)) (hp : op.perform vec a = some (ret, vec', a')) :
    KeepsHeader size vec' (op.top vec top) a' ops := by
  obtain ⟨-, r, v, b, hp', h'⟩ := h
  obtain ⟨-, rfl, rfl⟩ : ret = r ∧ vec' = v ∧ a' = b := by simpa using hp.symm.trans hp'
  exact h'

theorem VectorT.Exact.calls_keep_iff : ∀ (ops : List (VectorOp α)) {vec : VectorT α} {top : Nat} {a : Allocs},
    vec.Exact size → vec.count = top → Smooth vec a ops → (KeepsHeader size vec top a ops ↔ Appends vec a ops) := by
  intro ops
  induction ops with
  | nil => exact fun h htop _ => iff_of_true ⟨h.valid, htop⟩ trivial
  | cons op ops ih =>
    intro vec top a h htop hsmooth
    obtain ⟨hwrap, hrest⟩ := hsmooth
    by_cases happ : op.Appending vec
    · obtain ⟨vec', a', hp, h', htop'⟩ := perform_appending h htop hwrap happ fun _ _ _ hp => (hrest _ _ _ hp).1
      have hiff := ih h' htop' (hrest _ _ _ hp).2
      constructor
      · exact fun hkeeps => .cons happ hp (hiff.mp (hkeeps.tail hp))
      · rintro ⟨-, happends⟩
        exact ⟨⟨h.valid, htop⟩, 0, vec', a', hp, hiff.mpr (happends 0 vec' a' hp)⟩
    · refine iff_of_false ?_ fun happends => happ happends.1
      rintro ⟨-, ret, vec', a', hp, hkeeps⟩
      obtain rfl := (hrest ret vec' a' hp).1
      apply perform_other h htop happ hp
      cases ops with
      | nil => exact hkeeps
      | cons op ops => exact hkeeps.1

/-- **The header of a vector**: a run keeps it, and counts what it has written, exactly when every `vector_set_at`
writes right behind the last element and every `vector_clear` clears no more than the count. -/
theorem header_iff (slots size : U32) {a a' : Allocs} {vec : VectorT α}
    (hnew : vectorNew slots.toNat size.toNat a = (some vec, a'))
    (hprod : (if slots = 0 then 16 else slots.toNat) * size.toNat < 2 ^ 32) (ops : List (VectorOp α))
    (hsmooth : Smooth vec a' ops) : KeepsHeader size.toNat vec 0 a' ops ↔ Appends vec a' ops := by
  have hvec := vectorNew_eq hnew
  rw [slots_eq] at hprod
  obtain ⟨n, hn⟩ : ∃ n, n = if slots.toNat = 0 then 16 else slots.toNat := ⟨_, rfl⟩
  rw [← hn] at hvec hprod
  have hslots : 1 ≤ n ∧ n < 2 ^ 32 := by
    have := slots.isLt
    rw [hn]
    split_ifs <;> omega
  have hexact : vec.Exact size.toNat := by
    rw [hvec]
    refine ⟨⟨hslots.1, rfl, ?_, Nat.zero_le _⟩, hslots.2, hprod⟩
    show (cellsOf (wrap32 (n * size.toNat)) size.toNat []).length * size.toNat = n * size.toNat
    rw [length_cellsOf, show wrap32 (n * size.toNat) = n * size.toNat from Nat.mod_eq_of_lt hprod]
    exact Nat.div_mul_cancel (Nat.dvd_mul_left _ _)
  exact hexact.calls_keep_iff ops (by rw [hvec]) hsmooth

end Runs

/-- Two slots of four bytes, and the first filled. -/
def twoSlots : VectorT Nat := ⟨0, 2, 4, [0, 0]⟩
def oneOfTwo : VectorT Nat := ⟨1, 2, 4, [7, 0]⟩

theorem push_twoSlots : (VectorOp.push 7).perform twoSlots (fun _ => true) = some (0, oneOfTwo, fun _ => true) := rfl

theorem smooth_twoSlots (index : U32) (hi : index.toNat < 2) {vec' : VectorT Nat}
    (hp : (VectorOp.setAt index 8).perform oneOfTwo (fun _ => true) = some (0, vec', fun _ => true)) :
    Smooth twoSlots (fun _ => true) [.push 7, .setAt index 8] :=
  .cons ⟨0, by decide, by decide⟩ push_twoSlots (.cons ⟨0, hi, by decide⟩ hp trivial)

theorem header_iff_twoSlots : KeepsHeader 4 twoSlots 0 (fun _ => true) [.push 7, .setAt 1 8] := by
  have hset : (VectorOp.setAt 1 8).perform oneOfTwo (fun _ => true) = some (0, ⟨2, 2, 4, [7, 8]⟩, fun _ => true) := rfl
  exact (header_iff 2 4 (a := fun _ => true) rfl (by decide) _ (smooth_twoSlots 1 (by decide) hset)).mpr
    (.cons trivial push_twoSlots (.cons rfl hset trivial))

/-- Overwriting the only element counts it again. -/
theorem not_keepsHeader : vectorNew 2 4 (fun _ => true) = (some twoSlots, fun _ => true) ∧
    Smooth twoSlots (fun _ => true) [.push 7, .setAt 0 8] ∧
    ¬ KeepsHeader 4 twoSlots 0 (fun _ => true) [.push 7, .setAt 0 8] := by
  have hset : (VectorOp.setAt 0 8).perform oneOfTwo (fun _ => true) = some (0, ⟨2, 2, 4, [8, 0]⟩, fun _ => true) := rfl
  refine ⟨rfl, smooth_twoSlots 0 (by decide) hset, fun hkeeps => ?_⟩
  exact absurd ((hkeeps.tail push_twoSlots).tail hset).2 (by decide)

end Fnsproxy
