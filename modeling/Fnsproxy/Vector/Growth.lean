import Fnsproxy.Vector
import Fnsproxy.Lib.Word
import Mathlib.Data.Nat.Prime.Basic

/-!
# Growing a vector

A run of pushes from `vector_new`, with any allocations failing; a cell nobody has written is `none`:

* `VectorT.Stores` : the vector holds the values pushed, in a block with a cell for every slot;
* `VectorT.Unchanged`, `VectorT.ZeroRealloc` : what a push that fails leaves, and the `realloc` that frees the
  block;
* `Grows`, `GrowsSafely` : the law of a run, and that its products do not wrap;
* `VectorT.Sound`, `push_safe`, `push_unsafe` : the invariant, and a push whose product fits or wraps;
* `grows_iff` : the law holds exactly when no product wraps.
-/

namespace Fnsproxy
open Word

section Law
variable {V : Type}

/-- The vector holds the values `vs`, and its block has a cell for every slot. -/
structure VectorT.Stores (vec : VectorT (Option V)) (vs : List V) : Prop where
  count : vec.count = vs.length
  get : ∀ i < vec.count, vectorGetAt vec i = vs[i]?.map some
  block : vec.slots ≤ vec.data.length

/-- The count, the slots and the elements are as they were. -/
structure VectorT.Unchanged (vec vec' : VectorT (Option V)) : Prop where
  count : vec'.count = vec.count
  slots : vec'.slots = vec.slots
  get : ∀ i < vec.count, vectorGetAt vec' i = vectorGetAt vec i

/-- A push calls `realloc` with no bytes, which frees the block. -/
def VectorT.ZeroRealloc (vec : VectorT (Option V)) : Prop :=
  vec.count = wrap32 (vec.slots + 2 ^ 32 - 1) ∧ wrap32 (wrap32 (vec.slots * 2) * vec.size) = 0

/-- Pushing `xs` behind `vs` loses nothing. -/
def Grows : VectorT (Option V) → List V → List V → Allocs → Prop
  | vec, vs, [], _ => vec.Stores vs
  | vec, vs, x :: xs, a =>
    vec.Stores vs ∧
      match vectorPush vec (some x) a with
      | (ret, vec', a') =>
        if ret < 0 then vec.Unchanged vec' ∧ ¬ vec.ZeroRealloc ∧ Grows vec' vs xs a'
        else Grows vec' (vs ++ [x]) xs a'

/-- A push that doubles the block finds the product below `2 ^ 32`; a wrapped product does no harm when `realloc`
refuses it, unless it is no bytes at all. -/
def VectorT.PushSafe (vec : VectorT (Option V)) (a : Allocs) : Prop :=
  vec.count + 1 = vec.slots → vec.slots * 2 * vec.size < 2 ^ 32 ∨
    a.head = false ∧ wrap32 (wrap32 (vec.slots * 2) * vec.size) ≠ 0

/-- All pushes of a run are safe. -/
def GrowsSafely : VectorT (Option V) → List V → Allocs → Prop
  | _, [], _ => True
  | vec, x :: xs, a =>
    vec.PushSafe a ∧ GrowsSafely (vectorPush vec (some x) a).2.1 xs (vectorPush vec (some x) a).2.2

end Law

/-! ## Pushes whose products fit -/

section Resize
variable {α : Type} {vec : VectorT α}

theorem wrap_bytes (h : vec.slots * 2 * vec.size < 2 ^ 32) (hz : 0 < vec.size) :
    wrap32 (vec.slots * 2) = vec.slots * 2 ∧ wrap32 (wrap32 (vec.slots * 2) * vec.size) = vec.slots * 2 * vec.size := by
  have hslots : wrap32 (vec.slots * 2) = vec.slots * 2 :=
    Nat.mod_eq_of_lt (lt_of_le_of_lt (Nat.le_mul_of_pos_right _ hz) h)
  exact ⟨hslots, by rw [hslots]; exact Nat.mod_eq_of_lt h⟩

variable [Inhabited α]

theorem vectorResize_fits (hz : 0 < vec.size) (hs : 0 < vec.slots) (h : vec.slots * 2 * vec.size < 2 ^ 32) {a : Allocs}
    (ha : a.head = true) : vectorResize vec a = (0, { vec with
      data := cellsOf (vec.slots * 2 * vec.size) vec.size vec.data, slots := vec.slots * 2 }, a.tail) := by
  obtain ⟨hslots, hbytes⟩ := wrap_bytes h hz
  have hpos : vec.slots * 2 * vec.size ≠ 0 := Nat.mul_ne_zero (by omega) hz.ne'
  rw [vectorResize, hbytes, hslots]
  exact if_pos ⟨ha, hpos⟩

theorem vectorNew_eq {slots size : Nat} {a a' : Allocs} (hnew : vectorNew slots size a = (some vec, a')) :
    vec = ⟨0, if slots = 0 then 16 else slots, size,
      cellsOf (wrap32 ((if slots = 0 then 16 else slots) * size)) size []⟩ := by
  cases h0 : a.head with
  | false => simp [vectorNew, h0] at hnew
  | true =>
    cases h1 : a.tail.head with
    | false => simp [vectorNew, vectorInit, h0, h1] at hnew
    | true =>
      simp only [vectorNew, vectorInit, h0, h1, if_true] at hnew
      cases hnew
      rfl

theorem slots_eq (slots : U32) :
    (if slots = 0 then 16 else slots.toNat) = if slots.toNat = 0 then 16 else slots.toNat := by
  have hzero : slots = 0 ↔ slots.toNat = 0 := BitVec.toNat_inj.symm
  simp only [hzero]

theorem vectorResize_refused {a : Allocs} (ha : a.head = false) : vectorResize vec a = (-1, vec, a.tail) := by
  rw [vectorResize, ha]
  exact if_neg (by simp)

end Resize

section Sound
variable {V : Type} {vec : VectorT (Option V)} {vs : List V}

/-- The products of the vector are exact, and its first cells are the values pushed. -/
structure VectorT.Sound (vec : VectorT (Option V)) (vs : List V) : Prop where
  size_pos : 0 < vec.size
  count_lt : vec.count < vec.slots
  bytes_lt : vec.slots * vec.size < 2 ^ 32
  length_data : vec.data.length = vec.slots
  count : vec.count = vs.length
  entries : vec.entries = vs.map some

theorem VectorT.Sound.slots_lt (h : vec.Sound vs) : vec.slots < 2 ^ 32 :=
  lt_of_le_of_lt (Nat.le_mul_of_pos_right _ h.size_pos) h.bytes_lt

theorem VectorT.Sound.cell_eq (h : vec.Sound vs) {i : Nat} (hi : i < vec.slots) : vec.cell i = i := by
  have hb : i * vec.size < 2 ^ 32 := lt_of_le_of_lt (Nat.mul_le_mul_right _ hi.le) h.bytes_lt
  rw [VectorT.cell, wrap32, Nat.mod_eq_of_lt hb, Nat.mul_div_cancel _ h.size_pos]

theorem VectorT.Sound.stores (h : vec.Sound vs) : vec.Stores vs := by
  refine ⟨h.count, fun i hi => ?_, h.length_data.ge⟩
  have hlt := h.count_lt
  rw [vectorGetAt, if_neg (by omega), h.cell_eq (by omega), ← List.getElem?_map, ← h.entries, VectorT.entries,
    List.getElem?_take_of_lt hi]

theorem VectorT.Sound.last_iff (h : vec.Sound vs) :
    vec.count = wrap32 (vec.slots + 2 ^ 32 - 1) ↔ vec.count + 1 = vec.slots := by
  have h1 := h.count_lt
  have h2 := h.slots_lt
  unfold wrap32
  omega

theorem VectorT.Sound.setAt (h : vec.Sound vs) (hroom : vec.count + 1 < vec.slots) (x : V) (a : Allocs) :
    ∃ vec', vectorSetAt vec vec.count (some x) a = (0, vec', a) ∧ vec'.Sound (vs ++ [x]) := by
  have hslots := h.slots_lt
  have hgrow : vectorGrow vec.count 33 vec a = (0, vec, a) := by
    rw [vectorGrow, if_neg (by omega)]
  have hwrap : wrap32 (vec.count + 1) = vec.count + 1 := Nat.mod_eq_of_lt (by omega)
  refine ⟨{ vec with data := vec.data.set vec.count (some x), count := vec.count + 1 }, ?_, h.size_pos, hroom,
    h.bytes_lt, ?_, ?_, ?_⟩
  · rw [vectorSetAt, hgrow]
    simp only [h.cell_eq h.count_lt, hwrap]
    rfl
  · rw [List.length_set, h.length_data]
  · rw [List.length_append, h.count]
    rfl
  · have hlt : vec.count < vec.data.length := h.length_data ▸ h.count_lt
    show (vec.data.set vec.count (some x)).take (vec.count + 1) = _
    rw [List.take_add_one, List.take_set_of_le (Nat.le_refl _), List.getElem?_set_self hlt, List.map_append,
      ← h.entries]
    rfl

theorem VectorT.Sound.resize (h : vec.Sound vs) (hfits : vec.slots * 2 * vec.size < 2 ^ 32) :
    VectorT.Sound { vec with data := cellsOf (vec.slots * 2 * vec.size) vec.size vec.data, slots := vec.slots * 2 }
      vs := by
  have hlt := h.count_lt
  have hcells : vec.slots * 2 * vec.size / vec.size = vec.slots * 2 := Nat.mul_div_cancel _ h.size_pos
  refine ⟨h.size_pos, by show vec.count < vec.slots * 2; omega, hfits, length_cellsOf.trans hcells, h.count, ?_⟩
  refine (cellsOf_take ?_ ?_).trans h.entries
  · rw [hcells, h.length_data]
    omega
  · rw [h.length_data]
    exact hlt.le

/-- A safe push appends its element, or fails and changes nothing. -/
theorem push_safe (h : vec.Sound vs) {a : Allocs} (hs : vec.PushSafe a) (x : V) :
    (∃ a', vectorPush vec (some x) a = (-1, vec, a') ∧ ¬ vec.ZeroRealloc) ∨
      ∃ vec' a', vectorPush vec (some x) a = (0, vec', a') ∧ vec'.Sound (vs ++ [x]) := by
  have hlt := h.count_lt
  unfold vectorPush
  by_cases hlast : vec.count + 1 = vec.slots
  · rw [if_pos (h.last_iff.mpr hlast)]
    cases ha : a.head with
    | false =>
      rw [vectorResize_refused ha]
      refine Or.inl ⟨a.tail, rfl, fun hzero => ?_⟩
      rcases hs hlast with hfits | ⟨-, hne⟩
      · rw [VectorT.ZeroRealloc, (wrap_bytes hfits h.size_pos).2] at hzero
        have hpos : 0 < vec.slots * 2 * vec.size := Nat.mul_pos (by omega) h.size_pos
        omega
      · exact hne hzero.2
    | true =>
      have hfits : vec.slots * 2 * vec.size < 2 ^ 32 := (hs hlast).resolve_right (by simp [ha])
      rw [vectorResize_fits h.size_pos (by omega) hfits ha]
      obtain ⟨vec', hset, hsound⟩ := (h.resize hfits).setAt (show vec.count + 1 < vec.slots * 2 by omega) x a.tail
      exact Or.inr ⟨vec', a.tail, hset, hsound⟩
  · rw [if_neg (fun he => hlast (h.last_iff.mp he))]
    obtain ⟨vec', hset, hsound⟩ := h.setAt (by omega) x a
    exact Or.inr ⟨vec', a, hset, hsound⟩

end Sound

/-! ## Pushes whose products wrap -/

section Blank
variable {V : Type}

/-- Nobody has written the cells from `m` on. -/
def Blank (m : Nat) (data : List (Option V)) : Prop := ∀ i ≥ m, ∀ v, data[i]? ≠ some (some v)

theorem blank_of_length {m : Nat} {data : List (Option V)} (h : data.length ≤ m) : Blank m data := by
  intro i hi v he
  rw [List.getElem?_eq_none (le_trans h hi)] at he
  exact absurd he (by simp)

theorem Blank.cellsOf {m bytes size : Nat} {data : List (Option V)} (h : Blank m data) :
    Blank m (cellsOf bytes size data) := by
  intro i hi v he
  rw [Fnsproxy.cellsOf] at he
  rcases Nat.lt_or_ge i (data.take (bytes / size)).length with hlt | hge
  · rw [List.getElem?_append_left hlt] at he
    rw [List.length_take] at hlt
    rw [List.getElem?_take_of_lt (by omega)] at he
    exact h i hi v he
  · rw [List.getElem?_append_right hge] at he
    exact absurd (List.eq_of_mem_replicate (List.mem_of_getElem? he)) (Option.some_ne_none v)

theorem vectorResize_blank {m : Nat} {vec : VectorT (Option V)} (h : Blank m vec.data) (a : Allocs) :
    Blank m (vectorResize vec a).2.1.data := by
  simp only [vectorResize]
  split_ifs
  · exact h.cellsOf
  · exact h

theorem vectorGrow_blank (index m : Nat) : ∀ (rounds : Nat) (vec : VectorT (Option V)) (a : Allocs),
    Blank m vec.data → Blank m (vectorGrow index rounds vec a).2.1.data := by
  intro rounds
  induction rounds with
  | zero => exact fun _ _ h => h
  | succ rounds ih =>
    intro vec a h
    have hresize := vectorResize_blank h a
    simp only [vectorGrow]
    split_ifs
    · exact hresize
    · exact ih _ _ hresize
    · exact h

theorem vectorGrow_slots (index : Nat) : ∀ (rounds : Nat) (vec : VectorT (Option V)) (a : Allocs),
    vec.slots < 2 ^ 32 → ∃ j, (vectorGrow index rounds vec a).2.1.slots = vec.slots * 2 ^ j % 2 ^ 32 := by
  intro rounds
  induction rounds with
  | zero => exact fun vec _ h => ⟨0, by rw [Nat.pow_zero, Nat.mul_one, Nat.mod_eq_of_lt h]; rfl⟩
  | succ rounds ih =>
    intro vec a h
    have hsame : ∃ j, vec.slots = vec.slots * 2 ^ j % 2 ^ 32 :=
      ⟨0, by rw [Nat.pow_zero, Nat.mul_one, Nat.mod_eq_of_lt h]⟩
    have hresize : (vectorResize vec a).2.1.slots = wrap32 (vec.slots * 2) ∨
        (vectorResize vec a).2.1.slots = vec.slots := by
      simp only [vectorResize]
      split_ifs
      · exact Or.inl rfl
      · exact Or.inr rfl
    have hagain : ∀ {n}, (n = wrap32 (vec.slots * 2) ∨ n = vec.slots) → ∀ j, ∃ k, n * 2 ^ j % 2 ^ 32 =
        vec.slots * 2 ^ k % 2 ^ 32 := by
      rintro n (rfl | rfl) j
      · refine ⟨j + 1, ?_⟩
        rw [wrap32, Nat.mod_mul_mod, Nat.mul_assoc, ← Nat.pow_succ']
      · exact ⟨j, rfl⟩
    have hlt : (vectorResize vec a).2.1.slots < 2 ^ 32 := by
      rcases hresize with he | he
      · exact he ▸ Nat.mod_lt _ (Nat.two_pow_pos 32)
      · exact he ▸ h
    simp only [vectorGrow]
    split_ifs
    · obtain ⟨k, hk⟩ := hagain hresize 0
      exact ⟨k, by rw [← hk, Nat.pow_zero, Nat.mul_one, Nat.mod_eq_of_lt hlt]⟩
    · obtain ⟨j, hj⟩ := ih _ (vectorResize vec a).2.2 hlt
      obtain ⟨k, hk⟩ := hagain hresize j
      exact ⟨k, hj.trans hk⟩
    · exact hsame

/-- Doubling in 32 bits never comes back to where it began. -/
theorem double_ne {s : Nat} (hpos : 0 < s) (hlt : s < 2 ^ 32) (j : Nat) : s * 2 ^ (j + 1) % 2 ^ 32 ≠ s := by
  intro he
  have hdvd : 2 ^ 32 ∣ s * (2 ^ (j + 1) - 1) := by
    rw [Nat.mul_sub, Nat.mul_one]
    exact Nat.dvd_of_mod_eq_zero (Nat.sub_mod_eq_zero_of_mod_eq (he.trans (Nat.mod_eq_of_lt hlt).symm))
  have hodd : Odd (2 ^ (j + 1) - 1) := by
    have := Nat.two_pow_pos j
    exact ⟨2 ^ j - 1, by rw [Nat.pow_succ]; omega⟩
  have hcoprime : Nat.Coprime (2 ^ 32) (2 ^ (j + 1) - 1) := (Nat.coprime_two_left.mpr hodd).pow_left 32
  exact absurd (Nat.le_of_dvd hpos (hcoprime.dvd_of_dvd_mul_right hdvd)) (Nat.not_le.mpr hlt)

end Blank

section Unsafe
variable {V : Type} {vec : VectorT (Option V)} {vs : List V}

theorem length_short {slots size : Nat} {old : List (Option V)} (hbig : ¬ slots * size < 2 ^ 32) (hz : 0 < size) :
    (cellsOf (wrap32 (slots * size)) size old).length < slots := by
  have hlt : wrap32 (slots * size) < 2 ^ 32 := Nat.mod_lt _ (Nat.two_pow_pos 32)
  rw [length_cellsOf, Nat.div_lt_iff_lt_mul hz]
  omega

theorem not_stores {m : Nat} {x : V} (hm : m ≤ vs.length) (hcell : ∀ v, vec.data[vec.cell m]? ≠ some (some v)) :
    ¬ vec.Stores (vs ++ [x]) := by
  intro hstores
  have hlen : m < (vs ++ [x]).length := by
    rw [List.length_append]
    exact Nat.lt_succ_of_le hm
  have hget := hstores.get m (hstores.count ▸ hlen)
  rw [List.getElem?_eq_getElem hlen, Option.map_some, vectorGetAt] at hget
  split_ifs at hget
  exact hcell _ hget

/-- Once the slots have wrapped, the loop of `vector_set_at` cuts the block below the count, if it succeeds. -/
theorem vectorGrow_cut {vec₁ : VectorT (Option V)} (hsize : vec₁.size = 1) (hdata : vec₁.data.length = vec₁.slots)
    (hcut : vec₁.slots < vec₁.count ∨ vec₁.slots = 2 ^ 32 - 2 ∧ vec₁.count = 2 ^ 32 - 2) {a a' : Allocs} {ret : Int}
    {vec' : VectorT (Option V)} (hgrow : vectorGrow vec₁.count 33 vec₁ a = (ret, vec', a')) (hret : ¬ ret < 0) :
    ∃ m < vec₁.count, Blank m vec'.data := by
  rcases hcut with hlt | ⟨hs, hc⟩
  · have hblank := vectorGrow_blank vec₁.count vec₁.slots 33 vec₁ a (blank_of_length hdata.le)
    rw [hgrow] at hblank
    exact ⟨vec₁.slots, hlt, hblank⟩
  · have hbytes : wrap32 (wrap32 (vec₁.slots * 2) * vec₁.size) = 2 ^ 32 - 4 := by
      rw [hsize, hs]
      decide
    rw [vectorGrow, if_pos (by omega), vectorResize, hbytes] at hgrow
    by_cases ha : a.head = true
    · rw [if_pos ⟨ha, by decide⟩] at hgrow
      dsimp only at hgrow
      rw [if_neg (by decide)] at hgrow
      have hblank := vectorGrow_blank vec₁.count (2 ^ 32 - 4) 32 { vec₁ with
          data := cellsOf (2 ^ 32 - 4) vec₁.size vec₁.data, slots := wrap32 (vec₁.slots * 2) } a.tail
        (blank_of_length (by rw [length_cellsOf, hsize, Nat.div_one]))
      rw [hgrow] at hblank
      exact ⟨2 ^ 32 - 4, by rw [hc]; decide, hblank⟩
    · rw [if_neg (fun hb => ha hb.1)] at hgrow
      cases hgrow
      exact absurd (by decide) hret

theorem VectorT.Sound.size_eq_one (h : vec.Sound vs) (hbig : 2 ^ 32 ≤ vec.slots * 2) : vec.size = 1 := by
  have hle : 2 ≤ vec.size → vec.slots * 2 ≤ vec.slots * vec.size := Nat.mul_le_mul_left _
  have := h.bytes_lt
  have := h.size_pos
  omega

/-- A push behind slots that have wrapped either fails with other slots than before, or loses an element. -/
theorem setAt_unsafe (h : vec.Sound vs) (hlast : vec.count + 1 = vec.slots) (hbig : 2 ^ 32 ≤ vec.slots * 2)
    {vec₁ : VectorT (Option V)} (hvec : vec₁ = { vec with
      data := cellsOf (wrap32 (vec.slots * 2)) vec.size vec.data, slots := wrap32 (vec.slots * 2) }) (x : V)
    {a a' : Allocs} {ret : Int} {vec' : VectorT (Option V)}
    (hset : vectorSetAt vec₁ vec.count (some x) a = (ret, vec', a')) :
    (ret < 0 → vec'.slots ≠ vec.slots) ∧ (¬ ret < 0 → ¬ vec'.Stores (vs ++ [x])) := by
  have hslots := h.slots_lt
  have hone := h.size_eq_one hbig
  have hs₁ : vec₁.slots = vec.slots * 2 - 2 ^ 32 := by
    rw [hvec]
    show vec.slots * 2 % 2 ^ 32 = _
    omega
  have hc₁ : vec₁.count = vec.count := by rw [hvec]
  have hz₁ : vec₁.size = 1 := by rw [hvec, ← hone]
  have hdata : vec₁.data.length = vec₁.slots := by
    rw [hvec]
    show (cellsOf _ vec.size vec.data).length = wrap32 (vec.slots * 2)
    rw [length_cellsOf, hone, Nat.div_one]
  obtain ⟨r, g, a'', hgrow⟩ : ∃ r g a'', vectorGrow vec.count 33 vec₁ a = (r, g, a'') := ⟨_, _, _, rfl⟩
  have hgsize := vectorGrow_size vec.count 33 vec₁ a
  obtain ⟨j, hj⟩ := vectorGrow_slots vec.count 33 vec₁ a (by omega)
  rw [hgrow] at hgsize hj
  rw [vectorSetAt, hgrow] at hset
  dsimp only at hset hgsize hj
  split_ifs at hset with hr
  · cases hset
    refine ⟨fun _ he => ?_, fun hret => absurd (by decide) hret⟩
    apply double_ne (show 0 < vec.slots by omega) hslots j
    calc vec.slots * 2 ^ (j + 1) % 2 ^ 32 = vec.slots * 2 % 2 ^ 32 * 2 ^ j % 2 ^ 32 := by
          rw [Nat.mod_mul_mod, Nat.mul_assoc, ← Nat.pow_succ']
      _ = vec'.slots := by rw [hj, hvec]
      _ = vec.slots := he
  · cases hset
    refine ⟨fun hret => absurd hret (by decide), fun _ => ?_⟩
    obtain ⟨m, hm, hblank⟩ := vectorGrow_cut hz₁ hdata (by omega) (hc₁ ▸ hgrow) hr
    have hcell : ∀ k < 2 ^ 32, g.cell k = k := by
      intro k hk
      rw [VectorT.cell, hgsize, hz₁, Nat.mul_one, Nat.div_one]
      exact Nat.mod_eq_of_lt hk
    apply not_stores (m := m) (by rw [← h.count]; omega)
    intro v
    show (g.data.set (g.cell vec.count) (some x))[g.cell m]? ≠ _
    rw [hcell _ (by omega), hcell _ (by omega), List.getElem?_set_ne (by omega)]
    exact hblank m (Nat.le_refl m) v

/-- An unsafe push frees the block, fails with other slots than before, or leaves a vector that does not hold its
values. -/
theorem push_unsafe (h : vec.Sound vs) {a : Allocs} (hs : ¬ vec.PushSafe a) (x : V) {a' : Allocs} {ret : Int}
    {vec' : VectorT (Option V)} (hpush : vectorPush vec (some x) a = (ret, vec', a')) :
    (ret < 0 → vec'.slots ≠ vec.slots ∨ vec.ZeroRealloc) ∧ (¬ ret < 0 → ¬ vec'.Stores (vs ++ [x])) := by
  have hslots := h.slots_lt
  obtain ⟨hlast, hno⟩ := Classical.not_imp.mp hs
  obtain ⟨hbig, hno⟩ := not_or.mp hno
  unfold vectorPush at hpush
  rw [if_pos (h.last_iff.mpr hlast)] at hpush
  by_cases hzero : wrap32 (wrap32 (vec.slots * 2) * vec.size) = 0
  · have hresize : vectorResize vec a = (-1, vec, a.tail) := by
      rw [vectorResize]
      exact if_neg (fun hc => hc.2 hzero)
    rw [hresize] at hpush
    cases hpush
    exact ⟨fun _ => Or.inr ⟨h.last_iff.mpr hlast, hzero⟩, fun hret => absurd (by decide) hret⟩
  · have ha : a.head = true := by
      cases ha : a.head with
      | true => rfl
      | false => exact absurd ⟨ha, hzero⟩ hno
    have hresize : vectorResize vec a = (0, { vec with
        data := cellsOf (wrap32 (wrap32 (vec.slots * 2) * vec.size)) vec.size vec.data,
        slots := wrap32 (vec.slots * 2) }, a.tail) := by
      rw [vectorResize]
      exact if_pos ⟨ha, hzero⟩
    rw [hresize] at hpush
    rcases Nat.lt_or_ge (vec.slots * 2) (2 ^ 32) with hlt | hge
    · have hs : wrap32 (vec.slots * 2) = vec.slots * 2 := Nat.mod_eq_of_lt hlt
      have hcount : ¬ vec.slots * 2 ≤ vec.count := by omega
      rw [hs] at hpush
      simp only [Int.lt_irrefl, if_false, vectorSetAt, vectorGrow, hcount] at hpush
      cases hpush
      refine ⟨fun hret => absurd hret (by decide), fun _ hstores => ?_⟩
      have hblock : vec.slots * 2 ≤ ((cellsOf (wrap32 (vec.slots * 2 * vec.size)) vec.size vec.data).set _ _).length :=
        hstores.block
      rw [List.length_set] at hblock
      exact absurd hblock (Nat.not_le.mpr (length_short hbig h.size_pos))
    · dsimp only at hpush
      rw [if_neg (by decide)] at hpush
      have hone : wrap32 (wrap32 (vec.slots * 2) * vec.size) = wrap32 (vec.slots * 2) := by
        rw [h.size_eq_one hge, Nat.mul_one]
        exact Nat.mod_mod _ _
      obtain ⟨hfail, hdone⟩ := setAt_unsafe h hlast hge (by rw [hone]) x hpush
      exact ⟨fun hret => Or.inl (hfail hret), hdone⟩

end Unsafe

section Run
variable {V : Type}

theorem Grows.stores {vec : VectorT (Option V)} {vs xs : List V} {a : Allocs} (h : Grows vec vs xs a) :
    vec.Stores vs := by
  cases xs with
  | nil => exact h
  | cons x xs => exact h.1

theorem VectorT.Sound.pushes_grow_iff : ∀ (xs : List V) {vec : VectorT (Option V)} {vs : List V} {a : Allocs}, vec.Sound vs →
    (Grows vec vs xs a ↔ GrowsSafely vec xs a) := by
  intro xs
  induction xs with
  | nil => exact fun h => iff_of_true h.stores trivial
  | cons x xs ih =>
    intro vec vs a h
    obtain ⟨ret, vec', a', hpush⟩ : ∃ ret vec' a', vectorPush vec (some x) a = (ret, vec', a') := ⟨_, _, _, rfl⟩
    rw [Grows, GrowsSafely, hpush]
    dsimp only
    by_cases hs : vec.PushSafe a
    · rcases push_safe h hs x with ⟨a'', hfail, hzero⟩ | ⟨vec'', a'', hdone, h'⟩
      · obtain ⟨rfl, rfl, rfl⟩ : ret = -1 ∧ vec' = vec ∧ a' = a'' := by
          rw [hpush] at hfail
          cases hfail
          exact ⟨rfl, rfl, rfl⟩
        rw [if_pos (by decide), ih h]
        exact ⟨fun hg => ⟨hs, hg.2.2.2⟩, fun hg => ⟨h.stores, ⟨rfl, rfl, fun _ _ => rfl⟩, hzero, hg.2⟩⟩
      · obtain ⟨rfl, rfl, rfl⟩ : ret = 0 ∧ vec' = vec'' ∧ a' = a'' := by
          rw [hpush] at hdone
          cases hdone
          exact ⟨rfl, rfl, rfl⟩
        rw [if_neg (by decide), ih h']
        exact ⟨fun hg => ⟨hs, hg.2⟩, fun hg => ⟨h.stores, hg.2⟩⟩
    · obtain ⟨hfail, hdone⟩ := push_unsafe h hs x hpush
      refine iff_of_false ?_ fun hg => hs hg.1
      rintro ⟨-, hg⟩
      split_ifs at hg with hret
      · rcases hfail hret with hslots | hzero
        · exact hslots hg.1.slots
        · exact hg.2.1 hzero
      · exact hdone hret hg.stores

/-- **Growing a vector**: the law of a run holds exactly when the first product fits and every push is safe. -/
theorem grows_iff (slots size : U32) (hsize : 1 ≤ size.toNat) {a a' : Allocs} {vec : VectorT (Option V)}
    (hnew : vectorNew slots.toNat size.toNat a = (some vec, a')) (xs : List V) :
    Grows vec [] xs a' ↔ (if slots = 0 then 16 else slots.toNat) * size.toNat < 2 ^ 32 ∧ GrowsSafely vec xs a' := by
  have hvec := vectorNew_eq hnew
  rw [slots_eq]
  obtain ⟨n, hn⟩ : ∃ n, n = if slots.toNat = 0 then 16 else slots.toNat := ⟨_, rfl⟩
  rw [← hn] at hvec ⊢
  have hpos : 0 < n := by
    rw [hn]
    split_ifs <;> omega
  by_cases hfits : n * size.toNat < 2 ^ 32
  · have hcells : n * size.toNat / size.toNat = n := Nat.mul_div_cancel _ hsize
    have hsound : vec.Sound [] := by
      rw [hvec]
      refine ⟨hsize, hpos, hfits, ?_, rfl, rfl⟩
      rw [length_cellsOf]
      exact (congrArg (· / size.toNat) (Nat.mod_eq_of_lt hfits)).trans hcells
    rw [hsound.pushes_grow_iff xs]
    exact ⟨fun h => ⟨hfits, h⟩, fun h => h.2⟩
  · refine iff_of_false (fun h => ?_) fun h => hfits h.1
    have hblock := h.stores.block
    rw [hvec] at hblock
    exact absurd hblock (Nat.not_le.mpr (length_short hfits hsize))

theorem grows_iff_two : ∃ vec a', vectorNew (2 : U32).toNat (4 : U32).toNat (fun _ => true) = (some vec, a') ∧
    Grows vec [] [7, 8, 9] a' :=
  ⟨_, _, rfl, (grows_iff 2 4 (a := fun _ => true) (by decide) rfl [7, 8, 9]).mpr ⟨by decide, fun h => absurd h (by decide),
    fun _ => Or.inl (by decide), fun h => absurd h (by decide), trivial⟩⟩

/-- The product of the first allocation wraps to no bytes. -/
theorem not_grows : ∃ vec a', vectorNew (2 ^ 16) (2 ^ 16) (fun _ => true) = (some vec, a') ∧
    ¬ Grows vec [] ([] : List Nat) a' := by
  refine ⟨_, _, rfl, fun h => ?_⟩
  exact absurd h.stores.block (by decide)

end Run

end Fnsproxy
