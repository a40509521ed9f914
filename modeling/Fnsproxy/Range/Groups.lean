import Fnsproxy.Range.Reachable

/-!
# Chunks of nested pieces

A chunk that has been given aligned pieces only, none larger than the ones before it, has the entries
`F ++ G`: `G` in order, `F` buried behind a piece that lay below all entries.

* `Ordered`, `Aligned`, `Groups` : the entries in order, on the borders of a unit, both parts;
* `Placed.live`, `Groups.live` : a piece above the start of `G` is placed in `G`;
* `pushesFor_aligned` : an aligned piece never clashes;
* `rangeInsert_takes` : an insert whose pieces all find their pushes returns 0.
-/

namespace Fnsproxy
open Word WhileLoop

/-- One entry behind the other, none of them empty. -/
structure Ordered (xs : List RangeLowT) : Prop where
  pairwise : xs.Pairwise fun x y => x.end' < y.start
  proper : ∀ x ∈ xs, x.start ≤ x.end'

/-- The entries begin and end on the borders of rows of `u` keys. -/
def Aligned (u : Nat) (xs : List RangeLowT) : Prop := ∀ x ∈ xs, u ∣ x.start ∧ u ∣ x.end' + 1

/-- An entry of `G` starts at or before each entry of `F`. -/
structure Groups (F G : List RangeLowT) : Prop where
  ordered : Ordered G
  below : ∀ x ∈ F, ∃ y ∈ G, y.start ≤ x.start

section Carve
variable {x : RangeLowT} {ip : U32} {s e : Nat}

theorem mem_carve_iff {y : RangeLowT} : y ∈ carve x ip s e ↔
    (x.start < s ∧ y = { x with end' := s - 1 }) ∨ y = ⟨ip, s, e⟩ ∨ (e < x.end' ∧ y = { x with start := e + 1 }) := by
  unfold carve
  split_ifs with h1 h2 h2 <;> simp [h1, h2]

theorem mem_carve {y : RangeLowT} (hse : s ≤ e) (hs : x.start ≤ s) (he : e ≤ x.end') (hy : y ∈ carve x ip s e) :
    x.start ≤ y.start ∧ y.start ≤ y.end' ∧ y.end' ≤ x.end' := by
  rcases mem_carve_iff.mp hy with ⟨h, rfl⟩ | rfl | ⟨h, rfl⟩
  · exact ⟨le_rfl, (by omega : x.start ≤ s - 1), (by omega : s - 1 ≤ x.end')⟩
  · exact ⟨hs, hse, he⟩
  · exact ⟨(by omega : x.start ≤ e + 1), h, le_rfl⟩

theorem ordered_carve (hse : s ≤ e) (hs : x.start ≤ s) (he : e ≤ x.end') : Ordered (carve x ip s e) := by
  refine ⟨?_, fun y hy => (mem_carve hse hs he hy).2.1⟩
  unfold carve
  split_ifs with h1 h2 h2 <;>
    simp only [List.singleton_append, List.nil_append, List.pairwise_cons, List.mem_cons, List.not_mem_nil, or_false,
      forall_eq_or_imp, forall_eq, List.Pairwise.nil, and_true, false_imp_iff, implies_true] <;> omega

end Carve

theorem exists_last {α : Type*} {p : α → Prop} {xs : List α} (h : ∃ x ∈ xs, p x) :
    ∃ A x B, xs = A ++ x :: B ∧ p x ∧ ∀ y ∈ B, ¬ p y := by
  induction xs with
  | nil =>
    obtain ⟨x, hx, -⟩ := h
    cases hx
  | cons x xs ih =>
    by_cases hxs : ∃ y ∈ xs, p y
    · obtain ⟨A, y, B, rfl, hy, hB⟩ := ih hxs
      exact ⟨x :: A, y, B, rfl, hy, hB⟩
    · obtain ⟨y, hy, hpy⟩ := h
      rcases List.mem_cons.mp hy with rfl | hy
      · exact ⟨[], y, xs, rfl, hpy, fun z hz hpz => hxs ⟨z, hz, hpz⟩⟩
      · exact absurd ⟨y, hy, hpy⟩ hxs

section Placed
variable {ip : U32} {s e n u : Nat} {xs ys F G : List RangeLowT}

/-- A piece that does not lie below `G` is placed in `G`. -/
theorem Placed.live (h : Placed ip s e (F ++ G) ys) (hlive : ∃ y ∈ G, y.start ≤ e) :
    ∃ G', ys = F ++ G' ∧ Placed ip s e G G' := by
  obtain ⟨A, x, B, rfl, hx, hB⟩ := exists_last hlive
  have hB : ∀ y ∈ B, e < y.start := fun y hy => Nat.not_le.mp (hB y hy)
  generalize hxs : F ++ (A ++ x :: B) = xs at h
  rw [← List.append_assoc] at hxs
  have hstop : ∀ {A' B' : List RangeLowT} {x' : RangeLowT}, xs = A' ++ x' :: B' → x'.start ≤ e →
      (∀ y ∈ B', e < y.start) → F ++ A = A' ∧ x = x' ∧ B = B' := fun h' hx' hB' =>
    last_unique (p := fun y => y.start ≤ e) (hxs.trans h') hx hx' (fun y hy => Nat.not_le.mpr (hB y hy))
      (fun y hy => Nat.not_le.mpr (hB' y hy))
  cases h with
  | first _ hlt =>
    have := hlt x (by rw [← hxs]; simp)
    omega
  | behind A' B' x' hx' hB' hs =>
    obtain ⟨rfl, rfl, rfl⟩ := hstop rfl hx' hB'
    exact ⟨A ++ x :: ⟨ip, s, e⟩ :: B, by simp, .behind A B x hx hB hs⟩
  | nested A' B' x' hx' hB' hs he =>
    obtain ⟨rfl, rfl, rfl⟩ := hstop rfl hx' hB'
    exact ⟨A ++ (carve x ip s e ++ B), by simp, .nested A B x hx hB hs he⟩

theorem Placed.below (h : Placed ip s e xs ys) (hbelow : ∀ x ∈ xs, e < x.start) : ys = xs ++ [⟨ip, s, e⟩] := by
  cases h with
  | first _ _ => rfl
  | behind A B x hx hB hs =>
    have := hbelow x (by simp)
    omega
  | nested A B x hx hB hs he =>
    have := hbelow x (by simp)
    omega

theorem Placed.length_le (h : Placed ip s e xs ys) : ys.length ≤ xs.length + 2 := by
  cases h with
  | first _ _ => simp
  | behind A B x hx hB hs => simp; omega
  | nested A B x hx hB hs he =>
    unfold carve
    split_ifs <;> simp <;> omega

theorem Placed.mem (h : Placed ip s e xs ys) {y : RangeLowT} (hy : y ∈ ys) : y = ⟨ip, s, e⟩ ∨ ∃ x ∈ xs,
    y = x ∨ (x.start < s ∧ y = { x with end' := s - 1 }) ∨ (e < x.end' ∧ y = { x with start := e + 1 }) := by
  cases h with
  | first _ _ =>
    rcases List.mem_append.mp hy with hy | hy
    · exact Or.inr ⟨y, hy, Or.inl rfl⟩
    · exact Or.inl (List.mem_singleton.mp hy)
  | behind A B x hx hB hs =>
    simp only [List.mem_append, List.mem_cons] at hy
    rcases hy with hy | rfl | rfl | hy
    · exact Or.inr ⟨y, by simp [hy], Or.inl rfl⟩
    · exact Or.inr ⟨y, by simp, Or.inl rfl⟩
    · exact Or.inl rfl
    · exact Or.inr ⟨y, by simp [hy], Or.inl rfl⟩
  | nested A B x hx hB hs he =>
    simp only [List.mem_append] at hy
    rcases hy with hy | hy | hy
    · exact Or.inr ⟨y, by simp [hy], Or.inl rfl⟩
    · rcases mem_carve_iff.mp hy with h1 | rfl | h1
      · exact Or.inr ⟨x, by simp, Or.inr (Or.inl h1)⟩
      · exact Or.inl rfl
      · exact Or.inr ⟨x, by simp, Or.inr (Or.inr h1)⟩
    · exact Or.inr ⟨y, by simp [hy], Or.inl rfl⟩

theorem Placed.aligned (h : Placed ip s e xs ys) (hxs : Aligned u xs) (hs : u ∣ s) (he : u ∣ e + 1) : Aligned u ys := by
  intro y hy
  rcases h.mem hy with rfl | ⟨x, hx, rfl | ⟨h1, rfl⟩ | ⟨-, rfl⟩⟩
  · exact ⟨hs, he⟩
  · exact hxs y hx
  · exact ⟨(hxs x hx).1, (Nat.sub_add_cancel (by omega : 1 ≤ s)).symm ▸ hs⟩
  · exact ⟨he, (hxs x hx).2⟩

theorem Placed.starts (h : Placed ip s e xs ys) :
    (∀ x ∈ xs, ∃ y ∈ ys, y.start ≤ x.start) ∧ (∃ y ∈ ys, y.start ≤ s) := by
  obtain ⟨A, B, hys, -⟩ := h.exists_new
  refine ⟨fun x hx => ?_, ⟨ip, s, e⟩, by simp [hys], le_rfl⟩
  cases h with
  | first _ _ => exact ⟨x, by simp [hx], le_rfl⟩
  | behind A B z hz hB hs =>
    refine ⟨x, ?_, le_rfl⟩
    simp only [List.mem_append, List.mem_cons] at hx ⊢
    tauto
  | nested A B z hz hB hs he =>
    simp only [List.mem_append, List.mem_cons] at hx
    rcases hx with hx | rfl | hx
    · exact ⟨x, by simp [hx], le_rfl⟩
    · by_cases hlt : x.start < s
      · exact ⟨{ x with end' := s - 1 }, by simp [mem_carve_iff, hlt], le_rfl⟩
      · exact ⟨⟨ip, s, e⟩, by simp [mem_carve_iff], (by omega : s ≤ x.start)⟩
    · exact ⟨x, by simp [hx], le_rfl⟩

theorem Placed.ordered (h : Placed ip s e xs ys) (hse : s ≤ e) (hxs : Ordered xs) (hlive : ∃ y ∈ xs, y.start ≤ e) : Ordered ys := by
  cases h with
  | first _ hlt =>
    obtain ⟨y, hy, hle⟩ := hlive
    have := hlt y hy
    omega
  | behind A B x hx hB hs =>
    have hproper := hxs.proper x (by simp)
    obtain ⟨hA, hxB, hAx⟩ := List.pairwise_append.mp hxs.pairwise
    obtain ⟨hx', hB'⟩ := List.pairwise_cons.mp hxB
    refine ⟨List.pairwise_append.mpr ⟨hA, ?_, fun a ha y hy => ?_⟩, fun y hy => ?_⟩
    · refine List.pairwise_cons.mpr ⟨fun y hy => ?_, List.pairwise_cons.mpr ⟨hB, hB'⟩⟩
      rcases List.mem_cons.mp hy with rfl | hy
      · exact hs
      · exact hx' y hy
    · have hax := hAx a ha x (by simp)
      simp only [List.mem_cons] at hy
      rcases hy with rfl | rfl | hy
      · exact hax
      · exact (by omega : a.end' < s)
      · exact hAx a ha y (by simp [hy])
    · simp only [List.mem_append, List.mem_cons] at hy
      rcases hy with hy | rfl | rfl | hy
      · exact hxs.proper y (by simp [hy])
      · exact hproper
      · exact hse
      · exact hxs.proper y (by simp [hy])
  | nested A B x hx hB hs he =>
    obtain ⟨hA, hxB, hAx⟩ := List.pairwise_append.mp hxs.pairwise
    obtain ⟨hx', hB'⟩ := List.pairwise_cons.mp hxB
    have hcarve : Ordered (carve x ip s e) := ordered_carve hse hs he
    refine ⟨List.pairwise_append.mpr ⟨hA, List.pairwise_append.mpr ⟨hcarve.pairwise, hB', fun y hy z hz => ?_⟩,
      fun a ha y hy => ?_⟩, fun y hy => ?_⟩
    · exact lt_of_le_of_lt (mem_carve hse hs he hy).2.2 (hx' z hz)
    · rcases List.mem_append.mp hy with hy | hy
      · exact lt_of_lt_of_le (hAx a ha x (by simp)) (mem_carve hse hs he hy).1
      · exact hAx a ha y (by simp [hy])
    · simp only [List.mem_append] at hy
      rcases hy with hy | hy | hy
      · exact hxs.proper y (by simp [hy])
      · exact hcarve.proper y hy
      · exact hxs.proper y (by simp [hy])

theorem Ordered.answer_before {A B : List RangeLowT} {x : RangeLowT} (h : Ordered (A ++ x :: B)) (hn : x.start ≤ n) :
    answer A n = none := by
  have hnone : ∀ a ∈ A, ¬ a.Covers n := fun a ha hc => by
    have := (List.pairwise_append.mp h.pairwise).2.2 a ha x (by simp)
    have := hc.2
    omega
  simpa [answer] using hnone

/-- Among ordered entries the new piece answers for all its keys. -/
theorem answer_placed_ordered (h : Placed ip s e xs ys) (hse : s ≤ e) (hxs : Ordered xs) :
    answer ys n = if s ≤ n ∧ n ≤ e then some ip else answer xs n := by
  split_ifs with hn
  · have hmask : maskedBy e n xs = none := by
      cases h with
      | first _ hlt => exact maskedBy_eq_none hlt hn.2
      | behind A B x hx hB hs =>
        have hproper := hxs.proper x (by simp)
        rw [maskedBy_stop hx hB hn.2, hxs.answer_before (by omega)]
      | nested A B x hx hB hs he => rw [maskedBy_stop hx hB hn.2, hxs.answer_before (hs.trans hn.1)]
    rw [answer_placed_inside h hn.1 hn.2, hmask]
    rfl
  · exact answer_placed_outside h hn hse

/-- An aligned piece meets no aligned entry without lying in it. -/
theorem pushesFor_aligned (hxs : Aligned u xs) (hs : u ∣ s) (he : e + 1 = s + u) :
    ∃ k ≤ 2, pushesFor s e xs = some k := by
  by_cases hlive : ∃ x ∈ xs, x.start ≤ e
  · obtain ⟨A, x, B, rfl, hx, hB⟩ := exists_last hlive
    rw [pushesFor_stop hx fun y hy => Nat.not_le.mp (hB y hy)]
    obtain ⟨⟨a, ha⟩, b, hb⟩ := hxs x (by simp)
    obtain ⟨q, rfl⟩ := hs
    have haq : a ≤ q := by
      by_contra hlt
      have := Nat.mul_le_mul_left u (Nat.succ_le_of_lt (Nat.not_le.mp hlt))
      rw [Nat.mul_succ] at this
      omega
    have hstart : x.start ≤ u * q := ha ▸ Nat.mul_le_mul_left u haq
    by_cases hbehind : x.end' < u * q
    · exact ⟨1, by decide, if_pos hbehind⟩
    · have hqb : q + 1 ≤ b := by
        by_contra hlt
        have := Nat.mul_le_mul_left u (Nat.le_of_lt_succ (Nat.not_le.mp hlt))
        omega
      have hend : u * (q + 1) ≤ u * b := Nat.mul_le_mul_left u hqb
      rw [Nat.mul_succ] at hend
      rw [if_neg hbehind, if_pos ⟨hstart, by omega⟩]
      exact ⟨_, by split_ifs <;> decide, rfl⟩
  · exact ⟨1, by decide, pushesFor_first fun x hx => Nat.not_le.mp fun hle => hlive ⟨x, hx, hle⟩⟩

theorem Groups.all_below (h : Groups F G) (hbelow : ∀ y ∈ G, e < y.start) : ∀ x ∈ F ++ G, e < x.start := by
  intro x hx
  rcases List.mem_append.mp hx with hx | hx
  · obtain ⟨y, hy, hyx⟩ := h.below x hx
    exact lt_of_lt_of_le (hbelow y hy) hyx
  · exact hbelow x hx

theorem Groups.pushes (h : Groups F G) (hG : Aligned u G) (hs : u ∣ s) (he : e + 1 = s + u) :
    ∃ k ≤ 2, pushesFor s e (F ++ G) = some k := by
  by_cases hlive : ∃ x ∈ G, x.start ≤ e
  · obtain ⟨k, hk, hpushes⟩ := pushesFor_aligned hG hs he
    obtain ⟨A, x, B, rfl, hx, hB⟩ := exists_last hlive
    have hB : ∀ y ∈ B, e < y.start := fun y hy => Nat.not_le.mp (hB y hy)
    rw [pushesFor_stop hx hB] at hpushes
    refine ⟨k, hk, ?_⟩
    rw [← List.append_assoc, pushesFor_stop hx hB]
    exact hpushes
  · exact ⟨1, by decide, pushesFor_first (h.all_below fun y hy => Nat.not_le.mp fun hle => hlive ⟨y, hy, hle⟩)⟩

end Placed

/-! ## Inserts that are taken -/

/-- Every vector of the table is one of sub-ranges. -/
def RangeT.Sized (r : RangeT) : Prop := ∀ h vec, r.low h = some vec → vec.size = sizeofRangeLow

theorem rangeInsertSearch_size (ip : U32) (s e : Nat) (vec : VectorT RangeLowT) (a : Allocs) (i : Nat) :
    (rangeInsertSearch ip s e vec a i).2.1.size = vec.size := by
  induction i with
  | zero =>
    simp only [rangeInsertSearch]
    split_ifs <;> exact vectorPush_size ..
  | succ i ih =>
    simp only [rangeInsertSearch]
    split_ifs <;> first | exact ih | rfl | exact vectorPush_size .. | exact (vectorPush_size ..).trans (vectorPush_size ..)

theorem rangeInsertChunk_sized {r : RangeT} (hr : r.Sized) (ip : U32) (s e h : Nat) (a : Allocs) :
    (rangeInsertChunk ip s e r h a).2.1.Sized := by
  have hupdate : ∀ vec : VectorT RangeLowT, vec.size = sizeofRangeLow →
      ({ r with low := Function.update r.low h (some vec) } : RangeT).Sized := by
    intro vec hvec k vec' hk
    by_cases hkh : k = h
    · subst hkh
      simp only [Function.update_self, Option.some.injEq] at hk
      rw [← hk, hvec]
    · simp only [Function.update_of_ne hkh] at hk
      exact hr k vec' hk
  unfold rangeInsertChunk
  cases hl : r.low h with
  | some vec => exact hupdate _ ((rangeInsertSearch_size ..).trans (hr h vec hl))
  | none =>
    rcases hn : vectorNew (α := RangeLowT) rangeInitNum sizeofRangeLow a with ⟨_ | vec, a'⟩
    · exact hr
    · exact hupdate _ ((rangeInsertSearch_size ..).trans (vectorNew_size hn))

/-- The piece is taken while there is memory. -/
def RangeT.Takes (r : RangeT) (s e h : Nat) : Prop :=
  ∀ a, Willing a → ∃ a', piecePushes s e (r.low h) a = .ok a' ∧ Willing a'

/-- A vector of few sub-ranges has room. -/
theorem placeholders_few : ∀ (k : Nat) {vec : VectorT RangeLowT} {a : Allocs}, vec.Fits → vec.size = sizeofRangeLow →
    vec.entries.length + k < 2 ^ 28 → Willing a → ∃ a', placeholders k vec a = .ok a' ∧ Willing a' := by
  intro k
  induction k with
  | zero => exact fun _ _ _ ha => ⟨_, rfl, ha⟩
  | succ k ih =>
    intro vec a hf hsize hfew ha
    have hroom : vec.Room := by
      unfold VectorT.Room
      rw [hsize, sizeofRangeLow]
      rw [hf.length_entries] at hfew
      omega
    obtain ⟨vec', a', hp, hf', ha'⟩ := vectorPush_willing hf hroom invalidRange ha
    have hsize' := vectorPush_size vec invalidRange a
    rcases vectorPush_spec hf invalidRange a with ⟨a'', hp'⟩ | ⟨vec'', a'', hp', -, hent⟩
    · cases hp.symm.trans hp'
    · cases hp.symm.trans hp'
      rw [hp] at hsize'
      obtain ⟨b, hb, hb'⟩ := ih hf' (hsize'.trans hsize) (by rw [hent, List.length_append, List.length_singleton]; omega) ha'
      refine ⟨b, ?_, hb'⟩
      simp only [placeholders, hp, Int.lt_irrefl, if_false, hb]
      rfl

theorem takes_of_pushesFor {r : RangeT} (hr : r.Sound) (hs : r.Sized) {s e h k : Nat} (hk : k ≤ 2)
    (hpushes : pushesFor s e (r.chunk h) = some k) (hfew : (r.chunk h).length + 2 < 2 ^ 28) : r.Takes s e h := by
  intro a ha
  unfold RangeT.chunk at hpushes hfew
  cases hl : r.low h with
  | some vec =>
    rw [hl] at hpushes hfew
    simp only [piecePushes, hpushes]
    exact placeholders_few k (hr h vec hl).1 (hs h vec hl) (by simp only at hfew; omega) ha
  | none =>
    obtain ⟨vec, b, hn, hf, hent, -, hb⟩ := @vectorNew_willing RangeLowT _ rangeInitNum sizeofRangeLow 7 (by decide)
      (by decide) (by decide) (by decide) a ha
    simp only [piecePushes, hn]
    exact placeholders_few 1 hf (vectorNew_size hn) (by rw [hent]; decide) hb

section Loop
variable {start end' ip : U32} {r : RangeT}

theorem run_takes (hend : end'.toNat < 0xffff0000) : ∀ (k : Nat) (n : U32) (r₁ : RangeT) (a : Allocs),
    AtChunk start end' n → end'.toNat / 65536 + 1 - n.toNat / 65536 = k → r₁.Sound →
    (∀ h, n.toNat / 65536 ≤ h → h ≤ end'.toNat / 65536 →
      r₁.Takes (pieceIn start end' h).1 (pieceIn start end' h).2 h) → Willing a →
    ∃ fuel r', run (rangeInsertStep start end' ip) fuel (n, r₁, a) = some (0, r') := by
  intro k
  induction k with
  | zero =>
    intro n r₁ a hn hk _ _ _
    have hgt : ¬ n ≤ end' := by
      rw [BitVec.le_def]
      omega
    exact ⟨1, r₁, run_done (by simp only [rangeInsertStep, if_neg hgt]) 0⟩
  | succ k ih =>
    intro n r₁ a₀ hn hk hr htakes ha
    have hle : n ≤ end' := by
      rw [BitVec.le_def]
      rcases hn with ⟨rfl, hle⟩ | ⟨h0, -⟩
      · exact hle
      · omega
    have hs := pieceStart_in hn
    have he : pieceEnd end' n = (pieceIn start end' (n.toNat / 65536)).2 := pieceEnd_in start end' (by omega)
    obtain ⟨ret, r₂, a₂, hchunk, hstep⟩ := rangeInsertStep_cases start ip hle r₁ a₀
    rw [hs, he] at hchunk
    obtain ⟨b, hpushes, hb⟩ := htakes (n.toNat / 65536) le_rfl (by omega) a₀ ha
    obtain ⟨hr₂, -, ⟨hret, hp, -⟩ | ⟨j, -, hp, -⟩⟩ :=
      rangeInsertChunk_pushes hr (pieceIn_lt ..) (hs ▸ he ▸ pieceStart_le hn hle) hchunk
    · have hab : b = a₂ := Except.ok.inj (hpushes.symm.trans hp)
      have hnext := toNat_nextHigh n
      rw [Nat.mod_eq_of_lt (by omega)] at hnext
      have htakes₂ : ∀ h, (n.toNat / 65536 + 1) * 65536 / 65536 ≤ h → h ≤ end'.toNat / 65536 →
          r₂.Takes (pieceIn start end' h).1 (pieceIn start end' h).2 h := by
        intro h h1 h2 a ha
        rw [rangeInsertChunk_low hchunk (k := h) (by omega)]
        exact htakes h (by omega) h2 a ha
      obtain ⟨fuel, r', hrun⟩ := ih ((n + 0x10000#32) &&& 0xffff0000#32) r₂ a₂
        (Or.inr ⟨by omega, by rcases hn with ⟨rfl, -⟩ | ⟨-, hlt⟩ <;> omega⟩) (by omega) hr₂ (hnext ▸ htakes₂) (hab ▸ hb)
      exact ⟨fuel + 1, r', (run_again (hstep.trans (if_neg hret)) fuel).trans hrun⟩
    · cases hpushes.symm.trans hp

/-- **An insert** all of whose chunks take their pieces returns 0. -/
theorem rangeInsert_takes (hr : r.Sound) (hle : start ≤ end') (hend : end'.toNat < 0xffff0000)
    (htakes : ∀ h, start.toNat / 65536 ≤ h → h ≤ end'.toNat / 65536 →
      r.Takes (pieceIn start end' h).1 (pieceIn start end' h).2 h) {a : Allocs} (ha : Willing a) :
    ∃ fuel r', rangeInsert fuel r start end' ip a = some (0, r') := by
  unfold rangeInsert
  simp only [if_neg (BitVec.not_lt.mpr hle)]
  exact run_takes hend _ start r a (Or.inl ⟨rfl, hle⟩) rfl hr htakes ha

theorem rangeInsert_sized {fuel : Nat} {r' : RangeT} {a : Allocs} {ret : Int} (hr : r.Sized)
    (h : rangeInsert fuel r start end' ip a = some (ret, r')) : r'.Sized := by
  unfold rangeInsert at h
  split_ifs at h with hlt
  · cases h
    exact hr
  refine WhileLoop.run_rule (fun s => s.2.1.Sized) (fun res => res.2.Sized) ?_ ?_ hr h
  · rintro ⟨n, r, a⟩ t hr hs
    simp only [rangeInsertStep] at hs
    split_ifs at hs
    cases hs
    exact rangeInsertChunk_sized hr ip _ _ _ a
  · rintro ⟨n, r, a⟩ res hr hs
    simp only [rangeInsertStep] at hs
    split_ifs at hs
    · cases hs
      exact rangeInsertChunk_sized hr ip _ _ _ a
    · cases hs
      exact hr

end Loop

end Fnsproxy
