import Fnsproxy.Range.Groups
import Mathlib.Data.List.Perm.Subperm

/-!
# How a chunk represents its ranges

* `Tidy` : the entries are proper, sorted by their start and disjoint, `tidy_iff` : one lies behind the other;
* `RangeOp`, `RangeOpStep` : calls of `range_insert` and `range_delete` while there is memory;
* `Crossed`, `GoesBelow` : an entry that meets a piece without holding it, an insert whose last piece lies below all
  entries;
* `Placed.ordered_iff` : a piece leaves the entries tidy exactly if they were and it is not such a piece;
* `rangeInsert_tidy_iff`, `rangeDelete_tidy` : one call;
* `tidy_iff_neverBelow` : **the chunks are tidy all through a run exactly if no insert of it goes below the
  entries of its last chunk**.
-/

namespace Fnsproxy
open Word WhileLoop Transition

/-- Proper entries, sorted by their start, no key in two of them. -/
structure Tidy (xs : List RangeLowT) : Prop where
  proper : ∀ x ∈ xs, x.start ≤ x.end'
  sorted : xs.Pairwise fun x y => x.start < y.start
  disjoint : xs.Pairwise fun x y => ∀ n, ¬ (x.Covers n ∧ y.Covers n)

/-- Every chunk of the table is tidy. -/
def RangeT.Tidy (r : RangeT) : Prop := ∀ h, Fnsproxy.Tidy (r.chunk h)

/-- A call of range.c. -/
inductive RangeOp where
  | insert (start end' ip : U32) (allocs : Allocs)
  | delete (start end' : U32)

/-- The call returns, whatever it returns, and leaves the table `r'`; the allocations succeed. -/
def RangeOpStep (r : RangeT) : RangeOp → RangeT → Prop
  | .insert start end' ip allocs, r' =>
    Willing allocs ∧ ∃ fuel ret, rangeInsert fuel r start end' ip allocs = some (ret, r')
  | .delete start end', r' => ∃ fuel, rangeDelete fuel r start end' = some r'

/-- An entry meets the piece `[s, e]` without holding all of it. -/
def Crossed (s e : Nat) (xs : List RangeLowT) : Prop :=
  ∃ x ∈ xs, x.start ≤ e ∧ s ≤ x.end' ∧ ¬ (x.start ≤ s ∧ e ≤ x.end')

/-- The insert comes to its last chunk, and that has entries, all of them above its piece. -/
def GoesBelow (r : RangeT) (start end' : U32) : Prop :=
  start ≤ end' ∧
    (∀ h, start.toNat / 65536 ≤ h → h < end'.toNat / 65536 →
      ¬ Crossed (pieceIn start end' h).1 (pieceIn start end' h).2 (r.chunk h)) ∧
    r.chunk (end'.toNat / 65536) ≠ [] ∧ ∀ x ∈ r.chunk (end'.toNat / 65536), end'.toNat % 65536 < x.start

/-- The call is no insert that goes below the entries of its last chunk. -/
def NeverBelow (r : RangeT) : RangeOp → Prop
  | .insert start end' _ _ => ¬ GoesBelow r start end'
  | .delete _ _ => True

/-! ## Entries one behind the other -/

section Ordered
variable {xs ys : List RangeLowT} {ip : U32} {s e : Nat}

theorem tidy_iff : Tidy xs ↔ Ordered xs := by
  constructor
  · rintro ⟨hproper, hsorted, hdisjoint⟩
    refine ⟨(hsorted.and hdisjoint).imp_of_mem ?_, hproper⟩
    intro x y _ hy ⟨hlt, hno⟩
    by_contra hle
    exact hno y.start ⟨⟨hlt.le, Nat.not_lt.mp hle⟩, le_rfl, hproper y hy⟩
  · rintro ⟨hpair, hproper⟩
    refine ⟨hproper, hpair.imp_of_mem ?_, hpair.imp ?_⟩
    · intro x y hx _ hlt
      exact (hproper x hx).trans_lt hlt
    · rintro x y hlt n ⟨⟨-, h1⟩, h2, -⟩
      omega

theorem Ordered.sublist (h : Ordered ys) (hs : xs.Sublist ys) : Ordered xs :=
  ⟨h.pairwise.sublist hs, fun x hx => h.proper x (hs.subset hx)⟩

theorem Ordered.nil : Ordered [] := ⟨.nil, by simp⟩

theorem Ordered.singleton (hse : s ≤ e) : Ordered [⟨ip, s, e⟩] := ⟨by simp, by simpa using hse⟩

/-- A piece that is taken by entries out of order leaves them out of order. -/
theorem Placed.ordered_before (h : Placed ip s e xs ys) (hse : s ≤ e) (hys : Ordered ys) : Ordered xs := by
  cases h with
  | first _ _ => exact hys.sublist (List.sublist_append_left _ _)
  | behind A B x hx hB hs => exact hys.sublist ((List.Sublist.refl A).append ((List.sublist_cons_self _ B).cons_cons x))
  | nested A B x hx hB hs he =>
    obtain ⟨f, hf, hfs⟩ : ∃ f ∈ carve x ip s e, f.start = x.start := by
      by_cases hlt : x.start < s
      · exact ⟨_, mem_carve_iff.mpr (Or.inl ⟨hlt, rfl⟩), rfl⟩
      · exact ⟨_, mem_carve_iff.mpr (Or.inr (Or.inl rfl)), (by omega : s = x.start)⟩
    obtain ⟨l, hl, hle⟩ : ∃ l ∈ carve x ip s e, l.end' = x.end' := by
      by_cases hlt : e < x.end'
      · exact ⟨_, mem_carve_iff.mpr (Or.inr (Or.inr ⟨hlt, rfl⟩)), rfl⟩
      · exact ⟨_, mem_carve_iff.mpr (Or.inr (Or.inl rfl)), (by omega : e = x.end')⟩
    obtain ⟨hA, hCB, hACB⟩ := List.pairwise_append.mp hys.pairwise
    obtain ⟨-, hB', hCB'⟩ := List.pairwise_append.mp hCB
    refine ⟨List.pairwise_append.mpr ⟨hA, List.pairwise_cons.mpr ⟨fun y hy => ?_, hB'⟩, fun a ha y hy => ?_⟩,
      fun y hy => ?_⟩
    · rw [← hle]
      exact hCB' l hl y hy
    · rcases List.mem_cons.mp hy with rfl | hy
      · rw [← hfs]
        exact hACB a ha f (List.mem_append_left _ hf)
      · exact hACB a ha y (List.mem_append_right _ hy)
    · rcases List.mem_append.mp hy with hy | hy
      · exact hys.proper y (List.mem_append_left _ hy)
      · rcases List.mem_cons.mp hy with rfl | hy
        · exact hs.trans (hse.trans he)
        · exact hys.proper y (by simp [hy])

/-- **Where order is kept**: the entries were in order, and the piece does not lie below all of them. -/
theorem Placed.ordered_iff (h : Placed ip s e xs ys) (hse : s ≤ e) :
    Ordered ys ↔ Ordered xs ∧ (xs = [] ∨ ∃ y ∈ xs, y.start ≤ e) := by
  constructor
  · intro hys
    refine ⟨h.ordered_before hse hys, or_iff_not_imp_right.mpr fun hnone => ?_⟩
    have hbelow : ∀ x ∈ xs, e < x.start := fun x hx => Nat.not_le.mp fun hle => hnone ⟨x, hx, hle⟩
    obtain rfl := h.below hbelow
    refine List.eq_nil_iff_forall_not_mem.mpr fun x hx => ?_
    have hproper := hys.proper x (by simp [hx])
    have hlt := (List.pairwise_append.mp hys.pairwise).2.2 x hx ⟨ip, s, e⟩ (by simp)
    have := hbelow x hx
    simp only at hlt
    omega
  · rintro ⟨hxs, rfl | hlive⟩
    · rw [h.below (by simp)]
      exact .singleton hse
    · exact h.ordered hse hxs hlive

theorem pushesFor_eq_none (hxs : Ordered xs) : pushesFor s e xs = none ↔ Crossed s e xs := by
  by_cases hlive : ∃ x ∈ xs, x.start ≤ e
  · obtain ⟨A, x, B, rfl, hx, hB⟩ := exists_last hlive
    have hB : ∀ y ∈ B, e < y.start := fun y hy => Nat.not_le.mp (hB y hy)
    rw [pushesFor_stop hx hB]
    constructor
    · intro h
      split_ifs at h with h1 h2
      exact ⟨x, by simp, hx, by omega, h2⟩
    · rintro ⟨y, hy, h1, h2, h3⟩
      have hproper := hxs.proper x (by simp)
      simp only [List.mem_append, List.mem_cons] at hy
      rcases hy with hy | rfl | hy
      · have := (List.pairwise_append.mp hxs.pairwise).2.2 y hy x (by simp)
        rw [if_neg (by omega), if_neg (by omega)]
      · rw [if_neg (by omega), if_neg h3]
      · have := hB y hy
        omega
  · have hall : ∀ x ∈ xs, e < x.start := fun x hx => Nat.not_le.mp fun hle => hlive ⟨x, hx, hle⟩
    rw [pushesFor_first hall]
    apply iff_of_false (by simp)
    rintro ⟨x, hx, h1, -⟩
    exact hlive ⟨x, hx, h1⟩

theorem pushesFor_le {k : Nat} (h : pushesFor s e xs = some k) : k ≤ 2 := by
  unfold pushesFor at h
  split at h
  · cases h
    decide
  · split_ifs at h <;> cases h <;> decide

theorem Ordered.length_le (h : Ordered xs) (hin : InChunk xs) : xs.length ≤ 2 ^ 16 := by
  have hstarts : (xs.map RangeLowT.start).Nodup := by
    refine List.pairwise_map.mpr (h.pairwise.imp_of_mem fun {x y} hx _ hlt => ?_)
    have := h.proper x hx
    omega
  have hsub : xs.map RangeLowT.start ⊆ List.range (2 ^ 16) := by
    intro n hn
    obtain ⟨x, hx, rfl⟩ := List.mem_map.mp hn
    exact List.mem_range.mpr ((h.proper x hx).trans_lt (hin x hx))
  have := (List.subperm_of_subset hstarts hsub).length_le
  rwa [List.length_map, List.length_range] at this

end Ordered

/-! ## A round of the insert -/

section Round
variable {r r' : RangeT} {start end' ip n : U32} {s e h : Nat} {a a' : Allocs} {ret : Int}

theorem rangeInsertChunk_ordered (hr : r.Sound) (hs : r.Sized) (he16 : e < 2 ^ 16) (hse : s ≤ e)
    (hord : Ordered (r.chunk h)) (ha : Willing a) (hrun : rangeInsertChunk ip s e r h a = (ret, r', a')) :
    (∀ k, k ≠ h → r'.chunk k = r.chunk k) ∧
      ((¬ ret < 0 ∧ Willing a' ∧ ¬ Crossed s e (r.chunk h) ∧ Placed ip s e (r.chunk h) (r'.chunk h)) ∨
        (ret < 0 ∧ Crossed s e (r.chunk h) ∧ r'.chunk h = r.chunk h)) := by
  have hfew : (r.chunk h).length + 2 < 2 ^ 28 := by
    have := hord.length_le (hr.inChunk h)
    omega
  refine ⟨fun k hk => by rw [RangeT.chunk, RangeT.chunk, rangeInsertChunk_low hrun hk], ?_⟩
  obtain ⟨-, -, hcase⟩ := rangeInsertChunk_pushes hr he16 hse hrun
  rw [← pushesFor_eq_none hord]
  cases hp : pushesFor s e (r.chunk h) with
  | some k =>
    obtain ⟨b, hb, hb'⟩ := takes_of_pushesFor hr hs (pushesFor_le hp) hp hfew a ha
    rcases hcase with ⟨hret, hok, hplaced⟩ | ⟨j, -, herror, -⟩
    · cases hb.symm.trans hok
      exact Or.inl ⟨hret, hb', by simp, hplaced⟩
    · cases hb.symm.trans herror
  | none =>
    obtain ⟨vec, hl⟩ : ∃ vec, r.low h = some vec := by
      cases hl : r.low h with
      | some vec => exact ⟨vec, rfl⟩
      | none =>
        rw [RangeT.chunk, hl] at hp
        cases hp.symm.trans (pushesFor_first (by simp))
    have hrefused : piecePushes s e (r.low h) a = .error 0 := by
      rw [RangeT.chunk, hl] at hp
      rw [hl]
      simp only [piecePushes, hp]
    rcases hcase with ⟨-, hok, -⟩ | ⟨j, hret, herror, hj⟩
    · cases hrefused.symm.trans hok
    · cases hrefused.symm.trans herror
      exact Or.inr ⟨hret, rfl, by simpa using hj⟩

theorem Ordered.live {xs : List RangeLowT} (h : Ordered xs) (hin : InChunk xs) :
    xs = [] ∨ ∃ y ∈ xs, y.start ≤ 65535 := by
  rcases xs with _ | ⟨y, ys⟩
  · exact Or.inl rfl
  · have := h.proper y List.mem_cons_self
    have := hin y List.mem_cons_self
    exact Or.inr ⟨y, List.mem_cons_self, by omega⟩

/-- The insert has not come further than its last chunk. -/
structure Before (start end' : U32) (r r₁ : RangeT) (n : U32) : Prop where
  atChunk : AtChunk start end' n
  le : n.toNat / 65536 ≤ end'.toNat / 65536
  uncrossed : ∀ h, start.toNat / 65536 ≤ h → h < n.toNat / 65536 →
    ¬ Crossed (pieceIn start end' h).1 (pieceIn start end' h).2 (r.chunk h)
  same : ∀ h, n.toNat / 65536 ≤ h → r₁.chunk h = r.chunk h
  ordered : ∀ h, Ordered (r₁.chunk h)

/-- It has put its piece into its last chunk, below the entries or not, and may be back at the first. -/
structure Past (start end' : U32) (r r₁ : RangeT) (n : U32) (a : Allocs) : Prop where
  aligned : n.toNat % 65536 = 0
  below : GoesBelow r start end' → ¬ Ordered (r₁.chunk (end'.toNat / 65536))
  above : ¬ GoesBelow r start end' → Willing a ∧ (∀ h, Ordered (r₁.chunk h)) ∧
    ∃ y ∈ r₁.chunk (end'.toNat / 65536), y.start ≤ end'.toNat % 65536

/-- The chunks are in order exactly if the insert does not go below. -/
def EndsTidy (start end' : U32) (r r' : RangeT) : Prop :=
  (∀ h, Ordered (r'.chunk h)) ↔ ¬ GoesBelow r start end'

theorem Before.le_end {r₁ : RangeT} (h : Before start end' r r₁ n) : n ≤ end' := by
  have := h.le
  rw [BitVec.le_def]
  rcases h.atChunk with ⟨rfl, hle⟩ | ⟨h0, -⟩
  · exact hle
  · omega

theorem Before.first_le {r₁ : RangeT} (hb : Before start end' r r₁ n) : start.toNat / 65536 ≤ n.toNat / 65536 := by
  rcases hb.atChunk with ⟨rfl, -⟩ | ⟨-, hlt⟩ <;> omega

theorem Before.start_le {r₁ : RangeT} (hb : Before start end' r r₁ n) : start ≤ end' := by
  have := hb.le
  rw [BitVec.le_def]
  rcases hb.atChunk with ⟨-, hle⟩ | ⟨-, hlt⟩
  · exact hle
  · omega

section Cases
variable {r₁ r₂ : RangeT} (hb : Before start end' r r₁ n)
  (hother : ∀ h, h ≠ n.toNat / 65536 → r₂.chunk h = r₁.chunk h)
include hb hother

theorem Before.crossed
    (hcrossed : Crossed (pieceIn start end' (n.toNat / 65536)).1 (pieceIn start end' (n.toNat / 65536)).2
      (r.chunk (n.toNat / 65536)))
    (hsame : r₂.chunk (n.toNat / 65536) = r.chunk (n.toNat / 65536)) : EndsTidy start end' r r₂ := by
  apply iff_of_true
  · intro h
    by_cases hh : h = n.toNat / 65536
    · rw [hh, hsame, ← hb.same _ le_rfl]
      exact hb.ordered _
    · rw [hother h hh]
      exact hb.ordered h
  · rintro ⟨-, hall, -, habove⟩
    by_cases hlast : n.toNat / 65536 = end'.toNat / 65536
    · obtain ⟨x, hx, hxe, -⟩ := hcrossed
      rw [pieceIn, if_pos hlast] at hxe
      rw [hlast] at hx
      exact absurd hxe (Nat.not_le.mpr (habove x hx))
    · exact hall _ hb.first_le (lt_of_le_of_ne hb.le hlast) hcrossed

variable (hpiece : (pieceIn start end' (n.toNat / 65536)).1 ≤ (pieceIn start end' (n.toNat / 65536)).2)
  (hplaced : Placed ip (pieceIn start end' (n.toNat / 65536)).1 (pieceIn start end' (n.toNat / 65536)).2
    (r.chunk (n.toNat / 65536)) (r₂.chunk (n.toNat / 65536)))
include hpiece hplaced

/-- A chunk before the last one has got its piece, which reaches to its end. -/
theorem Before.advance (hlo : n.toNat / 65536 < end'.toNat / 65536) (hin : InChunk (r.chunk (n.toNat / 65536)))
    (huncrossed : ¬ Crossed (pieceIn start end' (n.toNat / 65536)).1 (pieceIn start end' (n.toNat / 65536)).2
      (r.chunk (n.toNat / 65536))) :
    Before start end' r r₂ ((n + 0x10000#32) &&& 0xffff0000#32) := by
  have hnext := toNat_nextHigh n
  have hlt' := end'.isLt
  have hord := (hb.same _ le_rfl ▸ hb.ordered (n.toNat / 65536) : Ordered (r.chunk (n.toNat / 65536)))
  have hE : (pieceIn start end' (n.toNat / 65536)).2 = 65535 := by rw [pieceIn, if_neg (Nat.ne_of_lt hlo)]
  rw [Nat.mod_eq_of_lt (by omega)] at hnext
  have hfirst := hb.first_le
  refine ⟨Or.inr ⟨by omega, by omega⟩, by omega, fun h h1 h2 => ?_, fun h hh => ?_, fun h => ?_⟩
  · by_cases hh : h = n.toNat / 65536
    · rw [hh]
      exact huncrossed
    · exact hb.uncrossed h h1 (by omega)
  · rw [hother h (by omega)]
    exact hb.same h (by omega)
  · by_cases hh : h = n.toNat / 65536
    · rw [hh, hplaced.ordered_iff hpiece, hE]
      exact ⟨hord, hord.live hin⟩
    · rw [hother h hh]
      exact hb.ordered h

theorem Before.arrive (hlast : n.toNat / 65536 = end'.toNat / 65536) (ha' : Willing a') :
    Past start end' r r₂ ((n + 0x10000#32) &&& 0xffff0000#32) a' := by
  have hnext := toNat_nextHigh n
  have hord := (hb.same _ le_rfl ▸ hb.ordered (n.toNat / 65536) : Ordered (r.chunk (n.toNat / 65536)))
  have hE : (pieceIn start end' (n.toNat / 65536)).2 = end'.toNat % 65536 := by rw [pieceIn, if_pos hlast]
  rw [hE] at hplaced hpiece
  have hiff := hplaced.ordered_iff hpiece
  rw [hlast] at hplaced hpiece hiff hord
  refine ⟨by rw [hnext]; omega, fun hgb => ?_, fun hgb => ⟨ha', fun h => ?_, ?_⟩⟩
  · obtain ⟨-, -, hne, hall⟩ := hgb
    rw [hiff]
    rintro ⟨-, hnil | ⟨y, hy, hle⟩⟩
    · exact hne hnil
    · exact absurd hle (Nat.not_le.mpr (hall y hy))
  · by_cases hh : h = end'.toNat / 65536
    · rw [hh, hiff]
      refine ⟨hord, or_iff_not_imp_right.mpr fun hnone => by_contra fun hne => hgb ⟨hb.start_le, ?_, hne, ?_⟩⟩
      · exact fun h h1 h2 => hb.uncrossed h h1 (hlast.symm ▸ h2)
      · exact fun x hx => Nat.not_le.mp fun hle => hnone ⟨x, hx, hle⟩
    · rw [hother h (hlast.symm ▸ hh)]
      exact hb.ordered h
  · obtain ⟨y, hy, hys⟩ := hplaced.starts.2
    exact ⟨y, hy, hys.trans hpiece⟩

end Cases

theorem Before.round {r₁ r₂ : RangeT} (hb : Before start end' r r₁ n) (hr : r₁.Sound) (hs : r₁.Sized) (ha : Willing a)
    (hrun : rangeInsertChunk ip (pieceStart start n) (pieceEnd end' n) r₁ (n.toNat / 65536) a = (ret, r₂, a')) :
    (ret < 0 ∧ EndsTidy start end' r r₂) ∨ (¬ ret < 0 ∧
      ((Before start end' r r₂ ((n + 0x10000#32) &&& 0xffff0000#32) ∧ Willing a') ∨
        Past start end' r r₂ ((n + 0x10000#32) &&& 0xffff0000#32) a')) := by
  have hstart := pieceStart_in hb.atChunk
  have hend := pieceEnd_in start end' hb.le
  have hpiece := pieceStart_le hb.atChunk hb.le_end
  obtain ⟨hother, hcase⟩ := rangeInsertChunk_ordered hr hs (pieceEnd_lt ..) hpiece (hb.ordered _) ha hrun
  rw [hb.same _ le_rfl, hstart, hend] at hcase
  rw [hstart, hend] at hpiece
  rcases hcase with ⟨hret, ha', huncrossed, hplaced⟩ | ⟨hret, hcrossed, hsame⟩
  · refine Or.inr ⟨hret, ?_⟩
    by_cases hlast : n.toNat / 65536 = end'.toNat / 65536
    · exact Or.inr (hb.arrive hother hpiece hplaced hlast ha')
    · have hin : InChunk (r.chunk (n.toNat / 65536)) := by
        rw [← hb.same _ le_rfl]
        exact hr.inChunk _
      exact Or.inl ⟨hb.advance hother hpiece hplaced (lt_of_le_of_ne hb.le hlast) hin huncrossed, ha'⟩
  · exact Or.inl ⟨hret, hb.crossed hother hcrossed hsame⟩

/-- Once the last chunk has got its piece, it stays out of order, or all chunks stay in order. -/
theorem Past.round {r₁ r₂ : RangeT} (hp : Past start end' r r₁ n a) (hr : r₁.Sound) (hs : r₁.Sized) (hle : n ≤ end')
    (hrun : rangeInsertChunk ip (pieceStart start n) (pieceEnd end' n) r₁ (n.toNat / 65536) a = (ret, r₂, a')) :
    (ret < 0 ∧ EndsTidy start end' r r₂) ∨
      (¬ ret < 0 ∧ Past start end' r r₂ ((n + 0x10000#32) &&& 0xffff0000#32) a') := by
  have hpiece : pieceStart start n ≤ pieceEnd end' n := piece_le (Or.inr hp.aligned) hle
  have hnext := toNat_nextHigh n
  have hother : ∀ h, h ≠ n.toNat / 65536 → r₂.chunk h = r₁.chunk h := fun h hh => by
    rw [RangeT.chunk, RangeT.chunk, rangeInsertChunk_low hrun hh]
  by_cases hgb : GoesBelow r start end'
  · obtain ⟨-, -, hcase⟩ := rangeInsertChunk_pushes hr (pieceEnd_lt ..) hpiece hrun
    have hbad : ¬ Ordered (r₂.chunk (end'.toNat / 65536)) := by
      by_cases hlast : n.toNat / 65536 = end'.toNat / 65536
      · rw [hlast] at hcase
        rcases hcase with ⟨-, -, hplaced⟩ | ⟨j, -, -, hj⟩
        · exact fun h => hp.below hgb (hplaced.ordered_before hpiece h)
        · rw [hj]
          exact fun h => hp.below hgb (h.sublist (List.sublist_append_left _ _))
      · rw [hother _ (Ne.symm hlast)]
        exact hp.below hgb
    rcases hcase with ⟨hret, -⟩ | ⟨j, hret, -⟩
    · exact Or.inr ⟨hret, by rw [hnext]; omega, fun _ => hbad, fun h => absurd hgb h⟩
    · exact Or.inl ⟨hret, iff_of_false (fun h => hbad (h _)) (not_not.mpr hgb)⟩
  · obtain ⟨ha, hord, hlive⟩ := hp.above hgb
    obtain ⟨-, hcase⟩ := rangeInsertChunk_ordered hr hs (pieceEnd_lt ..) hpiece (hord _) ha hrun
    rcases hcase with ⟨hret, ha', -, hplaced⟩ | ⟨hret, -, hsame⟩
    · refine Or.inr ⟨hret, by rw [hnext]; omega, fun h => absurd h hgb, fun _ => ⟨ha', fun h => ?_, ?_⟩⟩
      · by_cases hh : h = n.toNat / 65536
        · rw [hh, hplaced.ordered_iff hpiece, toNat_pieceEnd]
          refine ⟨hord _, ?_⟩
          have : n.toNat ≤ end'.toNat := hle
          split_ifs with hlast
          · rw [show n.toNat / 65536 = end'.toNat / 65536 by omega]
            exact Or.inr hlive
          · exact (hord _).live (hr.inChunk _)
        · rw [hother h hh]
          exact hord h
      · by_cases hlast : end'.toNat / 65536 = n.toNat / 65536
        · obtain ⟨y, hy, hyE⟩ := hlive
          rw [hlast] at hy ⊢
          obtain ⟨z, hz, hzy⟩ := hplaced.starts.1 y hy
          exact ⟨z, hz, hzy.trans hyE⟩
        · rw [hother _ hlast]
          exact hlive
    · refine Or.inl ⟨hret, iff_of_true (fun h => ?_) hgb⟩
      by_cases hh : h = n.toNat / 65536
      · rw [hh, hsame]
        exact hord _
      · rw [hother h hh]
        exact hord h

theorem Past.endsTidy {r₁ : RangeT} (hp : Past start end' r r₁ n a) : EndsTidy start end' r r₁ := by
  by_cases hgb : GoesBelow r start end'
  · exact iff_of_false (fun h => hp.below hgb (h _)) (not_not.mpr hgb)
  · exact iff_of_true (hp.above hgb).2.1 hgb

end Round

/-! ## A call -/

section Call
variable {r r' : RangeT} {start end' ip : U32} {a : Allocs} {fuel : Nat}

/-- **An insert** leaves a tidy table tidy exactly if it does not go below the entries of its last chunk. -/
theorem rangeInsert_tidy_iff (hr : r.Sound) (hs : r.Sized) (hord : ∀ h, Ordered (r.chunk h)) (ha : Willing a) {ret : Int}
    (hrun : rangeInsert fuel r start end' ip a = some (ret, r')) : EndsTidy start end' r r' := by
  unfold rangeInsert at hrun
  split_ifs at hrun with hgt
  · cases hrun
    exact iff_of_true hord fun h => absurd h.1 (BitVec.not_le.mpr hgt)
  have hle : start ≤ end' := BitVec.not_lt.mp hgt
  have hbegin : Before start end' r r start := ⟨Or.inl ⟨rfl, hle⟩, Nat.div_le_div_right hle, by omega, fun _ _ => rfl, hord⟩
  have hsound : ∀ {n : U32} {r₁ r₂ : RangeT} {a₁ a₂ : Allocs} {ret : Int}, n = start ∨ n.toNat % 65536 = 0 → n ≤ end' →
      r₁.Sound → r₁.Sized →
      rangeInsertChunk ip (pieceStart start n) (pieceEnd end' n) r₁ (n.toNat / 65536) a₁ = (ret, r₂, a₂) →
      r₂.Sound ∧ r₂.Sized := by
    intro n r₁ r₂ a₁ a₂ ret hn hle hr₁ hs₁ hchunk
    refine ⟨(rangeInsertChunk_pushes hr₁ (pieceEnd_lt ..) (piece_le hn hle) hchunk).1, ?_⟩
    have := rangeInsertChunk_sized hs₁ ip (pieceStart start n) (pieceEnd end' n) (n.toNat / 65536) a₁
    rwa [hchunk] at this
  refine WhileLoop.run_rule (fun s => s.2.1.Sound ∧ s.2.1.Sized ∧
      ((Before start end' r s.2.1 s.1 ∧ Willing s.2.2) ∨ Past start end' r s.2.1 s.1 s.2.2))
    (fun res => EndsTidy start end' r res.2) ?_ ?_ ⟨hr, hs, Or.inl ⟨hbegin, ha⟩⟩ hrun
  · rintro ⟨n, r₁, a₁⟩ t ⟨hr₁, hs₁, hI⟩ hstep
    by_cases hle : n ≤ end'
    · obtain ⟨ret, r₂, a₂, hchunk, hcases⟩ := rangeInsertStep_cases start ip hle r₁ a₁
      rw [hcases] at hstep
      split_ifs at hstep with hret
      cases hstep
      have hn : n = start ∨ n.toNat % 65536 = 0 :=
        hI.elim (fun hb => hb.1.atChunk.imp And.left And.left) fun hp => Or.inr hp.aligned
      obtain ⟨hr₂, hs₂⟩ := hsound hn hle hr₁ hs₁ hchunk
      refine ⟨hr₂, hs₂, ?_⟩
      rcases hI with ⟨hb, ha₁⟩ | hp
      · exact (hb.round hr₁ hs₁ ha₁ hchunk).elim (fun h => absurd h.1 hret) And.right
      · exact (hp.round hr₁ hs₁ hle hchunk).elim (fun h => absurd h.1 hret) fun h => Or.inr h.2
    · simp only [rangeInsertStep, if_neg hle] at hstep
      cases hstep
  · rintro ⟨n, r₁, a₁⟩ res ⟨hr₁, hs₁, hI⟩ hstep
    by_cases hle : n ≤ end'
    · obtain ⟨ret, r₂, a₂, hchunk, hcases⟩ := rangeInsertStep_cases start ip hle r₁ a₁
      rw [hcases] at hstep
      split_ifs at hstep with hret
      cases hstep
      rcases hI with ⟨hb, ha₁⟩ | hp
      · exact (hb.round hr₁ hs₁ ha₁ hchunk).elim And.right fun h => absurd hret h.1
      · exact (hp.round hr₁ hs₁ hle hchunk).elim And.right fun h => absurd hret h.1
    · simp only [rangeInsertStep, if_neg hle] at hstep
      cases hstep
      rcases hI with ⟨hb, -⟩ | hp
      · exact absurd hb.le_end hle
      · exact hp.endsTidy

theorem rangeDeleteSearch_size (s e : Nat) (vec : VectorT RangeLowT) : ∀ k i : Nat,
    (rangeDeleteSearch s e vec k i).size = vec.size := by
  intro k
  induction k with
  | zero => exact fun _ => rfl
  | succ k ih =>
    intro i
    rw [rangeDeleteSearch]
    split_ifs
    · rfl
    · exact ih (i + 1)

theorem rangeDeleteStep_sized {n : U32} (hs : r.Sized) {t : U32 × RangeT}
    (hstep : rangeDeleteStep start end' (n, r) = .again t) : t.2.Sized := by
  simp only [rangeDeleteStep] at hstep
  split_ifs at hstep
  cases hl : r.low (n >>> 16).toNat with
  | none =>
    rw [hl] at hstep
    obtain rfl := Next.again.inj hstep
    exact hs
  | some vec =>
    rw [hl] at hstep
    obtain rfl := Next.again.inj hstep
    intro h vec' hk
    by_cases hh : h = (n >>> 16).toNat
    · subst hh
      simp only [Function.update_self, Option.some.injEq] at hk
      rw [← hk, rangeDeleteSearch_size]
      exact hs _ vec hl
    · simp only [Function.update_of_ne hh] at hk
      exact hs h vec' hk

/-- **A delete** leaves a tidy table tidy. -/
theorem rangeDelete_tidy (hr : r.Sound) (hs : r.Sized) (hord : ∀ h, Ordered (r.chunk h))
    (hrun : rangeDelete fuel r start end' = some r') : r'.Sized ∧ ∀ h, Ordered (r'.chunk h) := by
  refine WhileLoop.run_rule (fun s => s.2.Sound ∧ s.2.Sized ∧ ∀ h, Ordered (s.2.chunk h))
    (fun res => res.Sized ∧ ∀ h, Ordered (res.chunk h)) ?_ ?_ ⟨hr, hs, hord⟩ hrun
  · rintro ⟨n, r₁⟩ t ⟨hr₁, hs₁, hord₁⟩ hstep
    by_cases hle : n ≤ end'
    · obtain ⟨r₂, hagain, hr₂, -, hchunk⟩ := @rangeDeleteStep_chunk start end' n r₁ hr₁ hle _ _ rfl rfl
      have hsized := rangeDeleteStep_sized hs₁ hstep
      obtain rfl := Next.again.inj (hagain.symm.trans hstep)
      refine ⟨hr₂, hsized, fun h => ?_⟩
      rw [hchunk h]
      split_ifs
      · exact (hord₁ h).sublist List.eraseP_sublist
      · exact hord₁ h
    · simp only [rangeDeleteStep, if_neg hle] at hstep
      cases hstep
  · rintro ⟨n, r₁⟩ res ⟨hr₁, hs₁, hord₁⟩ hstep
    by_cases hle : n ≤ end'
    · obtain ⟨r₂, hagain, -⟩ := @rangeDeleteStep_chunk start end' n r₁ hr₁ hle _ _ rfl rfl
      rw [hagain] at hstep
      cases hstep
    · simp only [rangeDeleteStep, if_neg hle] at hstep
      cases hstep
      exact ⟨hs₁, hord₁⟩

end Call

/-! ## Runs -/

section Runs
variable {r r' r₀ : RangeT} {ops : List RangeOp} {op : RangeOp}

theorem RangeOpStep.det {r₁ r₂ : RangeT} (h₁ : RangeOpStep r op r₁) (h₂ : RangeOpStep r op r₂) : r₁ = r₂ := by
  cases op with
  | insert start end' ip allocs =>
    obtain ⟨-, n, ret, hn⟩ := h₁
    obtain ⟨-, m, ret', hm⟩ := h₂
    unfold rangeInsert at hn hm
    split_ifs at hn hm
    · cases hn
      cases hm
      rfl
    · exact congrArg Prod.snd (WhileLoop.Returns.unique ⟨n, hn⟩ ⟨m, hm⟩)
  | delete start end' =>
    obtain ⟨n, hn⟩ := h₁
    obtain ⟨m, hm⟩ := h₂
    exact WhileLoop.Returns.unique ⟨n, hn⟩ ⟨m, hm⟩

theorem RangeOpStep.kept (h : RangeOpStep r op r') (hr : r.Sound) (hs : r.Sized) : r'.Sound ∧ r'.Sized := by
  cases op with
  | insert start end' ip allocs =>
    obtain ⟨-, fuel, ret, hrun⟩ := h
    exact ⟨rangeInsert_sound hr hrun, rangeInsert_sized hs hrun⟩
  | delete start end' =>
    obtain ⟨fuel, hrun⟩ := h
    refine ⟨rangeDelete_sound hr hrun, ?_⟩
    refine WhileLoop.run_rule (fun s => s.2.Sized) (fun res => res.Sized) ?_ ?_ hs hrun
    · exact fun ⟨n, r₁⟩ t hs₁ hstep => rangeDeleteStep_sized hs₁ hstep
    · rintro ⟨n, r₁⟩ res hs₁ hstep
      simp only [rangeDeleteStep] at hstep
      split_ifs at hstep
      · split at hstep <;> cases hstep
      · cases hstep
        exact hs₁

theorem RangeOpStep.tidy_iff (h : RangeOpStep r op r') (hr : r.Sound) (hs : r.Sized) (ht : r.Tidy) :
    r'.Tidy ↔ NeverBelow r op := by
  have hord : ∀ h, Ordered (r.chunk h) := fun h => Fnsproxy.tidy_iff.mp (ht h)
  cases op with
  | insert start end' ip allocs =>
    obtain ⟨ha, fuel, ret, hrun⟩ := h
    exact (forall_congr' fun h => Fnsproxy.tidy_iff).trans (rangeInsert_tidy_iff hr hs hord ha hrun)
  | delete start end' =>
    obtain ⟨fuel, hrun⟩ := h
    exact iff_of_true (fun h => Fnsproxy.tidy_iff.mpr ((rangeDelete_tidy hr hs hord hrun).2 h)) trivial

theorem rangeCreate_tidy {a a' : Allocs} (h : rangeCreate a = (some r, a')) : r.Sound ∧ r.Sized ∧ r.Tidy := by
  have hr : r = .empty := by
    unfold rangeCreate rangeInit at h
    split_ifs at h <;> cases h
    rfl
  rw [hr]
  refine ⟨RangeT.empty_sound, fun h vec hl => ?_, fun _ => Fnsproxy.tidy_iff.mpr .nil⟩
  cases hl

/-- **The representation of the table.** After every call of a run of inserts and deletes from `range_create` on
every chunk is tidy, exactly if no insert of the run goes below the entries of its last chunk. -/
theorem tidy_iff_neverBelow {a a' : Allocs} (h₀ : rangeCreate a = (some r₀, a')) (hrun : Run RangeOpStep r₀ ops r) :
    Always RangeOpStep r₀ ops (fun _ r => r.Tidy) ↔ EachStep RangeOpStep r₀ ops NeverBelow := by
  obtain ⟨hr₀, hs₀, ht₀⟩ := rangeCreate_tidy h₀
  refine always_iff_eachStep (fun _ _ _ _ h₁ h₂ => h₁.det h₂) ht₀ (fun ops r op r' hrun ht hstep => ?_) hrun
  obtain ⟨hr, hs⟩ := hrun.induct (fun _ r => r.Sound ∧ r.Sized) ⟨hr₀, hs₀⟩ fun _ _ _ _ _ h hl => hl.kept h.1 h.2
  exact hstep.tidy_iff hr hs ht

/-- Two pieces of one chunk, the upper one first. -/
def upperFirst : List RangeOp := [.insert 10 20 1 (Stream'.const true), .insert 1 5 2 (Stream'.const true)]

theorem upperFirst_run : ∃ r, Run RangeOpStep .empty upperFirst r ∧
    (r.chunk 0).map RangeLowT.start = [10, 1] :=
  ⟨_, .next (.next .start ⟨fun _ => rfl, 2, 0, rfl⟩) ⟨fun _ => rfl, 2, 0, rfl⟩, rfl⟩

theorem tidy_iff_neverBelow_upperFirst : ¬ EachStep RangeOpStep .empty upperFirst NeverBelow := by
  obtain ⟨r, hrun, hchunk⟩ := upperFirst_run
  intro h
  have htidy := (tidy_iff_neverBelow (a := Stream'.const true) rfl hrun).mpr h _ _ List.prefix_rfl hrun 0
  have hsorted := List.pairwise_map.mpr htidy.sorted
  rw [hchunk] at hsorted
  exact absurd hsorted (by decide)

/-- The lower of the two pieces stands behind the upper one. -/
theorem not_tidy : ¬ ∀ (a a' : Allocs) (r₀ r : RangeT) (ops : List RangeOp), rangeCreate a = (some r₀, a') →
    Run RangeOpStep r₀ ops r → r.Tidy := by
  intro h
  obtain ⟨r, hrun, hchunk⟩ := upperFirst_run
  have htidy := h (Stream'.const true) _ _ r upperFirst rfl hrun 0
  have hsorted := List.pairwise_map.mpr htidy.sorted
  rw [hchunk] at hsorted
  exact absurd hsorted (by decide)

end Runs

end Fnsproxy
