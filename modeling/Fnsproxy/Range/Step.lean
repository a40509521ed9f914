import Fnsproxy.Range.Tidy
import Fnsproxy.Vector.Header
import Mathlib.Data.List.Pairwise

/-!
# One chunk step of `range_insert`

On any valid vector of sub-ranges, while the allocations succeed:

* `MeetsNone`, `LiesInOne` : the range meets no entry, the range lies in a single one;
* `StepLaw` : when a range is accepted, and what becomes of the chunk;
* `Alike`, `SameOutcome` : two vectors with the same entries, a search that ends alike on both;
* `rangeInsertSearch_alike` : **the search sees the entries only**, not the block behind them;
* `rangeInsertSearch_fits` : a search while there is memory, on a block of `2 ^ k` bytes;
* `not_crossed_iff`, `Placed.apart` : which ranges are refused, and what an accepted one leaves;
* `rangeInsertSearch_step` : **the law of the step**.
-/

namespace Fnsproxy
open Word Block

/-- The range `[s, e]` has no key in common with an entry. -/
def MeetsNone (s e : Nat) (xs : List RangeLowT) : Prop := ∀ x ∈ xs, ∀ n, ¬ (x.Covers n ∧ s ≤ n ∧ n ≤ e)

/-- A single entry holds all of the range `[s, e]`. -/
def LiesInOne (s e : Nat) (xs : List RangeLowT) : Prop := ∃ x ∈ xs, x.start ≤ s ∧ e ≤ x.end'

/-- No key in two entries. -/
def Apart (xs : List RangeLowT) : Prop := xs.Pairwise fun x y => ∀ n, ¬ (x.Covers n ∧ y.Covers n)

/-- The search for a place for `[s, e]` in the vector of a chunk, and what it returns. -/
structure StepLaw (ip : U32) (s e : Nat) (vec : VectorT RangeLowT) (out : Int × VectorT RangeLowT × Allocs) : Prop where
  accepts_iff : out.1 = 0 ↔ MeetsNone s e vec.entries ∨ LiesInOne s e vec.entries
  lookups : out.1 = 0 → ∀ (r : RangeT) (key : U32), r.low (key >>> 16).toNat = some vec →
    rangeGet { r with low := Function.update r.low (key >>> 16).toNat (some out.2.1) } key =
      if s ≤ (key &&& 0xffff#32).toNat ∧ (key &&& 0xffff#32).toNat ≤ e then ip else rangeGet r key
  apart : out.1 = 0 → Apart out.2.1.entries
  proper : out.1 = 0 → ∀ x ∈ out.2.1.entries, x.start ≤ x.end'
  refused : out.1 ≠ 0 → out.1 = -1 ∧ out.2.1 = vec

/-! ## Vectors with the same entries -/

/-- Valid vectors of sub-ranges with the same entries. -/
structure Alike (vec vec₁ : VectorT RangeLowT) : Prop where
  exact : vec.Exact sizeofRangeLow
  exact₁ : vec₁.Exact sizeofRangeLow
  entries : vec₁.entries = vec.entries

/-- The search has succeeded on both and left the same entries, or it has refused and changed neither. -/
inductive SameOutcome (vec vec₁ : VectorT RangeLowT) : Int × VectorT RangeLowT × Allocs →
    Int × VectorT RangeLowT × Allocs → Prop where
  | accepted (vec' vec₁' : VectorT RangeLowT) (a a₁ : Allocs) (h : Alike vec' vec₁') :
      SameOutcome vec vec₁ (0, vec', a) (0, vec₁', a₁)
  | refused (a a₁ : Allocs) : SameOutcome vec vec₁ (-1, vec, a) (-1, vec₁, a₁)

section Alike
variable {vec vec₁ : VectorT RangeLowT} {a a₁ : Allocs}

theorem VectorT.Exact.length_entries (h : vec.Exact sizeofRangeLow) : vec.entries.length = vec.count := by
  have := h.valid.count_le
  rw [VectorT.entries, List.length_take, h.length_data (by decide)]
  omega

theorem Alike.count (h : Alike vec vec₁) : vec₁.count = vec.count := by
  rw [← h.exact.length_entries, ← h.exact₁.length_entries, h.entries]

theorem Alike.agree (h : Alike vec vec₁) : Agree vec.count (vec.data.drop vec.count) (vec₁.data.drop vec.count)
    vec.data vec₁.data := by
  refine ⟨vec.entries, h.exact.length_entries, (List.take_append_drop ..).symm, ?_⟩
  rw [← h.entries, VectorT.entries, h.count, List.take_append_drop]

theorem Alike.write (h : Alike vec vec₁) {low low₁ : List RangeLowT}
    (hlow : Agree vec.count (vec.data.drop vec.count) (vec₁.data.drop vec.count) low low₁) :
    Alike { vec with data := low } { vec₁ with count := vec.count, data := low₁ } := by
  obtain ⟨hl, hl₁⟩ := hlow.length
  obtain ⟨hd, hd₁⟩ := h.agree.length
  have hcount := h.exact₁.valid.count_le
  rw [h.count] at hcount
  exact ⟨h.exact.counted (hl.trans hd.symm) h.exact.valid.count_le, h.exact₁.counted (hl₁.trans hd₁.symm) hcount,
    hlow.take.symm⟩

theorem Alike.push (h : Alike vec vec₁) (hfew : vec.count + 1 < 2 ^ 28) (x : RangeLowT) (ha : Willing a)
    (ha₁ : Willing a₁) : ∃ vec' a' vec₁' a₁', vectorPush vec x a = (0, vec', a') ∧ Willing a' ∧
      vectorPush vec₁ x a₁ = (0, vec₁', a₁') ∧ Willing a₁' ∧ Alike vec' vec₁' ∧ vec'.count = vec.count + 1 := by
  have hroom : (vec.count + 1) * 2 * sizeofRangeLow < 2 ^ 32 := by
    unfold sizeofRangeLow
    omega
  obtain ⟨vec', a', hp, ha', hexact, hcount, hent⟩ := h.exact.push_willing (by decide) hroom x ha
  obtain ⟨vec₁', a₁', hp₁, ha₁', hexact₁, -, hent₁⟩ := h.exact₁.push_willing (by decide) (h.count ▸ hroom) x ha₁
  exact ⟨vec', a', vec₁', a₁', hp, ha', hp₁, ha₁', ⟨hexact, hexact₁, by rw [hent₁, hent, h.entries]⟩, hcount⟩

variable {ip : U32} {s e : Nat}

/-- **The backward search** sees the entries only. -/
theorem rangeInsertSearch_alike (h : Alike vec vec₁) (hfew : vec.count + 2 < 2 ^ 28) (ha : Willing a)
    (ha₁ : Willing a₁) : ∀ i ≤ vec.count, SameOutcome vec vec₁ (rangeInsertSearch ip s e vec a i)
      (rangeInsertSearch ip s e vec₁ a₁ i) := by
  intro i
  induction i with
  | zero =>
    intro _
    obtain ⟨vec', a', vec₁', a₁', hp, -, hp₁, -, h', -⟩ := h.push (by omega) ⟨ip, s, e⟩ ha ha₁
    rw [rangeInsertSearch, rangeInsertSearch, hp, hp₁]
    exact .accepted vec' vec₁' a' a₁' h'
  | succ i ih =>
    intro hi
    obtain ⟨vec', a', vec₁', a₁', hp, ha', hp₁, ha₁', h', hcount⟩ := h.push (by omega) invalidRange ha ha₁
    obtain ⟨vec'', a'', vec₁'', a₁'', hpp, -, hpp₁, -, h'', hcount'⟩ := h'.push (by omega) invalidRange ha' ha₁'
    simp only [rangeInsertSearch, h.agree.getD i hi, hp, hp₁, hpp, hpp₁, Int.lt_irrefl, if_false, h.count, h'.count, h''.count]
    split_ifs
    · exact ih (by omega)
    · have hmove := h'.agree.memmove (i + 2) (i + 1) (vec'.count - 2 - i) (by omega) (by omega)
      exact .accepted _ _ a' a₁' (h'.write (hmove.set (i + 1) (by omega) ⟨ip, s, e⟩))
    · exact .accepted _ _ a a₁ (h.write (h.agree.set i hi _))
    · have hmove := h''.agree.memmove (i + 3) (i + 1) (vec''.count - 3 - i) (by omega) (by omega)
      have hset := hmove.set (i + 2) (by omega)
      rw [hmove.getD i (by omega)]
      exact .accepted _ _ a'' a₁'' (h''.write (((hset _).set (i + 1) (by omega) ⟨ip, s, e⟩).set i (by omega) _))
    · have hmove := h'.agree.memmove (i + 1) i (vec'.count - 1 - i) (by omega) (by omega)
      have hset := hmove.set (i + 1) (by omega)
      rw [hmove.getD (i + 1) (by omega)]
      exact .accepted _ _ a' a₁' (h'.write ((hset _).set i (by omega) ⟨ip, s, e⟩))
    · have hmove := h'.agree.memmove (i + 2) (i + 1) (vec'.count - 2 - i) (by omega) (by omega)
      have hset := hmove.set (i + 1) (by omega) ⟨ip, s, e⟩
      rw [hset.getD i (by omega)]
      exact .accepted _ _ a' a₁' (h'.write (hset.set i (by omega) _))
    · exact .refused a a₁

/-- Any few entries have a vector whose block fits. -/
theorem exists_fits {xs : List RangeLowT} (hfew : xs.length < 2 ^ 28) :
    ∃ vec : VectorT RangeLowT, vec.Fits ∧ vec.Exact sizeofRangeLow ∧ vec.entries = xs := by
  obtain ⟨slots, hslots⟩ : ∃ slots, slots = 2 ^ 28 := ⟨_, rfl⟩
  have hlength : (xs ++ List.replicate (slots - xs.length) (default : RangeLowT)).length = slots := by
    rw [List.length_append, List.length_replicate]
    omega
  have hbytes : slots * sizeofRangeLow = 2 ^ 31 := by
    rw [hslots]
    rfl
  refine ⟨⟨xs.length, slots, sizeofRangeLow, xs ++ List.replicate (slots - xs.length) default⟩, ?_, ?_, List.take_left⟩
  · exact ⟨Nat.zero_lt_succ 7, hslots ▸ hfew, hlength, 31, by decide, hbytes⟩
  · refine ⟨⟨?_, rfl, by rw [hlength], ?_⟩, ?_, ?_⟩ <;> dsimp only <;> omega

end Alike

/-! ## The step -/

section Step
variable {vec : VectorT RangeLowT} {ip : U32} {s e : Nat} {a : Allocs} {xs ys : List RangeLowT}

theorem rangeInsertSearch_fits (ip : U32) (hf : vec.Fits) (hsize : vec.size = sizeofRangeLow)
    (hord : Ordered vec.entries) (hin : InChunk vec.entries) (he16 : e < 2 ^ 16) (hse : s ≤ e) (ha : Willing a) :
    (¬ Crossed s e vec.entries ∧ ∃ vec' a', rangeInsertSearch ip s e vec a vec.count = (0, vec', a') ∧
      Placed ip s e vec.entries vec'.entries) ∨
    (Crossed s e vec.entries ∧ (rangeInsertSearch ip s e vec a vec.count).1 = -1) := by
  have hpushes := rangeInsertSearch_pushes (s := s) (e := e) hf ip a
  have hspec : SearchOutcome ip s e vec (rangeInsertSearch ip s e vec a vec.count) :=
    rangeInsertSearch_spec hf hin he16 hse a
  generalize rangeInsertSearch ip s e vec a vec.count = out at hpushes hspec ⊢
  rw [← pushesFor_eq_none hord]
  cases hp : pushesFor s e vec.entries with
  | some k =>
    have hfew := hord.length_le hin
    have hk := pushesFor_le hp
    obtain ⟨b, hb, -⟩ := placeholders_few k hf hsize (by omega) ha
    simp only [piecePushes, hp, hb] at hpushes
    cases hpushes with
    | taken vec' b' =>
      cases hspec with
      | placed _ _ _ hplaced => exact Or.inl ⟨by simp, vec', b, rfl, hplaced⟩
  | none =>
    simp only [piecePushes, hp] at hpushes
    cases hpushes with
    | refused _ vec' a' _ _ => exact Or.inr ⟨rfl, rfl⟩

/-- **Which ranges are refused.** -/
theorem not_crossed_iff (ht : Tidy xs) : ¬ Crossed s e xs ↔ MeetsNone s e xs ∨ LiesInOne s e xs := by
  constructor
  · intro hnone
    refine or_iff_not_imp_right.mpr fun hnot x hx n ⟨⟨h1, h2⟩, h3, h4⟩ => ?_
    exact hnone ⟨x, hx, by omega, by omega, fun hin => hnot ⟨x, hx, hin⟩⟩
  · rintro hor ⟨x, hx, hxe, hxs, hnot⟩
    have hproper := ht.proper x hx
    have hcovers : x.Covers (max s x.start) := ⟨by omega, by omega⟩
    rcases hor with hnone | ⟨y, hy, hin⟩
    · exact hnone x hx (max s x.start) ⟨hcovers, by omega, by omega⟩
    · have hne : x ≠ y := fun heq => hnot (heq ▸ hin)
      have hsymm : Std.Symm fun x y : RangeLowT => ∀ n, ¬ (x.Covers n ∧ y.Covers n) :=
        ⟨fun _ _ h n hboth => h n hboth.symm⟩
      exact ht.disjoint.forall hx hy hne (max s x.start) ⟨hcovers, by omega, by omega⟩

/-- **What an accepted range leaves**: it may stand out of order, but it has no key in common with another entry. -/
theorem Placed.apart (h : Placed ip s e xs ys) (hse : s ≤ e) (hord : Ordered xs) :
    Apart ys ∧ ∀ x ∈ ys, x.start ≤ x.end' := by
  by_cases hlive : ∃ y ∈ xs, y.start ≤ e
  · have htidy := tidy_iff.mpr (h.ordered hse hord hlive)
    exact ⟨htidy.disjoint, htidy.proper⟩
  · have hbelow : ∀ x ∈ xs, e < x.start := fun x hx => Nat.not_le.mp fun hle => hlive ⟨x, hx, hle⟩
    obtain rfl := h.below hbelow
    refine ⟨List.pairwise_append.mpr ⟨(tidy_iff.mpr hord).disjoint, by simp, fun x hx y hy n hn => ?_⟩, fun x hx => ?_⟩
    · obtain rfl := List.mem_singleton.mp hy
      have h1 := hbelow x hx
      have h2 := hn.1.1
      have h3 : n ≤ e := hn.2.2
      omega
    · rcases List.mem_append.mp hx with hx | hx
      · exact hord.proper x hx
      · obtain rfl := List.mem_singleton.mp hx
        exact hse

/-- **One chunk step of the insert**, on any valid vector of sub-ranges that is sorted and disjoint. -/
theorem rangeInsertSearch_step (hvec : vec.Exact sizeofRangeLow) (hin : InChunk vec.entries) (ht : Tidy vec.entries)
    (hse : s ≤ e) (he : e ≤ 0xffff) (ip : U32) (ha : Willing a) :
    StepLaw ip s e vec (rangeInsertSearch ip s e vec a vec.count) := by
  have hord := tidy_iff.mp ht
  have hfew := hord.length_le hin
  have hlength := hvec.length_entries
  obtain ⟨vec₁, hf₁, hexact₁, hent⟩ := exists_fits (show vec.entries.length < 2 ^ 28 by omega)
  have hsame : SameOutcome vec vec₁ (rangeInsertSearch ip s e vec a vec.count)
      (rangeInsertSearch ip s e vec₁ a vec.count) :=
    rangeInsertSearch_alike ⟨hvec, hexact₁, hent⟩ (by omega) ha ha vec.count le_rfl
  have hcount : vec.count = vec₁.count := by rw [← hlength, ← hf₁.length_entries, hent]
  have hcases := rangeInsertSearch_fits ip hf₁ hexact₁.valid.size_eq (hent ▸ hord) (hent ▸ hin)
    (show e < 2 ^ 16 by omega) hse ha
  rw [← hcount, hent, not_crossed_iff ht] at hcases
  rcases hcases with ⟨hacc, vec₁', a₁', h₁, hplaced⟩ | ⟨hcrossed, h₁⟩
  · rw [h₁] at hsame
    generalize rangeInsertSearch ip s e vec a vec.count = out at hsame ⊢
    cases hsame with
    | accepted vec' _ a' _ h' =>
      rw [h'.entries] at hplaced
      obtain ⟨hapart, hproper⟩ := hplaced.apart hse hord
      refine ⟨iff_of_true rfl hacc, fun _ r key hl => ?_, fun _ => hapart, fun _ => hproper, fun h => absurd rfl h⟩
      simp only [rangeGet, Function.update_self, hl, answer_placed_ordered hplaced hse hord]
      split_ifs <;> rfl
  · generalize rangeInsertSearch ip s e vec a vec.count = out at hsame ⊢
    generalize rangeInsertSearch ip s e vec₁ a vec.count = out₁ at hsame h₁
    have hnot : ¬ (MeetsNone s e vec.entries ∨ LiesInOne s e vec.entries) := fun h => (not_crossed_iff ht).mpr h hcrossed
    cases hsame with
    | accepted _ _ _ _ _ => exact absurd h₁ (show ¬ (0 : Int) = -1 by decide)
    | refused _ _ =>
      have hne : ¬ (-1 : Int) = 0 := by decide
      exact ⟨iff_of_false hne hnot, fun h => absurd h hne, fun h => absurd h hne, fun h => absurd h hne,
        fun _ => ⟨rfl, rfl⟩⟩

end Step

/-- Two entries in a block of three cells. -/
def twoRanges : VectorT RangeLowT := ⟨2, 3, 8, [⟨1, 10, 19⟩, ⟨2, 30, 39⟩, default]⟩

theorem rangeInsertSearch_step_twoRanges :
    StepLaw 3 12 14 twoRanges (rangeInsertSearch 3 12 14 twoRanges (Stream'.const true) 2) := by
  have htidy : Tidy twoRanges.entries := tidy_iff.mpr ⟨by decide, by decide⟩
  exact rangeInsertSearch_step ⟨⟨by decide, rfl, rfl, by decide⟩, by decide, by decide⟩ (by unfold InChunk; decide) htidy
    (by decide) (by decide) 3 fun _ => rfl

end Fnsproxy
