import Mathlib.Data.List.DropRight
import Mathlib.Data.List.TakeWhile

/-!
# The words of a text

A text is a list, a separator any element that meets `sep`.

* `words sep s` : the maximal parts of `s` without separators, in their order;
* `fromWord sep j s` : the text from the start of word number `j` on, empty when there is none;
* `Gap`, `Solid`, `Parted`, `parted` : how a text begins, with its words and `fromWord` for each way;
* `words_fromWord`, `fromWord_eq_nil`, `fromWord_takeWhile` : word number `j` and those behind it.
-/

namespace Words

variable {α : Type*} (sep : α → Bool)

/-- The words of a text. -/
def words (s : List α) : List (List α) := (s.splitOnP sep).filter fun w => !w.isEmpty

/-- The text from the start of word number `j` on. -/
def fromWord : Nat → List α → List α
  | 0, s => s.dropWhile sep
  | j + 1, s => fromWord j ((s.dropWhile sep).dropWhile fun c => !sep c)

/-- Nothing but separators. -/
def Gap (W : List α) : Prop := ∀ c ∈ W, sep c = true

/-- A word. -/
def Solid (K : List α) : Prop := K ≠ [] ∧ ∀ c ∈ K, sep c = false

/-- How a text begins: with nothing but separators, with a last word, or with a word and a separator. -/
inductive Parted : List α → Prop where
  | gap {W : List α} (hW : Gap sep W) : Parted W
  | last {W K : List α} (hW : Gap sep W) (hK : Solid sep K) : Parted (W ++ K)
  | word {W K s : List α} {y : α} (hW : Gap sep W) (hK : Solid sep K) (hy : sep y = true) : Parted (W ++ (K ++ y :: s))

variable {sep} {s W K : List α} {y : α} {j : Nat}

theorem gap_takeWhile (sep : α → Bool) (s : List α) : Gap sep (s.takeWhile sep) := fun _ hc => List.mem_takeWhile_imp hc

theorem gap_rtakeWhile (sep : α → Bool) (s : List α) : Gap sep (s.rtakeWhile sep) :=
  fun _ hc => List.mem_rtakeWhile_imp hc

theorem rdropWhile_append_gap (hW : Gap sep W) (s : List α) : (s ++ W).rdropWhile sep = s.rdropWhile sep := by
  have hrev : ∀ c ∈ W.reverse, sep c = true := fun c hc => hW c (List.mem_reverse.mp hc)
  rw [List.rdropWhile, List.reverse_append, List.dropWhile_append_of_pos hrev, List.rdropWhile]

theorem front_dropWhile (h : s.dropWhile sep ≠ []) : ∃ c s', s.dropWhile sep = c :: s' ∧ sep c = false := by
  obtain ⟨c, s', hs⟩ := List.exists_cons_of_ne_nil h
  have hhead := List.head?_dropWhile_not sep s
  rw [hs] at hhead
  exact ⟨c, s', hs, by simpa using hhead⟩

theorem solid_takeWhile {t : List α} (h : ∃ c t', t = c :: t' ∧ sep c = false) :
    Solid sep (t.takeWhile fun c => !sep c) := by
  obtain ⟨c, t', rfl, hc⟩ := h
  refine ⟨?_, fun c hc => by simpa using List.mem_takeWhile_imp hc⟩
  rw [List.takeWhile_cons_of_pos (by rw [hc]; rfl)]
  exact List.cons_ne_nil _ _

theorem parted (sep : α → Bool) (s : List α) : Parted sep s := by
  have hs : s.takeWhile sep ++ s.dropWhile sep = s := List.takeWhile_append_dropWhile
  rcases eq_or_ne (s.dropWhile sep) [] with hnil | hne
  · exact Parted.gap (List.dropWhile_eq_nil_iff.mp hnil)
  · have hK := solid_takeWhile (front_dropWhile hne)
    have ht : (s.dropWhile sep).takeWhile (fun c => !sep c) ++ (s.dropWhile sep).dropWhile (fun c => !sep c) =
        s.dropWhile sep := List.takeWhile_append_dropWhile
    rw [← hs, ← ht]
    rcases eq_or_ne ((s.dropWhile sep).dropWhile fun c => !sep c) [] with hend | hmore
    · rw [hend, List.append_nil]
      exact Parted.last (gap_takeWhile sep s) hK
    · obtain ⟨y, u, hu, hy⟩ := front_dropWhile hmore
      rw [hu]
      exact Parted.word (gap_takeWhile sep s) hK (by simpa using hy)

/-! ## Words -/

theorem words_cons_sep (hy : sep y = true) (s : List α) : words sep (y :: s) = words sep s := by
  rw [words, ← List.nil_append (y :: s),
    List.splitOnP_append_cons_of_forall_mem (fun c hc => absurd hc List.not_mem_nil) y hy]
  rfl

theorem words_gap_append (hW : Gap sep W) (s : List α) : words sep (W ++ s) = words sep s := by
  induction W with
  | nil => rfl
  | cons y W ih =>
    rw [List.cons_append, words_cons_sep (hW y List.mem_cons_self)]
    exact ih fun c hc => hW c (List.mem_cons_of_mem y hc)

theorem words_gap (hW : Gap sep W) : words sep W = [] := by
  rw [← List.append_nil W, words_gap_append hW]
  rfl

theorem words_solid (hK : Solid sep K) : words sep K = [K] := by
  rw [words, List.splitOnP_eq_singleton hK.2, List.filter_cons_of_pos (by simpa using hK.1), List.filter_nil]

theorem words_solid_append (hK : Solid sep K) (hy : sep y = true) (s : List α) :
    words sep (K ++ y :: s) = K :: words sep s := by
  rw [words, List.splitOnP_append_cons_of_forall_mem hK.2 y hy, List.filter_cons_of_pos (by simpa using hK.1), words]

/-- A word with further separators behind it. -/
theorem words_padded (hK : Solid sep K) (hy : sep y = true) (k : Nat) (s : List α) :
    words sep (K ++ (List.replicate k y ++ y :: s)) = K :: words sep s := by
  have hgap : Gap sep (List.replicate k y) := fun c hc => List.eq_of_mem_replicate hc ▸ hy
  have hturn : List.replicate k y ++ y :: s = y :: (List.replicate k y ++ s) := by
    rw [List.append_cons, ← List.replicate_succ', List.replicate_succ, List.cons_append]
  rw [hturn, words_solid_append hK hy, words_gap_append hgap]

theorem words_flatMap (hy : sep y = true) {Ks : List (List α)} (hKs : ∀ K ∈ Ks, Solid sep K) :
    words sep (Ks.flatMap fun K => K ++ [y]) = Ks := by
  induction Ks with
  | nil => rfl
  | cons K Ks ih =>
    rw [List.flatMap_cons, List.append_assoc, List.singleton_append, words_solid_append (hKs K List.mem_cons_self) hy,
      ih fun K hK => hKs K (List.mem_cons_of_mem _ hK)]

/-! ## The text from a word on -/

theorem fromWord_cons_sep (hy : sep y = true) (j : Nat) (s : List α) : fromWord sep j (y :: s) = fromWord sep j s := by
  cases j with
  | zero => exact List.dropWhile_cons_of_pos hy
  | succ j => rw [fromWord, fromWord, List.dropWhile_cons_of_pos hy]

theorem fromWord_gap_append (hW : Gap sep W) (j : Nat) (s : List α) : fromWord sep j (W ++ s) = fromWord sep j s := by
  induction W with
  | nil => rfl
  | cons y W ih =>
    rw [List.cons_append, fromWord_cons_sep (hW y List.mem_cons_self)]
    exact ih fun c hc => hW c (List.mem_cons_of_mem y hc)

theorem fromWord_zero_solid (hK : Solid sep K) (s : List α) : fromWord sep 0 (K ++ s) = K ++ s := by
  obtain ⟨c, K', rfl⟩ := List.exists_cons_of_ne_nil hK.1
  exact List.dropWhile_cons_of_neg (Bool.eq_false_iff.mp (hK.2 c List.mem_cons_self))

theorem fromWord_succ_solid (hK : Solid sep K) (hy : sep y = true) (j : Nat) (s : List α) :
    fromWord sep (j + 1) (K ++ y :: s) = fromWord sep j s := by
  have hall : ∀ c ∈ K, (!sep c) = true := fun c hc => by rw [hK.2 c hc]; rfl
  rw [fromWord, show (K ++ y :: s).dropWhile sep = K ++ y :: s from fromWord_zero_solid hK (y :: s),
    List.dropWhile_append_of_pos hall, List.dropWhile_cons_of_neg (by rw [hy]; decide), fromWord_cons_sep hy]

theorem fromWord_nil (j : Nat) : fromWord sep j [] = [] := by
  induction j with
  | zero => rfl
  | succ j ih => exact ih

theorem fromWord_gap (hW : Gap sep W) (j : Nat) : fromWord sep j W = [] := by
  rw [← List.append_nil W, fromWord_gap_append hW, fromWord_nil]

theorem fromWord_succ_last (hK : Solid sep K) (j : Nat) : fromWord sep (j + 1) K = [] := by
  have hall : ∀ c ∈ K, (!sep c) = true := fun c hc => by rw [hK.2 c hc]; rfl
  have hdrop : K.dropWhile sep = K := by
    rw [← List.append_nil K]
    exact fromWord_zero_solid hK []
  rw [fromWord, hdrop, List.dropWhile_eq_nil_iff.mpr hall, fromWord_nil]

theorem fromWord_suffix (sep : α → Bool) (j : Nat) (s : List α) : fromWord sep j s <:+ s := by
  induction j generalizing s with
  | zero => exact List.dropWhile_suffix _
  | succ j ih => exact (ih _).trans ((List.dropWhile_suffix _).trans (List.dropWhile_suffix _))

theorem fromWord_front (h : fromWord sep j s ≠ []) : ∃ c t, fromWord sep j s = c :: t ∧ sep c = false := by
  induction j generalizing s with
  | zero => exact front_dropWhile h
  | succ j ih => exact ih h

theorem takeWhile_solid (hK : Solid sep K) (hs : ∀ c ∈ s.head?, sep c = true) :
    (K ++ s).takeWhile (fun c => !sep c) = K := by
  rw [List.takeWhile_append_of_pos fun c hc => by rw [hK.2 c hc]; rfl]
  cases s with
  | nil => exact List.append_nil K
  | cons y s => rw [List.takeWhile_cons_of_neg (by rw [hs y rfl]; decide), List.append_nil]

theorem words_front (h : ∃ c t, s = c :: t ∧ sep c = false) :
    ∃ ws, words sep s = s.takeWhile (fun c => !sep c) :: ws := by
  have hs : s.takeWhile (fun c => !sep c) ++ s.dropWhile (fun c => !sep c) = s := List.takeWhile_append_dropWhile
  have hK := solid_takeWhile h
  rcases eq_or_ne (s.dropWhile fun c => !sep c) [] with hend | hmore
  · rw [hend, List.append_nil] at hs
    rw [hs] at hK ⊢
    exact ⟨[], words_solid hK⟩
  · obtain ⟨y, u, hu, hy⟩ := front_dropWhile hmore
    rw [hu] at hs
    refine ⟨words sep u, ?_⟩
    nth_rewrite 1 [← hs]
    exact words_solid_append hK (by simpa using hy) u

/-- The words of the text from word number `j` on are those of the text but the first `j`. -/
theorem words_fromWord (j : Nat) (s : List α) : words sep (fromWord sep j s) = (words sep s).drop j := by
  induction j generalizing s with
  | zero =>
    rw [fromWord, List.drop_zero]
    nth_rewrite 2 [← List.takeWhile_append_dropWhile (p := sep) (l := s)]
    exact (words_gap_append (gap_takeWhile sep s) _).symm
  | succ j ih =>
    rcases parted sep s with hW | ⟨hW, hK⟩ | ⟨hW, hK, hy⟩
    · rw [fromWord_gap hW, words_gap hW]
      rfl
    · rw [fromWord_gap_append hW, fromWord_succ_last hK, words_gap_append hW, words_solid hK, List.drop_succ_cons,
        List.drop_nil]
      rfl
    · rw [fromWord_gap_append hW, fromWord_succ_solid hK hy, ih, words_gap_append hW, words_solid_append hK hy,
        List.drop_succ_cons]

theorem fromWord_eq_nil : fromWord sep j s = [] ↔ (words sep s).length ≤ j := by
  rw [← List.drop_eq_nil_iff, ← words_fromWord]
  constructor
  · intro h
    rw [h]
    rfl
  · intro h
    by_contra hne
    obtain ⟨ws, hws⟩ := words_front (fromWord_front hne)
    rw [hws] at h
    cases h

theorem fromWord_takeWhile {w : List α} (h : (words sep s)[j]? = some w) :
    (fromWord sep j s).takeWhile (fun c => !sep c) = w := by
  have hne : fromWord sep j s ≠ [] := by
    rw [ne_eq, fromWord_eq_nil, not_le]
    exact (List.getElem?_eq_some_iff.mp h).1
  obtain ⟨ws, hws⟩ := words_front (fromWord_front hne)
  have hhead : (words sep (fromWord sep j s)).head? = some w := by
    rw [words_fromWord, List.head?_drop, h]
  rw [hws, List.head?_cons] at hhead
  exact Option.some.inj hhead

end Words
