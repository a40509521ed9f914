import Fnsproxy.Range.Defs

/-!
# One chunk of `range_insert`

* `carve x ip s e` : the entry `x` cut around a new range nested in it;
* `Placed` : how an accepted range changes the entries of its chunk: behind the last entry that
  starts at or before its end, inside that entry, or at the very end when there is none;
* `rangeInsertSearch_rule` : where the backward search stops;
* `rangeInsertSearch_spec` : **what it can do**, in all of its cases;
* `maskedBy` : the address with which an earlier entry keeps answering for a key of the range;
* `answer_placed_inside`, `answer_placed_outside` : lookups after an accepted range.
-/

namespace Fnsproxy
open Word Block

/-! ## The entries after an accepted range -/

/-- What is left of `x` around the new range, which stands between the two rests. -/
def carve (x : RangeLowT) (ip : U32) (s e : Nat) : List RangeLowT :=
  (if x.start < s then [{ x with end' := s - 1 }] else []) ++
    ⟨ip, s, e⟩ :: (if e < x.end' then [{ x with start := e + 1 }] else [])

/-- The entries `xs` of a chunk become `ys` when the range `[s, e]` is accepted. -/
inductive Placed (ip : U32) (s e : Nat) : List RangeLowT → List RangeLowT → Prop where
  | first (xs : List RangeLowT) (hxs : ∀ x ∈ xs, e < x.start) : Placed ip s e xs (xs ++ [⟨ip, s, e⟩])
  | behind (A B : List RangeLowT) (x : RangeLowT) (hx : x.start ≤ e) (hB : ∀ y ∈ B, e < y.start)
      (hs : x.end' < s) : Placed ip s e (A ++ x :: B) (A ++ x :: ⟨ip, s, e⟩ :: B)
  | nested (A B : List RangeLowT) (x : RangeLowT) (hx : x.start ≤ e) (hB : ∀ y ∈ B, e < y.start)
      (hs : x.start ≤ s) (he : e ≤ x.end') : Placed ip s e (A ++ x :: B) (A ++ (carve x ip s e ++ B))

/-- The last entry that starts at or before `e` meets `[s, e]` without holding all of it. -/
def Clash (s e : Nat) (xs : List RangeLowT) : Prop :=
  ∃ A B x, xs = A ++ x :: B ∧ x.start ≤ e ∧ (∀ y ∈ B, e < y.start) ∧ s ≤ x.end' ∧
    ¬ (x.start ≤ s ∧ e ≤ x.end')

/-- Every entry ends inside the chunk. -/
def InChunk (xs : List RangeLowT) : Prop := ∀ x ∈ xs, x.end' < 2 ^ 16

theorem carve_inChunk {x : RangeLowT} {ip : U32} {s e : Nat} (hx : x.end' < 2 ^ 16) (hs : s < 2 ^ 16)
    (he : e < 2 ^ 16) : InChunk (carve x ip s e) := by
  intro y hy
  unfold carve at hy
  split_ifs at hy <;> simp at hy
  · rcases hy with rfl | rfl | rfl
    · show s - 1 < 2 ^ 16
      omega
    · exact he
    · exact hx
  · rcases hy with rfl | rfl
    · show s - 1 < 2 ^ 16
      omega
    · exact he
  · rcases hy with rfl | rfl
    · exact he
    · exact hx
  · rw [hy]
    exact he

theorem Placed.inChunk {ip : U32} {s e : Nat} {xs ys : List RangeLowT} (h : Placed ip s e xs ys)
    (hxs : InChunk xs) (hs : s < 2 ^ 16) (he : e < 2 ^ 16) : InChunk ys := by
  cases h with
  | first _ _ =>
    intro y hy
    rcases List.mem_append.mp hy with hy | hy
    · exact hxs y hy
    · rw [List.mem_singleton.mp hy]
      exact he
  | behind A B x hx hB hsx =>
    intro y hy
    rcases List.mem_append.mp hy with hy | hy
    · exact hxs y (List.mem_append_left _ hy)
    · rcases List.mem_cons.mp hy with rfl | hy
      · exact hxs y (by simp)
      · rcases List.mem_cons.mp hy with rfl | hy
        · exact he
        · exact hxs y (by simp [hy])
  | nested A B x hx hB hsx hex =>
    intro y hy
    rcases List.mem_append.mp hy with hy | hy
    · exact hxs y (List.mem_append_left _ hy)
    · rcases List.mem_append.mp hy with hy | hy
      · exact carve_inChunk (hxs x (by simp)) hs he y hy
      · exact hxs y (by simp [hy])

/-! ## The backward search -/

section Search
variable {vec : VectorT RangeLowT}

theorem VectorT.Fits.data_eq (h : vec.Fits) :
    vec.data = vec.entries ++ vec.data.drop vec.entries.length := by
  rw [h.length_entries, VectorT.entries, List.take_append_drop]

/-- What is written into the first `count` cells of the block keeps the vector in shape. -/
def Rewritable (vec : VectorT RangeLowT) (R : List RangeLowT) : Prop :=
  ∀ ys : List RangeLowT, ys.length = vec.count →
    ({ vec with data := ys ++ R } : VectorT RangeLowT).Fits ∧
      ({ vec with data := ys ++ R } : VectorT RangeLowT).entries = ys

theorem VectorT.Fits.rewritable (h : vec.Fits) :
    ∃ R, vec.data = vec.entries ++ R ∧ Rewritable vec R := by
  refine ⟨_, h.data_eq, fun ys hys => ⟨⟨h.size_pos, h.count_lt, ?_, h.bytes⟩, ?_⟩⟩
  · show (ys ++ vec.data.drop vec.entries.length).length = vec.slots
    rw [List.length_append, List.length_drop, h.length_entries, h.length_data, hys]
    have := h.count_lt
    omega
  · show (ys ++ vec.data.drop vec.entries.length).take vec.count = ys
    rw [← hys, List.take_left]

/-- Moving the entries `B` up over the placeholders `C` opens a gap of their number. -/
theorem openGap (h : vec.Fits) {P B C : List RangeLowT} (hent : vec.entries = P ++ (B ++ C)) {dst j n : Nat}
    (hd : dst = P.length + C.length) (hj : j = P.length) (hn : n = vec.count - C.length - P.length) :
    ∃ R, memmove vec.data dst j n = P ++ ((B ++ C).take C.length ++ (B ++ R)) ∧ Rewritable vec R ∧
      vec.count = P.length + B.length + C.length := by
  have hcount : vec.count = P.length + B.length + C.length := by
    rw [← h.length_entries, hent]
    simp [Nat.add_assoc]
  obtain ⟨R, hdata, hput⟩ := h.rewritable
  refine ⟨R, ?_, hput, hcount⟩
  rw [hdata, hent, hd, hj, hn, show vec.count - C.length - P.length = B.length by omega]
  simpa only [List.append_assoc] using memmove_gap P B C R

theorem getD_seam {A R : List RangeLowT} {x : RangeLowT} {i : Nat} (hi : A.length = i) :
    (A ++ x :: R).getD i default = x := by
  rw [List.getD_eq_getElem?_getD, ← hi, List.getElem?_append_right (Nat.le_refl _), Nat.sub_self]
  rfl

theorem VectorT.Fits.getD {A B : List RangeLowT} {x : RangeLowT} {i : Nat} (h : vec.Fits)
    (hent : vec.entries = A ++ x :: B) (hi : A.length = i) : vec.data.getD i default = x := by
  rw [h.data_eq, hent, List.append_assoc]
  exact getD_seam hi

theorem toU16_pred {s : Nat} (h0 : 0 < s) (h : s < 2 ^ 16) : toU16 (s + 0xffff) = s - 1 := by
  unfold toU16
  omega

theorem toU16_succ {e m : Nat} (h : e < m) (hm : m < 2 ^ 16) : toU16 (e + 1) = e + 1 :=
  Nat.mod_eq_of_lt (by omega)

variable {A B : List RangeLowT} {x : RangeLowT} {ip : U32} {s e i : Nat}

theorem data_behind (h : vec.Fits) (hi : A.length = i)
    (hent : vec.entries = A ++ x :: (B ++ [invalidRange])) {low : List RangeLowT}
    (hlow : low = (memmove vec.data (i + 2) (i + 1) (vec.count - 2 - i)).set (i + 1) ⟨ip, s, e⟩) :
    ∃ R, low = A ++ x :: ⟨ip, s, e⟩ :: (B ++ R) ∧ Rewritable vec R ∧ vec.count = i + B.length + 2 := by
  obtain ⟨R, hmove, hput, hcount⟩ := openGap h (P := A ++ [x]) (B := B) (C := [invalidRange])
    (by simpa using hent) (show i + 2 = _ by simp [hi]) (show i + 1 = _ by simp [hi])
    (show vec.count - 2 - i = _ by simp [hi]; omega)
  obtain ⟨z, hz⟩ : ∃ z, (B ++ [invalidRange]).take 1 = [z] := by
    cases B with
    | nil => exact ⟨invalidRange, rfl⟩
    | cons b B => exact ⟨b, rfl⟩
  refine ⟨R, ?_, hput, by simp [hi] at hcount; omega⟩
  rw [hlow, hmove, List.length_singleton, hz, ← hi]
  have := set_gap_succ A (B ++ R) ⟨ip, s, e⟩ x z
  simpa only [List.append_assoc, List.singleton_append, List.length_append, List.length_singleton,
    List.cons_append, List.nil_append] using this

variable (ip) in
theorem placed_behind (h : vec.Fits) (hi : A.length = i)
    (hent : vec.entries = A ++ x :: (B ++ [invalidRange])) {low : List RangeLowT}
    (hlow : low = (memmove vec.data (i + 2) (i + 1) (vec.count - 2 - i)).set (i + 1) ⟨ip, s, e⟩) :
    ({ vec with data := low } : VectorT RangeLowT).Fits ∧
      ({ vec with data := low } : VectorT RangeLowT).entries = A ++ x :: ⟨ip, s, e⟩ :: B := by
  obtain ⟨R, hset, hput, hcount⟩ := data_behind h hi hent hlow
  have := hput (A ++ x :: ⟨ip, s, e⟩ :: B) (by simp; omega)
  rw [hset]
  simpa using this

variable (ip) in
/-- Split the range: the new one and the right rest stand in the gap of two behind `x`. -/
theorem placed_split (h : vec.Fits) (hi : A.length = i) (hs : 0 < s) (hs' : s < 2 ^ 16)
    (he : e < x.end') (hx : x.end' < 2 ^ 16)
    (hent : vec.entries = A ++ x :: (B ++ [invalidRange, invalidRange])) {low : List RangeLowT}
    (hlow : low = memmove vec.data (i + 3) (i + 1) (vec.count - 3 - i)) {y : RangeLowT}
    (hy : y = low.getD i default) {low' : List RangeLowT}
    (hlow' : low' = ((low.set (i + 2) ⟨y.ipAddr, toU16 (e + 1), y.end'⟩).set (i + 1) ⟨ip, s, e⟩).set i
      { y with end' := toU16 (s + 0xffff) }) :
    ({ vec with data := low' } : VectorT RangeLowT).Fits ∧
      ({ vec with data := low' } : VectorT RangeLowT).entries =
        A ++ { x with end' := s - 1 } :: ⟨ip, s, e⟩ :: { x with start := e + 1 } :: B := by
  obtain ⟨R, hmove, hput, hcount⟩ := openGap h (P := A ++ [x]) (B := B) (C := [invalidRange, invalidRange])
    (by simpa using hent) (show i + 3 = _ by simp [hi]) (show i + 1 = _ by simp [hi])
    (show vec.count - 3 - i = _ by simp [hi]; omega)
  obtain ⟨z, w, hz⟩ : ∃ z w, (B ++ [invalidRange, invalidRange]).take 2 = [z, w] := by
    rcases B with _ | ⟨b, _ | ⟨c, B⟩⟩
    · exact ⟨_, _, rfl⟩
    · exact ⟨_, _, rfl⟩
    · exact ⟨_, _, rfl⟩
  have hgap : low = A ++ x :: z :: w :: (B ++ R) := by
    rw [hlow, hmove, List.length_cons, List.length_singleton, hz]
    simp
  have hyx : y = x := by
    rw [hy, hgap, getD_seam hi]
  have hset : low' = A ++ { x with end' := s - 1 } :: ⟨ip, s, e⟩ :: { x with start := e + 1 } :: (B ++ R) := by
    rw [hlow', hyx, toU16_pred hs hs', toU16_succ he hx, hgap, ← hi, set_gap_add_two, set_gap_succ, set_gap]
  have := hput (A ++ { x with end' := s - 1 } :: ⟨ip, s, e⟩ :: { x with start := e + 1 } :: B)
    (by simp at hcount ⊢; omega)
  rw [hset]
  simpa using this

variable (ip) in
theorem placed_shiftStart (h : vec.Fits) (hi : A.length = i) (he : e < x.end') (hx : x.end' < 2 ^ 16)
    (hent : vec.entries = A ++ x :: (B ++ [invalidRange])) {low : List RangeLowT}
    (hlow : low = memmove vec.data (i + 1) i (vec.count - 1 - i)) {low' : List RangeLowT}
    (hlow' : low' = (low.set (i + 1) { low.getD (i + 1) default with start := toU16 (e + 1) }).set i ⟨ip, s, e⟩) :
    ({ vec with data := low' } : VectorT RangeLowT).Fits ∧
      ({ vec with data := low' } : VectorT RangeLowT).entries =
        A ++ ⟨ip, s, e⟩ :: { x with start := e + 1 } :: B := by
  obtain ⟨R, hmove, hput, hcount⟩ := openGap h (P := A) (B := x :: B) (C := [invalidRange])
    (by simpa using hent) (show i + 1 = _ by simp [hi]) hi.symm (show vec.count - 1 - i = _ by simp [hi])
  have hgap : low = A ++ x :: x :: (B ++ R) := by
    rw [hlow, hmove]
    rfl
  have hget : low.getD (i + 1) default = x := by
    rw [hgap]
    simpa using getD_seam (A := A ++ [x]) (R := B ++ R) (x := x) (i := i + 1) (by simp [hi])
  have hset : low' = A ++ ⟨ip, s, e⟩ :: { x with start := e + 1 } :: (B ++ R) := by
    rw [hlow', hget, toU16_succ he hx, hgap, ← hi, set_gap_succ, set_gap]
  have := hput (A ++ ⟨ip, s, e⟩ :: { x with start := e + 1 } :: B) (by simp at hcount ⊢; omega)
  rw [hset]
  simpa using this

variable (ip) in
theorem placed_shiftEnd (h : vec.Fits) (hi : A.length = i) (hs : 0 < s) (hs' : s < 2 ^ 16)
    (hent : vec.entries = A ++ x :: (B ++ [invalidRange])) {low : List RangeLowT}
    (hlow : low = (memmove vec.data (i + 2) (i + 1) (vec.count - 2 - i)).set (i + 1) ⟨ip, s, e⟩)
    {low' : List RangeLowT} (hlow' : low' = low.set i { low.getD i default with end' := toU16 (s + 0xffff) }) :
    ({ vec with data := low' } : VectorT RangeLowT).Fits ∧
      ({ vec with data := low' } : VectorT RangeLowT).entries =
        A ++ { x with end' := s - 1 } :: ⟨ip, s, e⟩ :: B := by
  obtain ⟨R, hset, hput, hcount⟩ := data_behind h hi hent hlow
  have hset' : low' = A ++ { x with end' := s - 1 } :: ⟨ip, s, e⟩ :: (B ++ R) := by
    rw [hlow', hset, getD_seam hi, toU16_pred hs hs', ← hi, set_gap]
  have := hput (A ++ { x with end' := s - 1 } :: ⟨ip, s, e⟩ :: B) (by simp; omega)
  rw [hset']
  simpa using this

theorem placed_replace (h : vec.Fits) (hi : A.length = i) (hent : vec.entries = A ++ x :: B) (y : RangeLowT) :
    ({ vec with data := vec.data.set i y } : VectorT RangeLowT).Fits ∧
      ({ vec with data := vec.data.set i y } : VectorT RangeLowT).entries = A ++ y :: B := by
  obtain ⟨R, hdata, hput⟩ := h.rewritable
  have hset : vec.data.set i y = A ++ y :: (B ++ R) := by
    rw [hdata, hent, ← hi]
    rw [List.append_assoc, List.cons_append, set_gap]
  have hcount := h.length_entries
  rw [hent] at hcount
  have := hput (A ++ y :: B) (by simpa using hcount)
  rw [hset]
  simpa using this

/-- What the backward search can do to the vector of a chunk with the entries `xs`. -/
inductive SearchOutcome (ip : U32) (s e : Nat) (vec : VectorT RangeLowT) :
    Int × VectorT RangeLowT × Allocs → Prop where
  | placed (vec' : VectorT RangeLowT) (a : Allocs) (hf : vec'.Fits)
      (hp : Placed ip s e vec.entries vec'.entries) : SearchOutcome ip s e vec (0, vec', a)
  | clash (a : Allocs) (h : Clash s e vec.entries) : SearchOutcome ip s e vec (-1, vec, a)
  | noMemory (vec' : VectorT RangeLowT) (a : Allocs) (hf : vec'.Fits)
      (h : vec'.entries = vec.entries ∨ vec'.entries = vec.entries ++ [invalidRange]) :
      SearchOutcome ip s e vec (-1, vec', a)

/-- Stopping at `x`, the last entry that starts at or before `e`. -/
theorem searchOutcome_stop (h : vec.Fits) (hin : InChunk vec.entries) (he16 : e < 2 ^ 16) (hse : s ≤ e)
    (hi : A.length = i) (hent : vec.entries = A ++ x :: B) (hB : ∀ y ∈ B, e < y.start)
    (hx : x.start ≤ e) (a : Allocs) : SearchOutcome ip s e vec (rangeInsertSearch ip s e vec a (i + 1)) := by
  have hget := h.getD hent hi
  have hx16 : x.end' < 2 ^ 16 := hin x (by simp [hent])
  simp only [rangeInsertSearch, hget, if_neg (Nat.not_lt.mpr hx)]
  by_cases hbehind : x.end' < s
  · rw [if_pos hbehind]
    rcases vectorPush_spec h invalidRange a with ⟨a', hp⟩ | ⟨vec', a', hp, hf, he⟩
    · rw [hp]
      exact .noMemory vec a' h (Or.inl rfl)
    · rw [hp]
      obtain ⟨hf', he'⟩ := placed_behind ip (A := A) (B := B) (x := x) (s := s) (e := e) hf hi
        (by rw [he, hent]; simp) rfl
      refine .placed _ a' hf' ?_
      rw [he', hent]
      exact .behind A B x hx hB hbehind
  rw [if_neg hbehind]
  by_cases hsame : s = x.start ∧ e = x.end'
  · rw [if_pos hsame]
    obtain ⟨hf', he'⟩ := placed_replace h hi hent { x with ipAddr := ip }
    refine .placed _ a hf' ?_
    rw [he', hent]
    have := @Placed.nested ip _ _ A B x hx hB hsame.1.ge hsame.2.le
    simpa [carve, ← hsame.1, ← hsame.2] using this
  rw [if_neg hsame]
  by_cases hsplit : x.start < s ∧ e < x.end'
  · rw [if_pos hsplit]
    rcases vectorPush_spec h invalidRange a with ⟨a', hp⟩ | ⟨vec', a', hp, hf, he⟩
    · rw [hp]
      exact .noMemory vec a' h (Or.inl rfl)
    · rw [hp]
      rcases vectorPush_spec hf invalidRange a' with ⟨a'', hp'⟩ | ⟨vec'', a'', hp', hf', he'⟩
      · rw [hp']
        exact .noMemory vec' a'' hf (Or.inr he)
      · rw [hp']
        obtain ⟨hf'', he''⟩ := placed_split ip (A := A) (B := B) (x := x) (s := s) (e := e) hf' hi
          (by omega) (by omega) hsplit.2 hx16 (by rw [he', he, hent]; simp) rfl rfl rfl
        refine .placed _ a'' hf'' ?_
        rw [he'', hent]
        have := @Placed.nested ip _ _ A B x hx hB hsplit.1.le hsplit.2.le
        simpa [carve, hsplit.1, hsplit.2] using this
  rw [if_neg hsplit]
  by_cases hstart : s = x.start ∧ e < x.end'
  · rw [if_pos hstart]
    rcases vectorPush_spec h invalidRange a with ⟨a', hp⟩ | ⟨vec', a', hp, hf, he⟩
    · rw [hp]
      exact .noMemory vec a' h (Or.inl rfl)
    · rw [hp]
      obtain ⟨hf', he'⟩ := placed_shiftStart ip (A := A) (B := B) (x := x) (s := s) (e := e) hf hi
        hstart.2 hx16 (by rw [he, hent]; simp) rfl rfl
      refine .placed _ a' hf' ?_
      rw [he', hent]
      have := @Placed.nested ip _ _ A B x hx hB hstart.1.ge hstart.2.le
      simpa [carve, hstart.1, hstart.2] using this
  rw [if_neg hstart]
  by_cases hend : x.start < s ∧ e = x.end'
  · rw [if_pos hend]
    rcases vectorPush_spec h invalidRange a with ⟨a', hp⟩ | ⟨vec', a', hp, hf, he⟩
    · rw [hp]
      exact .noMemory vec a' h (Or.inl rfl)
    · rw [hp]
      obtain ⟨hf', he'⟩ := placed_shiftEnd ip (A := A) (B := B) (x := x) (s := s) (e := e) hf hi
        (by omega) (by omega) (by rw [he, hent]; simp) rfl rfl
      refine .placed _ a' hf' ?_
      rw [he', hent]
      have := @Placed.nested ip _ _ A B x hx hB hend.1.le hend.2.le
      simpa [carve, hend.1, ← hend.2] using this
  rw [if_neg hend]
  exact .clash a ⟨A, B, x, hent, hx, hB, by omega, by omega⟩

/-- **The rule of the backward search**: it passes all entries, or it stops at the last one that starts at or
before `e`. -/
theorem rangeInsertSearch_rule {P : Int × VectorT RangeLowT × Allocs → Prop} (h : vec.Fits) (a : Allocs)
    (hpassed : (∀ y ∈ vec.entries, e < y.start) → P (rangeInsertSearch ip s e vec a 0))
    (hstop : ∀ (i : Nat) (A B : List RangeLowT) (x : RangeLowT), A.length = i → vec.entries = A ++ x :: B →
      x.start ≤ e → (∀ y ∈ B, e < y.start) → P (rangeInsertSearch ip s e vec a (i + 1))) :
    P (rangeInsertSearch ip s e vec a vec.count) := by
  suffices hrest : ∀ (i : Nat) (A B : List RangeLowT), vec.entries = A ++ B → A.length = i → (∀ y ∈ B, e < y.start) →
      P (rangeInsertSearch ip s e vec a i) from
    hrest vec.count vec.entries [] (by simp) h.length_entries (by simp)
  intro i
  induction i with
  | zero =>
    intro A B hent hi hB
    obtain rfl := List.length_eq_zero_iff.mp hi
    exact hpassed (by simpa [hent] using hB)
  | succ i ih =>
    intro A B hent hi hB
    obtain ⟨A', x, rfl⟩ : ∃ A' x, A = A' ++ [x] :=
      ⟨A.dropLast, A.getLast (by rintro rfl; simp at hi), (List.dropLast_append_getLast _).symm⟩
    have hi' : A'.length = i := by simpa using hi
    have hent' : vec.entries = A' ++ x :: B := by simpa using hent
    by_cases hx : e < x.start
    · rw [rangeInsertSearch, h.getD hent' hi']
      simp only [if_pos hx]
      exact ih A' (x :: B) hent' hi' (by simpa using ⟨hx, hB⟩)
    · exact hstop i A' B x hi' hent' (Nat.le_of_not_lt hx) hB

/-- **The backward search of one chunk**, in all of its cases. -/
theorem rangeInsertSearch_spec (h : vec.Fits) (hin : InChunk vec.entries) (he16 : e < 2 ^ 16)
    (hse : s ≤ e) (a : Allocs) : SearchOutcome ip s e vec (rangeInsertSearch ip s e vec a vec.count) := by
  refine rangeInsertSearch_rule h a (fun hall => ?_) fun i A B x hi hent hx hB =>
    searchOutcome_stop h hin he16 hse hi hent hB hx a
  rw [rangeInsertSearch]
  rcases vectorPush_spec h ⟨ip, s, e⟩ a with ⟨a', hp⟩ | ⟨vec', a', hp, hf, he⟩
  · rw [hp]
    exact .noMemory vec a' h (Or.inl rfl)
  · rw [hp]
    refine .placed vec' a' hf ?_
    rw [he]
    exact .first _ hall

end Search

/-! ## Lookups after an accepted range -/

/-- The first entry that holds `n` keeps answering for `n` when an entry behind it starts at or
before `e`: the search for a range that ends in `e` stops behind the first. -/
def maskedBy (e n : Nat) : List RangeLowT → Option U32
  | [] => none
  | x :: xs =>
    if x.Covers n then (if ∃ y ∈ xs, y.start ≤ e then some x.ipAddr else none) else maskedBy e n xs

theorem answer_append (xs ys : List RangeLowT) (n : Nat) :
    answer (xs ++ ys) n = (answer xs n).or (answer ys n) := by
  rw [answer, List.find?_append, Option.map_or]
  rfl

theorem answer_cons_of_covers {x : RangeLowT} {n : Nat} (h : x.Covers n) (xs : List RangeLowT) :
    answer (x :: xs) n = some x.ipAddr := by
  simp [answer, h]

theorem answer_cons_of_not_covers {x : RangeLowT} {n : Nat} (h : ¬ x.Covers n) (xs : List RangeLowT) :
    answer (x :: xs) n = answer xs n := by
  simp [answer, h]

theorem answer_eq_none {xs : List RangeLowT} {n e : Nat} (h : ∀ x ∈ xs, e < x.start) (hn : n ≤ e) :
    answer xs n = none := by
  have hnc : ∀ x ∈ xs, ¬ x.Covers n := fun x hx hc => by
    have := h x hx
    have := hc.1
    omega
  simpa [answer] using hnc

theorem maskedBy_eq_none {xs : List RangeLowT} {n e : Nat} (h : ∀ x ∈ xs, e < x.start) (hn : n ≤ e) :
    maskedBy e n xs = none := by
  induction xs with
  | nil => rfl
  | cons x xs ih =>
    have hx : ¬ x.Covers n := fun hc => by
      have := h x (by simp)
      have := hc.1
      omega
    rw [maskedBy, if_neg hx]
    exact ih (fun y hy => h y (by simp [hy]))

theorem maskedBy_stop {A B : List RangeLowT} {x : RangeLowT} {n e : Nat} (hx : x.start ≤ e)
    (hB : ∀ y ∈ B, e < y.start) (hn : n ≤ e) : maskedBy e n (A ++ x :: B) = answer A n := by
  induction A with
  | nil =>
    show maskedBy e n (x :: B) = none
    have hno : ¬ ∃ y ∈ B, y.start ≤ e := by
      rintro ⟨y, hy, hle⟩
      have := hB y hy
      omega
    rw [maskedBy, if_neg hno, maskedBy_eq_none hB hn, ite_self]
  | cons w A ih =>
    rw [List.cons_append, maskedBy]
    by_cases hw : w.Covers n
    · rw [if_pos hw, if_pos ⟨x, by simp, hx⟩, answer_cons_of_covers hw]
    · rw [if_neg hw, ih, answer_cons_of_not_covers hw]

section Answer
variable {ip : U32} {s e n : Nat} {xs ys : List RangeLowT}

theorem answer_carve_inside (x : RangeLowT) (hs : s ≤ n) (he : n ≤ e) (B : List RangeLowT) :
    answer (carve x ip s e ++ B) n = some ip := by
  have hnew : (⟨ip, s, e⟩ : RangeLowT).Covers n := ⟨hs, he⟩
  rw [carve, List.append_assoc, List.cons_append, answer_append, answer_cons_of_covers hnew]
  by_cases h1 : x.start < s
  · have hleft : ¬ ({ x with end' := s - 1 } : RangeLowT).Covers n := fun hc => by
      have : n ≤ s - 1 := hc.2
      omega
    rw [if_pos h1, answer_cons_of_not_covers hleft]
    rfl
  · rw [if_neg h1]
    rfl

theorem answer_carve_outside (x : RangeLowT) (hn : ¬ (s ≤ n ∧ n ≤ e)) (hs : x.start ≤ s) (he : e ≤ x.end')
    (hse : s ≤ e) (B : List RangeLowT) : answer (carve x ip s e ++ B) n = answer (x :: B) n := by
  have hnew : ¬ (⟨ip, s, e⟩ : RangeLowT).Covers n := hn
  have hright : ∀ C, answer ((if e < x.end' then [{ x with start := e + 1 }] else []) ++ C) n =
      if e < n ∧ n ≤ x.end' then some x.ipAddr else answer C n := by
    intro C
    by_cases hr : e < x.end'
    · rw [if_pos hr, List.singleton_append]
      by_cases hc : e < n ∧ n ≤ x.end'
      · rw [if_pos hc]
        exact answer_cons_of_covers (x := { x with start := e + 1 }) ⟨hc.1, hc.2⟩ C
      · rw [if_neg hc]
        exact answer_cons_of_not_covers (x := { x with start := e + 1 }) (fun h => hc ⟨h.1, h.2⟩) C
    · rw [if_neg hr, if_neg (by omega)]
      rfl
  have hleft : ∀ C, answer ((if x.start < s then [{ x with end' := s - 1 }] else []) ++ C) n =
      if x.start ≤ n ∧ n < s then some x.ipAddr else answer C n := by
    intro C
    by_cases hl : x.start < s
    · rw [if_pos hl, List.singleton_append]
      by_cases hc : x.start ≤ n ∧ n < s
      · rw [if_pos hc]
        exact answer_cons_of_covers (x := { x with end' := s - 1 })
          ⟨hc.1, (by omega : n ≤ s - 1)⟩ C
      · rw [if_neg hc]
        refine answer_cons_of_not_covers (x := { x with end' := s - 1 }) (fun h => hc ⟨h.1, ?_⟩) C
        have : n ≤ s - 1 := h.2
        omega
    · rw [if_neg hl, if_neg (by omega)]
      rfl
  rw [carve, List.append_assoc, hleft, List.cons_append, answer_cons_of_not_covers hnew, hright]
  by_cases hc : x.Covers n
  · rw [answer_cons_of_covers hc]
    have h1 := hc.1
    have h2 := hc.2
    by_cases hl : n < s
    · rw [if_pos ⟨h1, hl⟩]
    · rw [if_neg (by omega), if_pos ⟨by omega, h2⟩]
  · have h1 : ¬ (x.start ≤ n ∧ n < s) := fun h => hc ⟨h.1, by omega⟩
    have h2 : ¬ (e < n ∧ n ≤ x.end') := fun h => hc ⟨by omega, h.2⟩
    rw [answer_cons_of_not_covers hc, if_neg h1, if_neg h2]

/-- **Inside an accepted range** a key gets its address, unless an earlier entry masks it. -/
theorem answer_placed_inside (h : Placed ip s e xs ys) (hs : s ≤ n) (he : n ≤ e) :
    answer ys n = some ((maskedBy e n xs).getD ip) := by
  have hor : ∀ A : List RangeLowT, (answer A n).or (some ip) = some ((answer A n).getD ip) := by
    intro A
    cases answer A n <;> rfl
  have hnew : (⟨ip, s, e⟩ : RangeLowT).Covers n := ⟨hs, he⟩
  cases h with
  | first _ hlt =>
    rw [answer_append, answer_eq_none hlt he, maskedBy_eq_none hlt he, answer_cons_of_covers hnew]
    rfl
  | behind A B x hx hB hsx =>
    have hxn : ¬ x.Covers n := fun hc => by
      have := hc.2
      omega
    rw [maskedBy_stop hx hB he, answer_append, answer_cons_of_not_covers hxn, answer_cons_of_covers hnew, hor]
  | nested A B x hx hB hsx hex =>
    rw [maskedBy_stop hx hB he, answer_append, answer_carve_inside x hs he, hor]

/-- **Outside an accepted range** nothing changes. -/
theorem answer_placed_outside (h : Placed ip s e xs ys) (hn : ¬ (s ≤ n ∧ n ≤ e)) (hse : s ≤ e) :
    answer ys n = answer xs n := by
  have hnew : ¬ (⟨ip, s, e⟩ : RangeLowT).Covers n := hn
  cases h with
  | first _ _ =>
    rw [answer_append, answer_cons_of_not_covers hnew]
    exact Option.or_none
  | behind A B x hx hB hsx =>
    rw [answer_append, answer_append]
    by_cases hxn : x.Covers n
    · rw [answer_cons_of_covers hxn, answer_cons_of_covers hxn]
    · rw [answer_cons_of_not_covers hxn, answer_cons_of_not_covers hxn, answer_cons_of_not_covers hnew]
  | nested A B x hx hB hsx hex =>
    rw [answer_append, answer_carve_outside x hn hsx hex hse, ← answer_append]

end Answer

end Fnsproxy
