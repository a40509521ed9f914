import Fnsproxy.Range.Visit

/-!
# What `range_delete` takes away

* `RangeLowT.Is` : the entries a delete looks for;
* `rangeDeleteSearch_spec`, `rangeDelete_chunks` : **the first of them goes from each chunk the delete
  processes**;
* `ahead` : the entries in front of the one at which the search of an insert stops;
* `leftBehind`, `answer_deleted` : how a chunk answers when a piece has been put in and taken out again.
-/

namespace Fnsproxy
open Word Block WhileLoop

/-- The entry is the piece `[s, e]` and nothing else. -/
def RangeLowT.Is (s e : Nat) (x : RangeLowT) : Bool := s = x.start ∧ e = x.end'

theorem RangeLowT.is_iff {s e : Nat} {x : RangeLowT} : x.Is s e = true ↔ s = x.start ∧ e = x.end' := decide_eq_true_iff

/-! ## One chunk -/

section Search
variable {vec : VectorT RangeLowT} {s e : Nat}

theorem VectorT.Fits.close (h : vec.Fits) {A B : List RangeLowT} {x : RangeLowT} (hent : vec.entries = A ++ x :: B) :
    ({ vec with data := memmove vec.data A.length (A.length + 1) (vec.count - 1 - A.length), count := vec.count - 1 } :
        VectorT RangeLowT).Fits ∧
      ({ vec with data := memmove vec.data A.length (A.length + 1) (vec.count - 1 - A.length), count := vec.count - 1 } :
        VectorT RangeLowT).entries = A ++ B := by
  have hcount : vec.count = A.length + B.length + 1 := by
    rw [← h.length_entries, hent, List.length_append, List.length_cons, Nat.add_assoc]
  have hlt := h.count_lt
  obtain ⟨R, hdata⟩ : ∃ R, vec.data = A ++ ([x] ++ (B ++ R)) := ⟨_, by
    rw [h.data_eq, hent]
    simp only [List.append_assoc, List.cons_append, List.nil_append]
    rfl⟩
  have hmove : memmove vec.data A.length (A.length + 1) (vec.count - 1 - A.length) =
      A ++ (B ++ (([x] ++ B).drop B.length ++ R)) := by
    rw [show vec.count - 1 - A.length = B.length by omega, hdata]
    exact memmove_close A [x] B R
  rw [hmove]
  refine ⟨⟨h.size_pos, show vec.count - 1 < vec.slots by omega, ?_, h.bytes⟩, ?_⟩
  · show (A ++ (B ++ (([x] ++ B).drop B.length ++ R))).length = vec.slots
    rw [← h.length_data, hdata]
    simp only [List.length_append, List.length_drop, List.length_singleton]
    omega
  · show (A ++ (B ++ (([x] ++ B).drop B.length ++ R))).take (vec.count - 1) = A ++ B
    rw [show vec.count - 1 = (A ++ B).length by rw [List.length_append]; omega, ← List.append_assoc, List.take_left]

theorem rangeDeleteSearch_spec (h : vec.Fits) : ∀ (k i : Nat) (A B : List RangeLowT), vec.entries = A ++ B →
    A.length = i → B.length = k → (rangeDeleteSearch s e vec k i).Fits ∧
      (rangeDeleteSearch s e vec k i).entries = A ++ B.eraseP (RangeLowT.Is s e) := by
  intro k
  induction k with
  | zero =>
    intro i A B hent _ hk
    obtain rfl := List.length_eq_zero_iff.mp hk
    exact ⟨h, hent⟩
  | succ k ih =>
    intro i A B hent hi hk
    obtain ⟨x, B, rfl⟩ := List.exists_cons_of_length_eq_add_one hk
    rw [rangeDeleteSearch, h.getD hent hi]
    by_cases hx : s = x.start ∧ e = x.end'
    · rw [if_pos hx, List.eraseP_cons_of_pos (RangeLowT.is_iff.mpr hx), ← hi]
      exact h.close hent
    · rw [if_neg hx, List.eraseP_cons_of_neg (mt RangeLowT.is_iff.mp hx)]
      have := ih (i + 1) (A ++ [x]) B (by simpa using hent) (by simp [hi]) (by simpa using hk)
      simpa using this

end Search

/-! ## The chunks -/

section Loop
variable {start end' : U32}

theorem rangeDeleteStep_chunk {n : U32} {r : RangeT} (hr : r.Sound) (hle : n ≤ end') {s e : Nat}
    (hs : pieceStart start n = s) (he : pieceEnd end' n = e) :
    ∃ r', rangeDeleteStep start end' (n, r) = .again (n + 0x10000#32, r') ∧ r'.Sound ∧ r'.defIp = r.defIp ∧
      ∀ k, r'.chunk k = if k = n.toNat / 65536 then (r.chunk k).eraseP (RangeLowT.Is s e) else r.chunk k := by
  simp only [rangeDeleteStep, if_pos hle, toNat_high, hs, he]
  cases hl : r.low (n.toNat / 65536) with
  | none =>
    refine ⟨r, rfl, hr, rfl, fun k => ?_⟩
    split_ifs with hk
    · rw [hk, RangeT.chunk, hl]
      rfl
    · rfl
  | some vec =>
    obtain ⟨hf, hin⟩ := hr _ vec hl
    obtain ⟨hf', hent⟩ := rangeDeleteSearch_spec (s := s) (e := e) hf vec.count 0 [] vec.entries rfl rfl hf.length_entries
    rw [List.nil_append] at hent
    refine ⟨_, rfl, sound_update hr hf' ?_ _, rfl, fun k => ?_⟩
    · rw [hent]
      exact fun x hx => hin x (List.mem_of_mem_eraseP hx)
    · rw [chunk_update]
      split_ifs with hk
      · rw [hent, hk, RangeT.chunk, hl]
      · rfl

/-- **A delete** takes from each chunk it processes the first entry that is its piece. -/
theorem rangeDelete_chunks (hend : deleteStop start end' ≤ 0xffff) : ∀ (k : Nat) (n : U32) (r : RangeT), r.Sound →
    n.toNat % 65536 = start.toNat % 65536 → start.toNat ≤ n.toNat → deleteStop start end' - n.toNat / 65536 = k →
    ∃ fuel r', run (rangeDeleteStep start end') fuel (n, r) = some r' ∧ r'.Sound ∧ r'.defIp = r.defIp ∧
      ∀ h, r'.chunk h = if n.toNat / 65536 ≤ h ∧ h < deleteStop start end' then
        (r.chunk h).eraseP (RangeLowT.Is (pieceIn start end' h).1 (pieceIn start end' h).2) else r.chunk h := by
  intro k
  induction k with
  | zero =>
    intro n r hr hn hstart hk
    have hgt : ¬ n ≤ end' := by
      rw [le_end_iff_lt_deleteStop hn]
      omega
    refine ⟨1, r, run_done (by simp only [rangeDeleteStep, if_neg hgt]) 0, hr, rfl, fun h => (if_neg ?_).symm⟩
    omega
  | succ k ih =>
    intro n r hr hn hstart hk
    have hle : n ≤ end' := (le_end_iff_lt_deleteStop hn).mpr (by omega)
    have hs : pieceStart start n = (pieceIn start end' (n.toNat / 65536)).1 := by
      unfold pieceStart pieceIn
      rw [toNat_low]
      by_cases heq : n = start
      · rw [if_pos heq, heq, if_pos rfl]
      · have : n.toNat ≠ start.toNat := fun h => heq (BitVec.eq_of_toNat_eq h)
        rw [if_neg heq]
        exact (if_neg (by omega)).symm
    have he := pieceEnd_in start end' (n := n) (Nat.div_le_div_right hle)
    obtain ⟨r₁, hstep, hr₁, hd₁, hchunk⟩ := rangeDeleteStep_chunk hr hle hs he
    have hnext := toNat_nextDelete (n := n) (by omega)
    obtain ⟨fuel, r', hrun, hr', hd', hin⟩ := ih (n + 0x10000#32) r₁ hr₁ (by omega) (by omega) (by omega)
    refine ⟨fuel + 1, r', (run_again hstep fuel).trans hrun, hr', hd'.trans hd₁, fun h => ?_⟩
    rw [hin h, hchunk h, hnext]
    by_cases hh : h = n.toNat / 65536
    · rw [if_neg (by omega), if_pos hh, if_pos (by omega), ← hh]
    · rw [if_neg hh]
      exact if_congr (by omega) rfl rfl

end Loop

/-! ## A piece put in and taken out -/

/-- The entries in front of the last one that starts at or before `e`. -/
def ahead (e : Nat) : List RangeLowT → List RangeLowT
  | [] => []
  | x :: xs => if ∃ y ∈ xs, y.start ≤ e then x :: ahead e xs else []

/-- How a chunk answers for a key of `[s, e]` when that piece has been put in for `ip` and taken out
again: with the entries in front of the stop, less the first that is the piece, if there is such an
entry, and then with `ip`. -/
def leftBehind (ip : U32) (s e n : Nat) (xs : List RangeLowT) : Option U32 :=
  if (ahead e xs).any (RangeLowT.Is s e) then (answer ((ahead e xs).eraseP (RangeLowT.Is s e)) n).or (some ip)
  else answer (ahead e xs) n

section Deleted
variable {ip : U32} {s e n : Nat} {xs ys A B : List RangeLowT} {x : RangeLowT}

theorem ahead_none (h : ∀ x ∈ xs, e < x.start) : ahead e xs = [] := by
  cases xs with
  | nil => rfl
  | cons x xs =>
    apply if_neg
    rintro ⟨y, hy, hle⟩
    have := h y (List.mem_cons_of_mem x hy)
    omega

theorem ahead_stop (hx : x.start ≤ e) (hB : ∀ y ∈ B, e < y.start) : ahead e (A ++ x :: B) = A := by
  induction A with
  | nil =>
    apply if_neg
    rintro ⟨y, hy, hle⟩
    have := hB y hy
    omega
  | cons w A ih => rw [List.cons_append, ahead, if_pos ⟨x, by simp, hx⟩, ih]

theorem answer_eraseP_outside (hn : ¬ (s ≤ n ∧ n ≤ e)) (xs : List RangeLowT) :
    answer (xs.eraseP (RangeLowT.Is s e)) n = answer xs n := by
  induction xs with
  | nil => rfl
  | cons x xs ih =>
    by_cases hx : x.Is s e = true
    · obtain ⟨rfl, rfl⟩ := RangeLowT.is_iff.mp hx
      rw [List.eraseP_cons_of_pos hx, answer_cons_of_not_covers hn]
    · rw [List.eraseP_cons_of_neg hx]
      by_cases hc : x.Covers n
      · rw [answer_cons_of_covers hc, answer_cons_of_covers hc]
      · rw [answer_cons_of_not_covers hc, answer_cons_of_not_covers hc, ih]

/-- The new entry with what stands around it behind the entries ahead. -/
theorem Placed.around (h : Placed ip s e xs ys) : ∃ L R, ys = ahead e xs ++ (L ++ ⟨ip, s, e⟩ :: R) ∧
    (∀ y ∈ L, y.end' < s ∨ e < y.start) ∧ ∀ y ∈ R, e < y.start := by
  cases h with
  | first _ hlt => exact ⟨xs, [], by rw [ahead_none hlt]; rfl, fun y hy => Or.inr (hlt y hy), by simp⟩
  | behind A B x hx hB hs =>
    refine ⟨[x], B, by rw [ahead_stop hx hB]; rfl, fun y hy => Or.inl ?_, hB⟩
    rw [List.mem_singleton.mp hy]
    exact hs
  | nested A B x hx hB hs he =>
    refine ⟨if x.start < s then [{ x with end' := s - 1 }] else [],
      (if e < x.end' then [{ x with start := e + 1 }] else []) ++ B, ?_, fun y hy => Or.inl ?_, fun y hy => ?_⟩
    · rw [ahead_stop hx hB, carve]
      simp
    · split_ifs at hy with h1
      · rw [List.mem_singleton.mp hy]
        show s - 1 < s
        omega
      · cases hy
    · rcases List.mem_append.mp hy with hy | hy
      · split_ifs at hy
        · rw [List.mem_singleton.mp hy]
          exact Nat.lt_succ_self e
        · cases hy
      · exact hB y hy

/-- **Inside the piece** the entries ahead go on answering, and the new one if an entry ahead has been
taken out in its place. -/
theorem answer_deleted (h : Placed ip s e xs ys) (hs : s ≤ n) (he : n ≤ e) :
    answer (ys.eraseP (RangeLowT.Is s e)) n = leftBehind ip s e n xs := by
  obtain ⟨L, R, rfl, hL, hR⟩ := h.around
  have hnew : RangeLowT.Is s e ⟨ip, s, e⟩ = true := RangeLowT.is_iff.mpr ⟨rfl, rfl⟩
  have hLis : L.any (RangeLowT.Is s e) = false := by
    rw [List.any_eq_false]
    intro y hy his
    obtain ⟨rfl, rfl⟩ := RangeLowT.is_iff.mp his
    have := hL y hy
    omega
  have hLn : ∀ y ∈ L, ¬ y.Covers n := fun y hy hc => by
    have := hL y hy
    have h1 := hc.1
    have h2 := hc.2
    omega
  have hskip : ∀ zs, answer (L ++ zs) n = answer zs n := by
    intro zs
    rw [answer_append, show answer L n = none by simpa [answer] using hLn]
    rfl
  unfold leftBehind
  rw [List.eraseP_append]
  cases hany : (ahead e xs).any (RangeLowT.Is s e) with
  | true =>
    rw [if_pos rfl, if_pos rfl, answer_append, hskip, answer_cons_of_covers ⟨hs, he⟩]
  | false =>
    rw [if_neg (by decide), if_neg (by decide), List.eraseP_append, hLis, if_neg (by decide),
      List.eraseP_cons_of_pos hnew, answer_append, hskip, answer_eq_none hR he]
    exact Option.or_none

end Deleted

end Fnsproxy
