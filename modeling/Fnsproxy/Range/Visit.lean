import Fnsproxy.Range.Table

/-!
# Which chunks the loops of range.c process

* `rangeInsertChunks`, `rangeDeleteChunks` : the chunks in which a call has made a round;
* `InsertVisits`, `DeleteVisits` : what is expected of the two loops;
* `VectorT.Accepts` : the vectors of a chunk that take a piece from the start of the chunk on;
* `Endless` : the inserts that go round the address space for ever;
* `chunkLoops_iff` : **the loops terminate and process each chunk once exactly if the insert is not
  endless, and the delete reaches its last chunk and that is not the last of the table**.
-/

namespace Fnsproxy
open Word WhileLoop

/-- The chunks of the rounds in which the loop variable is still in the range. -/
def visited {σ : Type} (end' : U32) (ss : List (U32 × σ)) : List Nat :=
  (ss.filter fun s => s.1 ≤ end').map fun s : U32 × σ => (s.1 >>> 16).toNat

def rangeInsertChunks (fuel : Nat) (r : RangeT) (start end' ip : U32) (a : Allocs) : List Nat :=
  if end' < start then [] else visited end' (rounds (rangeInsertStep start end' ip) fuel (start, r, a))

def rangeDeleteChunks (fuel : Nat) (r : RangeT) (start end' : U32) : List Nat :=
  visited end' (rounds (rangeDeleteStep start end') fuel (start, r))

/-- Each chunk from that of `start` to that of `end'` once, and no other. -/
def OnceEach (start end' : U32) (hs : List Nat) : Prop :=
  ∀ h, hs.count h = if start.toNat / 65536 ≤ h ∧ h ≤ end'.toNat / 65536 then 1 else 0

/-- Whatever the allocations do, the insert returns, and if it returns 0 it has processed each chunk once. -/
def InsertVisits (r : RangeT) (start end' ip : U32) : Prop :=
  ∀ a, ∃ fuel ret r', rangeInsert fuel r start end' ip a = some (ret, r') ∧
    (ret = 0 → OnceEach start end' (rangeInsertChunks fuel r start end' ip a))

/-- The delete returns and has processed each chunk once. -/
def DeleteVisits (r : RangeT) (start end' : U32) : Prop :=
  ∃ fuel r', rangeDelete fuel r start end' = some r' ∧ OnceEach start end' (rangeDeleteChunks fuel r start end')

/-- While there is memory the vector takes the piece `[0, e]`: no entry starts in it and one more fits,
or the last entry that does starts at 0 and ends with the piece, or behind it if one more fits. -/
def VectorT.Accepts (vec : VectorT RangeLowT) (e : Nat) : Prop :=
  ((∀ x ∈ vec.entries, e < x.start) ∧ vec.Room) ∨
  ∃ A B x, vec.entries = A ++ x :: B ∧ (∀ y ∈ B, e < y.start) ∧ x.start = 0 ∧
    (x.end' = e ∨ (e < x.end' ∧ vec.Room))

/-- The low half of the last key that a range ending in the last chunk of the table has in chunk `h`. -/
def lastPiece (end' : U32) (h : Nat) : Nat := if h = 0xffff then end'.toNat % 65536 else 0xffff

/-- An aligned range that reaches into the last chunk of the table, where every chunk of the table takes
its piece from the start of the chunk on. -/
def Endless (r : RangeT) (start end' : U32) : Prop :=
  start ≤ end' ∧ 0xffff0000 ≤ end'.toNat ∧ start.toNat % 65536 = 0 ∧
    ∀ h vec, h ≤ 0xffff → r.low h = some vec → vec.Accepts (lastPiece end' h)

variable {r : RangeT} {start end' ip : U32} {a : Allocs}

/-! ## Chunks visited -/

section Visited
variable {σ ρ : Type} {step : U32 × σ → Next (U32 × σ) ρ} {s t : U32 × σ} {x : ρ}

theorem visited_again (h : step s = .again t) (hle : s.1 ≤ end') (fuel : Nat) :
    visited end' (rounds step (fuel + 1) s) = s.1.toNat / 65536 :: visited end' (rounds step fuel t) := by
  rw [rounds_again h, visited, List.filter_cons_of_pos (by simpa using hle), List.map_cons, toNat_high]
  rfl

theorem visited_done (h : step s = .done x) (hlt : ¬ s.1 ≤ end') (fuel : Nat) :
    visited end' (rounds step (fuel + 1) s) = [] := by
  rw [rounds_done h, visited, List.filter_cons_of_neg (by simpa using hlt)]
  rfl

end Visited

theorem count_range' (m n k : Nat) : (List.range' m n).count k = if m ≤ k ∧ k < m + n then 1 else 0 := by
  rw [(List.nodup_range' 1).count]
  simp only [List.mem_range'_1]

theorem onceEach_range' (m n : Nat) : OnceEach start end' (List.range' m n) ↔
    ∀ k, (m ≤ k ∧ k < m + n) ↔ (start.toNat / 65536 ≤ k ∧ k ≤ end'.toNat / 65536) := by
  refine forall_congr' fun k => ?_
  rw [count_range']
  split_ifs <;> simp [*]

/-! ## The delete -/

theorem rangeDeleteStep_again {n : U32} (hle : n ≤ end') (r : RangeT) :
    ∃ r', rangeDeleteStep start end' (n, r) = .again (n + 0x10000#32, r') := by
  simp only [rangeDeleteStep, if_pos hle]
  cases r.low (n >>> 16).toNat with
  | none => exact ⟨r, rfl⟩
  | some vec => exact ⟨_, rfl⟩

/-- A delete that reaches a key of the last chunk of the table wraps for ever. -/
theorem rangeDelete_endless (hlast : 0xffff0000 ≤ end'.toNat) (hlow : start.toNat % 65536 ≤ end'.toNat % 65536)
    (fuel : Nat) : rangeDelete fuel r start end' = none := by
  refine run_eq_none (fun s => s.1.toNat % 65536 = start.toNat % 65536) ?_ fuel rfl
  rintro ⟨n, r⟩ hn
  have hn : n.toNat % 65536 = start.toNat % 65536 := hn
  have hlt := n.isLt
  have hlt' := end'.isLt
  have hle : n ≤ end' := by
    rw [BitVec.le_def]
    omega
  obtain ⟨r', hstep⟩ := @rangeDeleteStep_again start end' n hle r
  refine ⟨_, hstep, ?_⟩
  simp only [BitVec.toNat_add, BitVec.toNat_ofNat]
  omega

/-- The chunk behind the last one a delete processes. -/
def deleteStop (start end' : U32) : Nat :=
  if start.toNat % 65536 ≤ end'.toNat % 65536 then end'.toNat / 65536 + 1 else end'.toNat / 65536

theorem le_end_iff_lt_deleteStop {n : U32} (hn : n.toNat % 65536 = start.toNat % 65536) :
    n ≤ end' ↔ n.toNat / 65536 < deleteStop start end' := by
  rw [BitVec.le_def, deleteStop]
  split_ifs <;> omega

theorem toNat_nextDelete {n : U32} (hn : n.toNat / 65536 < 0xffff) : (n + 0x10000#32).toNat = n.toNat + 65536 := by
  rw [BitVec.toNat_add]
  simp only [BitVec.toNat_ofNat]
  omega

theorem rangeDelete_visits (hend : deleteStop start end' ≤ 0xffff) : ∀ (k : Nat) (n : U32) (r : RangeT),
    n.toNat % 65536 = start.toNat % 65536 → deleteStop start end' - n.toNat / 65536 = k →
    ∃ r', run (rangeDeleteStep start end') (k + 1) (n, r) = some r' ∧
      visited end' (rounds (rangeDeleteStep start end') (k + 1) (n, r)) = List.range' (n.toNat / 65536) k := by
  intro k
  induction k with
  | zero =>
    intro n r hn hk
    have hgt : ¬ n ≤ end' := fun h => by
      have := (le_end_iff_lt_deleteStop hn).mp h
      omega
    have hdone : rangeDeleteStep start end' (n, r) = .done r := by rw [rangeDeleteStep, if_neg hgt]
    exact ⟨r, run_done hdone 0, visited_done hdone hgt 0⟩
  | succ k ih =>
    intro n r hn hk
    have hle : n ≤ end' := (le_end_iff_lt_deleteStop hn).mpr (by omega)
    obtain ⟨r₁, hstep⟩ := @rangeDeleteStep_again start end' n hle r
    have hnext := toNat_nextDelete (n := n) (by omega)
    obtain ⟨r', hrun, hvis⟩ := ih (n + 0x10000#32) r₁ (by omega) (by omega)
    refine ⟨r', (run_again hstep _).trans hrun, ?_⟩
    rw [visited_again hstep hle, hvis, hnext, List.range'_succ, Nat.add_div_right _ (by decide)]

/-- The delete visits its chunks exactly if there are none, or its last key's low half is not below that
of its first key and its last chunk is not the last of the table. -/
theorem deleteVisits_iff (r : RangeT) (start end' : U32) :
    DeleteVisits r start end' ↔ end'.toNat / 65536 < start.toNat / 65536 ∨
      (start.toNat % 65536 ≤ end'.toNat % 65536 ∧ end'.toNat < 0xffff0000) := by
  have hlt := start.isLt
  have hlt' := end'.isLt
  by_cases hend : deleteStop start end' ≤ 0xffff
  · obtain ⟨r', hrun, hvis⟩ := rangeDelete_visits hend _ start r rfl rfl
    have hexact : DeleteVisits r start end' ↔ OnceEach start end'
        (List.range' (start.toNat / 65536) (deleteStop start end' - start.toNat / 65536)) := by
      constructor
      · rintro ⟨fuel, r₁, hrun₁, honce⟩
        rw [rangeDeleteChunks, rounds_unique hrun₁ hrun, hvis] at honce
        exact honce
      · intro h
        exact ⟨_, r', hrun, by rw [rangeDeleteChunks, hvis]; exact h⟩
    rw [hexact, onceEach_range']
    unfold deleteStop at hend ⊢
    constructor
    · intro h
      have := h (end'.toNat / 65536)
      split_ifs at hend this <;> omega
    · intro h k
      split_ifs at hend ⊢ <;> omega
  · have hwrap : 0xffff0000 ≤ end'.toNat ∧ start.toNat % 65536 ≤ end'.toNat % 65536 := by
      unfold deleteStop at hend
      split_ifs at hend <;> omega
    refine iff_of_false ?_ (by omega)
    rintro ⟨fuel, r', hrun, -⟩
    rw [rangeDelete_endless hwrap.1 hwrap.2] at hrun
    cases hrun

/-! ## Pieces from the start of a chunk on -/

theorem last_unique {α : Type*} {p : α → Prop} {A A' B B' : List α} {x x' : α} (h : A ++ x :: B = A' ++ x' :: B')
    (hx : p x) (hx' : p x') (hB : ∀ y ∈ B, ¬ p y) (hB' : ∀ y ∈ B', ¬ p y) : A = A' ∧ x = x' ∧ B = B' := by
  rcases List.append_eq_append_iff.mp h with ⟨C, rfl, hC⟩ | ⟨C, rfl, hC⟩
  · cases C with
    | nil => exact ⟨(List.append_nil A).symm, List.cons.inj hC⟩
    | cons c C =>
      obtain ⟨-, rfl⟩ := List.cons.inj hC
      exact absurd hx' (hB x' (by simp))
  · cases C with
    | nil => exact ⟨List.append_nil A', (List.cons.inj hC).1.symm, (List.cons.inj hC).2.symm⟩
    | cons c C =>
      obtain ⟨-, rfl⟩ := List.cons.inj hC
      exact absurd hx (hB' x (by simp))

section Search
variable {vec : VectorT RangeLowT} {e h : Nat}

theorem accepts_stop {A B : List RangeLowT} {x : RangeLowT} (hent : vec.entries = A ++ x :: B) (hx : x.start ≤ e)
    (hB : ∀ y ∈ B, e < y.start) :
    vec.Accepts e ↔ x.start = 0 ∧ (x.end' = e ∨ (e < x.end' ∧ vec.Room)) := by
  constructor
  · rintro (⟨hall, -⟩ | ⟨A', B', x', hent', hB', h0, hend⟩)
    · have := hall x (by rw [hent]; simp)
      omega
    · obtain ⟨-, rfl, -⟩ := last_unique (p := fun y => y.start ≤ e) (hent.symm.trans hent') hx (by omega)
        (fun y hy => Nat.not_le.mpr (hB y hy)) (fun y hy => Nat.not_le.mpr (hB' y hy))
      exact ⟨h0, hend⟩
  · rintro ⟨h0, hend⟩
    exact Or.inr ⟨A, B, x, hent, hB, h0, hend⟩

/-- The search for a place for `[0, e]` ends well only where the vector accepts it, and always there
while there is memory. -/
theorem rangeInsertSearch_accepts (hf : vec.Fits) (ip : U32) (a : Allocs) :
    (¬ (rangeInsertSearch ip 0 e vec a vec.count).1 < 0 → vec.Accepts e) ∧
    (vec.Accepts e → Willing a → ¬ (rangeInsertSearch ip 0 e vec a vec.count).1 < 0 ∧
      Willing (rangeInsertSearch ip 0 e vec a vec.count).2.2) := by
  refine @rangeInsertSearch_rule vec ip 0 e
    (fun res => (¬ res.1 < 0 → vec.Accepts e) ∧ (vec.Accepts e → Willing a → ¬ res.1 < 0 ∧ Willing res.2.2)) hf a
    (fun hall => ?_) fun i A B x hi hent hx hB => ?_
  · rw [rangeInsertSearch]
    constructor
    · intro hret
      obtain ⟨ret, vec', a', hpush⟩ : ∃ ret vec' a', vectorPush vec ⟨ip, 0, e⟩ a = (ret, vec', a') := ⟨_, _, _, rfl⟩
      rw [hpush] at hret
      refine Or.inl ⟨hall, vectorPush_room hf hpush fun hneg => ?_⟩
      simp only [if_pos hneg] at hret
      exact hret (by decide)
    · rintro (⟨-, hroom⟩ | ⟨A', B', x, hent', -, h0, -⟩) ha
      · obtain ⟨vec', a', hpush, -, ha'⟩ := vectorPush_willing hf hroom ⟨ip, 0, e⟩ ha
        rw [hpush]
        exact ⟨Int.lt_irrefl 0, ha'⟩
      · have := hall x (by rw [hent']; simp)
        omega
  · rw [rangeInsertSearch, hf.getD hent hi, accepts_stop hent hx hB]
    simp only [if_neg (Nat.not_lt.mpr hx), Nat.not_lt_zero, if_false, false_and]
    by_cases hsame : 0 = x.start ∧ e = x.end'
    · simp only [if_pos hsame]
      exact ⟨fun _ => ⟨hsame.1.symm, Or.inl hsame.2.symm⟩, fun _ ha => ⟨by decide, ha⟩⟩
    · simp only [if_neg hsame]
      by_cases hinner : 0 = x.start ∧ e < x.end'
      · simp only [if_pos hinner]
        constructor
        · intro hret
          obtain ⟨ret, vec', a', hpush⟩ : ∃ ret vec' a', vectorPush vec invalidRange a = (ret, vec', a') :=
            ⟨_, _, _, rfl⟩
          rw [hpush] at hret
          refine ⟨hinner.1.symm, Or.inr ⟨hinner.2, vectorPush_room hf hpush fun hneg => ?_⟩⟩
          simp only [if_pos hneg] at hret
          exact hret (by decide)
        · rintro ⟨-, hend⟩ ha
          obtain ⟨vec', a', hpush, -, ha'⟩ := vectorPush_willing hf ((hend.resolve_left (by omega)).2) invalidRange ha
          rw [hpush]
          exact ⟨Int.lt_irrefl 0, ha'⟩
      · simp only [if_neg hinner]
        refine ⟨fun hret => absurd (by decide) hret, fun hacc => ?_⟩
        exact absurd hacc.1 (by omega)

theorem Placed.exists_new {ip : U32} {s e : Nat} {xs ys : List RangeLowT} (h : Placed ip s e xs ys) :
    ∃ A B, ys = A ++ ⟨ip, s, e⟩ :: B ∧ ∀ y ∈ B, e < y.start := by
  cases h with
  | first _ _ => exact ⟨xs, [], rfl, by simp⟩
  | behind A B x _ hB _ => exact ⟨A ++ [x], B, by simp, hB⟩
  | nested A B x _ hB _ _ =>
    refine ⟨A ++ (if x.start < s then [{ x with end' := s - 1 }] else []),
      (if e < x.end' then [{ x with start := e + 1 }] else []) ++ B, by simp [carve], fun y hy => ?_⟩
    rcases List.mem_append.mp hy with hy | hy
    · split_ifs at hy
      · rw [List.mem_singleton.mp hy]
        exact Nat.lt_succ_self e
      · cases hy
    · exact hB y hy

/-- Where a piece has been placed, the piece from the start of the chunk on is taken exactly if they are
the same. -/
theorem Placed.accepts_iff {ip : U32} {s e : Nat} {xs : List RangeLowT} (h : Placed ip s e xs vec.entries)
    (hse : s ≤ e) : vec.Accepts e ↔ s = 0 := by
  obtain ⟨A, B, hent, hB⟩ := h.exists_new
  rw [accepts_stop hent hse hB]
  simp

end Search

section Chunk
variable {e h : Nat}

theorem rangeInsertChunk_low {ip : U32} {s : Nat} {r r' : RangeT} {a a' : Allocs} {ret : Int}
    (hrun : rangeInsertChunk ip s e r h a = (ret, r', a')) {k : Nat} (hk : k ≠ h) : r'.low k = r.low k := by
  rw [show r' = (rangeInsertChunk ip s e r h a).2.1 by rw [hrun]]
  unfold rangeInsertChunk
  cases hl : r.low h with
  | some vec => exact Function.update_of_ne hk ..
  | none =>
    rcases hn : vectorNew (α := RangeLowT) rangeInitNum sizeofRangeLow a with ⟨_ | vec, a'⟩
    · rfl
    · exact Function.update_of_ne hk ..

theorem rangeInsertChunk_refuses {vec : VectorT RangeLowT} (hf : vec.Fits) (hl : r.low h = some vec)
    (hno : ¬ vec.Accepts e) (ip : U32) (a : Allocs) : (rangeInsertChunk ip 0 e r h a).1 < 0 := by
  have := (rangeInsertSearch_accepts (e := e) hf ip a).1
  unfold rangeInsertChunk
  rw [hl]
  exact not_not.mp (mt this hno)

theorem rangeInsertChunk_takes (hr : r.Sound) (hacc : ∀ vec, r.low h = some vec → vec.Accepts e) (ip : U32)
    (ha : Willing a) : ¬ (rangeInsertChunk ip 0 e r h a).1 < 0 ∧ Willing (rangeInsertChunk ip 0 e r h a).2.2 := by
  have key : ∀ (vec : VectorT RangeLowT) (b : Allocs), vec.Fits → vec.Accepts e → Willing b →
      ¬ (rangeInsertSearch ip 0 e vec b vec.count).1 < 0 ∧ Willing (rangeInsertSearch ip 0 e vec b vec.count).2.2 :=
    fun vec b hf hv hb => (rangeInsertSearch_accepts hf ip b).2 hv hb
  unfold rangeInsertChunk
  cases hl : r.low h with
  | some vec => exact key vec a (hr h vec hl).1 (hacc vec hl) ha
  | none =>
    obtain ⟨vec, b, hn, hf, hent, hroom, hb⟩ := vectorNew_willing (α := RangeLowT) (k := 7)
      (show 1 < rangeInitNum by decide) (show 0 < sizeofRangeLow by decide) (by decide) (by decide) ha
    rw [hn]
    exact key vec b hf (Or.inl ⟨by simp [hent], hroom⟩) hb

/-- A piece that has been taken is found again. -/
theorem rangeInsertChunk_found {s : Nat} (hr : r.Sound) (he16 : e < 2 ^ 16) (hse : s ≤ e) {ret : Int} {r' : RangeT}
    {a' : Allocs} (hrun : rangeInsertChunk ip s e r h a = (ret, r', a')) (hret : ¬ ret < 0) :
    ∃ vec, r'.low h = some vec ∧ vec.Fits ∧ (vec.Accepts e ↔ s = 0) := by
  obtain ⟨hr', -, -, hp⟩ := rangeInsertChunk_ok hr he16 hse hrun hret
  obtain ⟨A, B, hent, -⟩ := hp.exists_new
  cases hl : r'.low h with
  | none => simp [RangeT.chunk, hl] at hent
  | some vec =>
    rw [show r'.chunk h = vec.entries by rw [RangeT.chunk, hl]] at hp
    exact ⟨vec, rfl, (hr' h vec hl).1, hp.accepts_iff hse⟩

end Chunk

/-! ## The insert -/

section Insert

theorem pieceEnd_last {n : U32} (hlast : 0xffff0000 ≤ end'.toNat) :
    pieceEnd end' n = lastPiece end' (n.toNat / 65536) := by
  have := end'.isLt
  have := n.isLt
  rw [toNat_pieceEnd, lastPiece]
  split_ifs <;> omega

theorem rangeInsertStep_last {n : U32} (hlast : 0xffff0000 ≤ end'.toNat) (hn : n.toNat % 65536 = 0) (start ip : U32)
    (r : RangeT) (a : Allocs) :
    ∃ ret r₁ a₁, rangeInsertChunk ip 0 (lastPiece end' (n.toNat / 65536)) r (n.toNat / 65536) a = (ret, r₁, a₁) ∧
      rangeInsertStep start end' ip (n, r, a) =
        if ret < 0 then .done (-1, r₁) else .again ((n + 0x10000#32) &&& 0xffff0000#32, r₁, a₁) := by
  have hlt := n.isLt
  have hle : n ≤ end' := by
    rw [BitVec.le_def]
    omega
  obtain ⟨ret, r₁, a₁, hchunk, hstep⟩ := rangeInsertStep_cases start ip hle r a
  rw [toNat_pieceStart (Or.inr hn), hn, pieceEnd_last hlast] at hchunk
  exact ⟨ret, r₁, a₁, hchunk, hstep⟩

theorem lastPiece_lt (end' : U32) (h : Nat) : lastPiece end' h < 2 ^ 16 := by
  unfold lastPiece
  split_ifs <;> omega

/-- An endless insert goes on for ever while there is memory. -/
theorem rangeInsert_endless (hr : r.Sound) (h : Endless r start end') (ip : U32) (ha : Willing a) (fuel : Nat) :
    rangeInsert fuel r start end' ip a = none := by
  obtain ⟨hle, hlast, haligned, hacc⟩ := h
  unfold rangeInsert
  rw [if_neg (BitVec.not_lt.mpr hle)]
  refine run_eq_none (fun s => s.1.toNat % 65536 = 0 ∧ s.2.1.Sound ∧ Willing s.2.2 ∧
    ∀ h vec, h ≤ 0xffff → s.2.1.low h = some vec → vec.Accepts (lastPiece end' h)) ?_ fuel ⟨haligned, hr, ha, hacc⟩
  rintro ⟨n, r, a⟩ ⟨hn, hr, ha, hacc⟩
  have hn : n.toNat % 65536 = 0 := hn
  have hlt := n.isLt
  obtain ⟨ret, r', a', hchunk, hstep⟩ := rangeInsertStep_last hlast hn start ip r a
  obtain ⟨hret, ha'⟩ := rangeInsertChunk_takes hr (fun vec => hacc (n.toNat / 65536) vec (by omega)) ip ha
  rw [hchunk] at hret ha'
  refine ⟨_, hstep.trans (if_neg hret), by simp only [toNat_nextHigh]; omega,
    (rangeInsertChunk_ok hr (lastPiece_lt ..) (Nat.zero_le _) hchunk hret).1, ha', fun k vec hk hl => ?_⟩
  by_cases hkn : k = n.toNat / 65536
  · obtain ⟨vec', hl', -, hiff⟩ := rangeInsertChunk_found hr (lastPiece_lt ..) (Nat.zero_le _) hchunk hret
    rw [hkn] at hl ⊢
    cases hl'.symm.trans hl
    exact hiff.mpr rfl
  · exact hacc k vec hk ((rangeInsertChunk_low hchunk hkn).symm.trans hl)

/-- An insert into the last chunk of the table ends in the first chunk that refuses its piece. -/
theorem rangeInsert_refused (hlast : 0xffff0000 ≤ end'.toNat) {k : Nat} (hk : k ≤ 0xffff) {vec : VectorT RangeLowT}
    (hf : vec.Fits) (hno : ¬ vec.Accepts (lastPiece end' k)) : ∀ (d : Nat) (n : U32) (r : RangeT) (a : Allocs),
    n.toNat % 65536 = 0 → r.low k = some vec → (k + 65536 - n.toNat / 65536) % 65536 = d →
    ∃ r', run (rangeInsertStep start end' ip) (d + 1) (n, r, a) = some (-1, r') := by
  intro d
  induction d with
  | zero =>
    intro n r a hn hl hd
    have hlt := n.isLt
    obtain rfl : k = n.toNat / 65536 := by omega
    obtain ⟨ret, r₁, a₁, hchunk, hstep⟩ := rangeInsertStep_last hlast hn start ip r a
    have hret := rangeInsertChunk_refuses hf hl hno ip a
    rw [hchunk] at hret
    exact ⟨_, run_done (hstep.trans (if_pos hret)) 0⟩
  | succ d ih =>
    intro n r a hn hl hd
    have hlt := n.isLt
    obtain ⟨ret, r₁, a₁, hchunk, hstep⟩ := rangeInsertStep_last hlast hn start ip r a
    by_cases hret : ret < 0
    · exact ⟨_, run_done (hstep.trans (if_pos hret)) _⟩
    · rw [run_again (hstep.trans (if_neg hret))]
      have hnext := toNat_nextHigh n
      exact ih _ _ _ (by omega) ((rangeInsertChunk_low hchunk (by omega)).trans hl) (by omega)

/-- An insert that is not endless returns; into the last chunk of the table, with an error. -/
theorem rangeInsert_returns_last (hr : r.Sound) (hlast : 0xffff0000 ≤ end'.toNat) (hle : start ≤ end')
    (h : ¬ Endless r start end') (ip : U32) (a : Allocs) :
    ∃ fuel r', run (rangeInsertStep start end' ip) fuel (start, r, a) = some (-1, r') := by
  have hle' : start.toNat ≤ end'.toNat := hle
  have hlt := start.isLt
  have hlt' := end'.isLt
  by_cases haligned : start.toNat % 65536 = 0
  · obtain ⟨k, vec, hk, hl, hno⟩ : ∃ k vec, k ≤ 0xffff ∧ r.low k = some vec ∧ ¬ vec.Accepts (lastPiece end' k) := by
      by_contra hall
      push Not at hall
      exact h ⟨hle, hlast, haligned, hall⟩
    obtain ⟨r', hrun⟩ := @rangeInsert_refused start end' ip hlast k hk vec (hr k vec hl).1 hno _ start r a
      haligned hl rfl
    exact ⟨_, r', hrun⟩
  · obtain ⟨ret, r₁, a₁, hchunk, hstep⟩ := rangeInsertStep_cases start ip hle r a
    by_cases hret : ret < 0
    · exact ⟨1, r₁, run_done (hstep.trans (if_pos hret)) 0⟩
    · have hnext := toNat_nextHigh start
      rw [toNat_pieceStart (Or.inl rfl), pieceEnd_last hlast] at hchunk
      obtain ⟨vec, hl, hf, hiff⟩ := rangeInsertChunk_found hr (lastPiece_lt ..)
        (by unfold lastPiece; split_ifs <;> omega) hchunk hret
      have hk : start.toNat / 65536 ≤ 0xffff := by omega
      obtain ⟨r', hrun⟩ := @rangeInsert_refused start end' ip hlast _ hk vec hf
        (fun hacc => haligned (hiff.mp hacc)) _ ((start + 0x10000#32) &&& 0xffff0000#32) r₁ a₁ (by omega) hl rfl
      exact ⟨_, r', (run_again (hstep.trans (if_neg hret)) _).trans hrun⟩

/-- An insert that ends before the last chunk of the table returns, and if it returns 0 it has processed
its chunks one after the other. -/
theorem rangeInsert_visits (hend : end'.toNat < 0xffff0000) (start ip : U32) : ∀ (k : Nat) (n : U32) (r : RangeT)
    (a : Allocs), n ≤ end' ∨ n.toNat % 65536 = 0 → end'.toNat / 65536 + 1 - n.toNat / 65536 = k →
    ∃ ret r', run (rangeInsertStep start end' ip) (k + 1) (n, r, a) = some (ret, r') ∧
      (ret = 0 → visited end' (rounds (rangeInsertStep start end' ip) (k + 1) (n, r, a)) =
        List.range' (n.toNat / 65536) k) := by
  intro k
  induction k with
  | zero =>
    intro n r a hn hk
    have hgt : ¬ n ≤ end' := by
      rw [BitVec.le_def]
      omega
    have hdone : rangeInsertStep start end' ip (n, r, a) = .done (0, r) := by simp only [rangeInsertStep, if_neg hgt]
    exact ⟨0, r, run_done hdone 0, fun _ => visited_done hdone hgt 0⟩
  | succ k ih =>
    intro n r a hn hk
    have hle : n ≤ end' := by
      rcases hn with hn | hn
      · exact hn
      · rw [BitVec.le_def]
        omega
    obtain ⟨ret, r₁, a₁, -, hstep⟩ := rangeInsertStep_cases start ip hle r a
    by_cases hret : ret < 0
    · exact ⟨-1, r₁, run_done (hstep.trans (if_pos hret)) _, fun h => absurd h (by decide)⟩
    · have hagain := hstep.trans (if_neg hret)
      have hnext := toNat_nextHigh n
      rw [Nat.mod_eq_of_lt (by omega)] at hnext
      obtain ⟨ret', r', hrun, hvis⟩ := ih ((n + 0x10000#32) &&& 0xffff0000#32) r₁ a₁ (Or.inr (by omega)) (by omega)
      refine ⟨ret', r', (run_again hagain _).trans hrun, fun h0 => ?_⟩
      rw [visited_again hagain hle, hvis h0, hnext, List.range'_succ, Nat.mul_div_cancel _ (by decide)]

theorem insertVisits_iff (hr : r.Sound) (start end' ip : U32) :
    InsertVisits r start end' ip ↔ ¬ Endless r start end' := by
  constructor
  · intro h hendless
    obtain ⟨fuel, ret, r', hrun, -⟩ := h (Stream'.const true)
    rw [rangeInsert_endless hr hendless ip (a := Stream'.const true) fun _ => rfl] at hrun
    cases hrun
  · intro h a
    by_cases hlt : end' < start
    · exact ⟨0, -1, r, if_pos hlt, fun h0 => absurd h0 (by decide)⟩
    have hle : start ≤ end' := BitVec.not_lt.mp hlt
    unfold rangeInsert rangeInsertChunks
    simp only [if_neg hlt]
    by_cases hend : end'.toNat < 0xffff0000
    · obtain ⟨ret, r', hrun, hvis⟩ := rangeInsert_visits hend start ip _ start r a (Or.inl hle) rfl
      refine ⟨_, ret, r', hrun, fun h0 => ?_⟩
      rw [hvis h0, onceEach_range']
      have : start.toNat ≤ end'.toNat := hle
      intro k
      omega
    · obtain ⟨fuel, r', hrun⟩ := rangeInsert_returns_last hr (Nat.le_of_not_lt hend) hle h ip a
      exact ⟨fuel, -1, r', hrun, fun h0 => absurd h0 (by decide)⟩

end Insert

/-- **The chunk loops** terminate and process each chunk of their range once, exactly if the insert is not
endless, and the delete either has no chunks or reaches its last one, which is not the last of the table. -/
theorem chunkLoops_iff (hr : r.Sound) (start end' ip : U32) :
    (InsertVisits r start end' ip ∧ DeleteVisits r start end') ↔
      ¬ Endless r start end' ∧ (end'.toNat / 65536 < start.toNat / 65536 ∨
        (start.toNat % 65536 ≤ end'.toNat % 65536 ∧ end'.toNat < 0xffff0000)) :=
  and_congr (insertVisits_iff hr start end' ip) (deleteVisits_iff r start end')

/-- A table without entries. -/
def RangeT.empty : RangeT := ⟨fun _ => none, invalidIpAddr⟩

theorem RangeT.empty_sound : RangeT.empty.Sound := fun _ _ h => nomatch h

/-- Two chunks of a new table, the second as far as the first begins. -/
theorem chunkLoops_iff_two : InsertVisits .empty 0x00000005 0x00010009 1 ∧ DeleteVisits .empty 0x00000005 0x00010009 :=
  (chunkLoops_iff RangeT.empty_sound 0x00000005 0x00010009 1).mpr
    ⟨fun h => absurd h.2.1 (by decide), Or.inr (by decide)⟩

/-- An insert of the last chunk of a new table does not return; a delete from the last key of one chunk
to the first of the next does not reach the next. -/
theorem not_chunkLoops : (∀ fuel, rangeInsert fuel .empty 0xffff0000 0xffffffff 1 (Stream'.const true) = none) ∧
    ¬ InsertVisits .empty 0xffff0000 0xffffffff 1 ∧ ¬ DeleteVisits .empty 0x0000ffff 0x00010000 := by
  have hendless : Endless .empty 0xffff0000 0xffffffff :=
    ⟨by decide, by decide, by decide, fun _ _ _ h => nomatch h⟩
  refine ⟨fun fuel => rangeInsert_endless RangeT.empty_sound hendless 1 (fun _ => rfl) fuel, ?_, ?_⟩
  · rw [insertVisits_iff RangeT.empty_sound]
    exact not_not.mpr hendless
  · rw [deleteVisits_iff]
    decide

end Fnsproxy
