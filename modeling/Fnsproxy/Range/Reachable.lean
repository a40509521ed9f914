import Fnsproxy.Range.Delete

/-!
# Calls of range.c that fail

* `pushesFor`, `placeholders`, `piecePushes` : the entries a piece needs in its chunk, and how far the
  allocations of a call get with them;
* `rangeInsertChunk_pushes` : **what a round leaves in its chunk**, whether it fails or not;
* `Reachable`, `Reachable.sound` : the tables that calls of range.c make, whatever they return.
-/

namespace Fnsproxy
open Word WhileLoop

/-! ## The pushes of a piece -/

/-- The placeholders that the piece `[s, e]` needs among the entries `xs`, `none` where it meets an entry
without lying in it: one, unless the last entry that starts at or before `e` holds all of it. -/
def pushesFor (s e : Nat) (xs : List RangeLowT) : Option Nat :=
  match xs.reverse.find? (fun x => x.start ≤ e) with
  | none => some 1
  | some x =>
    if x.end' < s then some 1
    else if x.start ≤ s ∧ e ≤ x.end' then
      some ((if x.start < s then 1 else 0) + if e < x.end' then 1 else 0)
    else none

/-- `k` pushes: the allocations left, or the number of pushes before the one that fails. -/
def placeholders : Nat → VectorT RangeLowT → Allocs → Except Nat Allocs
  | 0, _, a => .ok a
  | k + 1, vec, a =>
    match vectorPush vec invalidRange a with
    | (ret, vec, a) => if ret < 0 then .error 0 else (placeholders k vec a).mapError (· + 1)

/-- What a piece comes to in a chunk: the allocations left when it is taken, or the placeholders left
behind when it is not. -/
def piecePushes (s e : Nat) (low : Option (VectorT RangeLowT)) (a : Allocs) : Except Nat Allocs :=
  match low with
  | some vec =>
    match pushesFor s e vec.entries with
    | some k => placeholders k vec a
    | none => .error 0
  | none =>
    match vectorNew rangeInitNum sizeofRangeLow a with
    | (some vec, a) => placeholders 1 vec a
    | (none, _) => .error 0

section Search
variable {vec : VectorT RangeLowT} {s e : Nat}

theorem pushesFor_first {xs : List RangeLowT} (h : ∀ x ∈ xs, e < x.start) : pushesFor s e xs = some 1 := by
  have hnone : xs.reverse.find? (fun x => x.start ≤ e) = none := by
    simpa [List.find?_eq_none] using h
  rw [pushesFor, hnone]

theorem pushesFor_stop {A B : List RangeLowT} {x : RangeLowT} (hx : x.start ≤ e) (hB : ∀ y ∈ B, e < y.start) :
    pushesFor s e (A ++ x :: B) =
      if x.end' < s then some 1
      else if x.start ≤ s ∧ e ≤ x.end' then some ((if x.start < s then 1 else 0) + if e < x.end' then 1 else 0)
      else none := by
  have hfind : (A ++ x :: B).reverse.find? (fun x => x.start ≤ e) = some x := by
    have hnone : B.reverse.find? (fun x => x.start ≤ e) = none := by
      simpa [List.find?_eq_none] using hB
    rw [List.reverse_append, List.reverse_cons, List.append_assoc, List.find?_append, hnone]
    simp [hx]
  rw [pushesFor, hfind]

/-- How a search ends whose pushes come to `p`. -/
inductive SearchPushed (vec : VectorT RangeLowT) :
    Except Nat Allocs → Int × VectorT RangeLowT × Allocs → Prop where
  | taken (vec' : VectorT RangeLowT) (a : Allocs) : SearchPushed vec (.ok a) (0, vec', a)
  | refused (j : Nat) (vec' : VectorT RangeLowT) (a : Allocs) (hf : vec'.Fits)
      (he : vec'.entries = vec.entries ++ List.replicate j invalidRange) : SearchPushed vec (.error j) (-1, vec', a)

theorem SearchPushed.same (h : vec.Fits) (a : Allocs) : SearchPushed vec (.error 0) (-1, vec, a) :=
  .refused 0 vec a h (by simp)

theorem searchPushed_one (h : vec.Fits) (x : RangeLowT) {a : Allocs} {res : Int × VectorT RangeLowT × Allocs}
    (hfail : (vectorPush vec x a).1 < 0 → res = (-1, (vectorPush vec x a).2))
    (hok : ¬ (vectorPush vec x a).1 < 0 → ∃ vec', res = (0, vec', (vectorPush vec x a).2.2)) :
    SearchPushed vec (placeholders 1 vec a) res := by
  obtain ⟨hret, ha⟩ := vectorPush_value vec x invalidRange a
  rw [placeholders]
  rcases vectorPush_spec h x a with ⟨a', hp⟩ | ⟨vec', a', hp, -⟩ <;> rw [hp] at hret ha hfail hok <;>
    simp only [← hret, ← ha]
  · rw [hfail (show (-1 : Int) < 0 by decide)]
    exact .same h a'
  · obtain ⟨vec'', rfl⟩ := hok (Int.lt_irrefl 0)
    exact .taken vec'' a'

theorem searchPushed_two (h : vec.Fits) {a : Allocs} {ret₁ ret₂ : Int} {vec₁ vec₂ : VectorT RangeLowT} {a₁ a₂ : Allocs}
    (h₁ : vectorPush vec invalidRange a = (ret₁, vec₁, a₁)) (h₂ : vectorPush vec₁ invalidRange a₁ = (ret₂, vec₂, a₂))
    {res : Int × VectorT RangeLowT × Allocs} (hfail₁ : ret₁ < 0 → res = (-1, vec₁, a₁))
    (hfail₂ : ¬ ret₁ < 0 → ret₂ < 0 → res = (-1, vec₂, a₂))
    (hok : ¬ ret₁ < 0 → ¬ ret₂ < 0 → ∃ vec', res = (0, vec', a₂)) :
    SearchPushed vec (placeholders 2 vec a) res := by
  rw [placeholders, h₁]
  rcases vectorPush_spec h invalidRange a with ⟨a', hp⟩ | ⟨vec', a', hp, hf, he⟩
  · cases h₁.symm.trans hp
    rw [hfail₁ (by decide)]
    exact .same h a₁
  · cases h₁.symm.trans hp
    simp only [placeholders, h₂]
    rcases vectorPush_spec hf invalidRange a₁ with ⟨a'', hp'⟩ | ⟨vec'', a'', hp', -⟩
    · cases h₂.symm.trans hp'
      rw [hfail₂ (Int.lt_irrefl 0) (by decide)]
      exact .refused 1 vec₁ a₂ hf he
    · cases h₂.symm.trans hp'
      obtain ⟨vec', rfl⟩ := hok (Int.lt_irrefl 0) (Int.lt_irrefl 0)
      exact .taken vec' a₂

/-- **The pushes of a search** decide how it ends. -/
theorem rangeInsertSearch_pushes (hf : vec.Fits) (ip : U32) (a : Allocs) :
    SearchPushed vec (piecePushes s e (some vec) a) (rangeInsertSearch ip s e vec a vec.count) := by
  refine rangeInsertSearch_rule hf a (fun hall => ?_) fun i A B x hi hent hx hB => ?_
  · simp only [piecePushes, pushesFor_first hall]
    exact searchPushed_one hf ⟨ip, s, e⟩ (fun h => if_pos h) (fun h => ⟨_, if_neg h⟩)
  · rw [rangeInsertSearch, hf.getD hent hi]
    simp only [piecePushes, hent, pushesFor_stop hx hB, if_neg (Nat.not_lt.mpr hx)]
    by_cases hbehind : x.end' < s
    · simp only [if_pos hbehind]
      exact searchPushed_one hf invalidRange (fun h => if_pos h) (fun h => ⟨_, if_neg h⟩)
    simp only [if_neg hbehind]
    by_cases hsame : s = x.start ∧ e = x.end'
    · simp only [if_pos hsame, if_pos (⟨hsame.1.ge, hsame.2.le⟩ : x.start ≤ s ∧ e ≤ x.end'), if_neg hsame.1.not_gt,
        if_neg hsame.2.not_lt]
      exact .taken _ a
    simp only [if_neg hsame]
    by_cases hsplit : x.start < s ∧ e < x.end'
    · simp only [if_pos hsplit, if_pos (⟨hsplit.1.le, hsplit.2.le⟩ : x.start ≤ s ∧ e ≤ x.end'), if_pos hsplit.1,
        if_pos hsplit.2]
      exact searchPushed_two hf rfl rfl (fun h => if_pos h) (fun h h' => (if_neg h).trans (if_pos h'))
        (fun h h' => ⟨_, (if_neg h).trans (if_neg h')⟩)
    simp only [if_neg hsplit]
    by_cases hstart : s = x.start ∧ e < x.end'
    · simp only [if_pos hstart, if_pos (⟨hstart.1.ge, hstart.2.le⟩ : x.start ≤ s ∧ e ≤ x.end'),
        if_neg hstart.1.not_gt, if_pos hstart.2]
      exact searchPushed_one hf invalidRange (fun h => if_pos h) (fun h => ⟨_, if_neg h⟩)
    simp only [if_neg hstart]
    by_cases hend : x.start < s ∧ e = x.end'
    · simp only [if_pos hend, if_pos (⟨hend.1.le, hend.2.le⟩ : x.start ≤ s ∧ e ≤ x.end'), if_pos hend.1,
        if_neg hend.2.not_lt]
      exact searchPushed_one hf invalidRange (fun h => if_pos h) (fun h => ⟨_, if_neg h⟩)
    simp only [if_neg hend, if_neg (show ¬ (x.start ≤ s ∧ e ≤ x.end') by omega)]
    exact .same hf a

end Search

/-! ## One chunk -/

/-- **A round of the insert** in chunk `h`: the piece is taken with the pushes it needs, or it is refused
and the placeholders that were pushed stay. -/
theorem rangeInsertChunk_pushes {r r' : RangeT} (hr : r.Sound) {s e h : Nat} (he16 : e < 2 ^ 16) (hse : s ≤ e)
    {ip : U32} {a a' : Allocs} {ret : Int} (hrun : rangeInsertChunk ip s e r h a = (ret, r', a')) :
    r'.Sound ∧ r'.defIp = r.defIp ∧
      ((¬ ret < 0 ∧ piecePushes s e (r.low h) a = .ok a' ∧ Placed ip s e (r.chunk h) (r'.chunk h)) ∨
        ∃ j, ret < 0 ∧ piecePushes s e (r.low h) a = .error j ∧
          r'.chunk h = r.chunk h ++ List.replicate j invalidRange) := by
  suffices h' : (¬ ret < 0 ∧ piecePushes s e (r.low h) a = .ok a') ∨
      ((r'.Sound ∧ r'.defIp = r.defIp) ∧ ∃ j, ret < 0 ∧ piecePushes s e (r.low h) a = .error j ∧
        r'.chunk h = r.chunk h ++ List.replicate j invalidRange) by
    rcases h' with ⟨hret, hp⟩ | ⟨⟨hr', hd⟩, hj⟩
    · obtain ⟨hr', hd, -, hplaced⟩ := rangeInsertChunk_ok hr he16 hse hrun hret
      exact ⟨hr', hd, Or.inl ⟨hret, hp, hplaced⟩⟩
    · exact ⟨hr', hd, Or.inr hj⟩
  have key : ∀ (vec : VectorT RangeLowT) (b : Allocs), vec.Fits → vec.entries = r.chunk h →
      ∀ {out : Int × VectorT RangeLowT × Allocs}, rangeInsertSearch ip s e vec b vec.count = out →
      (out.1, ({ r with low := Function.update r.low h (some out.2.1) } : RangeT), out.2.2) = (ret, r', a') →
      (¬ ret < 0 ∧ piecePushes s e (some vec) b = .ok a') ∨
      ((r'.Sound ∧ r'.defIp = r.defIp) ∧ ∃ j, ret < 0 ∧ piecePushes s e (some vec) b = .error j ∧
        r'.chunk h = r.chunk h ++ List.replicate j invalidRange) := by
    intro vec b hf hent out hsearch hm
    have hp := rangeInsertSearch_pushes (s := s) (e := e) hf ip b
    generalize piecePushes s e (some vec) b = p at hp ⊢
    rw [hsearch] at hp
    cases hp with
    | taken vec' a'' =>
      cases hm
      exact Or.inl ⟨Int.lt_irrefl 0, rfl⟩
    | refused j vec' a'' hf' he =>
      cases hm
      refine Or.inr ⟨⟨sound_update hr hf' ?_ h, rfl⟩, j, by simp, rfl, ?_⟩
      · rw [he, hent]
        intro x hx
        rcases List.mem_append.mp hx with hx | hx
        · exact hr.inChunk h x hx
        · rw [List.eq_of_mem_replicate hx]
          decide
      · rw [chunk_update, if_pos rfl, he, hent]
  unfold rangeInsertChunk at hrun
  cases hl : r.low h with
  | some vec =>
    simp only [hl] at hrun
    exact key vec a (hr h vec hl).1 (by simp [RangeT.chunk, hl]) rfl hrun
  | none =>
    simp only [hl] at hrun
    have hchunk : r.chunk h = [] := by simp [RangeT.chunk, hl]
    rcases @vectorNew_spec RangeLowT _ rangeInitNum sizeofRangeLow 7 (by decide) (by decide)
      (by decide) (by decide) a with ⟨b, hn⟩ | ⟨vec, b, hn, hf, hent⟩
    · rw [hn] at hrun
      cases hrun
      exact Or.inr ⟨⟨hr, rfl⟩, 0, by simp, by rw [piecePushes, hn], by simp⟩
    · rw [hn] at hrun
      have hnew := key vec b hf (hent.trans hchunk.symm) rfl hrun
      have hfirst : pushesFor s e [] = some 1 := pushesFor_first (by simp)
      have hp : piecePushes s e none a = piecePushes s e (some vec) b := by
        simp only [piecePushes, hn, hent, hfirst]
      rw [hp]
      exact hnew

/-! ## Reachable tables -/

section Loop
variable {start end' ip : U32}

/-- The loop variable stands at the start of the range or at that of a chunk: the piece is not empty. -/
theorem piece_le {n : U32} (hn : n = start ∨ n.toNat % 65536 = 0) (hle : n ≤ end') :
    pieceStart start n ≤ pieceEnd end' n := by
  rw [BitVec.le_def] at hle
  rw [toNat_pieceStart hn, toNat_pieceEnd]
  split_ifs <;> omega

theorem pieceEnd_lt (end' n : U32) : pieceEnd end' n < 2 ^ 16 := by
  rw [toNat_pieceEnd]
  split_ifs <;> omega

theorem rangeInsert_sound {fuel : Nat} {r r' : RangeT} {a : Allocs} {ret : Int} (hr : r.Sound)
    (h : rangeInsert fuel r start end' ip a = some (ret, r')) : r'.Sound := by
  unfold rangeInsert at h
  split_ifs at h with hlt
  · cases h
    exact hr
  refine WhileLoop.run_rule (fun s => (s.1 = start ∨ s.1.toNat % 65536 = 0) ∧ s.2.1.Sound) (fun res => res.2.Sound) ?_ ?_
    ⟨Or.inl rfl, hr⟩ h
  · rintro ⟨n, r, a⟩ t ⟨hn, hr⟩ hs
    by_cases hle : n ≤ end'
    · obtain ⟨ret, r₁, a₁, hchunk, hstep⟩ := rangeInsertStep_cases start ip hle r a
      rw [hstep] at hs
      split_ifs at hs
      cases hs
      exact ⟨Or.inr (by simp only [toNat_nextHigh]; omega), (rangeInsertChunk_pushes hr (pieceEnd_lt ..) (piece_le hn hle) hchunk).1⟩
    · simp only [rangeInsertStep, if_neg hle] at hs
      cases hs
  · rintro ⟨n, r, a⟩ res ⟨hn, hr⟩ hs
    by_cases hle : n ≤ end'
    · obtain ⟨ret, r₁, a₁, hchunk, hstep⟩ := rangeInsertStep_cases start ip hle r a
      rw [hstep] at hs
      split_ifs at hs
      cases hs
      exact (rangeInsertChunk_pushes hr (pieceEnd_lt ..) (piece_le hn hle) hchunk).1
    · simp only [rangeInsertStep, if_neg hle] at hs
      cases hs
      exact hr

theorem rangeDelete_sound {fuel : Nat} {r r' : RangeT} (hr : r.Sound) (h : rangeDelete fuel r start end' = some r') :
    r'.Sound := by
  refine WhileLoop.run_rule (fun s => s.2.Sound) (fun res => res.Sound) ?_ ?_ hr h
  · rintro ⟨n, r⟩ t hr hs
    by_cases hle : n ≤ end'
    · obtain ⟨r₁, hstep, hr₁, -⟩ := @rangeDeleteStep_chunk start end' n r hr hle _ _ rfl rfl
      obtain rfl := Next.again.inj (hstep.symm.trans hs)
      exact hr₁
    · simp only [rangeDeleteStep, if_neg hle] at hs
      cases hs
  · rintro ⟨n, r⟩ res hr hs
    by_cases hle : n ≤ end'
    · obtain ⟨r₁, hstep, -⟩ := @rangeDeleteStep_chunk start end' n r hr hle _ _ rfl rfl
      rw [hstep] at hs
      cases hs
    · simp only [rangeDeleteStep, if_neg hle] at hs
      cases hs
      exact hr

end Loop

/-- The tables that calls of range.c make, whether they fail or not. -/
inductive Reachable : RangeT → Prop where
  | create {r : RangeT} {a a' : Allocs} (h : rangeCreate a = (some r, a')) : Reachable r
  | setDef {r : RangeT} (h : Reachable r) (d : U32) : Reachable (rangeSetDef r d)
  | insert {r r' : RangeT} (h : Reachable r) {fuel : Nat} {start end' ip : U32} {a : Allocs} {ret : Int}
      (hrun : rangeInsert fuel r start end' ip a = some (ret, r')) : Reachable r'
  | delete {r r' : RangeT} (h : Reachable r) {fuel : Nat} {start end' : U32}
      (hrun : rangeDelete fuel r start end' = some r') : Reachable r'

theorem Reachable.empty : Reachable .empty := .create (a := Stream'.const true) rfl

/-- **Every vector of a reachable table** is in shape and keeps to its chunk. -/
theorem Reachable.sound {r : RangeT} (h : Reachable r) : r.Sound := by
  induction h with
  | create h => exact fun k vec hl => (rangeCreate_sound h 0).1 k vec hl
  | setDef _ d ih => exact fun k vec hl => ih k vec hl
  | insert _ hrun ih => exact rangeInsert_sound ih hrun
  | delete _ hrun ih => exact rangeDelete_sound ih hrun

end Fnsproxy
