import Fnsproxy.Range.Reachable

/-!
# What a failed insert leaves behind

* `QuietPiece`, `QuietLeft` : the pieces that change no answer when they are taken, and the placeholders
  that change none when they are left;
* `QuietFrom` : an insert that comes to nothing but such pieces before it fails;
* `Landed`, `run_landed` : a second time round the address space nothing changes;
* `rangeInsert_atomic_iff` : **an insert that returns -1 has changed no answer exactly if it is quiet**.
-/

namespace Fnsproxy
open Word WhileLoop

/-- Taken among the entries `xs`, the piece `[s, e]` changes no answer: an earlier entry goes on answering,
or the answer is the address of the piece already. -/
def QuietPiece (ip d : U32) (s e : Nat) (xs : List RangeLowT) : Prop :=
  ∀ n, s ≤ n → n ≤ e → maskedBy e n xs ≠ none ∨ (answer xs n).getD d = ip

/-- `j` placeholders behind `xs` change no answer. -/
def QuietLeft (d : U32) (j : Nat) (xs : List RangeLowT) : Prop :=
  0 < j → answer xs 0 ≠ none ∨ d = invalidIpAddr

/-- The `k` chunks from `h` on, and on from chunk 0 behind the last: with the allocations `a` every piece
that is taken before one is refused changes no answer, and nor does what the refused one leaves. -/
def QuietFrom (r : RangeT) (start end' ip : U32) : Nat → Nat → Allocs → Prop
  | 0, _, _ => True
  | k + 1, h, a =>
    match piecePushes (pieceIn start end' h).1 (pieceIn start end' h).2 (r.low h) a with
    | .ok a => QuietPiece ip r.defIp (pieceIn start end' h).1 (pieceIn start end' h).2 (r.chunk h) ∧
        QuietFrom r start end' ip k ((h + 1) % 65536) a
    | .error j => QuietLeft r.defIp j (r.chunk h)

/-- The chunks that an insert comes to before it is through or back at its first: all of the table when
its range reaches into the last. -/
def chunkCount (start end' : U32) : Nat :=
  if end' < start then 0
  else if end'.toNat < 0xffff0000 then end'.toNat / 65536 + 1 - start.toNat / 65536
  else 65536

/-! ## Answers in one chunk -/

section Answer
variable {ip d : U32} {s e n : Nat} {xs ys : List RangeLowT}

theorem answer_of_maskedBy {i : U32} (h : maskedBy e n xs = some i) : answer xs n = some i := by
  induction xs with
  | nil => cases h
  | cons x xs ih =>
    rw [maskedBy] at h
    split_ifs at h with hx
    · rw [answer_cons_of_covers hx]
      exact h
    · rw [answer_cons_of_not_covers hx]
      exact ih h

theorem placed_quiet_iff (h : Placed ip s e xs ys) (hse : s ≤ e) (he16 : e < 65536) :
    (∀ n < 65536, (answer ys n).getD d = (answer xs n).getD d) ↔ QuietPiece ip d s e xs := by
  have hinside : ∀ n, s ≤ n → n ≤ e →
      ((answer ys n).getD d = (answer xs n).getD d ↔ maskedBy e n xs ≠ none ∨ (answer xs n).getD d = ip) := by
    intro n h1 h2
    rw [answer_placed_inside h h1 h2, Option.getD_some]
    cases hm : maskedBy e n xs with
    | none => simp [eq_comm]
    | some i => simp [answer_of_maskedBy hm]
  constructor
  · exact fun hall n h1 h2 => (hinside n h1 h2).mp (hall n (by omega))
  · intro hquiet n _
    by_cases hn : s ≤ n ∧ n ≤ e
    · exact (hinside n hn.1 hn.2).mpr (hquiet n hn.1 hn.2)
    · rw [answer_placed_outside h hn hse]

theorem answer_placeholders (j n : Nat) :
    answer (List.replicate j invalidRange) n = if 0 < j ∧ n = 0 then some invalidIpAddr else none := by
  have hcovers : invalidRange.Covers n ↔ n = 0 := ⟨fun h => Nat.le_zero.mp h.2, fun h => ⟨Nat.zero_le _, h.le⟩⟩
  induction j with
  | zero => rfl
  | succ j ih =>
    rw [List.replicate_succ]
    by_cases hn : n = 0
    · rw [answer_cons_of_covers (hcovers.mpr hn), if_pos ⟨Nat.succ_pos j, hn⟩]
      rfl
    · rw [answer_cons_of_not_covers (mt hcovers.mp hn), ih, if_neg (fun h => hn h.2), if_neg (fun h => hn h.2)]

theorem left_quiet_iff (d : U32) (j : Nat) (xs : List RangeLowT) :
    (∀ n < 65536, (answer (xs ++ List.replicate j invalidRange) n).getD d = (answer xs n).getD d) ↔ QuietLeft d j xs := by
  have hiff : ∀ n, ((answer (xs ++ List.replicate j invalidRange) n).getD d = (answer xs n).getD d ↔
      (0 < j ∧ n = 0 → answer xs n ≠ none ∨ d = invalidIpAddr)) := by
    intro n
    rw [answer_append, answer_placeholders]
    cases answer xs n with
    | some i => simp
    | none => split_ifs with h <;> simp [h, eq_comm]
  simp only [hiff, QuietLeft]
  constructor
  · exact fun h hj => h 0 (by decide) ⟨hj, rfl⟩
  · rintro h n - ⟨hj, rfl⟩
    exact h hj

end Answer

/-! ## Round the address space -/

/-- The entries hold a piece `[.., e]` with the address `ip`, and no entry behind it starts in it. -/
def Landed (ip : U32) (e : Nat) (xs : List RangeLowT) : Prop :=
  ∃ s A B, xs = A ++ ⟨ip, s, e⟩ :: B ∧ s ≤ e ∧ ∀ y ∈ B, e < y.start

section Landed
variable {ip : U32} {s e : Nat} {xs ys : List RangeLowT}

theorem Placed.landed (h : Placed ip s e xs ys) (hse : s ≤ e) : Landed ip e ys := by
  obtain ⟨A, B, hys, hB⟩ := h.exists_new
  exact ⟨s, A, B, hys, hse, hB⟩

theorem Placed.again (h : Placed ip 0 e xs ys) (hl : Landed ip e xs) : ys = xs := by
  obtain ⟨s, A, B, hxs, hs, hB⟩ := hl
  cases h with
  | first _ hlt =>
    have := hlt ⟨ip, s, e⟩ (by rw [hxs]; simp)
    exact absurd hs (Nat.not_le.mpr this)
  | behind A' B' x hx hB' h0 => exact absurd h0 (Nat.not_lt_zero _)
  | nested A' B' x hx hB' h0 he =>
    obtain ⟨rfl, rfl, rfl⟩ := last_unique (p := fun y => y.start ≤ e) hxs hx hs
      (fun y hy => Nat.not_le.mpr (hB' y hy)) (fun y hy => Nat.not_le.mpr (hB y hy))
    obtain rfl := Nat.le_zero.mp h0
    simp [carve]

theorem Landed.pushes {vec : VectorT RangeLowT} (hl : Landed ip e vec.entries) {a : Allocs} {j : Nat}
    (hp : piecePushes 0 e (some vec) a = .error j) : j = 0 := by
  obtain ⟨s, A, B, hxs, hs, hB⟩ := hl
  rw [piecePushes, hxs, pushesFor_stop hs hB] at hp
  simp only [Nat.not_lt_zero, if_false, le_refl, and_true, lt_irrefl, add_zero] at hp
  split_ifs at hp
  · cases hp
  · cases hp
    rfl

theorem low_of_landed {r : RangeT} {h : Nat} (hl : Landed ip e (r.chunk h)) :
    ∃ vec, r.low h = some vec ∧ r.chunk h = vec.entries := by
  unfold RangeT.chunk at hl ⊢
  cases hlow : r.low h with
  | some vec => exact ⟨vec, rfl, rfl⟩
  | none =>
    rw [hlow] at hl
    obtain ⟨s, A, B, hnil, -⟩ := hl
    simp at hnil

variable {start end' : U32}

/-- An insert that has put its piece into every chunk of the table changes nothing any more. -/
theorem run_landed (hlast : 0xffff0000 ≤ end'.toNat) {r : RangeT}
    (hland : ∀ h, h ≤ 0xffff → Landed ip (lastPiece end' h) (r.chunk h)) (hr : r.Sound) {n : U32}
    (hn : n.toNat % 65536 = 0) {fuel : Nat} {a : Allocs} {res : Int × RangeT}
    (hrun : run (rangeInsertStep start end' ip) fuel (n, r, a) = some res) :
    res.2.defIp = r.defIp ∧ ∀ k, res.2.chunk k = r.chunk k := by
  have hround : ∀ (n : U32) (r₁ : RangeT) (a : Allocs), n.toNat % 65536 = 0 → r₁.Sound →
      (r₁.defIp = r.defIp ∧ ∀ k, r₁.chunk k = r.chunk k) →
      ∃ (r₂ : RangeT) (a₂ : Allocs), (r₂.Sound ∧ r₂.defIp = r.defIp ∧ ∀ k, r₂.chunk k = r.chunk k) ∧
        (rangeInsertStep start end' ip (n, r₁, a) = .done (-1, r₂) ∨
          rangeInsertStep start end' ip (n, r₁, a) = .again ((n + 0x10000#32) &&& 0xffff0000#32, r₂, a₂)) := by
    intro n r₁ a hn hr₁ ⟨hd, hsame⟩
    have hlt := n.isLt
    obtain ⟨ret, r₂, a₂, hchunk, hstep⟩ := rangeInsertStep_last hlast hn start ip r₁ a
    have hl := hland (n.toNat / 65536) (by omega)
    rw [← hsame] at hl
    have hother : ∀ k, k ≠ n.toNat / 65536 → r₂.chunk k = r₁.chunk k := by
      intro k hk
      rw [RangeT.chunk, RangeT.chunk, rangeInsertChunk_low hchunk hk]
    obtain ⟨hr₂, hd₂, hcase⟩ := rangeInsertChunk_pushes hr₁ (lastPiece_lt ..) (Nat.zero_le _) hchunk
    have hhere : r₂.chunk (n.toNat / 65536) = r₁.chunk (n.toNat / 65536) := by
      rcases hcase with ⟨-, -, hp⟩ | ⟨j, -, hp, hj⟩
      · exact hp.again hl
      · obtain ⟨vec, hlow, hent⟩ := low_of_landed hl
        rw [hlow] at hp
        obtain rfl := Landed.pushes (hent ▸ hl) hp
        simpa using hj
    refine ⟨r₂, a₂, ⟨hr₂, hd₂.trans hd, fun k => ?_⟩, ?_⟩
    · by_cases hk : k = n.toNat / 65536
      · rw [hk, hhere, hsame]
      · rw [hother k hk, hsame]
    · by_cases hret : ret < 0
      · exact Or.inl (hstep.trans (if_pos hret))
      · exact Or.inr (hstep.trans (if_neg hret))
  refine WhileLoop.run_rule (fun s => s.1.toNat % 65536 = 0 ∧ s.2.1.Sound ∧ s.2.1.defIp = r.defIp ∧ ∀ k, s.2.1.chunk k = r.chunk k)
    (fun res => res.2.defIp = r.defIp ∧ ∀ k, res.2.chunk k = r.chunk k) ?_ ?_ ⟨hn, hr, rfl, fun _ => rfl⟩ hrun
  · rintro ⟨n, r₁, a⟩ t ⟨hn, hr₁, hI⟩ hs
    obtain ⟨r₂, a₂, hI₂, hdone | hagain⟩ := hround n r₁ a hn hr₁ hI
    · rw [hdone] at hs
      cases hs
    · obtain rfl := Next.again.inj (hagain.symm.trans hs)
      exact ⟨by simp only [toNat_nextHigh]; omega, hI₂⟩
  · rintro ⟨n, r₁, a⟩ res ⟨hn, hr₁, hI⟩ hs
    obtain ⟨r₂, a₂, hI₂, hdone | hagain⟩ := hround n r₁ a hn hr₁ hI
    · obtain rfl := Next.done.inj (hdone.symm.trans hs)
      exact hI₂.2
    · rw [hagain] at hs
      cases hs

end Landed

/-! ## The rounds -/

section Run
variable {start end' ip : U32} {r : RangeT}

theorem chunkCount_of_le (hle : start ≤ end') : chunkCount start end' =
    if end'.toNat < 0xffff0000 then end'.toNat / 65536 + 1 - start.toNat / 65536 else 65536 :=
  if_neg (BitVec.not_lt.mpr hle)

/-- Chunk `x` is one of the `k` chunks from `h` on. -/
def Ahead (k h x : Nat) : Prop := (x + 65536 - h) % 65536 < k

/-- Where the loop stands with `k` chunks to come. -/
def Stands (start end' : U32) (k : Nat) (n : U32) : Prop :=
  (k = chunkCount start end' ∧ n = start) ∨
    (k < chunkCount start end' ∧ n.toNat % 65536 = 0 ∧
      n.toNat / 65536 = (start.toNat / 65536 + (chunkCount start end' - k)) % 65536)

theorem Stands.piece (hle : start ≤ end') {k : Nat} {n : U32} (h : Stands start end' (k + 1) n) :
    n ≤ end' ∧ pieceStart start n = (pieceIn start end' (n.toNat / 65536)).1 ∧
      pieceEnd end' n = (pieceIn start end' (n.toNat / 65536)).2 ∧
      Stands start end' k ((n + 0x10000#32) &&& 0xffff0000#32) := by
  have hm := chunkCount_of_le hle
  have hle' : start.toNat ≤ end'.toNat := hle
  have hlt := n.isLt
  have hlt' := end'.isLt
  have hn : n ≤ end' := by
    rcases h with ⟨-, rfl⟩ | ⟨hk, hal, hpos⟩
    · exact hle
    · rw [BitVec.le_def]
      split_ifs at hm <;> omega
  refine ⟨hn, ?_, pieceEnd_in start end' (Nat.div_le_div_right hn), Or.inr ?_⟩
  · rcases h with ⟨-, rfl⟩ | ⟨hk, hal, hpos⟩
    · rw [toNat_pieceStart (Or.inl rfl), pieceIn, if_pos rfl]
    · rw [toNat_pieceStart (Or.inr hal), pieceIn, if_neg (by split_ifs at hm <;> omega), hal]
  · rw [toNat_nextHigh]
    rcases h with ⟨hk, rfl⟩ | ⟨hk, hal, hpos⟩ <;> refine ⟨by omega, by omega, ?_⟩ <;> split_ifs at hm <;> omega

/-- The answers in a chunk are the same in both tables. -/
def SameAnswers (r r' : RangeT) (x : Nat) : Prop :=
  ∀ n < 65536, (answer (r'.chunk x) n).getD r'.defIp = (answer (r.chunk x) n).getD r.defIp

theorem sameAnswers_iff (r r' : RangeT) :
    (∀ key, rangeGet r' key = rangeGet r key) ↔ ∀ x < 65536, SameAnswers r r' x := by
  constructor
  · intro h x hx n hn
    have hkey : (BitVec.ofNat 32 (x * 65536 + n)).toNat = x * 65536 + n := by
      rw [BitVec.toNat_ofNat]
      omega
    have := h (BitVec.ofNat 32 (x * 65536 + n))
    rwa [rangeGet_eq, rangeGet_eq, hkey, show (x * 65536 + n) / 65536 = x by omega,
      show (x * 65536 + n) % 65536 = n by omega] at this
  · intro h key
    rw [rangeGet_eq, rangeGet_eq]
    have := key.isLt
    exact h _ (by omega) _ (by omega)

/-- The loop has come to the chunk of `n` with `k` chunks to come, and those are as they were in `r`. -/
structure ComesTo (start end' ip : U32) (r : RangeT) (k : Nat) (n : U32) (r₁ : RangeT) : Prop where
  stands : Stands start end' k n
  sound : r₁.Sound
  defIp : r₁.defIp = r.defIp
  low : ∀ x < 65536, Ahead k (n.toNat / 65536) x → r₁.low x = r.low x
  landed : 0xffff0000 ≤ end'.toNat → ∀ x < 65536, ¬ Ahead k (n.toNat / 65536) x →
    Landed ip (lastPiece end' x) (r₁.chunk x)

theorem lastPiece_eq (hlast : 0xffff0000 ≤ end'.toNat) (x : Nat) : lastPiece end' x = (pieceIn start end' x).2 := by
  have := end'.isLt
  rw [lastPiece, pieceIn, show end'.toNat / 65536 = 65535 by omega]

/-- A round that takes its piece comes to the next chunk. -/
theorem ComesTo.next (hle : start ≤ end') {k : Nat} (hk : k < 65536) {n : U32} {r₁ r₂ : RangeT}
    (h : ComesTo start end' ip r (k + 1) n r₁) (hr₂ : r₂.Sound) (hd : r₂.defIp = r₁.defIp)
    (hother : ∀ x, x ≠ n.toNat / 65536 → r₂.low x = r₁.low x)
    (hplaced : Placed ip (pieceIn start end' (n.toNat / 65536)).1 (pieceIn start end' (n.toNat / 65536)).2
      (r₁.chunk (n.toNat / 65536)) (r₂.chunk (n.toNat / 65536))) :
    ComesTo start end' ip r k ((n + 0x10000#32) &&& 0xffff0000#32) r₂ := by
  have hnext := toNat_nextHigh n
  have hlt := n.isLt
  refine ⟨(h.stands.piece hle).2.2.2, hr₂, hd.trans h.defIp, fun x hx hahead => ?_, fun hlast x hx hno => ?_⟩
  · unfold Ahead at hahead
    rw [hother x (by omega)]
    exact h.low x hx (by unfold Ahead; omega)
  · by_cases hxn : x = n.toNat / 65536
    · rw [hxn, lastPiece_eq hlast]
      exact hplaced.landed (pieceIn_le hle _)
    · unfold Ahead at hno
      have := h.landed hlast x hx (by unfold Ahead; omega)
      rwa [RangeT.chunk, ← hother x hxn] at this

theorem ahead_succ {k h x : Nat} (hk : k < 65536) (hh : h < 65536) (hx : x < 65536) :
    Ahead (k + 1) h x ↔ x = h ∨ Ahead k ((h + 1) % 65536) x := by
  unfold Ahead
  omega

theorem not_ahead_self {k h : Nat} (hk : k < 65536) (hh : h < 65536) : ¬ Ahead k ((h + 1) % 65536) h := by
  unfold Ahead
  omega

theorem ComesTo.low_here {k : Nat} {n : U32} {r₁ : RangeT} (h : ComesTo start end' ip r (k + 1) n r₁) :
    r₁.low (n.toNat / 65536) = r.low (n.toNat / 65536) := by
  have := n.isLt
  exact h.low _ (by omega) (by unfold Ahead; omega)

/-- With no chunk to come the loop is back at its first chunk, and changes nothing any more. -/
theorem ComesTo.through (hle : start ≤ end') {n : U32} {r₁ r' : RangeT} {a : Allocs} {fuel : Nat}
    (h : ComesTo start end' ip r 0 n r₁) (hrun : run (rangeInsertStep start end' ip) fuel (n, r₁, a) = some (-1, r')) :
    r'.defIp = r.defIp ∧ ∀ x, r'.chunk x = r₁.chunk x := by
  have hm := chunkCount_of_le hle
  have hle' : start.toNat ≤ end'.toNat := hle
  have hlt' := end'.isLt
  obtain ⟨hal, hpos⟩ : n.toNat % 65536 = 0 ∧
      n.toNat / 65536 = (start.toNat / 65536 + chunkCount start end') % 65536 := by
    rcases h.stands with ⟨h0, -⟩ | ⟨-, hal, hpos⟩
    · split_ifs at hm <;> omega
    · exact ⟨hal, hpos⟩
  by_cases hlast : 0xffff0000 ≤ end'.toNat
  · obtain ⟨hd, hsame⟩ := run_landed hlast (fun x hx => h.landed hlast x (by omega) (Nat.not_lt_zero _)) h.sound hal hrun
    exact ⟨hd.trans h.defIp, hsame⟩
  · have hgt : ¬ n ≤ end' := by
      rw [BitVec.le_def]
      split_ifs at hm <;> omega
    cases fuel with
    | zero => cases hrun
    | succ fuel =>
      rw [run_done (r := (0, r₁)) (by simp only [rangeInsertStep, if_neg hgt])] at hrun
      simp at hrun

theorem ComesTo.refused {k : Nat} {n : U32} {r₁ r₂ : RangeT} (h : ComesTo start end' ip r (k + 1) n r₁)
    (hd : r₂.defIp = r₁.defIp) (hother : ∀ x, x ≠ n.toNat / 65536 → r₂.chunk x = r₁.chunk x) {j : Nat}
    (hj : r₂.chunk (n.toNat / 65536) = r₁.chunk (n.toNat / 65536) ++ List.replicate j invalidRange) :
    (∀ x < 65536, Ahead (k + 1) (n.toNat / 65536) x → SameAnswers r r₂ x) ↔
      QuietLeft r.defIp j (r.chunk (n.toNat / 65536)) := by
  have hlt := n.isLt
  have hquiet : SameAnswers r r₂ (n.toNat / 65536) ↔ QuietLeft r.defIp j (r.chunk (n.toNat / 65536)) := by
    unfold SameAnswers
    rw [hd, h.defIp, hj, RangeT.chunk, h.low_here]
    exact left_quiet_iff r.defIp j _
  rw [← hquiet]
  refine ⟨fun h' => h' _ (by omega) (by unfold Ahead; omega), fun h' x hx hahead => ?_⟩
  by_cases hxn : x = n.toNat / 65536
  · rw [hxn]
    exact h'
  · intro m _
    rw [hd, h.defIp, hother x hxn, RangeT.chunk, RangeT.chunk, h.low x hx hahead]

/-- A round that takes its piece: how its chunk answers in the end, when nothing comes to it any more. -/
theorem ComesTo.taken (hle : start ≤ end') {k : Nat} {n : U32} {r₁ r₂ r' : RangeT}
    (h : ComesTo start end' ip r (k + 1) n r₁) (hd : r'.defIp = r.defIp)
    (hplaced : Placed ip (pieceIn start end' (n.toNat / 65536)).1 (pieceIn start end' (n.toNat / 65536)).2
      (r₁.chunk (n.toNat / 65536)) (r₂.chunk (n.toNat / 65536)))
    (hsame : r'.chunk (n.toNat / 65536) = r₂.chunk (n.toNat / 65536)) :
    SameAnswers r r' (n.toNat / 65536) ↔
      QuietPiece ip r.defIp (pieceIn start end' (n.toNat / 65536)).1 (pieceIn start end' (n.toNat / 65536)).2
        (r.chunk (n.toNat / 65536)) := by
  rw [show r₁.chunk (n.toNat / 65536) = r.chunk (n.toNat / 65536) by rw [RangeT.chunk, RangeT.chunk, h.low_here]]
    at hplaced
  unfold SameAnswers
  rw [hd, hsame]
  exact placed_quiet_iff hplaced (pieceIn_le hle _) (pieceIn_lt ..)

/-- **From the chunk of `n` on**: the chunks to come answer as they did exactly if the rest of the insert is
quiet, and the others are left as they are. -/
theorem run_quiet_iff (hle : start ≤ end') : ∀ (k : Nat), k ≤ 65536 → ∀ (n : U32) (r₁ r' : RangeT) (a : Allocs)
    (fuel : Nat), ComesTo start end' ip r k n r₁ →
    run (rangeInsertStep start end' ip) fuel (n, r₁, a) = some (-1, r') →
    r'.defIp = r.defIp ∧ (∀ x < 65536, ¬ Ahead k (n.toNat / 65536) x → r'.chunk x = r₁.chunk x) ∧
      ((∀ x < 65536, Ahead k (n.toNat / 65536) x → SameAnswers r r' x) ↔
        QuietFrom r start end' ip k (n.toNat / 65536) a) := by
  intro k
  induction k with
  | zero =>
    intro _ n r₁ r' a fuel hto hrun
    obtain ⟨hd, hsame⟩ := hto.through hle hrun
    exact ⟨hd, fun x _ _ => hsame x, iff_of_true (fun x _ hx => absurd hx (Nat.not_lt_zero _)) trivial⟩
  | succ k ih =>
    intro hk n r₁ r' a fuel hto hrun
    have hlt := n.isLt
    have hnext := toNat_nextHigh n
    have hh : n.toNat / 65536 < 65536 := by omega
    have hahead : ∀ x < 65536, Ahead (k + 1) (n.toNat / 65536) x ↔
        x = n.toNat / 65536 ∨ Ahead k ((n.toNat / 65536 + 1) % 65536) x := fun x hx => ahead_succ (by omega) hh hx
    obtain ⟨hn, hs, he, -⟩ := hto.stands.piece hle
    obtain ⟨ret, r₂, a₂, hchunk, hstep⟩ := rangeInsertStep_cases start ip hn r₁ a
    rw [hs, he] at hchunk
    have hother : ∀ x, x ≠ n.toNat / 65536 → r₂.low x = r₁.low x := fun x hx => rangeInsertChunk_low hchunk hx
    have hotherChunk : ∀ x, x ≠ n.toNat / 65536 → r₂.chunk x = r₁.chunk x := fun x hx => by
      rw [RangeT.chunk, RangeT.chunk, hother x hx]
    obtain ⟨hr₂, hd₂, ⟨hret, hp, hplaced⟩ | ⟨j, hret, hp, hj⟩⟩ :=
      rangeInsertChunk_pushes hto.sound (pieceIn_lt ..) (pieceIn_le hle _) hchunk
    all_goals
      rw [hto.low_here] at hp
      cases fuel with
      | zero => cases hrun
      | succ fuel => ?_
    · rw [run_again (hstep.trans (if_neg hret))] at hrun
      obtain ⟨hd', hout, hiff⟩ := ih (by omega) _ r₂ r' a₂ fuel (hto.next hle (by omega) hr₂ hd₂ hother hplaced) hrun
      rw [hnext, Nat.mul_div_cancel _ (by decide)] at hout hiff
      have hquiet := hto.taken hle hd' hplaced (hout _ hh (not_ahead_self (by omega) hh))
      refine ⟨hd', fun x hx hno => ?_, ?_⟩
      · rw [hahead x hx, not_or] at hno
        rw [hout x hx hno.2, hotherChunk x hno.1]
      · simp only [QuietFrom, hp]
        rw [← hquiet, ← hiff]
        constructor
        · exact fun h => ⟨h _ hh ((hahead _ hh).mpr (Or.inl rfl)), fun x hx hx' => h x hx ((hahead x hx).mpr (Or.inr hx'))⟩
        · rintro ⟨h1, h2⟩ x hx hx'
          rcases (hahead x hx).mp hx' with rfl | hx'
          · exact h1
          · exact h2 x hx hx'
    · rw [run_done (hstep.trans (if_pos hret))] at hrun
      cases hrun
      refine ⟨hd₂.trans hto.defIp, fun x hx hno => hotherChunk x fun h => hno ((hahead x hx).mpr (Or.inl h)), ?_⟩
      simp only [QuietFrom, hp]
      exact hto.refused hd₂ hotherChunk hj

end Run

/-- **Atomicity on error.** An insert into a reachable table that returned -1 has changed no answer exactly
if every piece it took before that was one that changes none, and so was what the refused one left. -/
theorem rangeInsert_atomic_iff {r r' : RangeT} (hr : Reachable r) {start end' ip : U32} {a : Allocs} {fuel : Nat}
    (hrun : rangeInsert fuel r start end' ip a = some (-1, r')) :
    (∀ key, rangeGet r' key = rangeGet r key) ↔
      QuietFrom r start end' ip (chunkCount start end') (start.toNat / 65536) a := by
  have hlt := start.isLt
  unfold rangeInsert at hrun
  split_ifs at hrun with hgt
  · cases hrun
    rw [chunkCount, if_pos hgt]
    exact iff_of_true (fun _ => rfl) trivial
  · have hle : start ≤ end' := BitVec.not_lt.mp hgt
    have hm := chunkCount_of_le hle
    have hcount : chunkCount start end' ≤ 65536 := by
      have := end'.isLt
      split_ifs at hm <;> omega
    obtain ⟨hd, hout, hiff⟩ := run_quiet_iff hle _ hcount start r r' a fuel
      ⟨Or.inl ⟨rfl, rfl⟩, hr.sound, rfl, fun _ _ _ => rfl, fun hlast x hx hno => by
        rw [if_neg (by omega)] at hm
        exact absurd (by unfold Ahead; omega) hno⟩ hrun
    rw [← hiff, sameAnswers_iff]
    refine ⟨fun h x hx _ => h x hx, fun h x hx => ?_⟩
    by_cases hahead : Ahead (chunkCount start end') (start.toNat / 65536) x
    · exact h x hx hahead
    · intro n _
      rw [hd, hout x hx hahead]

theorem overlap_first : ∃ r r', rangeInsert 2 .empty 5 9 1 (Stream'.const true) = some (0, r) ∧
    rangeInsert 2 r 7 0x00010009 2 (Stream'.const true) = some (-1, r') ∧
    QuietFrom r 7 0x00010009 2 (chunkCount 7 0x00010009) 0 (Stream'.const true) :=
  ⟨_, _, rfl, rfl, fun h => absurd h (by decide)⟩

theorem rangeInsert_atomic_iff_first : ∃ r r', rangeInsert 2 .empty 5 9 1 (Stream'.const true) = some (0, r) ∧
    rangeInsert 2 r 7 0x00010009 2 (Stream'.const true) = some (-1, r') ∧ ∀ key, rangeGet r' key = rangeGet r key := by
  obtain ⟨r, r', h₁, h₂, hquiet⟩ := overlap_first
  exact ⟨r, r', h₁, h₂, (rangeInsert_atomic_iff (Reachable.empty.insert h₁) h₂).mpr hquiet⟩

theorem overlap_second : ∃ r r', rangeInsert 2 .empty 0x00010005 0x00010009 1 (Stream'.const true) = some (0, r) ∧
    rangeInsert 2 r 5 0x00010007 2 (Stream'.const true) = some (-1, r') ∧ rangeGet r' 5 = 2 ∧ rangeGet r 5 = 0 :=
  ⟨_, _, rfl, rfl, rfl, rfl⟩

theorem not_atomic : ¬ ∀ (r r' : RangeT) (start end' ip : U32) (a : Allocs) (fuel : Nat), Reachable r →
    rangeInsert fuel r start end' ip a = some (-1, r') → ∀ key, rangeGet r' key = rangeGet r key := by
  intro h
  obtain ⟨r, r', h₁, h₂, h5', h5⟩ := overlap_second
  have := h r r' _ _ _ _ _ (Reachable.empty.insert h₁) h₂ 5
  rw [h5', h5] at this
  exact absurd this (by decide)

end Fnsproxy
