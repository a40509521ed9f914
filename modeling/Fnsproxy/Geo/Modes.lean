import Fnsproxy.Geo.Blocks
import Fnsproxy.Range.Groups
import Mathlib.Data.Fintype.Prod
import Mathlib.Data.Fintype.BigOperators

/-!
# A list of CIDR blocks in both modes

* `lastCover`, `heard` : the last value of a block that covers an address, the blocks the range table
  hears for it: those up to the first that undercuts the chunk once the address is covered;
* `Grouped` : a chunk after a list of blocks;
* `ModesAgree` : what is expected of the two modes;
* `modesAgree_iff` : **they agree exactly if no block ends in the last chunk and for every address the last
  value heard is the last value other than 0**.
-/

namespace Fnsproxy
open Word BitPrefix Transition

namespace GeoBlock

/-- The block has addresses in chunk `h`. -/
def Meets (b : GeoBlock) (h : Nat) : Prop := b.first.toNat / 65536 ≤ h ∧ h ≤ b.last.toNat / 65536

instance (b : GeoBlock) (h : Nat) : Decidable (b.Meets h) := inferInstanceAs (Decidable (_ ∧ _))

end GeoBlock

/-- The value of the last block that covers `ip`. -/
def lastCover (ip : U32) (bs : List GeoBlock) : Option U32 :=
  bs.foldl (fun v b => if b.Covers ip then some b.value else v) none

/-- `ip` is covered, and the block lies in its chunk below all the others there. -/
def Undercuts (ip : U32) (bs : List GeoBlock) (b : GeoBlock) : Prop :=
  (∃ c ∈ bs, c.Covers ip) ∧ b.Meets (ip.toNat / 65536) ∧ ∀ c ∈ bs, c.Meets (ip.toNat / 65536) → b.last < c.first

instance (ip : U32) (bs : List GeoBlock) (b : GeoBlock) : Decidable (Undercuts ip bs b) :=
  inferInstanceAs (Decidable (_ ∧ _))

/-- The blocks heard so far, and whether one has undercut them. -/
def heardStep (ip : U32) : List GeoBlock × Bool → GeoBlock → List GeoBlock × Bool
  | (bs, true), _ => (bs, true)
  | (bs, false), b => if Undercuts ip bs b then (bs, true) else (bs ++ [b], false)

/-- The blocks up to the first that undercuts those before it. -/
def heard (ip : U32) (bs : List GeoBlock) : List GeoBlock × Bool := bs.foldl (heardStep ip) ([], false)

section Lists
variable (ip : U32) (bs : List GeoBlock) (b : GeoBlock)

theorem lastCover_concat : lastCover ip (bs ++ [b]) = if b.Covers ip then some b.value else lastCover ip bs := by
  rw [lastCover, List.foldl_append]
  rfl

theorem heard_concat : heard ip (bs ++ [b]) = heardStep ip (heard ip bs) b := by
  rw [heard, List.foldl_append]
  rfl

theorem lastCover_isSome : (lastCover ip bs).isSome ↔ ∃ c ∈ bs, c.Covers ip := by
  induction bs using List.reverseRecOn with
  | nil => simp [lastCover]
  | append_singleton bs b ih =>
    rw [lastCover_concat]
    split_ifs with h
    · exact iff_of_true rfl ⟨b, by simp, h⟩
    · rw [ih]
      refine exists_congr fun c => ?_
      simp only [List.mem_append, List.mem_singleton]
      constructor
      · exact fun hc => ⟨Or.inl hc.1, hc.2⟩
      · rintro ⟨hc | rfl, hcov⟩
        · exact ⟨hc, hcov⟩
        · exact absurd hcov h

variable {ip bs b}

theorem heard_stopped (h : (heard ip bs).2 = true) : heard ip (bs ++ [b]) = heard ip bs := by
  rw [heard_concat, show heard ip bs = ((heard ip bs).1, true) from Prod.ext rfl h]
  rfl

theorem heard_open (h : (heard ip bs).2 = false) : heard ip bs = (bs, false) := by
  induction bs using List.reverseRecOn with
  | nil => rfl
  | append_singleton bs b ih =>
    cases hs : (heard ip bs).2 with
    | true =>
      rw [heard_stopped hs, hs] at h
      cases h
    | false =>
      rw [heard_concat, ih hs, heardStep] at h ⊢
      split_ifs at h ⊢
      rfl

end Lists

/-! ## The pieces of a block -/

namespace GeoBlock

/-- The number of addresses a block has in a chunk. -/
def unit (b : GeoBlock) : Nat := 2 ^ min (32 - b.len.val) 16

/-- The low halves of its first and last address in chunk `h`. -/
def piece (b : GeoBlock) (h : Nat) : Nat × Nat := pieceIn b.first b.last h

theorem unit_dvd {b c : GeoBlock} (h : c.len ≤ b.len) : b.unit ∣ c.unit := by
  apply Nat.pow_dvd_pow 2
  rw [Fin.le_def] at h
  omega

variable {b c : GeoBlock} {h : Nat}

/-- A block of a chunk or more is made of whole chunks, a smaller one lies in one. -/
theorem chunks (b : GeoBlock) : (65536 ∣ b.size ∧ b.unit = 65536) ∨ (b.size ∣ 65536 ∧ b.unit = b.size) := by
  unfold size unit
  rcases Nat.le_total 16 (32 - b.len.val) with hle | hle
  · exact Or.inl ⟨Nat.pow_dvd_pow 2 hle, congrArg (2 ^ ·) (Nat.min_eq_right hle)⟩
  · exact Or.inr ⟨Nat.pow_dvd_pow 2 hle, congrArg (2 ^ ·) (Nat.min_eq_left hle)⟩

theorem piece_aligned (hm : b.Meets h) : b.unit ∣ (b.piece h).1 ∧ (b.piece h).2 + 1 = (b.piece h).1 + b.unit := by
  have hfirst := b.toNat_first
  have hlast := b.toNat_last
  have hpos := b.size_pos
  obtain ⟨h1, h2⟩ := hm
  unfold piece pieceIn
  rcases b.chunks with ⟨⟨m, hm⟩, hu⟩ | ⟨⟨m, hm⟩, hu⟩
  · have h0 : b.first.toNat % 65536 = 0 := by
      rw [hfirst, hm, Nat.mul_left_comm]
      exact Nat.mul_mod_right ..
    have h1 : b.last.toNat % 65536 = 65535 := by
      have : b.last.toNat + 1 = 65536 * ((b.addr.toNat / b.size + 1) * m) := by
        rw [hlast, Nat.add_assoc, Nat.sub_add_cancel hpos, ← Nat.succ_mul, Nat.succ_eq_add_one]
        conv_lhs => rw [hm]
        rw [Nat.mul_left_comm, ← hm]
      omega
    rw [h0, h1, hu]
    simp
  · obtain ⟨d, r, hdr, hr⟩ : ∃ d r, b.first.toNat = 65536 * d + b.size * r ∧ b.size * r + b.size ≤ 65536 := by
      refine ⟨b.addr.toNat / b.size / m, b.addr.toNat / b.size % m, ?_, ?_⟩
      · rw [hfirst, hm, Nat.mul_assoc, ← Nat.mul_add, Nat.div_add_mod, Nat.mul_comm]
      · rw [← Nat.mul_succ, hm]
        refine Nat.mul_le_mul_left _ (Nat.succ_le_of_lt (Nat.mod_lt _ (Nat.pos_of_ne_zero ?_)))
        rintro rfl
        simp at hm
    have hl : b.last.toNat = 65536 * d + (b.size * r + b.size - 1) := by omega
    have hd : h = d := by omega
    rw [hu, if_pos (by omega), if_pos (by omega), show b.first.toNat % 65536 = b.size * r by omega,
      show b.last.toNat % 65536 = b.size * r + b.size - 1 by omega]
    exact ⟨Nat.dvd_mul_right .., by dsimp only; omega⟩

theorem piece_le (b : GeoBlock) (h : Nat) : (b.piece h).1 ≤ (b.piece h).2 := by
  refine pieceIn_le ?_ h
  rw [BitVec.le_def, toNat_first, toNat_last]
  omega

theorem covers_iff_piece {ip : U32} (hm : b.Meets (ip.toNat / 65536)) : b.Covers ip ↔
    (b.piece (ip.toNat / 65536)).1 ≤ ip.toNat % 65536 ∧ ip.toNat % 65536 ≤ (b.piece (ip.toNat / 65536)).2 :=
  mem_pieceIn hm.1 hm.2

theorem meets_of_covers {ip : U32} (hc : b.Covers ip) : b.Meets (ip.toNat / 65536) :=
  ⟨Nat.div_le_div_right hc.1, Nat.div_le_div_right hc.2⟩

theorem last_lt_first_iff (hb : b.Meets h) (hc : c.Meets h) : b.last < c.first ↔ (b.piece h).2 < (c.piece h).1 := by
  obtain ⟨h1, h2⟩ := hb
  obtain ⟨h3, h4⟩ := hc
  have hlt := b.last.isLt
  rw [BitVec.lt_def]
  unfold piece pieceIn
  dsimp only
  split_ifs <;> omega

end GeoBlock

/-! ## A chunk after a list of blocks -/

/-- The entries of chunk `h` after the blocks `bs`: `F`, where the addresses stand that hear no more
blocks, and `G`. -/
structure Grouped (bs : List GeoBlock) (h : Nat) (F G : List RangeLowT) : Prop where
  groups : Groups F G
  aligned : ∀ b : GeoBlock, (∀ c ∈ bs, c.len ≤ b.len) → Aligned b.unit G
  lowest : ∀ c ∈ bs, c.Meets h → ∃ y ∈ G, y.start ≤ (c.piece h).1
  starts : ∀ y ∈ G, ∃ c ∈ bs, c.Meets h ∧ (c.piece h).1 ≤ y.start
  buried : ∀ ip : U32, ip.toNat / 65536 = h →
    ((answer F (ip.toNat % 65536)).isSome ↔ (heard ip bs).2 = true)
  answers : ∀ ip : U32, ip.toNat / 65536 = h →
    answer (F ++ G) (ip.toNat % 65536) = lastCover ip (heard ip bs).1
  few : (F ++ G).length ≤ 2 * bs.countP (fun b => b.Meets h)

theorem Grouped.nil (h : Nat) : Grouped [] h [] [] where
  groups := ⟨⟨.nil, by simp⟩, by simp⟩
  aligned _ _ := by simp [Aligned]
  lowest := by simp
  starts := by simp
  buried _ _ := by simp [answer, heard]
  answers _ _ := rfl
  few := le_rfl

section Step
variable {bs : List GeoBlock} {b : GeoBlock} {h : Nat} {F G ys : List RangeLowT}

theorem Grouped.below_iff (hg : Grouped bs h F G) (hm : b.Meets h) :
    (∀ y ∈ G, (b.piece h).2 < y.start) ↔ ∀ c ∈ bs, c.Meets h → b.last < c.first := by
  constructor
  · intro hall c hc hcm
    obtain ⟨y, hy, hle⟩ := hg.lowest c hc hcm
    exact (GeoBlock.last_lt_first_iff hm hcm).mpr (lt_of_lt_of_le (hall y hy) hle)
  · intro hall y hy
    obtain ⟨c, hc, hcm, hle⟩ := hg.starts y hy
    exact lt_of_lt_of_le ((GeoBlock.last_lt_first_iff hm hcm).mp (hall c hc hcm)) hle

theorem Grouped.skip (hg : Grouped bs h F G) (hm : ¬ b.Meets h) : Grouped (bs ++ [b]) h F G := by
  have hstep : ∀ ip : U32, ip.toNat / 65536 = h → (heard ip (bs ++ [b])).2 = (heard ip bs).2 ∧
      lastCover ip (heard ip (bs ++ [b])).1 = lastCover ip (heard ip bs).1 := by
    rintro ip rfl
    cases hs : (heard ip bs).2 with
    | false =>
      have hno : ¬ Undercuts ip bs b := fun hu => hm hu.2.1
      rw [heard_concat, heard_open hs, heardStep, if_neg hno, lastCover_concat,
        if_neg fun hc => hm (GeoBlock.meets_of_covers hc)]
      exact ⟨rfl, rfl⟩
    | true =>
      rw [heard_stopped hs, hs]
      exact ⟨rfl, rfl⟩
  refine ⟨hg.groups, fun b' hb' => hg.aligned b' fun c hc => hb' c (by simp [hc]), fun c hc hcm => ?_, fun y hy => ?_,
    fun ip hip => ?_, fun ip hip => ?_, ?_⟩
  · rcases List.mem_append.mp hc with hc | hc
    · exact hg.lowest c hc hcm
    · rw [List.mem_singleton.mp hc] at hcm
      exact absurd hcm hm
  · obtain ⟨c, hc, hrest⟩ := hg.starts y hy
    exact ⟨c, by simp [hc], hrest⟩
  · rw [(hstep ip hip).1]
    exact hg.buried ip hip
  · rw [(hstep ip hip).2]
    exact hg.answers ip hip
  · simpa [hm] using hg.few

theorem Grouped.covered_iff (hg : Grouped bs h F G) {ip : U32} (hip : ip.toNat / 65536 = h)
    (hs : (heard ip bs).2 = false) : (answer (F ++ G) (ip.toNat % 65536)).isSome ↔ ∃ c ∈ bs, c.Covers ip := by
  rw [hg.answers ip hip, heard_open hs, lastCover_isSome]

/-- An address that hears no more blocks is answered by the buried entries. -/
theorem Grouped.answer_stopped (hg : Grouped bs h F G) {ip : U32} (hip : ip.toNat / 65536 = h)
    (hs : (heard ip bs).2 = true) :
    ∃ v, answer F (ip.toNat % 65536) = some v ∧ lastCover ip (heard ip bs).1 = some v := by
  obtain ⟨v, hv⟩ := Option.isSome_iff_exists.mp ((hg.buried ip hip).mpr hs)
  have hans := hg.answers ip hip
  rw [answer_append, hv] at hans
  exact ⟨v, hv, hans.symm⟩

theorem aligned_piece (hm : b.Meets h) {b' : GeoBlock} (hlen : b.len ≤ b'.len) :
    b'.unit ∣ (b.piece h).1 ∧ b'.unit ∣ (b.piece h).2 + 1 := by
  obtain ⟨hs, he⟩ := GeoBlock.piece_aligned hm
  have hdvd := GeoBlock.unit_dvd hlen
  exact ⟨hdvd.trans hs, he ▸ Nat.dvd_add (hdvd.trans hs) hdvd⟩

/-- A block below the others of its chunk buries them. -/
theorem Grouped.bury (hg : Grouped bs h F G) (hm : b.Meets h) (hbelow : ∀ y ∈ G, (b.piece h).2 < y.start) :
    Grouped (bs ++ [b]) h (F ++ G) [⟨b.value, (b.piece h).1, (b.piece h).2⟩] := by
  have hle := b.piece_le h
  have hundercuts : ∀ ip : U32, ip.toNat / 65536 = h → (Undercuts ip bs b ↔ ∃ c ∈ bs, c.Covers ip) := by
    rintro ip rfl
    exact and_iff_left ⟨hm, (hg.below_iff hm).mp hbelow⟩
  have hnew : ∀ ip : U32, ip.toNat / 65536 = h →
      answer [(⟨b.value, (b.piece h).1, (b.piece h).2⟩ : RangeLowT)] (ip.toNat % 65536) =
        if b.Covers ip then some b.value else none := by
    rintro ip rfl
    have hcov : b.Covers ip ↔ (⟨b.value, (b.piece _).1, (b.piece _).2⟩ : RangeLowT).Covers (ip.toNat % 65536) :=
      GeoBlock.covers_iff_piece hm
    split_ifs with hc
    · exact answer_cons_of_covers (hcov.mp hc) []
    · exact answer_cons_of_not_covers (mt hcov.mpr hc) []
  refine ⟨⟨⟨List.pairwise_singleton .., by simpa using hle⟩, fun x hx => ⟨_, List.mem_singleton_self _, ?_⟩⟩,
    fun b' hb' => ?_, fun c hc hcm => ⟨_, List.mem_singleton_self _, ?_⟩, fun y hy => ⟨b, by simp, hm, ?_⟩,
    fun ip hip => ?_, fun ip hip => ?_, ?_⟩
  · show (b.piece h).1 ≤ x.start
    rcases List.mem_append.mp hx with hx | hx
    · obtain ⟨y, hy, hyx⟩ := hg.groups.below x hx
      have := hbelow y hy
      omega
    · have := hbelow x hx
      omega
  · intro y hy
    rw [List.mem_singleton.mp hy]
    exact aligned_piece hm (hb' b (by simp))
  · show (b.piece h).1 ≤ (c.piece h).1
    rcases List.mem_append.mp hc with hc | hc
    · obtain ⟨y, hy, hyc⟩ := hg.lowest c hc hcm
      have := hbelow y hy
      omega
    · rw [List.mem_singleton.mp hc]
  · rw [List.mem_singleton.mp hy]
  · cases hs : (heard ip bs).2 with
    | false =>
      rw [heard_concat, heard_open hs, hg.covered_iff hip hs, ← hundercuts ip hip, heardStep]
      split_ifs with hu <;> simp [hu]
    | true =>
      obtain ⟨v, hv, -⟩ := hg.answer_stopped hip hs
      rw [heard_stopped hs, answer_append, hv]
      exact iff_of_true rfl hs
  · rw [answer_append, hg.answers ip hip, hnew ip hip]
    cases hs : (heard ip bs).2 with
    | false =>
      have hcov := (lastCover_isSome ip bs).trans (hundercuts ip hip).symm
      rw [heard_concat, heard_open hs, heardStep]
      split_ifs with hc hu hu
      · obtain ⟨v, hv⟩ := Option.isSome_iff_exists.mp (hcov.mpr hu)
        rw [hv]
        rfl
      · rw [Option.not_isSome_iff_eq_none.mp (mt hcov.mp hu), lastCover_concat, if_pos hc]
        rfl
      · exact Option.or_none
      · rw [lastCover_concat, if_neg hc, Option.or_none]
    | true =>
      obtain ⟨v, -, hv⟩ := hg.answer_stopped hip hs
      rw [heard_stopped hs, hv]
      rfl
  · have := hg.few
    rw [List.length_append, List.length_singleton, List.countP_append, List.countP_singleton, if_pos (by simpa using hm)]
    omega

/-- A block that is not below them is placed among those that are not buried. -/
theorem Grouped.place (hg : Grouped bs h F G) (hm : b.Meets h) (hlive : ∃ y ∈ G, y.start ≤ (b.piece h).2)
    {G' : List RangeLowT} (hp : Placed b.value (b.piece h).1 (b.piece h).2 G G') : Grouped (bs ++ [b]) h F G' := by
  have hle := b.piece_le h
  have hundercuts : ∀ ip : U32, ip.toNat / 65536 = h → ¬ Undercuts ip bs b := by
    rintro ip rfl ⟨-, -, hall⟩
    obtain ⟨y, hy, hye⟩ := hlive
    have := (hg.below_iff hm).mpr hall y hy
    omega
  have hheard : ∀ ip : U32, ip.toNat / 65536 = h → (heard ip bs).2 = false →
      heard ip (bs ++ [b]) = (bs ++ [b], false) := by
    intro ip hip hs
    rw [heard_concat, heard_open hs, heardStep, if_neg (hundercuts ip hip)]
  obtain ⟨hold, hnew⟩ := hp.starts
  refine ⟨⟨hp.ordered hle hg.groups.ordered hlive, fun x hx => ?_⟩, fun b' hb' => ?_, fun c hc hcm => ?_, fun y hy => ?_,
    fun ip hip => ?_, fun ip hip => ?_, ?_⟩
  · obtain ⟨y, hy, hyx⟩ := hg.groups.below x hx
    obtain ⟨z, hz, hzy⟩ := hold y hy
    exact ⟨z, hz, hzy.trans hyx⟩
  · obtain ⟨h1, h2⟩ := aligned_piece hm (hb' b (by simp))
    exact hp.aligned (hg.aligned b' fun c hc => hb' c (by simp [hc])) h1 h2
  · rcases List.mem_append.mp hc with hc | hc
    · obtain ⟨y, hy, hyc⟩ := hg.lowest c hc hcm
      obtain ⟨z, hz, hzy⟩ := hold y hy
      exact ⟨z, hz, hzy.trans hyc⟩
    · rw [List.mem_singleton.mp hc]
      exact hnew
  · have hstart : (b.piece h).1 ≤ y.start ∨ ∃ x ∈ G, x.start = y.start := by
      rcases hp.mem hy with rfl | ⟨x, hx, rfl | ⟨-, rfl⟩ | ⟨-, rfl⟩⟩
      · exact Or.inl le_rfl
      · exact Or.inr ⟨y, hx, rfl⟩
      · exact Or.inr ⟨x, hx, rfl⟩
      · exact Or.inl (by omega : (b.piece h).1 ≤ (b.piece h).2 + 1)
    rcases hstart with hs | ⟨x, hx, hs⟩
    · exact ⟨b, by simp, hm, hs⟩
    · obtain ⟨c, hc, hcm, hcx⟩ := hg.starts x hx
      exact ⟨c, by simp [hc], hcm, hs ▸ hcx⟩
  · cases hs : (heard ip bs).2 with
    | false => rw [hheard ip hip hs, hg.buried ip hip, hs]
    | true => rw [heard_stopped hs, hg.buried ip hip]
  · cases hs : (heard ip bs).2 with
    | false =>
      have hF : answer F (ip.toNat % 65536) = none := by
        rw [← Option.not_isSome_iff_eq_none, hg.buried ip hip, hs]
        decide
      have hans := hg.answers ip hip
      rw [heard_open hs, answer_append, hF, Option.none_or] at hans
      rw [hheard ip hip hs, answer_append, hF, Option.none_or, answer_placed_ordered hp hle hg.groups.ordered,
        lastCover_concat, hans]
      subst hip
      exact if_congr (GeoBlock.covers_iff_piece hm).symm rfl rfl
    | true =>
      obtain ⟨v, hv, hlast⟩ := hg.answer_stopped hip hs
      rw [heard_stopped hs, answer_append, hv, hlast]
      rfl
  · have := hg.few
    have := hp.length_le
    rw [List.length_append] at *
    rw [List.countP_append, List.countP_singleton, if_pos (by simpa using hm)]
    omega

end Step

/-! ## The range table over a list of blocks -/

/-- `range_insert(a & mask, a | ~mask, v)` has returned 0. -/
def RangeStep (r : RangeT) (b : GeoBlock) (r' : RangeT) : Prop :=
  ∃ fuel, rangeInsert fuel r b.first b.last b.value (Stream'.const true) = some (0, r')

/-- A range table after the blocks `bs`. -/
structure Blocked (bs : List GeoBlock) (r : RangeT) : Prop where
  sound : r.Sound
  sized : r.Sized
  defIp : r.defIp = invalidIpAddr
  chunks : ∀ h, ∃ F G, r.chunk h = F ++ G ∧ Grouped bs h F G

theorem Blocked.empty : Blocked [] .empty where
  sound := RangeT.empty_sound
  sized := fun _ _ h => nomatch h
  defIp := rfl
  chunks h := ⟨[], [], rfl, .nil h⟩

section Table
variable {bs : List GeoBlock} {b : GeoBlock} {r r' : RangeT}

theorem Blocked.get (hb : Blocked bs r) (ip : U32) :
    geoGet (.range r) ip = (lastCover ip (heard ip bs).1).getD invalidIpAddr := by
  obtain ⟨F, G, hchunk, hg⟩ := hb.chunks (ip.toNat / 65536)
  rw [geoGet, rangeGet_eq, hchunk, hg.answers ip rfl, hb.defIp]

theorem Blocked.step (hb : Blocked bs r) (hstep : RangeStep r b r') :
    Blocked (bs ++ [b]) r' ∧ b.last.toNat < 0xffff0000 := by
  obtain ⟨fuel, hrun⟩ := hstep
  obtain ⟨-, hend, hr', hd, hin, hout⟩ := rangeInsert_chunks hb.sound hrun
  refine ⟨⟨hr', rangeInsert_sized hb.sized hrun, hd.trans hb.defIp, fun h => ?_⟩, hend⟩
  obtain ⟨F, G, hchunk, hg⟩ := hb.chunks h
  by_cases hm : b.Meets h
  · have hp : Placed b.value (b.piece h).1 (b.piece h).2 (F ++ G) (r'.chunk h) := hchunk ▸ hin h hm.1 hm.2
    by_cases hlive : ∃ y ∈ G, y.start ≤ (b.piece h).2
    · obtain ⟨G', hG', hp'⟩ := hp.live hlive
      exact ⟨F, G', hG', hg.place hm hlive hp'⟩
    · have hbelow : ∀ y ∈ G, (b.piece h).2 < y.start := fun y hy => Nat.not_le.mp fun hle => hlive ⟨y, hy, hle⟩
      exact ⟨F ++ G, _, hp.below (hg.groups.all_below hbelow), hg.bury hm hbelow⟩
  · exact ⟨F, G, (hout h hm).trans hchunk, hg.skip hm⟩

theorem blocked_of_run (hrun : Run RangeStep .empty bs r) : Blocked bs r ∧ ∀ b ∈ bs, b.last.toNat < 0xffff0000 := by
  refine hrun.induct (fun bs r => Blocked bs r ∧ ∀ b ∈ bs, b.last.toNat < 0xffff0000) ⟨.empty, by simp⟩ ?_
  rintro bs r b r' - ⟨hb, hends⟩ hstep
  obtain ⟨hb', hend⟩ := hb.step hstep
  refine ⟨hb', fun c hc => ?_⟩
  rcases List.mem_append.mp hc with hc | hc
  · exact hends c hc
  · rw [List.mem_singleton.mp hc]
    exact hend

theorem first_eq {c : GeoBlock} {h : Nat} (hlen : b.len = c.len) (hb : b.Meets h) (hc : c.Meets h)
    (hs : (b.piece h).1 = (c.piece h).1) : b.first = c.first := by
  have hh : h < 65536 := by
    have := b.last.isLt
    have := hb.2
    omega
  have hpiece := pieceIn_lt b.first b.last h
  have hle := b.piece_le h
  have hip : (BitVec.ofNat 32 (h * 65536 + (b.piece h).1)).toNat = h * 65536 + (b.piece h).1 := by
    rw [BitVec.toNat_ofNat]
    unfold GeoBlock.piece at *
    omega
  have hchunk : (h * 65536 + (b.piece h).1) / 65536 = h := by
    unfold GeoBlock.piece at *
    omega
  have hlow : (h * 65536 + (b.piece h).1) % 65536 = (b.piece h).1 := by
    unfold GeoBlock.piece at *
    omega
  have hcov : ∀ d : GeoBlock, d.Meets h → (d.piece h).1 = (b.piece h).1 →
      (h * 65536 + (b.piece h).1) / d.size = d.addr.toNat / d.size := by
    intro d hd hds
    rw [← hip, ← GeoBlock.covers_iff, GeoBlock.covers_iff_piece (by rwa [hip, hchunk]), hip, hchunk, hlow, ← hds]
    exact ⟨le_rfl, d.piece_le h⟩
  have hsize : b.size = c.size := by rw [GeoBlock.size, GeoBlock.size, hlen]
  rw [← BitVec.toNat_inj, GeoBlock.toNat_first, GeoBlock.toNat_first, ← hcov b hb rfl, ← hcov c hc hs.symm, hsize]

theorem countP_meets (hd : Distinct bs) (h : Nat) : bs.countP (fun b => b.Meets h) ≤ 33 * 65536 := by
  have hnodup : ((bs.filter fun b => b.Meets h).map fun b : GeoBlock =>
      (b.len, Fin.ofNat 65536 (b.piece h).1)).Nodup := by
    rw [List.Nodup, List.pairwise_map]
    refine (hd.filter _).imp_of_mem fun {b c} hb hc hne heq => hne ?_
    obtain ⟨hlen, hs⟩ := Prod.mk.inj heq
    refine ⟨hlen, first_eq hlen (by simpa using (List.mem_filter.mp hb).2) (by simpa using (List.mem_filter.mp hc).2) ?_⟩
    have hb' := pieceIn_lt b.first b.last h
    have hc' := pieceIn_lt c.first c.last h
    have hble := b.piece_le h
    have hcle := c.piece_le h
    have := congrArg Fin.val hs
    simp only [Fin.val_ofNat] at this
    unfold GeoBlock.piece at *
    rwa [Nat.mod_eq_of_lt (by omega), Nat.mod_eq_of_lt (by omega)] at this
  have := hnodup.length_le_card
  rw [List.length_map, ← List.countP_eq_length_filter] at this
  simpa using this

/-- While there is memory the table takes a block that does not end in its last chunk. -/
theorem Blocked.takes (hb : Blocked bs r) (hd : Distinct bs) (hlen : ∀ c ∈ bs, c.len ≤ b.len)
    (hend : b.last.toNat < 0xffff0000) : ∃ r', RangeStep r b r' := by
  have hle : b.first ≤ b.last := by
    rw [BitVec.le_def, GeoBlock.toNat_first, GeoBlock.toNat_last]
    omega
  have htakes : ∀ h, b.first.toNat / 65536 ≤ h → h ≤ b.last.toNat / 65536 →
      r.Takes (b.piece h).1 (b.piece h).2 h := by
    intro h h1 h2
    obtain ⟨F, G, hchunk, hg⟩ := hb.chunks h
    obtain ⟨hs, he⟩ := GeoBlock.piece_aligned (b := b) ⟨h1, h2⟩
    obtain ⟨k, hk, hpushes⟩ := hg.groups.pushes (hg.aligned b hlen) hs he
    apply takes_of_pushesFor hb.sound hb.sized hk (hchunk ▸ hpushes)
    have := hg.few
    have := countP_meets hd h
    rw [hchunk]
    omega
  obtain ⟨fuel, r', hrun⟩ := @rangeInsert_takes b.first b.last b.value r hb.sound hle hend htakes (Stream'.const true)
    fun _ => rfl
  exact ⟨r', fuel, hrun⟩

theorem run_of_ends (hg : Growing bs) (hd : Distinct bs) (hends : ∀ b ∈ bs, b.last.toNat < 0xffff0000) :
    ∃ r, Run RangeStep .empty bs r := by
  induction bs using List.reverseRecOn with
  | nil => exact ⟨_, .start⟩
  | append_singleton bs b ih =>
    obtain ⟨hg, -, hgrow⟩ := List.pairwise_append.mp hg
    obtain ⟨hd, -, -⟩ := List.pairwise_append.mp hd
    obtain ⟨r, hrun⟩ := ih hg hd fun c hc => hends c (by simp [hc])
    obtain ⟨r', hstep⟩ := (blocked_of_run hrun).1.takes hd (fun c hc => hgrow c hc b (by simp)) (hends b (by simp))
    exact ⟨r', hrun.next hstep⟩

end Table

/-- Both tables take all the blocks and answer every address alike. -/
def ModesAgree (bs : List GeoBlock) : Prop :=
  ∃ c r, Run CidrStep .empty bs c ∧ Run RangeStep .empty bs r ∧ ∀ ip, geoGet (.cidr c) ip = geoGet (.range r) ip

/-- Tables that agree have taken all the blocks, and answer with the last value heard. -/
theorem ModesAgree.values {bs : List GeoBlock} (h : ModesAgree bs) (hg : Growing bs) (hd : Distinct bs) :
    (∀ b ∈ bs, b.last.toNat < 0xffff0000) ∧
      ∀ ip, (lastCover ip (heard ip bs).1).getD invalidIpAddr = lastNonzero ip bs := by
  obtain ⟨c, r, hc, hr, hagree⟩ := h
  obtain ⟨hb, hends⟩ := blocked_of_run hr
  obtain ⟨c', hc', hcidr⟩ := insertBlocks hg hd
  obtain rfl := hc.det CidrStep.det hc'
  exact ⟨hends, fun ip => by rw [← hb.get, ← hagree, hcidr]⟩

/-- **The two modes** agree on a list of distinct blocks whose prefixes never get shorter exactly if no block
ends in the last chunk of the table, and for every address the last value heard is the last other than 0. -/
theorem modesAgree_iff {bs : List GeoBlock} (hg : Growing bs) (hd : Distinct bs) :
    ModesAgree bs ↔ (∀ b ∈ bs, b.last.toNat < 0xffff0000) ∧
      ∀ ip, (lastCover ip (heard ip bs).1).getD invalidIpAddr = lastNonzero ip bs := by
  refine ⟨fun h => h.values hg hd, ?_⟩
  rintro ⟨hends, hvalues⟩
  obtain ⟨c, hc, hcidr⟩ := insertBlocks hg hd
  obtain ⟨r, hr⟩ := run_of_ends hg hd hends
  exact ⟨c, r, hc, hr, fun ip => by rw [hcidr, (blocked_of_run hr).1.get, hvalues]⟩

/-- `10.0.0.0/8` and `10.1.0.0/16`. -/
theorem modesAgree_iff_nested : ModesAgree [⟨0x0a000000, 8, 1⟩, ⟨0x0a010000, 16, 2⟩] := by
  refine (modesAgree_iff (by decide) (by decide)).mpr ⟨by decide, fun ip => ?_⟩
  have hno : ¬ Undercuts ip [⟨0x0a000000, 8, 1⟩] ⟨0x0a010000, 16, 2⟩ := by
    rintro ⟨⟨c, hc, hcov⟩, -, hall⟩
    have hlt := hall c hc (GeoBlock.meets_of_covers hcov)
    rw [List.mem_singleton.mp hc] at hlt
    exact absurd hlt (by decide)
  have hheard : heard ip [⟨0x0a000000, 8, 1⟩, ⟨0x0a010000, 16, 2⟩] =
      ([⟨0x0a000000, 8, 1⟩, ⟨0x0a010000, 16, 2⟩], false) := by
    have hfirst : ¬ Undercuts ip [] ⟨0x0a000000, 8, 1⟩ := by
      rintro ⟨⟨c, hc, -⟩, -⟩
      cases hc
    simp only [heard, List.foldl_cons, List.foldl_nil, heardStep, if_neg hfirst, List.nil_append, if_neg hno,
      List.singleton_append]
  rw [hheard]
  simp only [lastCover, lastNonzero, List.foldl_cons, List.foldl_nil]
  split_ifs <;> simp_all [invalidIpAddr]

/-- `10.0.1.0/24`, then `10.0.0.0/24` below it, then `10.0.1.0/25` in the first: the range table keeps
answering for `10.0.1.5` with the first. -/
theorem not_modesAgree : ¬ ∀ bs, Growing bs → Distinct bs → ModesAgree bs := by
  intro h
  have hg : Growing [⟨0x0a000100, 24, 1⟩, ⟨0x0a000000, 24, 2⟩, ⟨0x0a000100, 25, 3⟩] := by decide
  have hd : Distinct [⟨0x0a000100, 24, 1⟩, ⟨0x0a000000, 24, 2⟩, ⟨0x0a000100, 25, 3⟩] := by decide
  have := ((h _ hg hd).values hg hd).2 0x0a000105
  exact absurd this (by decide)

end Fnsproxy
