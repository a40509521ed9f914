import Fnsproxy.Geo.Upsert
import Fnsproxy.Lib.Run

/-!
# A list of CIDR blocks in CIDR mode

* `GeoBlock` : a block with its value, `first` and `last` its addresses;
* `Growing`, `Distinct` : lists of blocks whose prefixes never get shorter, and differ;
* `lastNonzero` : the last value other than 0 of a block that covers an address;
* `insertBlocks` : **the trie takes all the blocks and answers with that value**.
-/

namespace Fnsproxy
open Word BitPrefix Transition

structure GeoBlock where
  addr : U32
  len : Fin 33
  value : U32
deriving DecidableEq

namespace GeoBlock

/-- `a & mask`. -/
def first (b : GeoBlock) : U32 := b.addr &&& parseMask b.len

/-- `a | ~mask`. -/
def last (b : GeoBlock) : U32 := b.addr ||| ~~~ parseMask b.len

/-- The block holds the address. -/
def Covers (b : GeoBlock) (ip : U32) : Prop := b.first ≤ ip ∧ ip ≤ b.last

instance (b : GeoBlock) (ip : U32) : Decidable (b.Covers ip) := inferInstanceAs (Decidable (_ ∧ _))

/-- The block as `parse_cidr` leaves it. -/
def cidr (b : GeoBlock) : CidrBlock := ⟨b.addr, parseMask b.len, b.len, Nat.le_of_lt_succ b.len.isLt, rfl⟩

/-- The number of its addresses. -/
def size (b : GeoBlock) : Nat := 2 ^ (32 - b.len.val)

variable (b : GeoBlock)

theorem len_le : b.len.val ≤ 32 := Nat.le_of_lt_succ b.len.isLt

theorem size_pos : 0 < b.size := Nat.two_pow_pos _

theorem toNat_mask : ∀ len : Fin 33, (parseMask len).toNat = 2 ^ (32 - len.val) * (2 ^ len.val - 1) ∧
    (~~~ parseMask len).toNat = 2 ^ (32 - len.val) - 1 := by decide

theorem toNat_and_mask (ip : U32) : (ip &&& parseMask b.len).toNat = ip.toNat / b.size * b.size := by
  rw [BitVec.toNat_and, (toNat_mask b.len).1]
  exact and_high _ _ _ (by rw [Nat.sub_add_cancel b.len_le]; exact ip.isLt)

theorem toNat_first : b.first.toNat = b.addr.toNat / b.size * b.size := b.toNat_and_mask b.addr

theorem toNat_last : b.last.toNat = b.addr.toNat / b.size * b.size + (b.size - 1) := by
  rw [last, BitVec.toNat_or, (toNat_mask b.len).2]
  exact or_low _ _

theorem covers_iff (ip : U32) : b.Covers ip ↔ ip.toNat / b.size = b.addr.toNat / b.size := by
  have hpos := b.size_pos
  rw [Covers, BitVec.le_def, BitVec.le_def, toNat_first, toNat_last, Nat.div_eq_iff hpos]
  omega

theorem covers_iff_path (ip : U32) : b.Covers ip ↔ path ip b.len = path b.addr b.len := by
  rw [path_eq_iff b.len_le, covers_iff, ← BitVec.toNat_inj, ← parseMask_eq b.len_le, toNat_and_mask, toNat_and_mask]
  exact (Nat.mul_left_inj b.size_pos.ne').symm

end GeoBlock

/-- The prefixes never get shorter. -/
def Growing (bs : List GeoBlock) : Prop := bs.Pairwise fun b c => b.len ≤ c.len

/-- No prefix occurs twice. -/
def Distinct (bs : List GeoBlock) : Prop := bs.Pairwise fun b c => ¬ (b.len = c.len ∧ b.first = c.first)

instance (bs : List GeoBlock) : Decidable (Growing bs) := inferInstanceAs (Decidable (List.Pairwise _ bs))

instance (bs : List GeoBlock) : Decidable (Distinct bs) := inferInstanceAs (Decidable (List.Pairwise _ bs))

/-- The last value other than 0 of a block that covers `ip`, 0 when there is none. -/
def lastNonzero (ip : U32) (bs : List GeoBlock) : U32 :=
  bs.foldl (fun v b => if b.Covers ip ∧ b.value ≠ 0 then b.value else v) 0

/-- `radix32tree_insert(a, mask, v)` has returned 0. -/
def CidrStep (c : CidrTable) (b : GeoBlock) (c' : CidrTable) : Prop :=
  c.insert b.cidr b.value (Stream'.const true) = (0, c')

theorem CidrStep.det (c : CidrTable) (b : GeoBlock) (c₁ c₂ : CidrTable) (h₁ : CidrStep c b c₁) (h₂ : CidrStep c b c₂) :
    c₁ = c₂ := (Prod.mk.inj (h₁.symm.trans h₂)).2

theorem lastNonzero_concat (ip : U32) (bs : List GeoBlock) (b : GeoBlock) :
    lastNonzero ip (bs ++ [b]) = if b.Covers ip ∧ b.value ≠ 0 then b.value else lastNonzero ip bs := by
  rw [lastNonzero, List.foldl_append]
  rfl

theorem geoGet_cidr (c : CidrTable) (ip : U32) : geoGet (.cidr c) ip = longest (c.tree.held ip) 32 := by
  obtain ⟨A, h⟩ := c.shaped
  have hfind := radix32treeFind_spec h ip
  rw [longest_congr fun n hn => (held_eq h hn ip).symm] at hfind
  simp only [geoGet, hfind, Option.get_some]
  split_ifs with h0
  · exact h0.symm
  · rfl

theorem held_empty (ip : U32) {n : Nat} (hn : n ≤ 32) : CidrTable.empty.tree.held ip n = 0 := by
  obtain ⟨A, h, hM⟩ := radixTreeCreate_shaped (a := Stream'.const true) rfl
  exact (held_eq h hn ip).trans (hM ip n hn)

section Insert
variable {b : GeoBlock} {c c' : CidrTable} {ip : U32}

theorem held_of_covers (c : CidrTable) (h : b.Covers ip) : c.tree.held ip b.len = c.tree.held b.addr b.len := by
  obtain ⟨A, hA⟩ := c.shaped
  rw [held_eq hA b.len_le, held_eq hA b.len_le, (b.covers_iff_path ip).mp h]

theorem CidrStep.held (hstep : CidrStep c b c') :
    c'.tree.held b.addr b.len = b.value ∧
      ∀ ip n, n ≤ 32 → ¬ (n = b.len.val ∧ b.Covers ip) → c'.tree.held ip n = c.tree.held ip n := by
  obtain ⟨hothers, hcases⟩ := c.insert_held b.cidr b.len_le rfl b.value (a := Stream'.const true) fun _ => rfl
  rw [hstep] at hothers hcases
  constructor
  · exact (hcases.resolve_right fun h => h.2.1 rfl).2.2
  · intro ip n hn hne
    refine hothers ip n hn fun heq => hne ?_
    obtain ⟨rfl, hmask⟩ := Prod.mk.inj heq
    refine ⟨rfl, (b.covers_iff_path ip).mpr ((path_eq_iff b.len_le).mpr ?_)⟩
    rw [← parseMask_eq b.len_le]
    exact hmask

theorem cidrStep_of_held (hempty : c.tree.held b.addr b.len = 0) : ∃ c', CidrStep c b c' := by
  obtain ⟨-, ⟨-, hret, -⟩ | ⟨hne, -⟩⟩ := c.insert_held b.cidr b.len_le rfl b.value (a := Stream'.const true) fun _ => rfl
  · exact ⟨_, Prod.ext hret rfl⟩
  · exact absurd hempty hne

/-- One more block, of a prefix that holds nothing yet and is not shorter than those that do. -/
theorem CidrStep.longest (hstep : CidrStep c b c') (hempty : c.tree.held b.addr b.len = 0)
    (hlong : ∀ n, b.len.val < n → n ≤ 32 → c.tree.held ip n = 0) :
    longest (c'.tree.held ip) 32 = if b.Covers ip ∧ b.value ≠ 0 then b.value else longest (c.tree.held ip) 32 := by
  obtain ⟨hnew, hother⟩ := hstep.held
  by_cases hc : b.Covers ip
  · have hnew' : c'.tree.held ip b.len = b.value := (held_of_covers c' hc).trans hnew
    rw [longest_set b.len_le (fun k hk hne => hother ip k hk fun h => hne h.1) ((held_of_covers c hc).trans hempty) hlong,
      hnew']
    exact if_congr (and_iff_right hc).symm rfl rfl
  · rw [if_neg fun h => hc h.1, longest_congr fun k hk => hother ip k hk fun h => hc h.2]

end Insert

/-- **The trie takes all the blocks** and answers with the last value other than 0. -/
theorem insertBlocks {bs : List GeoBlock} (hg : Growing bs) (hd : Distinct bs) : ∃ c, Run CidrStep .empty bs c ∧
    ∀ ip, geoGet (.cidr c) ip = lastNonzero ip bs := by
  suffices h : ∃ c, Run CidrStep .empty bs c ∧ (∀ ip, geoGet (.cidr c) ip = lastNonzero ip bs) ∧
      ∀ ip n, n ≤ 32 → c.tree.held ip n ≠ 0 → ∃ b ∈ bs, b.len.val = n ∧ b.Covers ip by
    obtain ⟨c, hrun, hget, -⟩ := h
    exact ⟨c, hrun, hget⟩
  induction bs using List.reverseRecOn with
  | nil =>
    refine ⟨_, .start, fun ip => ?_, fun ip n hn hne => absurd (held_empty ip hn) hne⟩
    rw [geoGet_cidr, longest_congr fun n hn => held_empty ip hn]
    rcases longest_spec (fun _ => (0 : U32)) 32 with ⟨hne, m, -, h0, -⟩ | ⟨h0, -⟩
    · exact absurd h0.symm hne
    · exact h0
  | append_singleton bs b ih =>
    obtain ⟨hg, -, hgrow⟩ := List.pairwise_append.mp hg
    obtain ⟨hd, -, hdist⟩ := List.pairwise_append.mp hd
    obtain ⟨c, hrun, hget, hheld⟩ := ih hg hd
    have hself : b.Covers b.addr := (b.covers_iff b.addr).mpr rfl
    have hempty : c.tree.held b.addr b.len = 0 := by
      by_contra hne
      obtain ⟨b', hb', hlen, hcov⟩ := hheld b.addr b.len b.len_le hne
      refine hdist b' hb' b (by simp) ⟨Fin.ext hlen, ?_⟩
      have hlen : b'.len = b.len := Fin.ext hlen
      rw [GeoBlock.covers_iff, GeoBlock.size, hlen] at hcov
      rw [← BitVec.toNat_inj, GeoBlock.toNat_first, GeoBlock.toNat_first, GeoBlock.size, GeoBlock.size, hlen, hcov]
    obtain ⟨c', hstep⟩ := cidrStep_of_held hempty
    refine ⟨c', hrun.next hstep, fun ip => ?_, fun ip n hn hne => ?_⟩
    · rw [geoGet_cidr, hstep.longest hempty, ← geoGet_cidr, hget, lastNonzero_concat]
      intro n hlt hn
      by_contra hne
      obtain ⟨b', hb', hlen, -⟩ := hheld ip n hn hne
      have := hgrow b' hb' b (by simp)
      rw [Fin.le_def] at this
      omega
    · by_cases hb : n = b.len.val ∧ b.Covers ip
      · exact ⟨b, by simp, hb.1.symm, hb.2⟩
      · rw [hstep.held.2 ip n hn hb] at hne
        obtain ⟨b', hb', hlen, hcov⟩ := hheld ip n hn hne
        exact ⟨b', List.mem_append_left _ hb', hlen, hcov⟩

end Fnsproxy
