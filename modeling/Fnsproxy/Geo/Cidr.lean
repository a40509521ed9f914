import Fnsproxy.Geo.Parse

/-!
# What `parse_cidr` accepts

* `PrefixLen`, `CidrText` : a prefix length written out, the texts of blocks;
* `ReadsGrammar` : what is expected of `parse_cidr`;
* `Misread` : the suffixes that are no prefix length and are taken for one;
* `parseCidr_grammar_iff` : **`parse_cidr` accepts the texts of blocks and no others exactly if what
  follows the slash is not misread**.
-/

namespace Fnsproxy
open Word BitPrefix CString

/-- A decimal number of nothing but digits, at most 32. -/
def PrefixLen (p : Str) : Prop := p ≠ [] ∧ (∀ c ∈ p, isDigit c = true) ∧ decimal p ≤ 32

/-- The text of a block: an address without a slash, or one with a prefix length behind a slash. -/
inductive CidrText : Str → U32 → Nat → Prop where
  | address {s : Str} {addr : U32} (hs : (0x2f : U8) ∉ s) (ha : inetAton s = some addr) : CidrText s addr 32
  | withLength {s p : Str} {addr : U32} (hs : (0x2f : U8) ∉ s) (ha : inetAton s = some addr) (hp : PrefixLen p) :
      CidrText (s ++ 0x2f :: p) addr (decimal p)

/-- The string is accepted exactly if it is the text of a block, and read as that block. -/
def ReadsGrammar (s : Str) : Prop :=
  ∀ b : CidrBlock, parseCidr s = some b ↔ ∃ n, CidrText s b.addr n ∧ b.mask = leadingMask 32 n

/-- The number at the front of a string that is no prefix length comes to at most 32 in 32 bits. -/
def Misread (p : Str) : Prop := ¬ PrefixLen p ∧ clampLong (leadingNumber p) % 2 ^ 32 ≤ 32

/-! ## The first slash -/

theorem cut_eq_none {c : U8} {s : Str} (h : c ∉ s) : cut c s = none := by
  have hdrop : s.dropWhile (· ≠ c) = [] := by
    rw [List.dropWhile_eq_nil_iff]
    intro x hx
    simp only [decide_eq_true_eq]
    rintro rfl
    exact h hx
  unfold cut
  rw [hdrop]

theorem cut_append {c : U8} {s : Str} (h : c ∉ s) (p : Str) : cut c (s ++ c :: p) = some (s, p) := by
  have hpos : ∀ x ∈ s, decide (x ≠ c) = true := by
    intro x hx
    simp only [decide_eq_true_eq]
    rintro rfl
    exact h hx
  unfold cut
  rw [List.dropWhile_append_of_pos hpos, List.dropWhile_cons_of_neg (by simp), List.takeWhile_append_of_pos hpos,
    List.takeWhile_cons_of_neg (by simp), List.append_nil]

theorem slash_inj {s s' p p' : Str} (h : (0x2f : U8) ∉ s) (h' : (0x2f : U8) ∉ s') (heq : s ++ 0x2f :: p = s' ++ 0x2f :: p') :
    s = s' ∧ p = p' := by
  have := cut_append h p
  rw [heq, cut_append h' p'] at this
  cases this
  exact ⟨rfl, rfl⟩

/-! ## The branches of `parse_cidr` -/

theorem CidrBlock.eq_of {b b' : CidrBlock} (ha : b.addr = b'.addr) (hm : b.mask = b'.mask) : b = b' := by
  cases b
  cases b'
  cases ha
  cases hm
  rfl

/-- A string without a slash. The broadcast address reads as `inet_aton` reads it. -/
theorem parseCidr_address {s : Str} (h : (0x2f : U8) ∉ s) (b : CidrBlock) :
    parseCidr s = some b ↔ inetAton s = some b.addr ∧ b.mask = leadingMask 32 32 := by
  unfold parseCidr
  by_cases hb : s = wordBroadcast
  · have haton : inetAton s = some 0xffffffff := by
      rw [hb]
      decide
    rw [if_pos hb, haton, Option.some.injEq, Option.some.injEq]
    constructor
    · rintro rfl
      exact ⟨rfl, rfl⟩
    · exact fun ⟨ha, hm⟩ => CidrBlock.eq_of ha hm.symm
  · rw [if_neg hb, cut_eq_none h]
    simp only [Option.map_eq_some_iff]
    constructor
    · rintro ⟨addr, ha, rfl⟩
      exact ⟨ha, rfl⟩
    · exact fun ⟨ha, hm⟩ => ⟨b.addr, ha, CidrBlock.eq_of rfl hm.symm⟩

theorem parseCidr_slash {s : Str} (h : (0x2f : U8) ∉ s) (p : Str) (b : CidrBlock) :
    parseCidr (s ++ 0x2f :: p) = some b ↔
      inetAton s = some b.addr ∧ (atoi p).toNat ≤ 32 ∧ b.mask = leadingMask 32 (atoi p).toNat := by
  have hb : s ++ 0x2f :: p ≠ wordBroadcast := by
    intro heq
    have : (0x2f : U8) ∈ wordBroadcast := heq ▸ List.mem_append_right _ List.mem_cons_self
    exact absurd this (by decide)
  unfold parseCidr
  rw [if_neg hb, cut_append h]
  simp only []
  cases inetAton s with
  | none => simp
  | some addr =>
    by_cases hle : (atoi p).toNat ≤ 32
    · simp only []
      rw [dif_pos hle, Option.some.injEq, Option.some.injEq]
      constructor
      · rintro rfl
        exact ⟨rfl, hle, parseMask_eq hle⟩
      · exact fun ⟨ha, _, hm⟩ => CidrBlock.eq_of ha ((parseMask_eq hle).trans hm.symm)
    · simp only []
      rw [dif_neg hle]
      exact iff_of_false (by simp) fun h => hle h.2.1

/-! ## The grammar -/

theorem cidrText_address {s : Str} (h : (0x2f : U8) ∉ s) (addr : U32) (n : Nat) :
    CidrText s addr n ↔ inetAton s = some addr ∧ n = 32 := by
  constructor
  · intro ht
    cases ht with
    | address _ ha => exact ⟨ha, rfl⟩
    | withLength _ _ _ => exact absurd (List.mem_append_right _ List.mem_cons_self) h
  · rintro ⟨ha, rfl⟩
    exact .address h ha

theorem cidrText_slash {s : Str} (h : (0x2f : U8) ∉ s) (p : Str) (addr : U32) (n : Nat) :
    CidrText (s ++ 0x2f :: p) addr n ↔ inetAton s = some addr ∧ PrefixLen p ∧ n = decimal p := by
  constructor
  · intro ht
    generalize heq : s ++ 0x2f :: p = q at ht
    cases ht with
    | address hs _ => exact absurd (heq ▸ List.mem_append_right _ List.mem_cons_self) hs
    | withLength hs ha hp =>
      obtain ⟨rfl, rfl⟩ := slash_inj h hs heq
      exact ⟨ha, hp, rfl⟩
  · rintro ⟨ha, hp, rfl⟩
    exact .withLength h ha hp

theorem atoi_prefixLen {p : Str} (h : PrefixLen p) : (atoi p).toNat = decimal p := by
  obtain ⟨-, hdigits, hle⟩ := h
  rw [atoi_eq, leadingNumber_of_digits hdigits, BitVec.toNat_ofInt, clampLong]
  omega

/-- **`parse_cidr`** accepts the texts of blocks and no others exactly if, behind an address and the
first slash, there is nothing that it misreads. -/
theorem parseCidr_grammar_iff (s : Str) :
    ReadsGrammar s ↔ ∀ a p, s = a ++ 0x2f :: p → (0x2f : U8) ∉ a → (inetAton a).isSome → ¬ Misread p := by
  by_cases hs : (0x2f : U8) ∈ s
  · obtain ⟨a, p, rfl, ha⟩ := List.eq_append_cons_of_mem hs
    have hsplit : (∀ a' p', a ++ 0x2f :: p = a' ++ 0x2f :: p' → (0x2f : U8) ∉ a' → (inetAton a').isSome → ¬ Misread p') ↔
        ((inetAton a).isSome → ¬ Misread p) := by
      constructor
      · exact fun h hsome => h a p rfl ha hsome
      · intro h a' p' heq ha'
        obtain ⟨rfl, rfl⟩ := slash_inj ha ha' heq
        exact h
    rw [hsplit]
    unfold ReadsGrammar
    simp only [parseCidr_slash ha, cidrText_slash ha]
    cases hat : inetAton a with
    | none => simp
    | some addr =>
      by_cases hp : PrefixLen p
      · have hle : decimal p ≤ 32 := hp.2.2
        refine iff_of_true (fun b => ?_) (fun _ hmis => hmis.1 hp)
        rw [atoi_prefixLen hp]
        simp [hp, hle]
      · have hmis : Misread p ↔ (atoi p).toNat ≤ 32 := by
          rw [atoi_le_iff (by decide), Misread]
          exact ⟨And.right, fun h => ⟨hp, h⟩⟩
        rw [hmis]
        constructor
        · intro h _ hle
          have := (h ⟨addr, parseMask (atoi p).toNat, contiguous_parseMask hle⟩).mp ⟨rfl, hle, parseMask_eq hle⟩
          simp [hp] at this
        · intro h b
          simp [hp, h rfl]
  · refine iff_of_true (fun b => ?_) fun a p heq => ?_
    · rw [parseCidr_address hs]
      simp only [cidrText_address hs]
      simp
    · exact absurd (heq ▸ List.mem_append_right _ List.mem_cons_self) hs

/-- `1.2.3.4/` is accepted as the block of all addresses. -/
theorem not_readsGrammar : ∃ b, parseCidr [0x31, 0x2e, 0x32, 0x2e, 0x33, 0x2e, 0x34, 0x2f] = some b ∧ b.mask = 0 ∧
    ¬ ReadsGrammar [0x31, 0x2e, 0x32, 0x2e, 0x33, 0x2e, 0x34, 0x2f] := by
  have hres : parseCidr [0x31, 0x2e, 0x32, 0x2e, 0x33, 0x2e, 0x34, 0x2f] =
      some ⟨0x01020304, parseMask 0, contiguous_parseMask (by decide)⟩ := rfl
  refine ⟨_, hres, rfl, fun h => ?_⟩
  obtain ⟨n, htext, -⟩ := (h _).mp hres
  obtain ⟨-, hp, -⟩ := (cidrText_slash (s := [0x31, 0x2e, 0x32, 0x2e, 0x33, 0x2e, 0x34]) (by decide) [] _ n).mp htext
  exact hp.1 rfl

end Fnsproxy
