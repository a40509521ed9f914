import Fnsproxy.Geo.Cidr
import Fnsproxy.Radix.Delete

/-!
# When a CIDR directive is an upsert

* `Names` : the prefix a directive names;
* `Upserts` : what is expected of `geo_parse_cidr`;
* `insert_held`, `delete_held` : the calls it is made of, on the values prefixes hold;
* `geoParseCidr_upserts_iff` : **a directive is an upsert unless it is `default`, or names the root's
  prefix while that holds a value**.
-/

namespace Fnsproxy
open Word BitPrefix CString

/-- The prefix that the first word of a directive names. -/
def Names (cidr : Str) (addr : U32) (len : Nat) : Prop :=
  CidrText cidr addr len ∨ (cidr = wordDefault ∧ addr = 0 ∧ len = 0)

/-- Every other prefix holds what it held. -/
def OthersHold (t t' : RadixTreeT) (key : U32) (len : Nat) : Prop :=
  ∀ key' n, n ≤ 32 → (n, key' &&& parseMask n) ≠ (len, key &&& parseMask len) → t'.held key' n = t.held key' n

/-- The directive has returned 0, its prefix holds the value, and the others what they held. -/
def Upserts (c : CidrTable) (addr : U32) (len : Nat) (ipAddr : U32) (res : Int × CidrTable) : Prop :=
  res.1 = 0 ∧ res.2.tree.held addr len = ipAddr ∧ OthersHold c.tree res.2.tree addr len

variable {t : RadixTreeT} {A : Layout} {key addr value ipAddr : U32} {len : Nat} {a : Allocs}

theorem not_upserts_of_ret {c : CidrTable} {res : Int × CidrTable} (h : res.1 = -1) : ¬ Upserts c addr len ipAddr res := by
  rintro ⟨h0, -, -⟩
  rw [h] at h0
  cases h0

/-! ## Insert -/

/-- While there is memory, `radix32tree_insert` is refused by prefixes that hold a value, and by no others. -/
theorem radix32treeInsert_ret (h : Shaped t A) (hlen : len ≤ 32) (ha : Willing a) {ret : Int} {t' : RadixTreeT}
    (hres : radix32treeInsert t key (parseMask len) value a = some (ret, t')) :
    ret = 0 ↔ stored A (path key len) = radixNoValue := by
  obtain ⟨ret', t₁, A', hrun, -, -, hcases⟩ := radix32treeInsert_cases h hlen key value a
  cases hres.symm.trans hrun
  rcases hcases with ⟨hret, hzero, -⟩ | ⟨hret, hheld, -⟩ | ⟨-, hw, -⟩
  · exact iff_of_true hret hzero
  · exact iff_of_false (by rw [hret]; decide) hheld
  · exact absurd ha hw

namespace CidrTable

theorem ofCall_eq {o : Option (Int × RadixTreeT)} {h : ∃ x, o = some x ∧ ∃ A, Shaped x.2 A} {ret : Int} {t' : RadixTreeT}
    (ho : o = some (ret, t')) : (ofCall o h).1 = ret ∧ (ofCall o h).2.tree = t' := by
  subst ho
  exact ⟨rfl, rfl⟩

theorem insert_held (c : CidrTable) (b : CidrBlock) (hlen : len ≤ 32) (hmask : b.mask = parseMask len)
    (value : U32) (ha : Willing a) : OthersHold c.tree (c.insert b value a).2.tree b.addr len ∧
      ((c.tree.held b.addr len = radixNoValue ∧ (c.insert b value a).1 = 0 ∧
          (c.insert b value a).2.tree.held b.addr len = value) ∨
        (c.tree.held b.addr len ≠ radixNoValue ∧ (c.insert b value a).1 ≠ 0 ∧
          (c.insert b value a).2.tree.held b.addr len = c.tree.held b.addr len)) := by
  obtain ⟨A, h⟩ := c.shaped
  obtain ⟨ret, t', A', hres, h', hcases⟩ := radix32treeInsert_spec h hlen b.addr value a
  have hret := radix32treeInsert_ret h hlen ha hres
  rw [← hmask] at hres
  obtain ⟨h1, h2⟩ := ofCall_eq (h := c.insert_spec b value a) hres
  unfold insert
  rw [h1, h2, held_eq h hlen, held_eq h' hlen]
  refine ⟨fun key' n hn hne => ?_, ?_⟩
  · rw [held_eq h' hn, held_eq h hn]
    rcases hcases with ⟨-, hs⟩ | ⟨-, hs⟩
    · rw [hs, Function.update_of_ne (path_ne hn hne)]
    · rw [hs]
  · rcases hcases with ⟨hr, hs⟩ | ⟨hr, hs⟩
    · exact Or.inl ⟨hret.mp hr, hr, by rw [hs, Function.update_self]⟩
    · exact Or.inr ⟨fun hz => hr (hret.mpr hz), hr, by rw [hs]⟩

theorem delete_held (c : CidrTable) (b : CidrBlock) (hlen : len ≤ 32) (hmask : b.mask = parseMask len)
    (hheld : c.tree.held b.addr len ≠ radixNoValue) :
    (len = 0 ∧ (c.delete b).1 ≠ 0) ∨ (len ≠ 0 ∧ (c.delete b).1 = 0 ∧
      (c.delete b).2.tree.held b.addr len = radixNoValue ∧ OthersHold c.tree (c.delete b).2.tree b.addr len) := by
  obtain ⟨A, h⟩ := c.shaped
  obtain ⟨ret, t', A', hres, -, -⟩ := radix32treeDelete_spec h hlen b.addr
  have hret := radix32treeDelete_ret h hlen hres
  have htruthful := truthful_iff h hlen b.addr
  have hres' := hres
  rw [← hmask] at hres'
  obtain ⟨h1, h2⟩ := ofCall_eq (h := c.delete_spec b) hres'
  unfold delete
  rw [h1, h2]
  by_cases hzero : len = 0
  · refine Or.inl ⟨hzero, fun hr => ?_⟩
    obtain ⟨-, -, hne, -⟩ := hret.mp hr
    exact hne hzero
  · have hbare : ¬ BareLeaf c.tree b.addr len := by
      rintro ⟨-, n, hn, -, -, hv⟩
      exact hheld (by rw [RadixTreeT.held, hn, Option.map_some, Option.getD_some, hv])
    obtain ⟨ret₁, t₁, hres₁, hr, hgone, hothers⟩ := htruthful.mpr ⟨fun h0 => absurd h0 hzero, hbare⟩
    rw [hres] at hres₁
    cases hres₁
    exact Or.inr ⟨hzero, hr.mpr hheld, hgone, hothers⟩

end CidrTable

/-! ## The directive -/

theorem OthersHold.trans {t₁ t₂ t₃ : RadixTreeT} (h : OthersHold t₁ t₂ key len) (h' : OthersHold t₂ t₃ key len) :
    OthersHold t₁ t₃ key len := fun key' n hn hne => (h' key' n hn hne).trans (h key' n hn hne)

theorem geoParseCidrTries_succ (b : CidrBlock) (ipAddr : U32) (a : Nat → Allocs) (i : Nat) (c : CidrTable) :
    geoParseCidrTries b ipAddr a (i + 1) c =
      if (c.insert b ipAddr (a i)).1 = 0 then (0, (c.insert b ipAddr (a i)).2)
      else if ((c.insert b ipAddr (a i)).2.delete b).1 ≠ 0 then (-1, ((c.insert b ipAddr (a i)).2.delete b).2)
      else geoParseCidrTries b ipAddr a i ((c.insert b ipAddr (a i)).2.delete b).2 := rfl

/-- The tries, while there is memory: the second one is enough. -/
theorem geoParseCidrTries_upserts_iff (c : CidrTable) (b : CidrBlock) (hlen : len ≤ 32) (hmask : b.mask = parseMask len)
    (ipAddr : U32) {a : Nat → Allocs} (ha : ∀ i, Willing (a i)) (k : Nat) :
    Upserts c b.addr len ipAddr (geoParseCidrTries b ipAddr a (k + 2) c) ↔
      (len = 0 → c.tree.held b.addr len = radixNoValue) := by
  obtain ⟨hothers, ⟨hfree, hret, hput⟩ | ⟨hheld, hret, hkept⟩⟩ := c.insert_held b hlen hmask ipAddr (ha (k + 1))
  · rw [geoParseCidrTries_succ, if_pos hret]
    exact iff_of_true ⟨rfl, hput, hothers⟩ fun _ => hfree
  · rw [geoParseCidrTries_succ, if_neg hret]
    obtain ⟨c₁, hc₁⟩ : ∃ c₁, c₁ = (c.insert b ipAddr (a (k + 1))).2 := ⟨_, rfl⟩
    rw [← hc₁] at hothers hkept ⊢
    rcases c₁.delete_held b hlen hmask (hkept ▸ hheld) with ⟨hzero, hdel⟩ | ⟨hpos, hdel, hgone, hothers'⟩
    · rw [if_pos hdel]
      exact iff_of_false (not_upserts_of_ret rfl) fun h => hheld (h hzero)
    · rw [if_neg (not_not.mpr hdel)]
      obtain ⟨c₂, hc₂⟩ : ∃ c₂, c₂ = (c₁.delete b).2 := ⟨_, rfl⟩
      rw [← hc₂] at hgone hothers' ⊢
      obtain ⟨hothers₂, ⟨-, hret, hput⟩ | ⟨hheld', -, -⟩⟩ := c₂.insert_held b hlen hmask ipAddr (ha k)
      · rw [geoParseCidrTries_succ, if_pos hret]
        exact iff_of_true ⟨rfl, hput, (hothers.trans hothers').trans hothers₂⟩ fun h0 => absurd h0 hpos
      · exact absurd hgone hheld'

theorem parseCidr_of_text {cidr : Str} (h : CidrText cidr addr len) :
    ∃ b : CidrBlock, parseCidr cidr = some b ∧ b.addr = addr ∧ b.mask = parseMask len ∧ len ≤ 32 := by
  cases h with
  | address hs ha => exact ⟨⟨addr, parseMask 32, contiguous_parseMask (Nat.le_refl 32)⟩,
      (parseCidr_address hs _).mpr ⟨ha, rfl⟩, rfl, rfl, Nat.le_refl 32⟩
  | @withLength _ p _ hs ha hp =>
    have hat := atoi_prefixLen hp
    refine ⟨⟨addr, parseMask (decimal p), contiguous_parseMask hp.2.2⟩, (parseCidr_slash hs p _).mpr ⟨ha, ?_, ?_⟩,
      rfl, rfl, hp.2.2⟩
    · rw [hat]
      exact hp.2.2
    · rw [hat]
      exact parseMask_eq hp.2.2

/-- **`geo_parse_cidr`**, given a directive for a prefix and a value, while there is memory, is an upsert
exactly if the directive is not `default` and a value of the root's prefix is not to be replaced. -/
theorem geoParseCidr_upserts_iff (c : CidrTable) {cidr value : Str} (hcidr : Names cidr addr len)
    (hvalue : inetAton value = some ipAddr) {a : Nat → Allocs} (ha : ∀ i, Willing (a i)) :
    Upserts c addr len ipAddr (geoParseCidr c cidr value a) ↔
      cidr ≠ wordDefault ∧ (len = 0 → c.tree.held addr len = radixNoValue) := by
  unfold geoParseCidr
  rw [if_neg (by rw [hvalue]; simp)]
  by_cases hdef : cidr = wordDefault
  · have hnone : parseCidr wordDefault = none := rfl
    rw [hdef, if_neg (by decide), hnone]
    exact iff_of_false (not_upserts_of_ret rfl) fun h => h.1 rfl
  · obtain ⟨b, hb, rfl, hmask, hlen⟩ := parseCidr_of_text (hcidr.resolve_right fun h => hdef h.1)
    have hdel : cidr ≠ wordDelete := by
      rintro rfl
      cases hb
    rw [if_neg hdel, hb, hvalue]
    simp only [geoParseCidrTries_upserts_iff c b hlen hmask ipAddr ha 1]
    exact (and_iff_right hdef).symm

/-- The table `geo_load` makes for itself. -/
def CidrTable.empty : CidrTable := ⟨⟨Function.update (fun _ => none) 0 (some ⟨none, none, none, radixNoValue⟩), 1, 0,
  sizeofRadixNode⟩, by
    obtain ⟨A, h, -⟩ := radixTreeCreate_shaped (a := Stream'.const true) rfl
    exact ⟨A, h⟩⟩

/-- `1.2.3.4`. -/
def someAddress : Str := [0x31, 0x2e, 0x32, 0x2e, 0x33, 0x2e, 0x34]

/-- The table behind `1.2.3.4 1.2.3.4`. -/
def CidrTable.one : CidrTable := (geoParseCidr .empty someAddress someAddress fun _ => Stream'.const true).2

/-- `1.2.3.4 10.0.0.1` replaces the address. -/
theorem geoParseCidr_upserts_iff_replaced : Upserts .one 0x01020304 32 0x0a000001
    (geoParseCidr .one someAddress [0x31, 0x30, 0x2e, 0x30, 0x2e, 0x30, 0x2e, 0x31] fun _ => Stream'.const true) :=
  (geoParseCidr_upserts_iff .one (.inl (.address (by decide) rfl)) rfl fun _ _ => rfl).mpr
    ⟨by decide, fun h => absurd h (by decide)⟩

/-- `default 1.2.3.4` is refused. -/
theorem not_upserts : geoParseCidr .empty wordDefault someAddress (fun _ => Stream'.const true) = (-1, .empty) ∧
    Names wordDefault 0 0 ∧ inetAton someAddress = some 0x01020304 ∧
    ¬ Upserts .empty 0 0 0x01020304 (geoParseCidr .empty wordDefault someAddress fun _ => Stream'.const true) :=
  ⟨rfl, .inr ⟨rfl, rfl, rfl⟩, rfl, not_upserts_of_ret rfl⟩

end Fnsproxy
