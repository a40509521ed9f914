import Fnsproxy.Radix.Lpm

/-!
# When `radix32tree_delete` reports truthfully

* `nodeAt`, `held` : the node of a prefix, the value it holds;
* `Truthful` : what is expected of a delete;
* `BareLeaf` : the node of the prefix is a leaf without a value;
* `radix32treeDelete_truthful_iff` : **after every run, a delete reports truthfully unless it is the
  root's and that holds a value, or it meets a leaf without a value**.
-/

namespace Fnsproxy
open Word BitPrefix

variable {t : RadixTreeT} {A : Layout} {key : U32} {len : Nat}

/-- The node of a prefix, where the walk of a delete ends. -/
def RadixTreeT.nodeAt (t : RadixTreeT) (key : U32) (len : Nat) : Option RadixNodeT :=
  match WhileLoop.run (radixWalkStep t key (parseMask len)) walkRounds (topBit, some t.root) with
  | some (some (some node)) => t.nodes node
  | _ => none

/-- The value a prefix holds. -/
def RadixTreeT.held (t : RadixTreeT) (key : U32) (len : Nat) : U32 :=
  ((t.nodeAt key len).map RadixNodeT.value).getD radixNoValue

/-- The delete returns 0 exactly if the prefix holds a value, and takes away that value and no other. -/
def Truthful (t : RadixTreeT) (key : U32) (len : Nat) : Prop :=
  ∃ ret t', radix32treeDelete t key (parseMask len) = some (ret, t') ∧
    (ret = 0 ↔ t.held key len ≠ radixNoValue) ∧ t'.held key len = radixNoValue ∧
    ∀ key' n, n ≤ 32 → (n, key' &&& parseMask n) ≠ (len, key &&& parseMask len) → t'.held key' n = t.held key' n

/-- The node of the prefix lies below the root, has no children and no value. -/
def BareLeaf (t : RadixTreeT) (key : U32) (len : Nat) : Prop :=
  0 < len ∧ ∃ n, t.nodeAt key len = some n ∧ n.right = none ∧ n.left = none ∧ n.value = radixNoValue

theorem Truthful.of_ret (h : Truthful t key len) {ret : Int} {t' : RadixTreeT}
    (hres : radix32treeDelete t key (parseMask len) = some (ret, t')) :
    (ret = 0 ↔ t.held key len ≠ radixNoValue) ∧ t'.held key len = radixNoValue := by
  obtain ⟨ret₁, t₁, hres₁, hret, hgone, -⟩ := h
  rw [hres] at hres₁
  cases hres₁
  exact ⟨hret, hgone⟩

/-! ## Prefixes and paths -/

theorem walk_eq (h : Shaped t A) (hlen : len ≤ 32) (key : U32) :
    WhileLoop.run (radixWalkStep t key (parseMask len)) walkRounds (topBit, some t.root) =
      some (some (addr A (path key len))) := by
  obtain ⟨v, hr⟩ := h.root
  have hwalk := @radixWalk_spec t A key len h hlen len 0 walkRounds (by omega) (by unfold walkRounds; omega)
  rwa [path, addr_eq hr, ← topBit_eq, ← parseMask_eq hlen] at hwalk

theorem nodeAt_eq (h : Shaped t A) (hlen : len ≤ 32) (key : U32) :
    t.nodeAt key len = (A (path key len)).map fun x => nodeOf A (path key len) x.2 := by
  unfold RadixTreeT.nodeAt
  rw [walk_eq h hlen key, addr]
  cases hA : A (path key len) with
  | none => rfl
  | some x => exact h.node hA

theorem held_eq (h : Shaped t A) (hlen : len ≤ 32) (key : U32) : t.held key len = stored A (path key len) := by
  unfold RadixTreeT.held stored
  rw [nodeAt_eq h hlen key, Option.map_map]
  rfl

theorem path_ne {key' : U32} {n : Nat} (hn : n ≤ 32) (hne : (n, key' &&& parseMask n) ≠ (len, key &&& parseMask len)) :
    path key' n ≠ path key len := by
  intro hp
  obtain ⟨rfl, hk⟩ := path_inj hn hp
  rw [← parseMask_eq hn] at hk
  exact hne (by rw [hk])

theorem parent_nodeAt (h : Shaped t A) (hlen : len ≤ 32) {n : RadixNodeT} (hn : t.nodeAt key len = some n) :
    n.parent = none ↔ len = 0 := by
  rw [nodeAt_eq h hlen] at hn
  obtain ⟨⟨p, v⟩, hA, rfl⟩ := Option.map_eq_some_iff.mp hn
  cases len with
  | zero => exact iff_of_true rfl rfl
  | succ d =>
    refine iff_of_false (fun hpar => ?_) (Nat.succ_ne_zero d)
    have hnone : A (path key d) = none := addr_eq_none.mp hpar
    rw [path, h.closed _ _ hnone] at hA
    cases hA

/-! ## The delete -/

/-- `radix32tree_delete` returns 0 at every leaf and at every inner node with a value, the root apart. -/
theorem radix32treeDelete_ret (h : Shaped t A) (hlen : len ≤ 32) {ret : Int} {t' : RadixTreeT}
    (hres : radix32treeDelete t key (parseMask len) = some (ret, t')) :
    ret = 0 ↔ ∃ n, t.nodeAt key len = some n ∧ len ≠ 0 ∧
      (n.value = radixNoValue → n.right = none ∧ n.left = none) := by
  have hpar := fun n => @parent_nodeAt t A key len h hlen n
  unfold RadixTreeT.nodeAt at hpar ⊢
  unfold radix32treeDelete at hres
  rw [walk_eq h hlen key] at hres hpar ⊢
  cases hp : addr A (path key len) with
  | none =>
    rw [hp] at hres
    cases hres
    simp
  | some p =>
    rw [hp] at hres hpar
    obtain ⟨v, hv⟩ := addr_eq_some hp
    simp only [h.node hv, Option.some.injEq, forall_eq', exists_eq_left'] at hres hpar ⊢
    split_ifs at hres with h1 h2 h3
    · cases hres
      simp [hpar.mp h1]
    · cases hres
      simp [h3, (not_congr hpar).mp h1]
    · cases hres
      simp only [Int.reduceNeg, Int.reduceEq, false_iff, not_and, not_forall]
      refine fun _ => ⟨not_not.mp h3, ?_⟩
      simpa [Option.isSome_iff_ne_none, or_iff_not_imp_left] using h2
    · split at hres
      · cases hres
      · cases hres
        simpa [(not_congr hpar).mp h1] using fun _ => h2

theorem truthful_iff (h : Shaped t A) (hlen : len ≤ 32) (key : U32) :
    Truthful t key len ↔ (len = 0 → t.held key len = radixNoValue) ∧ ¬ BareLeaf t key len := by
  obtain ⟨ret, t', A', hres, h', hcases⟩ := radix32treeDelete_spec h hlen key
  have hret := radix32treeDelete_ret h hlen hres
  have hheld : ∀ {n}, t.nodeAt key len = some n → t.held key len = n.value := by
    intro n hn
    rw [RadixTreeT.held, hn]
    rfl
  have hframe : ∀ key' n, n ≤ 32 → (n, key' &&& parseMask n) ≠ (len, key &&& parseMask len) →
      t'.held key' n = t.held key' n := by
    intro key' n hn hne
    rw [held_eq h' hn, held_eq h hn]
    rcases hcases with ⟨-, hs⟩ | ⟨-, hs⟩
    · rw [hs, Function.update_of_ne (path_ne hn hne)]
    · rw [hs]
  have htruthful : Truthful t key len ↔
      (ret = 0 ↔ t.held key len ≠ radixNoValue) ∧ t'.held key len = radixNoValue := by
    constructor
    · exact fun hT => hT.of_ret hres
    · exact fun ⟨h1, h2⟩ => ⟨ret, t', hres, h1, h2, hframe⟩
  rw [htruthful]
  rcases hcases with ⟨hr0, hs⟩ | ⟨hr1, hs⟩
  · obtain ⟨n, hn, hpos, hleaf⟩ := hret.mp hr0
    have hgone : t'.held key len = radixNoValue := by rw [held_eq h' hlen, hs, Function.update_self]
    have hbare : BareLeaf t key len ↔ n.value = radixNoValue := by
      constructor
      · rintro ⟨-, m, hm, -, -, hv⟩
        rw [hn] at hm
        cases hm
        exact hv
      · exact fun hv => ⟨Nat.pos_of_ne_zero hpos, n, hn, (hleaf hv).1, (hleaf hv).2, hv⟩
    rw [hbare, hheld hn]
    simp [hgone, hr0, hpos]
  · have hkept : t'.held key len = t.held key len := by rw [held_eq h' hlen, held_eq h hlen, hs]
    have hrefused : ∀ n, t.nodeAt key len = some n → len ≠ 0 →
        n.value = radixNoValue ∧ ¬ (n.right = none ∧ n.left = none) := by
      intro n hn hpos
      have := mt hret.mpr (by rw [hr1]; decide)
      by_contra hno
      exact this ⟨n, hn, hpos, fun hv => by_contra fun hch => hno ⟨hv, hch⟩⟩
    have hbare : ¬ BareLeaf t key len := by
      rintro ⟨hpos, n, hn, hright, hleft, -⟩
      exact (hrefused n hn hpos.ne').2 ⟨hright, hleft⟩
    have hzero : len ≠ 0 → t.held key len = radixNoValue := by
      intro hpos
      cases hn : t.nodeAt key len with
      | none => rw [RadixTreeT.held, hn]; rfl
      | some n => rw [hheld hn, (hrefused n hn hpos).1]
    rw [hkept]
    simp only [hr1, hbare, not_false_eq_true, and_true, Int.reduceNeg, Int.reduceEq, false_iff, not_not, and_self, ne_eq]
    exact ⟨fun hv _ => hv, fun hv => (eq_or_ne len 0).elim hv hzero⟩

/-- **`radix32tree_delete`**, after any run, reports truthfully exactly if the root is not deleted while
it holds a value and the prefix's node is no leaf without a value. -/
theorem radix32treeDelete_truthful_iff {a a' : Allocs} {t₀ : RadixTreeT} (h₀ : radixTreeCreate a = (some t₀, a'))
    {ops : List RadixOp} {log : List (RadixOp × Int)} (hrun : radixRun t₀ ops = some (t, log)) (key : U32)
    {len : Nat} (hlen : len ≤ 32) :
    Truthful t key len ↔ (len = 0 → t.held key len = radixNoValue) ∧ ¬ BareLeaf t key len := by
  obtain ⟨A₀, hshape, hstores⟩ := radixTreeCreate_shaped h₀
  obtain ⟨t', log', A, hrun', -, h, -⟩ := radixRun_spec ops t₀ A₀ _ hshape hstores
  rw [hrun] at hrun'
  cases hrun'
  exact truthful_iff h hlen key

/-- A block with a value inside another. -/
theorem radix32treeDelete_truthful_iff_nested : ∃ t₀ a', radixTreeCreate (Stream'.const true) = (some t₀, a') ∧
    ∃ t log, radixRun t₀ [.insert 0x0a000000 8 0x01010101 (Stream'.const true),
        .insert 0x0a010000 16 0x02020202 (Stream'.const true)] = some (t, log) ∧ Truthful t 0x0a000000 8 := by
  refine ⟨_, _, rfl, _, _, rfl, (@radix32treeDelete_truthful_iff _ (Stream'.const true) _ _ rfl
    [.insert 0x0a000000 8 0x01010101 (Stream'.const true), .insert 0x0a010000 16 0x02020202 (Stream'.const true)] _
    rfl 0x0a000000 _ (by decide)).mpr ⟨by decide, ?_⟩⟩
  rintro ⟨-, n, hn, -, hleft, -⟩
  cases hn
  cases hleft

/-- A value at the root cannot be deleted, and a leaf that has been given no value can. -/
theorem not_truthful : ∃ t₀ a', radixTreeCreate (Stream'.const true) = (some t₀, a') ∧
    ∃ t log, radixRun t₀ [.insert 0 0 0x01010101 (Stream'.const true),
        .insert 0x80000000 1 radixNoValue (Stream'.const true)] = some (t, log) ∧
      (radix32treeDelete t 0 (parseMask 0) = some (-1, t) ∧ t.held 0 0 = 0x01010101 ∧ ¬ Truthful t 0 0) ∧
      (∃ t', radix32treeDelete t 0x80000000 (parseMask 1) = some (0, t')) ∧ t.held 0x80000000 1 = radixNoValue ∧
        ¬ Truthful t 0x80000000 1 := by
  refine ⟨_, _, rfl, _, _, rfl, ⟨rfl, rfl, fun h => ?_⟩, ⟨_, rfl⟩, rfl, fun h => ?_⟩
  · exact absurd (h.of_ret rfl).2 (by decide)
  · exact (h.of_ret rfl).1.mp rfl rfl

end Fnsproxy
