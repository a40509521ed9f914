import Fnsproxy.Radix.Lpm
import Mathlib.Data.Finset.Card
import Mathlib.Data.Finset.Filter
import Mathlib.Order.Interval.Finset.Nat

/-!
# `radix_tree_free`

* `radixDescendStep`, `radixFreeStep`, `radixTreeFree` : the loops of the source, with the addresses
  handed to `free` in their order;
* `FreesAll` : every node is freed once, children before their parent and the root last;
* `radixFree_spec` : on a shaped tree the traversal does that, in as many rounds as there are nodes;
* `RadixCall`, `RadixTreeT.calls` : inserts and deletes with any mask, `exists_endsAt` : which act like
  those of a prefix;
* `radixTreeFree_freesAll` : **after every run `radix_tree_free` returns and frees all nodes this way**.
-/

namespace Fnsproxy
open Word BitPrefix

/-! ## The traversal -/

/-- A round of "Traverse to the end of trie". -/
def radixDescendStep (t : RadixTreeT) (node : Nat) : WhileLoop.Next Nat (Option Nat) :=
  match t.nodes node with
  | none => .done none
  | some n =>
    match n.left with
    | some left => .again left
    | none =>
      match n.right with
      | some right => .again right
      | none => .done (some node)

/-- A round of `radix_tree_free` at `node`, after the addresses `freed` have been freed: end at the
root without leaves, or free a leaf below `node` and go on from its parent. -/
def radixFreeStep : RadixTreeT × Nat × List Nat →
    WhileLoop.Next (RadixTreeT × Nat × List Nat) (Option (RadixTreeT × List Nat))
  | (t, node, freed) =>
    match t.nodes node with
    | none => .done none
    | some n =>
      if n.left = none ∧ n.right = none ∧ n.parent = none then .done (some (t.free node, freed ++ [node]))
      else
        match WhileLoop.run (radixDescendStep t) walkRounds node with
        | some (some leaf) =>
          match t.nodes leaf with
          | none => .done none
          | some m =>
            match m.parent with
            | none => .done none
            | some p =>
              match t.nodes p with
              | none => .done none
              | some pn =>
                let pn := if pn.right = some leaf then { pn with right := none } else { pn with left := none }
                .again ((t.write p pn).free leaf, p, freed ++ [leaf])
        | _ => .done none

/-- `radix_tree_free`: the heap it leaves, and what it has handed to `free`. -/
def radixTreeFree (fuel : Nat) (t : RadixTreeT) : Option (RadixTreeT × List Nat) :=
  (WhileLoop.run radixFreeStep fuel (t, t.root, [])).join

/-- Freeing `freed` in that order takes every node of `t` away once, a child before its parent and the
root last, and leaves `t'` without nodes. -/
structure FreesAll (t t' : RadixTreeT) (freed : List Nat) : Prop where
  once : freed.Nodup
  mem : ∀ p, p ∈ freed ↔ ∃ n, t.nodes p = some n
  order : ∀ {q n p}, t.nodes q = some n → n.parent = some p → [q, p].Sublist freed
  last : freed.getLast? = some t.root
  empty : ∀ p, t'.nodes p = none

/-! ## One round -/

variable {t : RadixTreeT} {A : Layout} {π : List Bool} {p : Nat} {v : U32}

/-- The way down from a node ends at a leaf below it. -/
theorem radixDescend_spec (h : Shaped t A) : ∀ (k : Nat) {π : List Bool} {p fuel : Nat} {v : U32},
    A π = some (p, v) → 32 ≤ π.length + k → k < fuel →
    ∃ ρ q w, A ρ = some (q, w) ∧ (∀ c, A (c :: ρ) = none) ∧ π.length ≤ ρ.length ∧
      WhileLoop.run (radixDescendStep t) fuel p = some (some q) := by
  intro k
  induction k with
  | zero =>
    intro π p fuel v hA hk hfuel
    obtain ⟨fuel, rfl⟩ : ∃ f, fuel = f + 1 := ⟨fuel - 1, by omega⟩
    have hchild : ∀ c, A (c :: π) = none := fun c => h.depth _ (by rw [List.length_cons]; omega)
    refine ⟨π, p, v, hA, hchild, le_rfl, WhileLoop.run_done ?_ fuel⟩
    simp only [radixDescendStep, h.node hA, nodeOf, addr_eq_none.mpr (hchild _)]
  | succ k ih =>
    intro π p fuel v hA hk hfuel
    obtain ⟨fuel, rfl⟩ : ∃ f, fuel = f + 1 := ⟨fuel - 1, by omega⟩
    have hdown : ∀ {c q}, addr A (c :: π) = some q → radixDescendStep t p = .again q →
        ∃ ρ r w, A ρ = some (r, w) ∧ (∀ c, A (c :: ρ) = none) ∧ π.length ≤ ρ.length ∧
          WhileLoop.run (radixDescendStep t) (fuel + 1) p = some (some r) := by
      intro c q hq hstep
      obtain ⟨w, hw⟩ := addr_eq_some hq
      obtain ⟨ρ, r, x, hρ, hchild, hle, hrun⟩ := ih hw (by rw [List.length_cons]; omega) (Nat.lt_of_succ_lt_succ hfuel)
      rw [List.length_cons] at hle
      exact ⟨ρ, r, x, hρ, hchild, by omega, (WhileLoop.run_again hstep fuel).trans hrun⟩
    cases hl : addr A (false :: π) with
    | some q => exact hdown hl (by simp only [radixDescendStep, h.node hA, nodeOf, hl])
    | none =>
      cases hr : addr A (true :: π) with
      | some q => exact hdown hr (by simp only [radixDescendStep, h.node hA, nodeOf, hl, hr])
      | none =>
        refine ⟨π, p, v, hA, ?_, le_rfl, WhileLoop.run_done ?_ fuel⟩
        · intro c
          cases c
          · exact addr_eq_none.mp hl
          · exact addr_eq_none.mp hr
        · simp only [radixDescendStep, h.node hA, nodeOf, hl, hr]

/-- The end of the algorithm is reached at the root, when no other node is left. -/
theorem alone_iff (h : Shaped t A) (hA : A π = some (p, v)) :
    (nodeOf A π v).left = none ∧ (nodeOf A π v).right = none ∧ (nodeOf A π v).parent = none ↔
      π = [] ∧ ∀ c, A [c] = none := by
  constructor
  · rintro ⟨hl, hr, hp⟩
    cases π with
    | nil =>
      refine ⟨rfl, fun c => ?_⟩
      cases c
      · exact addr_eq_none.mp hl
      · exact addr_eq_none.mp hr
    | cons b π =>
      have hnone := h.closed b π (addr_eq_none.mp hp)
      rw [hA] at hnone
      cases hnone
  · rintro ⟨rfl, hc⟩
    exact ⟨addr_eq_none.mpr (hc false), addr_eq_none.mpr (hc true), rfl⟩

theorem FreesAll.root (h : Shaped t A) (hc : ∀ c, A [c] = none) : FreesAll t (t.free t.root) [t.root] := by
  obtain ⟨v, hr⟩ := h.root
  have honly : ∀ π, π ≠ [] → A π = none := by
    intro π
    induction π with
    | nil => exact fun hne => absurd rfl hne
    | cons b π ih =>
      intro _
      cases π with
      | nil => exact hc b
      | cons c π => exact h.closed b _ (ih (by simp))
  have hroot : ∀ {q n}, t.nodes q = some n → q = t.root ∧ n.parent = none := by
    intro q n hn
    obtain ⟨π, w, hπ⟩ := h.only hn
    obtain rfl : π = [] := by
      by_contra hne
      rw [honly π hne] at hπ
      cases hπ
    obtain ⟨rfl, rfl⟩ := layout_inj hπ hr
    rw [h.node hr] at hn
    exact ⟨rfl, Option.some.inj hn ▸ rfl⟩
  refine ⟨List.nodup_singleton _, fun q => ?_, fun hn hp => ?_, rfl, fun q => ?_⟩
  · rw [List.mem_singleton]
    exact ⟨fun hq => ⟨_, hq ▸ h.node hr⟩, fun ⟨n, hn⟩ => (hroot hn).1⟩
  · rw [(hroot hn).2] at hp
    cases hp
  · by_cases hq : q = t.root
    · rw [hq, free_nodes_self]
    · rw [free_nodes_of_ne _ hq, Option.eq_none_iff_forall_ne_some]
      exact fun n hn => hq (hroot hn).1

theorem FreesAll.leaf {q : Nat} {w : U32} {pn : RadixNodeT} {t' : RadixTreeT} {rest : List Nat} (h : Shaped t A)
    (hp : A π = some (p, v)) {b : Bool} (hq : A (b :: π) = some (q, w)) (hpar : pn.parent = (nodeOf A π v).parent)
    (hrest : FreesAll ((t.write p pn).free q) t' rest) : FreesAll t t' (q :: rest) := by
  have hqp : q ≠ p := by
    rintro rfl
    exact ne_cons_self b π (h.inj hp hq)
  have hkeep : ∀ {r n}, r ≠ q → t.nodes r = some n →
      ∃ m, ((t.write p pn).free q).nodes r = some m ∧ m.parent = n.parent := by
    intro r n hr hn
    rw [free_nodes_of_ne _ hr]
    by_cases hrp : r = p
    · subst hrp
      rw [h.node hp] at hn
      exact ⟨pn, write_nodes_self .., by rw [hpar, Option.some.inj hn]⟩
    · exact ⟨n, (write_nodes_of_ne _ hrp _).trans hn, rfl⟩
  have hgone : q ∉ rest := by
    rw [hrest.mem, free_nodes_self]
    rintro ⟨n, hn⟩
    cases hn
  have hother : ∀ {r}, r ≠ q → (r ∈ rest ↔ ∃ n, t.nodes r = some n) := by
    intro r hr
    rw [hrest.mem]
    constructor
    · rintro ⟨m, hm⟩
      rw [free_nodes_of_ne _ hr] at hm
      by_cases hrp : r = p
      · exact ⟨_, hrp ▸ h.node hp⟩
      · exact ⟨m, (write_nodes_of_ne _ hrp _).symm.trans hm⟩
    · rintro ⟨n, hn⟩
      obtain ⟨m, hm, -⟩ := hkeep hr hn
      exact ⟨m, hm⟩
  refine ⟨List.nodup_cons.mpr ⟨hgone, hrest.once⟩, fun r => ?_, fun {r n d} hn hd => ?_, ?_, hrest.empty⟩
  · rw [List.mem_cons]
    by_cases hr : r = q
    · exact ⟨fun _ => ⟨_, hr ▸ h.node hq⟩, fun _ => Or.inl hr⟩
    · rw [hother hr, or_iff_right hr]
  · by_cases hr : r = q
    · subst hr
      rw [h.node hq] at hn
      obtain rfl : p = d := by
        rw [← Option.some.inj hn] at hd
        exact Option.some.inj ((addr_eq hp).symm.trans hd)
      exact (List.singleton_sublist.mpr ((hother hqp.symm).mpr ⟨_, h.node hp⟩)).cons_cons r
    · obtain ⟨m, hm, hmn⟩ := hkeep hr hn
      exact (hrest.order hm (hmn.trans hd)).cons q
  · rw [List.getLast?_cons, hrest.last]
    rfl

/-! ## All rounds -/

/-- The addresses that hold a node. -/
def RadixTreeT.inUse (t : RadixTreeT) : Finset Nat := (Finset.range t.fresh).filter fun p => (t.nodes p).isSome

theorem mem_inUse (h : Shaped t A) {q : Nat} : q ∈ t.inUse ↔ ∃ n, t.nodes q = some n := by
  rw [RadixTreeT.inUse, Finset.mem_filter, Finset.mem_range, Option.isSome_iff_exists]
  constructor
  · exact And.right
  · rintro ⟨n, hn⟩
    obtain ⟨π, w, hπ⟩ := h.only hn
    exact ⟨h.fresh hπ, n, hn⟩

/-- From any of its nodes the traversal frees a shaped tree, a node a round. -/
theorem radixFree_spec : ∀ (k : Nat) {t : RadixTreeT} {A : Layout} {π : List Bool} {p : Nat} {v : U32}
    (freed : List Nat), t.inUse.card ≤ k → Shaped t A → A π = some (p, v) →
    ∃ t' rest, FreesAll t t' rest ∧ ∀ fuel, rest.length ≤ fuel →
      WhileLoop.run radixFreeStep fuel (t, p, freed) = some (some (t', freed ++ rest)) := by
  intro k
  induction k with
  | zero =>
    intro t A π p v freed hk h hA
    have hmem := (mem_inUse h).mpr ⟨_, h.node hA⟩
    rw [Finset.card_eq_zero.mp (Nat.le_zero.mp hk)] at hmem
    exact absurd hmem (Finset.notMem_empty p)
  | succ k ih =>
    intro t A π p v freed hk h hA
    by_cases halone : π = [] ∧ ∀ c, A [c] = none
    · obtain ⟨rfl, hc⟩ := halone
      obtain ⟨w, hr⟩ := h.root
      obtain ⟨rfl, -⟩ := layout_inj hA hr
      refine ⟨t.free t.root, [t.root], FreesAll.root h hc, fun fuel hfuel => ?_⟩
      obtain ⟨fuel, rfl⟩ : ∃ f, fuel = f + 1 := ⟨fuel - 1, by rw [List.length_singleton] at hfuel; omega⟩
      refine WhileLoop.run_done ?_ fuel
      simp only [radixFreeStep, h.node hA, if_pos ((alone_iff h hA).mpr ⟨rfl, hc⟩)]
    · obtain ⟨ρ, q, w, hq, hchild, hle, hdescend⟩ := radixDescend_spec h 32 hA (Nat.le_add_left 32 _)
        (show 32 < walkRounds by decide)
      obtain ⟨b, ρ, rfl⟩ : ∃ b σ, ρ = b :: σ := by
        apply List.exists_cons_of_ne_nil
        rintro rfl
        exact halone ⟨List.eq_nil_of_length_eq_zero (Nat.le_zero.mp hle), hchild⟩
      obtain ⟨pp, pv, pn, hpar, hpp, hpn, hshape⟩ := h.unlink hq hchild
      have hparent : pn.parent = (nodeOf A ρ pv).parent := by
        rw [hpn]
        split_ifs <;> rfl
      have hfewer : ((t.write pp pn).free q).inUse ⊂ t.inUse := by
        refine (Finset.ssubset_iff_of_subset fun r hr => ?_).mpr ⟨q, (mem_inUse h).mpr ⟨_, h.node hq⟩, ?_⟩
        · obtain ⟨n, hn⟩ := (mem_inUse hshape).mp hr
          obtain ⟨σ, x, hσ⟩ := hshape.only hn
          by_cases hσ' : σ = b :: ρ
          · rw [hσ', Function.update_self] at hσ
            cases hσ
          · rw [Function.update_of_ne hσ'] at hσ
            exact (mem_inUse h).mpr ⟨_, h.node hσ⟩
        · rw [mem_inUse hshape, free_nodes_self]
          rintro ⟨n, hn⟩
          cases hn
      have hstep : radixFreeStep (t, p, freed) = .again ((t.write pp pn).free q, pp, freed ++ [q]) := by
        have hq' : (nodeOf A (b :: ρ) w).parent = some pp := addr_eq hpar
        simp only [radixFreeStep, h.node hA, if_neg (mt (alone_iff h hA).mp halone), hdescend, h.node hq, hq',
          h.node hpar, hpn]
      obtain ⟨t', rest, hfrees, hrun⟩ := ih (freed ++ [q]) (by have := Finset.card_lt_card hfewer; omega) hshape
        ((Function.update_of_ne (ne_cons_self b ρ) none A).trans hpar)
      refine ⟨t', q :: rest, hfrees.leaf h hpar hq hparent, fun fuel hfuel => ?_⟩
      obtain ⟨fuel, rfl⟩ : ∃ f, fuel = f + 1 := ⟨fuel - 1, by rw [List.length_cons] at hfuel; omega⟩
      rw [WhileLoop.run_again hstep, hrun fuel (Nat.le_of_succ_le_succ hfuel), List.append_assoc, List.singleton_append]

/-! ## Any mask -/

/-- The walks with this mask end at depth `len`: it has `len` leading ones. -/
def EndsAt (mask : U32) (len : Nat) : Prop := ∀ d ≤ len, bitAt 32 d &&& mask = 0 ↔ d = len

theorem exists_endsAt (mask : U32) : ∃ len ≤ 32, EndsAt mask len := by
  have hex : ∃ d, mask.getMsbD d = false := ⟨32, BitVec.getMsbD_of_ge mask 32 le_rfl⟩
  refine ⟨Nat.find hex, Nat.find_min' hex (BitVec.getMsbD_of_ge mask 32 le_rfl), fun d hd => ?_⟩
  rw [BitVec.and_comm, and_bitAt_eq_zero]
  constructor
  · exact fun h => le_antisymm hd (Nat.find_min' hex h)
  · rintro rfl
    exact Nat.find_spec hex

theorem endsAt_leadingMask {len : Nat} (hlen : len ≤ 32) : EndsAt (leadingMask 32 len) len := by
  intro d hd
  rw [bitAt_and_leadingMask hlen]
  exact ⟨le_antisymm hd, Eq.ge⟩

section Masks
variable {mask mask' key value : U32} {len : Nat} {a : Allocs}

theorem EndsAt.test_congr (h : EndsAt mask len) (h' : EndsAt mask' len) {bit : U32}
    (hbit : ∃ d ≤ len, bit = bitAt 32 d) : bit &&& mask ≠ 0 ↔ bit &&& mask' ≠ 0 := by
  obtain ⟨d, hd, rfl⟩ := hbit
  rw [ne_eq, ne_eq, h d hd, h' d hd]

theorem EndsAt.next (h : EndsAt mask len) {bit : U32} (hbit : ∃ d ≤ len, bit = bitAt 32 d)
    (hset : bit &&& mask ≠ 0) : ∃ d ≤ len, bit >>> 1 = bitAt 32 d := by
  obtain ⟨d, hd, rfl⟩ := hbit
  exact ⟨d + 1, lt_of_le_of_ne hd (mt (h d hd).mpr hset), bitAt_succ 32 d⟩

theorem radixPlace_keeps (h : EndsAt mask len) {s s' : U32 × Nat × Option Nat} (hs : ∃ d ≤ len, s.1 = bitAt 32 d)
    (hstep : radixPlaceStep t key mask s = .again s') : ∃ d ≤ len, s'.1 = bitAt 32 d := by
  obtain ⟨bit, node, next⟩ := s
  by_cases hset : bit &&& mask ≠ 0
  · simp only [radixPlaceStep, if_pos hset] at hstep
    split at hstep
    · cases hstep
    · split at hstep
      · cases hstep
      · cases hstep
        exact h.next hs hset
  · simp only [radixPlaceStep, if_neg hset] at hstep
    cases hstep

theorem radixPlace_mask (h : EndsAt mask len) (h' : EndsAt mask' len) {fuel : Nat} {s : U32 × Nat × Option Nat}
    (hs : ∃ d ≤ len, s.1 = bitAt 32 d) :
    WhileLoop.run (radixPlaceStep t key mask) fuel s = WhileLoop.run (radixPlaceStep t key mask') fuel s := by
  refine WhileLoop.run_congr (fun s => ∃ d ≤ len, s.1 = bitAt 32 d) ?_ (fun s s' => radixPlace_keeps h) hs
  rintro ⟨bit, node, next⟩ hbit
  simp only [radixPlaceStep, h.test_congr h' hbit]

theorem radixPlace_bit (h : EndsAt mask len) {fuel : Nat} {s : U32 × Nat × Option Nat}
    (hs : ∃ d ≤ len, s.1 = bitAt 32 d) {bit : U32} {node : Nat} {next : Option Nat}
    (hrun : WhileLoop.run (radixPlaceStep t key mask) fuel s = some (some (bit, node, next))) :
    ∃ d ≤ len, bit = bitAt 32 d := by
  refine WhileLoop.run_rule (fun s => ∃ d ≤ len, s.1 = bitAt 32 d)
    (fun r => ∀ bit node next, r = some (bit, node, next) → ∃ d ≤ len, bit = bitAt 32 d) ?_ ?_ hs hrun _ _ _ rfl
  · exact fun s s' => radixPlace_keeps h
  · rintro ⟨bit, node, next⟩ r hbit hstep bit' node' next' rfl
    by_cases hset : bit &&& mask ≠ 0
    · simp only [radixPlaceStep, if_pos hset] at hstep
      split at hstep
      · cases hstep
      · split at hstep
        · cases hstep
          exact hbit
        · cases hstep
    · simp only [radixPlaceStep, if_neg hset] at hstep
      cases hstep
      exact hbit

theorem radixExtend_mask (h : EndsAt mask len) (h' : EndsAt mask' len) {fuel : Nat}
    {s : RadixTreeT × Allocs × U32 × Nat} (hs : ∃ d ≤ len, s.2.2.1 = bitAt 32 d) :
    WhileLoop.run (radixExtendStep key mask value) fuel s = WhileLoop.run (radixExtendStep key mask' value) fuel s := by
  refine WhileLoop.run_congr (fun s => ∃ d ≤ len, s.2.2.1 = bitAt 32 d) ?_ ?_ hs
  · rintro ⟨t, a, bit, node⟩ hbit
    simp only [radixExtendStep, h.test_congr h' hbit]
  · rintro ⟨t, a, bit, node⟩ s' hbit hstep
    by_cases hset : bit &&& mask ≠ 0
    · simp only [radixExtendStep, if_pos hset] at hstep
      split at hstep
      · cases hstep
      · split at hstep
        · cases hstep
        · cases hstep
          exact h.next hbit hset
    · simp only [radixExtendStep, if_neg hset] at hstep
      split at hstep
      · cases hstep
      · cases hstep

theorem radixWalk_mask (h : EndsAt mask len) (h' : EndsAt mask' len) {fuel : Nat} {s : U32 × Option Nat}
    (hs : ∃ d ≤ len, s.1 = bitAt 32 d) :
    WhileLoop.run (radixWalkStep t key mask) fuel s = WhileLoop.run (radixWalkStep t key mask') fuel s := by
  refine WhileLoop.run_congr (fun s => ∃ d ≤ len, s.1 = bitAt 32 d) ?_ ?_ hs
  · rintro ⟨bit, node⟩ hbit
    cases node with
    | none => rfl
    | some node => simp only [radixWalkStep, h.test_congr h' hbit]
  · rintro ⟨bit, node⟩ s' hbit hstep
    cases node with
    | none => cases hstep
    | some node =>
      by_cases hset : bit &&& mask ≠ 0
      · simp only [radixWalkStep, if_pos hset] at hstep
        split at hstep
        · cases hstep
        · cases hstep
          exact h.next hbit hset
      · simp only [radixWalkStep, if_neg hset] at hstep
        cases hstep

theorem topBit_endsAt : ∃ d ≤ len, topBit = bitAt 32 d := ⟨0, Nat.zero_le _, topBit_eq⟩

/-- `radix32tree_insert` sees only where the walks of its mask end. -/
theorem radix32treeInsert_mask (h : EndsAt mask len) (h' : EndsAt mask' len) :
    radix32treeInsert t key mask value a = radix32treeInsert t key mask' value a := by
  have hplace : WhileLoop.run (radixPlaceStep t key mask) walkRounds (topBit, t.root, some t.root) =
      WhileLoop.run (radixPlaceStep t key mask') walkRounds (topBit, t.root, some t.root) :=
    radixPlace_mask h h' topBit_endsAt
  unfold radix32treeInsert
  rw [← hplace]
  rcases hrun : WhileLoop.run (radixPlaceStep t key mask) walkRounds (topBit, t.root, some t.root) with
    _ | _ | ⟨bit, node, _ | next⟩
  · rfl
  · rfl
  · have hextend : WhileLoop.run (radixExtendStep key mask value) walkRounds (t, a, bit, node) =
        WhileLoop.run (radixExtendStep key mask' value) walkRounds (t, a, bit, node) :=
      radixExtend_mask h h' (radixPlace_bit h topBit_endsAt hrun)
    simp only [hextend]
  · rfl

theorem radix32treeDelete_mask (h : EndsAt mask len) (h' : EndsAt mask' len) :
    radix32treeDelete t key mask = radix32treeDelete t key mask' := by
  unfold radix32treeDelete
  rw [radixWalk_mask h h' topBit_endsAt]

end Masks

/-! ## Runs -/

/-- A call of `radix32tree_insert` or `radix32tree_delete`. -/
inductive RadixCall where
  | insert (key mask value : U32) (allocs : Allocs)
  | delete (key mask : U32)

/-- The tree after a call. -/
def RadixTreeT.call (t : RadixTreeT) : RadixCall → Option RadixTreeT
  | .insert key mask value allocs => (radix32treeInsert t key mask value allocs).map Prod.snd
  | .delete key mask => (radix32treeDelete t key mask).map Prod.snd

/-- The tree after one call after the other. -/
def RadixTreeT.calls (t : RadixTreeT) (cs : List RadixCall) : Option RadixTreeT := cs.foldlM RadixTreeT.call t

theorem call_shaped (h : Shaped t A) (c : RadixCall) : ∃ t' A', t.call c = some t' ∧ Shaped t' A' := by
  cases c with
  | insert key mask value allocs =>
    obtain ⟨len, hlen, hmask⟩ := exists_endsAt mask
    obtain ⟨ret, t', A', hrun, h', -⟩ := radix32treeInsert_spec h hlen key value allocs
    rw [parseMask_eq hlen, radix32treeInsert_mask (endsAt_leadingMask hlen) hmask] at hrun
    exact ⟨t', A', by rw [RadixTreeT.call, hrun, Option.map_some], h'⟩
  | delete key mask =>
    obtain ⟨len, hlen, hmask⟩ := exists_endsAt mask
    obtain ⟨ret, t', A', hrun, h', -⟩ := radix32treeDelete_spec h hlen key
    rw [parseMask_eq hlen, radix32treeDelete_mask (endsAt_leadingMask hlen) hmask] at hrun
    exact ⟨t', A', by rw [RadixTreeT.call, hrun, Option.map_some], h'⟩

theorem calls_shaped : ∀ (cs : List RadixCall) {t : RadixTreeT} {A : Layout}, Shaped t A →
    ∃ t' A', t.calls cs = some t' ∧ Shaped t' A' := by
  intro cs
  induction cs with
  | nil => exact fun {t A} h => ⟨t, A, rfl, h⟩
  | cons c cs ih =>
    intro t A h
    obtain ⟨t₁, A₁, hcall, h₁⟩ := call_shaped h c
    obtain ⟨t', A', hcalls, h'⟩ := ih h₁
    refine ⟨t', A', ?_, h'⟩
    rw [RadixTreeT.calls, List.foldlM_cons, hcall]
    exact hcalls

/-- **`radix_tree_free`**, after any inserts and deletes, returns and frees every node once, children
before their parent and the root last, and no round meets a node that has been freed. -/
theorem radixTreeFree_freesAll {a a' : Allocs} {t₀ : RadixTreeT} (h₀ : radixTreeCreate a = (some t₀, a'))
    (cs : List RadixCall) : ∃ t, t₀.calls cs = some t ∧ ∃ t' freed, FreesAll t t' freed ∧
      ∀ fuel, freed.length ≤ fuel → radixTreeFree fuel t = some (t', freed) := by
  obtain ⟨A₀, hshape, -⟩ := radixTreeCreate_shaped h₀
  obtain ⟨t, A, hcalls, h⟩ := calls_shaped cs hshape
  obtain ⟨v, hr⟩ := h.root
  obtain ⟨t', freed, hfrees, hrun⟩ := radixFree_spec _ [] le_rfl h hr
  refine ⟨t, hcalls, t', freed, hfrees, fun fuel hfuel => ?_⟩
  rw [radixTreeFree, hrun fuel hfuel]
  rfl

/-- Two leaves under one node, and a mask that is none of a prefix. -/
theorem radixTreeFree_freesAll_fork : ∃ t₀ a', radixTreeCreate (Stream'.const true) = (some t₀, a') ∧
    ∃ t, t₀.calls [.insert 0x40000000 0xc0000000 1 (Stream'.const true),
        .insert 0 0xc0000001 2 (Stream'.const true)] = some t ∧ ∃ t' freed, FreesAll t t' freed ∧
      ∀ fuel, freed.length ≤ fuel → radixTreeFree fuel t = some (t', freed) :=
  ⟨_, _, rfl, radixTreeFree_freesAll (a := Stream'.const true) rfl [.insert 0x40000000 0xc0000000 1 (Stream'.const true),
    .insert 0 0xc0000001 2 (Stream'.const true)]⟩

end Fnsproxy
