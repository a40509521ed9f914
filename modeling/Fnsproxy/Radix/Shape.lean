import Fnsproxy.Radix.Defs

/-!
# The shape of the trie

A layout says which paths from the root have a node, where it lives and what it stores.

* `Layout`, `addr`, `stored` : address and value of the node of a path;
* `Shaped t A` : the heap of `t` is laid out as `A`, links and parent links included;
* `Shaped.setValue`, `Shaped.extend`, `Shaped.prune` : the three ways the heap changes;
* `Shaped.unlink` : a leaf unlinked through its parent link, as the loops of the source do it;
* `Grown`, `Shrunk` : what inserts and deletes make of the nodes; `Useless` : a node that nothing needs;
* `child_nodeOf`, `link_nodeOf` : one step of a walk.
-/

namespace Fnsproxy
open Word BitPrefix

/-- The node of each path (its last bit first): where it lives and the value it holds. -/
abbrev Layout := List Bool → Option (Nat × U32)

/-- Where the node of a path lives. -/
def addr (A : Layout) (π : List Bool) : Option Nat := (A π).map Prod.fst

/-- The value stored under a path, `RADIX_NO_VALUE` when there is no node. -/
def stored (A : Layout) (π : List Bool) : U32 := ((A π).map Prod.snd).getD radixNoValue

/-- Where the parent of the node of a path lives. -/
def parentOf (A : Layout) : List Bool → Option Nat
  | [] => none
  | _ :: π => addr A π

/-- The node of a path, as its links and its value make it. -/
def nodeOf (A : Layout) (π : List Bool) (v : U32) : RadixNodeT :=
  ⟨addr A (true :: π), addr A (false :: π), parentOf A π, v⟩

/-- The heap of `t` is laid out as `A`. -/
structure Shaped (t : RadixTreeT) (A : Layout) : Prop where
  root : ∃ v, A [] = some (t.root, v)
  closed : ∀ b π, A π = none → A (b :: π) = none
  inj : ∀ {π π' p v v'}, A π = some (p, v) → A π' = some (p, v') → π = π'
  node : ∀ {π p v}, A π = some (p, v) → t.nodes p = some (nodeOf A π v)
  only : ∀ {p n}, t.nodes p = some n → ∃ π v, A π = some (p, v)
  depth : ∀ π, 32 < π.length → A π = none
  fresh : ∀ {π p v}, A π = some (p, v) → p < t.fresh

theorem layout_inj {A : Layout} {π : List Bool} {p q : Nat} {v w : U32} (h : A π = some (p, v))
    (h' : A π = some (q, w)) : p = q ∧ v = w :=
  Prod.mk.inj (Option.some.inj (h.symm.trans h'))

theorem addr_eq {A : Layout} {π : List Bool} {p : Nat} {v : U32} (h : A π = some (p, v)) :
    addr A π = some p := by
  rw [addr, h, Option.map_some]

theorem addr_eq_some {A : Layout} {π : List Bool} {p : Nat} (h : addr A π = some p) :
    ∃ v, A π = some (p, v) := by
  obtain ⟨⟨q, v⟩, hq, rfl⟩ := Option.map_eq_some_iff.mp h
  exact ⟨v, hq⟩

theorem addr_eq_none {A : Layout} {π : List Bool} : addr A π = none ↔ A π = none := Option.map_eq_none_iff

theorem stored_eq {A : Layout} {π : List Bool} {p : Nat} {v : U32} (h : A π = some (p, v)) :
    stored A π = v := by
  rw [stored, h, Option.map_some, Option.getD_some]

theorem stored_eq_zero {A : Layout} {π : List Bool} (h : A π = none) : stored A π = radixNoValue := by
  rw [stored, h, Option.map_none, Option.getD_none]

theorem addr_update (A : Layout) (π ρ : List Bool) (x : Option (Nat × U32)) :
    addr (Function.update A π x) ρ = if ρ = π then x.map Prod.fst else addr A ρ := by
  unfold addr
  by_cases h : ρ = π
  · rw [h, Function.update_self, if_pos rfl]
  · rw [Function.update_of_ne h, if_neg h]

theorem stored_update (A : Layout) (π : List Bool) (x : Option (Nat × U32)) :
    stored (Function.update A π x) = Function.update (stored A) π ((x.map Prod.snd).getD radixNoValue) := by
  funext ρ
  by_cases h : ρ = π
  · rw [h, Function.update_self, stored, Function.update_self]
  · rw [Function.update_of_ne h, stored, Function.update_of_ne h, stored]

theorem nodeOf_congr {A B : Layout} (h : addr A = addr B) : nodeOf A = nodeOf B := by
  funext π v
  have hp : parentOf A π = parentOf B π := by
    cases π with
    | nil => rfl
    | cons b π => exact congrFun h π
  rw [nodeOf, nodeOf, h, hp]

theorem nodeOf_leaf_iff (A : Layout) (π : List Bool) (v : U32) :
    ¬ ((nodeOf A π v).right.isSome ∨ (nodeOf A π v).left.isSome) ↔ ∀ c, A (c :: π) = none := by
  rw [not_or, Option.not_isSome_iff_eq_none, Option.not_isSome_iff_eq_none, nodeOf, addr_eq_none, addr_eq_none]
  exact and_comm.trans (Bool.forall_bool (p := fun c => A (c :: π) = none)).symm

theorem ne_cons_self (b : Bool) (π : List Bool) : π ≠ b :: π := fun h => by
  have := congrArg List.length h
  simp at this

section Updates
variable {t : RadixTreeT} {A : Layout} {π : List Bool} {p : Nat} {v : U32}

@[simp] theorem write_nodes_self (t : RadixTreeT) (p : Nat) (n : RadixNodeT) : (t.write p n).nodes p = some n :=
  Function.update_self ..

theorem write_nodes_of_ne (t : RadixTreeT) {p q : Nat} (h : q ≠ p) (n : RadixNodeT) :
    (t.write p n).nodes q = t.nodes q := Function.update_of_ne h ..

@[simp] theorem free_nodes_self (t : RadixTreeT) (p : Nat) : (t.free p).nodes p = none :=
  Function.update_self ..

theorem free_nodes_of_ne (t : RadixTreeT) {p q : Nat} (h : q ≠ p) : (t.free p).nodes q = t.nodes q :=
  Function.update_of_ne h ..

theorem Shaped.setValue (h : Shaped t A) (hA : A π = some (p, v)) (w : U32) :
    Shaped (t.write p (nodeOf A π w)) (Function.update A π (some (p, w))) := by
  have haddr : addr (Function.update A π (some (p, w))) = addr A := by
    funext ρ
    rw [addr_update]
    split_ifs with hρ
    · rw [hρ, addr_eq hA, Option.map_some]
    · rfl
  have hnode := nodeOf_congr haddr
  have hold : ∀ {ρ q x}, Function.update A π (some (p, w)) ρ = some (q, x) →
      ∃ y, A ρ = some (q, y) ∧ (ρ ≠ π → x = y) ∧ (ρ = π → q = p ∧ x = w) := by
    intro ρ q x hx
    by_cases hρ : ρ = π
    · subst hρ
      rw [Function.update_self, Option.some.injEq, Prod.mk.injEq] at hx
      exact ⟨v, hx.1 ▸ hA, fun hne => absurd rfl hne, fun _ => ⟨hx.1.symm, hx.2.symm⟩⟩
    · rw [Function.update_of_ne hρ] at hx
      exact ⟨x, hx, fun _ => rfl, fun he => absurd he hρ⟩
  have hnone : ∀ {ρ}, Function.update A π (some (p, w)) ρ = none ↔ A ρ = none := by
    intro ρ
    rw [← addr_eq_none, haddr, addr_eq_none]
  refine ⟨?_, fun b ρ hρ => hnone.mpr (h.closed b ρ (hnone.mp hρ)), ?_, ?_, ?_,
    fun ρ hρ => hnone.mpr (h.depth ρ hρ), ?_⟩
  · obtain ⟨v₀, hr⟩ := h.root
    by_cases hπ : [] = π
    · subst hπ
      obtain ⟨rfl, -⟩ := layout_inj hA hr
      exact ⟨w, Function.update_self ..⟩
    · exact ⟨v₀, (Function.update_of_ne hπ ..).trans hr⟩
  · intro ρ ρ' q x x' hx hx'
    obtain ⟨y, hy, -, -⟩ := hold hx
    obtain ⟨y', hy', -, -⟩ := hold hx'
    exact h.inj hy hy'
  · intro ρ q x hx
    obtain ⟨y, hy, hne, he⟩ := hold hx
    rw [hnode]
    by_cases hρ : ρ = π
    · obtain ⟨rfl, rfl⟩ := he hρ
      rw [write_nodes_self, hρ]
    · have hq : q ≠ p := fun hq => hρ (h.inj hy (hq ▸ hA))
      rw [write_nodes_of_ne _ hq, hne hρ]
      exact h.node hy
  · intro q n hn
    by_cases hq : q = p
    · exact ⟨π, w, hq ▸ Function.update_self ..⟩
    · rw [write_nodes_of_ne _ hq] at hn
      obtain ⟨ρ, x, hx⟩ := h.only hn
      have hρ : ρ ≠ π := by
        rintro rfl
        exact hq (layout_inj hx hA).1
      exact ⟨ρ, x, (Function.update_of_ne hρ ..).trans hx⟩
  · intro ρ q x hx
    obtain ⟨y, hy, -, -⟩ := hold hx
    exact h.fresh hy

/-- Hanging a new node without a value under the node of `π`, on the side of `b`. -/
theorem Shaped.extend (h : Shaped t A) (hA : A π = some (p, v)) {b : Bool} (hnew : A (b :: π) = none)
    (hlen : π.length < 32) {n : RadixNodeT}
    (hn : n = if b then { nodeOf A π v with right := some t.fresh } else { nodeOf A π v with left := some t.fresh }) :
    Shaped (({ t with fresh := t.fresh + 1, size := t.size + sizeofRadixNode }.write t.fresh
      ⟨none, none, some p, radixNoValue⟩).write p n) (Function.update A (b :: π) (some (t.fresh, radixNoValue))) := by
  have hpf : p ≠ t.fresh := (h.fresh hA).ne
  have hold : ∀ {ρ q x}, Function.update A (b :: π) (some (t.fresh, radixNoValue)) ρ = some (q, x) →
      (ρ = b :: π ∧ q = t.fresh ∧ x = radixNoValue) ∨ (ρ ≠ b :: π ∧ A ρ = some (q, x)) := by
    intro ρ q x hx
    by_cases hρ : ρ = b :: π
    · rw [hρ, Function.update_self, Option.some.injEq, Prod.mk.injEq] at hx
      exact Or.inl ⟨hρ, hx.1.symm, hx.2.symm⟩
    · rw [Function.update_of_ne hρ] at hx
      exact Or.inr ⟨hρ, hx⟩
  have hkeep : ∀ {ρ q x}, A ρ = some (q, x) →
      Function.update A (b :: π) (some (t.fresh, radixNoValue)) ρ = some (q, x) := by
    intro ρ q x hx
    have hρ : ρ ≠ b :: π := by
      rintro rfl
      rw [hnew] at hx
      exact absurd hx (by simp)
    exact (Function.update_of_ne hρ ..).trans hx
  refine ⟨?_, ?_, ?_, ?_, ?_, ?_, ?_⟩
  · obtain ⟨v₀, hr⟩ := h.root
    exact ⟨v₀, hkeep hr⟩
  · intro c ρ hρ
    have hρ' : ρ ≠ b :: π := by
      rintro rfl
      rw [Function.update_self] at hρ
      exact absurd hρ (by simp)
    rw [Function.update_of_ne hρ'] at hρ
    have hcρ : c :: ρ ≠ b :: π := by
      intro he
      rw [(List.cons.inj he).2, hA] at hρ
      exact absurd hρ (by simp)
    rw [Function.update_of_ne hcρ]
    exact h.closed c ρ hρ
  · intro ρ ρ' q x x' hx hx'
    rcases hold hx with ⟨rfl, rfl, -⟩ | ⟨-, hx⟩
    · rcases hold hx' with ⟨rfl, -, -⟩ | ⟨-, hx'⟩
      · rfl
      · exact absurd rfl (h.fresh hx').ne
    · rcases hold hx' with ⟨rfl, rfl, -⟩ | ⟨-, hx'⟩
      · exact absurd rfl (h.fresh hx).ne
      · exact h.inj hx hx'
  · intro ρ q x hx
    rcases hold hx with ⟨rfl, rfl, rfl⟩ | ⟨hρ, hxA⟩
    · have hleaf : ∀ c, A (c :: b :: π) = none := fun c => h.closed c _ hnew
      rw [write_nodes_of_ne _ hpf.symm, write_nodes_self]
      simp only [nodeOf, parentOf, addr_update, (ne_cons_self _ _).symm, ne_cons_self, if_false, addr_eq hA,
        addr_eq_none.mpr (hleaf _)]
    · have hq : q ≠ t.fresh := (h.fresh hxA).ne
      have hparent : parentOf (Function.update A (b :: π) (some (t.fresh, radixNoValue))) ρ = parentOf A ρ := by
        cases ρ with
        | nil => rfl
        | cons c ρ =>
          have hρ' : ρ ≠ b :: π := by
            rintro rfl
            rw [h.closed c _ hnew] at hxA
            exact absurd hxA (by simp)
          rw [parentOf, parentOf, addr_update, if_neg hρ']
      by_cases hqp : q = p
      · subst hqp
        obtain rfl := h.inj hxA hA
        obtain ⟨-, rfl⟩ := layout_inj hxA hA
        rw [write_nodes_self, hn]
        cases b <;> simp [nodeOf, hparent, addr_update]
      · have hρπ : ρ ≠ π := fun he => hqp (layout_inj hxA (he ▸ hA)).1
        have hcons : ∀ c, c :: ρ ≠ b :: π := fun c he => hρπ (List.cons.inj he).2
        rw [write_nodes_of_ne _ hqp, write_nodes_of_ne _ hq, nodeOf, hparent, addr_update, addr_update,
          if_neg (hcons _), if_neg (hcons _)]
        exact h.node hxA
  · intro q m hm
    by_cases hqp : q = p
    · exact ⟨π, v, hqp ▸ hkeep hA⟩
    · rw [write_nodes_of_ne _ hqp] at hm
      by_cases hq : q = t.fresh
      · exact ⟨b :: π, radixNoValue, hq ▸ Function.update_self ..⟩
      · rw [write_nodes_of_ne _ hq] at hm
        obtain ⟨ρ, x, hx⟩ := h.only hm
        exact ⟨ρ, x, hkeep hx⟩
  · intro ρ hρ
    have hρ' : ρ ≠ b :: π := by
      rintro rfl
      simp only [List.length_cons] at hρ
      omega
    rw [Function.update_of_ne hρ']
    exact h.depth ρ hρ
  · intro ρ q x hx
    show q < t.fresh + 1
    rcases hold hx with ⟨-, rfl, -⟩ | ⟨-, hx⟩
    · exact Nat.lt_succ_self _
    · exact Nat.lt_succ_of_lt (h.fresh hx)

/-- Unlinking and freeing the leaf of `b :: π`. -/
theorem Shaped.prune (h : Shaped t A) {b : Bool} {q : Nat} {w : U32} (hA : A π = some (p, v))
    (hleaf : A (b :: π) = some (q, w)) (hchild : ∀ c, A (c :: b :: π) = none) {n : RadixNodeT}
    (hn : n = if b then { nodeOf A π v with right := none } else { nodeOf A π v with left := none }) :
    Shaped ((t.write p n).free q) (Function.update A (b :: π) none) := by
  have hqp : q ≠ p := by
    rintro rfl
    exact ne_cons_self b π (h.inj hA hleaf)
  have hold : ∀ {ρ r x}, Function.update A (b :: π) none ρ = some (r, x) → ρ ≠ b :: π ∧ A ρ = some (r, x) := by
    intro ρ r x hx
    by_cases hρ : ρ = b :: π
    · rw [hρ, Function.update_self] at hx
      exact absurd hx (by simp)
    · rw [Function.update_of_ne hρ] at hx
      exact ⟨hρ, hx⟩
  refine ⟨?_, ?_, ?_, ?_, ?_, ?_, ?_⟩
  · obtain ⟨v₀, hr⟩ := h.root
    exact ⟨v₀, (Function.update_of_ne (by simp) ..).trans hr⟩
  · intro c ρ hρ
    by_cases hcρ : c :: ρ = b :: π
    · rw [hcρ, Function.update_self]
    · rw [Function.update_of_ne hcρ]
      by_cases hρ' : ρ = b :: π
      · rw [hρ']
        exact hchild c
      · rw [Function.update_of_ne hρ'] at hρ
        exact h.closed c ρ hρ
  · intro ρ ρ' r x x' hx hx'
    exact h.inj (hold hx).2 (hold hx').2
  · intro ρ r x hx
    obtain ⟨hρ, hxA⟩ := hold hx
    have hrq : r ≠ q := by
      rintro rfl
      exact hρ (h.inj hxA hleaf)
    have hparent : parentOf (Function.update A (b :: π) none) ρ = parentOf A ρ := by
      cases ρ with
      | nil => rfl
      | cons c ρ =>
        have hρ' : ρ ≠ b :: π := by
          rintro rfl
          rw [hchild c] at hxA
          exact absurd hxA (by simp)
        rw [parentOf, parentOf, addr_update, if_neg hρ']
    rw [free_nodes_of_ne _ hrq]
    by_cases hrp : r = p
    · subst hrp
      obtain rfl := h.inj hxA hA
      obtain ⟨-, rfl⟩ := layout_inj hxA hA
      rw [write_nodes_self, hn]
      cases b <;> simp [nodeOf, hparent, addr_update]
    · have hρπ : ρ ≠ π := fun he => hrp (layout_inj hxA (he ▸ hA)).1
      have hcons : ∀ c, c :: ρ ≠ b :: π := fun c he => hρπ (List.cons.inj he).2
      rw [write_nodes_of_ne _ hrp, nodeOf, hparent, addr_update, addr_update, if_neg (hcons _), if_neg (hcons _)]
      exact h.node hxA
  · intro r m hm
    by_cases hrq : r = q
    · rw [hrq, free_nodes_self] at hm
      exact absurd hm (by simp)
    · rw [free_nodes_of_ne _ hrq] at hm
      by_cases hrp : r = p
      · exact ⟨π, v, hrp ▸ (Function.update_of_ne (ne_cons_self b π) ..).trans hA⟩
      · rw [write_nodes_of_ne _ hrp] at hm
        obtain ⟨ρ, x, hx⟩ := h.only hm
        have hρ : ρ ≠ b :: π := by
          rintro rfl
          exact hrq (layout_inj hx hleaf).1
        exact ⟨ρ, x, (Function.update_of_ne hρ ..).trans hx⟩
  · intro ρ hρ
    by_cases hρ' : ρ = b :: π
    · rw [hρ', Function.update_self]
    · rw [Function.update_of_ne hρ']
      exact h.depth ρ hρ
  · intro ρ r x hx
    exact h.fresh (hold hx).2

theorem Shaped.parent (h : Shaped t A) {b : Bool} (hA : A (b :: π) = some (p, v)) : ∃ q w, A π = some (q, w) := by
  cases hπ : A π with
  | none => exact absurd (hA.symm.trans (h.closed b π hπ)) (Option.some_ne_none _)
  | some x => exact ⟨x.1, x.2, rfl⟩

/-- Unlinking a leaf through its parent link: it is cut off on the side where it hangs. -/
theorem Shaped.unlink (h : Shaped t A) {b : Bool} {q : Nat} {w : U32} (hleaf : A (b :: π) = some (q, w))
    (hchild : ∀ c, A (c :: b :: π) = none) : ∃ p v n, A π = some (p, v) ∧ p ≠ q ∧
      n = (if (nodeOf A π v).right = some q then { nodeOf A π v with right := none }
        else { nodeOf A π v with left := none }) ∧
      Shaped ((t.write p n).free q) (Function.update A (b :: π) none) := by
  obtain ⟨p, v, hpar⟩ := h.parent hleaf
  have hside : (nodeOf A π v).right = some q ↔ b = true := by
    constructor
    · intro hr
      obtain ⟨x, hx⟩ := addr_eq_some hr
      exact (List.cons.inj (h.inj hx hleaf)).1.symm
    · rintro rfl
      exact addr_eq hleaf
  refine ⟨p, v, _, hpar, ?_, rfl, h.prune hpar hleaf hchild (if_congr hside rfl rfl)⟩
  rintro rfl
  exact ne_cons_self b π (h.inj hpar hleaf)

end Updates

/-! ## Layouts that grow and shrink -/

/-- A node below the root without a value and without children. -/
def Useless (A : Layout) (σ : List Bool) : Prop := σ ≠ [] ∧ (∃ p, A σ = some (p, radixNoValue)) ∧ ∀ c, A (c :: σ) = none

/-- The nodes of `A` stay where they are, and every new one is on the way to `π`. -/
structure Grown (π : List Bool) (A A' : Layout) : Prop where
  keeps : ∀ {σ p v}, A σ = some (p, v) → ∃ w, A' σ = some (p, w)
  new : ∀ {σ}, A σ = none → A' σ ≠ none → σ <:+ π

/-- The nodes of `A'` are nodes of `A`, and no node that has lost a child is useless. -/
structure Shrunk (A A' : Layout) : Prop where
  keeps : ∀ {σ p v}, A' σ = some (p, v) → ∃ w, A σ = some (p, w)
  stops : ∀ {c σ}, A (c :: σ) ≠ none → A' (c :: σ) = none → ¬ Useless A' σ

section Grown
variable {A A' B : Layout} {π σ : List Bool} {p : Nat} {v : U32}

theorem Grown.refl (π : List Bool) (A : Layout) : Grown π A A :=
  ⟨fun h => ⟨_, h⟩, fun h h' => absurd h h'⟩

theorem Grown.trans (h : Grown π A A') (h' : Grown π A' B) : Grown π A B := by
  refine ⟨fun hA => ?_, fun {σ} hA hB => ?_⟩
  · obtain ⟨w, hw⟩ := h.keeps hA
    exact h'.keeps hw
  · by_cases hA' : A' σ = none
    · exact h'.new hA' hB
    · exact h.new hA hA'

theorem Shrunk.refl (A : Layout) : Shrunk A A :=
  ⟨fun h => ⟨_, h⟩, fun h h' => absurd h' h⟩

theorem Grown.ne_none (h : Grown π A A') (hA : A σ ≠ none) : A' σ ≠ none := by
  obtain ⟨⟨p, v⟩, hv⟩ := Option.ne_none_iff_exists'.mp hA
  obtain ⟨w, hw⟩ := h.keeps hv
  rw [hw]
  exact Option.some_ne_none _

theorem update_value {w : U32} (hA : A π = some (p, v)) : ∀ {σ q x}, Function.update A π (some (p, w)) σ = some (q, x) →
    ∃ y, A σ = some (q, y) := by
  intro σ q x hx
  by_cases hσ : σ = π
  · rw [hσ, Function.update_self, Option.some.injEq, Prod.mk.injEq] at hx
    exact ⟨v, hσ ▸ hx.1 ▸ hA⟩
  · exact ⟨x, (Function.update_of_ne hσ ..).symm.trans hx⟩

theorem Grown.setValue (ρ : List Bool) (hA : A π = some (p, v)) (w : U32) :
    Grown ρ A (Function.update A π (some (p, w))) := by
  refine ⟨fun {σ q x} hx => ?_, fun {σ} hσ hne => ?_⟩
  · by_cases hσ : σ = π
    · obtain ⟨rfl, -⟩ := layout_inj (hσ ▸ hA) hx
      exact ⟨w, hσ ▸ Function.update_self ..⟩
    · exact ⟨x, (Function.update_of_ne hσ ..).trans hx⟩
  · obtain ⟨⟨q, x⟩, hx⟩ := Option.ne_none_iff_exists'.mp hne
    obtain ⟨y, hy⟩ := update_value hA hx
    rw [hσ] at hy
    cases hy

theorem Grown.extend (hσ : σ <:+ π) (hnew : A σ = none) (x : Nat × U32) :
    Grown π A (Function.update A σ (some x)) := by
  refine ⟨fun {ρ q y} hy => ?_, fun {ρ} hρ hne => ?_⟩
  · have hne : ρ ≠ σ := by
      rintro rfl
      rw [hnew] at hy
      cases hy
    exact ⟨y, (Function.update_of_ne hne ..).trans hy⟩
  · by_cases he : ρ = σ
    · exact he ▸ hσ
    · rw [Function.update_of_ne he] at hne
      exact absurd hρ hne

theorem Shrunk.setValue (hA : A π = some (p, v)) (w : U32) : Shrunk A (Function.update A π (some (p, w))) := by
  refine ⟨fun hx => update_value hA hx, fun hne hnone => ?_⟩
  exact absurd hnone ((Grown.setValue [] hA w).ne_none hne)

theorem Shrunk.cut (hrest : Shrunk (Function.update A π none) A') (hstop : ∀ {c σ}, π = c :: σ → ¬ Useless A' σ) :
    Shrunk A A' := by
  refine ⟨fun {σ q x} hx => ?_, fun {c σ} hne hnone => ?_⟩
  · obtain ⟨w, hw⟩ := hrest.keeps hx
    have hσ : σ ≠ π := by
      rintro rfl
      rw [Function.update_self] at hw
      cases hw
    exact ⟨w, (Function.update_of_ne hσ ..).symm.trans hw⟩
  · by_cases hσ : c :: σ = π
    · exact hstop hσ.symm
    · exact hrest.stops (by rwa [Function.update_of_ne hσ]) hnone

end Grown

/-! ## Walking -/

theorem topBit_eq : topBit = bitAt 32 0 := by decide

/-- From the node of the first `d` bits of `key` a walk goes to the node of the first `d + 1`. -/
theorem child_nodeOf (A : Layout) (key : U32) (d : Nat) (v : U32) :
    (nodeOf A (path key d) v).child key (bitAt 32 d) = addr A (path key (d + 1)) := by
  have hbit := and_bitAt_eq_zero key d
  unfold RadixNodeT.child
  rw [path]
  cases hk : key.getMsbD d with
  | true =>
    rw [if_pos (fun h0 => by rw [hbit.mp h0] at hk; exact absurd hk (by simp))]
    rfl
  | false =>
    rw [if_neg (not_not.mpr (hbit.mpr hk))]
    rfl

theorem link_nodeOf (A : Layout) (key : U32) (d : Nat) (v : U32) (p : Option Nat) :
    (nodeOf A (path key d) v).link key (bitAt 32 d) p =
      if key.getMsbD d then { nodeOf A (path key d) v with right := p }
      else { nodeOf A (path key d) v with left := p } := by
  have hbit := and_bitAt_eq_zero key d
  unfold RadixNodeT.link
  cases hk : key.getMsbD d with
  | true => rw [if_pos (fun h0 => by rw [hbit.mp h0] at hk; exact absurd hk (by simp)), if_pos rfl]
  | false =>
    rw [if_neg (not_not.mpr (hbit.mpr hk))]
    rfl

end Fnsproxy
