import Fnsproxy.Radix.Delete
import Fnsproxy.Radix.Free

/-!
# The trie is minimal

* `LinkedAt`, `Occupied` : the node that the links lead to on a path, the paths whose node holds a value;
* `Minimal` : the nodes are the root and the beginnings of the prefixes that hold a value, the parent links go back
  along the links, no node is deeper than 32;
* `RadixCall.Proper` : an insert of a value under a prefix while there is memory, or any delete;
* `Restores` : an insert of a new prefix and its delete leave the nodes as they were;
* `Tight`, `call_tight` : no node is useless, **kept by every call**;
* `Shaped.linkedAt_iff`, `Shaped.minimal` : from the layout to the links;
* `calls_minimal` : **the tree after every run**.
-/

namespace Fnsproxy
open Word BitPrefix

/-- The links lead from the root along `π` (its last bit first) to the node `p`. -/
inductive LinkedAt (t : RadixTreeT) : List Bool → Nat → Prop where
  | root : LinkedAt t [] t.root
  | right {π : List Bool} {p c : Nat} {n : RadixNodeT} (h : LinkedAt t π p) (hn : t.nodes p = some n)
      (hc : n.right = some c) : LinkedAt t (true :: π) c
  | left {π : List Bool} {p c : Nat} {n : RadixNodeT} (h : LinkedAt t π p) (hn : t.nodes p = some n)
      (hc : n.left = some c) : LinkedAt t (false :: π) c

/-- The prefix with the bits `π` holds a value. -/
def Occupied (t : RadixTreeT) (π : List Bool) : Prop :=
  ∃ p n, LinkedAt t π p ∧ t.nodes p = some n ∧ n.value ≠ radixNoValue

/-- The shape of the trie. The nodes in use are those that the links lead to, each on one path; on the paths stand the
root and every beginning `π` of a prefix `ρ ++ π` that holds a value. -/
structure Minimal (t : RadixTreeT) : Prop where
  used : ∀ p, (∃ n, t.nodes p = some n) ↔ ∃ π, LinkedAt t π p
  once : ∀ {π π' p}, LinkedAt t π p → LinkedAt t π' p → π = π'
  nodes : ∀ π, (∃ p, LinkedAt t π p) ↔ π = [] ∨ ∃ ρ, Occupied t (ρ ++ π)
  parent : ∀ {p c n}, t.nodes p = some n → n.left = some c ∨ n.right = some c →
    ∃ m, t.nodes c = some m ∧ m.parent = some p
  root : ∃ n, t.nodes t.root = some n ∧ n.parent = none
  depth : ∀ {π p}, LinkedAt t π p → π.length ≤ 32

/-- An insert stores a value, with a contiguous mask, and its allocations succeed. -/
def RadixCall.Proper : RadixCall → Prop
  | .insert _ mask value allocs => value ≠ radixNoValue ∧ (∃ len ≤ 32, mask = parseMask len) ∧ Willing allocs
  | .delete _ _ => True

/-- Inserting a prefix that holds no value, not the root's, and deleting it again: the same nodes under the same
addresses, with the same links and values. (`size` counts the allocations and never falls.) -/
def Restores (t : RadixTreeT) : Prop :=
  ∀ (key : U32) (len : Nat) (value : U32) (a : Allocs), 0 < len → len ≤ 32 → value ≠ radixNoValue → Willing a →
    ¬ Occupied t (path key len) → ∃ t' t'', radix32treeInsert t key (parseMask len) value a = some (0, t') ∧
      radix32treeDelete t' key (parseMask len) = some (0, t'') ∧ t''.nodes = t.nodes ∧ t''.root = t.root

/-! ## Layouts without useless nodes -/

/-- Every node is of use. -/
def Tight (A : Layout) : Prop := ∀ σ, ¬ Useless A σ

section Tight
variable {t t' : RadixTreeT} {A A' : Layout} {π : List Bool} {p : Nat} {key value : U32} {len : Nat}

theorem closed_append (hclosed : ∀ b σ, A σ = none → A (b :: σ) = none) (hπ : A π = none) (ρ : List Bool) :
    A (ρ ++ π) = none := by
  induction ρ with
  | nil => exact hπ
  | cons c ρ ih => exact hclosed c _ ih

/-- Growing towards a value leaves no useless node: the new ones have it below them. -/
theorem Grown.tight (h : Grown π A A') (hclosed : ∀ b σ, A' σ = none → A' (b :: σ) = none) (hA : Tight A)
    (hvalue : value ≠ radixNoValue) (hs : stored A' = Function.update (stored A) π value) : Tight A' := by
  rintro σ ⟨hne, ⟨p, hp⟩, hchild⟩
  have hπ : stored A' π = value := by rw [hs, Function.update_self]
  have hσπ : σ ≠ π := by
    rintro rfl
    exact hvalue (hπ.symm.trans (stored_eq hp))
  cases hσ : A σ with
  | none =>
    obtain ⟨τ, hτ⟩ := h.new hσ (by rw [hp]; exact Option.some_ne_none _)
    rcases List.eq_nil_or_concat τ with rfl | ⟨ρ, c, rfl⟩
    · exact hσπ hτ
    · rw [List.concat_eq_append, List.append_assoc] at hτ
      have hzero := stored_eq_zero (closed_append hclosed (hchild c) ρ)
      rw [← hπ, ← hτ] at hvalue
      exact hvalue hzero
  | some x =>
    have hstored : stored A σ = radixNoValue := by
      rw [← stored_eq hp, hs, Function.update_of_ne hσπ]
    refine hA σ ⟨hne, ⟨x.1, ?_⟩, fun c => ?_⟩
    · rw [hσ, ← hstored, stored_eq hσ]
    · by_contra hc
      exact h.ne_none hc (hchild c)

/-- A delete that prunes what has become useless leaves no useless node. -/
theorem Shrunk.tight (h : Shrunk A A') (hA : Tight A)
    (hs : stored A' = Function.update (stored A) π radixNoValue) (hπ : ¬ Useless A' π) : Tight A' := by
  intro σ hσ
  by_cases hσπ : σ = π
  · exact hπ (hσπ ▸ hσ)
  · obtain ⟨hne, ⟨p, hp⟩, hchild⟩ := hσ
    obtain ⟨w, hw⟩ := h.keeps hp
    have hstored : w = radixNoValue := by
      rw [← stored_eq hw, ← stored_eq hp, hs, Function.update_of_ne hσπ]
    refine hA σ ⟨hne, ⟨p, hstored ▸ hw⟩, fun c => ?_⟩
    by_contra hc
    exact h.stops hc (hchild c) ⟨hne, ⟨p, hp⟩, hchild⟩

/-- **Every call** keeps the layout without useless nodes. -/
theorem call_tight (h : Shaped t A) (hA : Tight A) {c : RadixCall} (hc : c.Proper) :
    ∃ t' A', t.call c = some t' ∧ Shaped t' A' ∧ Tight A' := by
  cases c with
  | insert key mask value allocs =>
    obtain ⟨hvalue, ⟨len, hlen, rfl⟩, ha⟩ := hc
    obtain ⟨ret, t', A', hrun, h', hgrown, hcases⟩ := radix32treeInsert_cases h hlen key value allocs
    refine ⟨t', A', by rw [RadixTreeT.call, hrun, Option.map_some], h', ?_⟩
    rcases hcases with ⟨-, -, hs⟩ | ⟨-, -, rfl⟩ | ⟨-, hw, -⟩
    · exact hgrown.tight h'.closed hA hvalue hs
    · exact hA
    · exact absurd ha hw
  | delete key mask =>
    obtain ⟨len, hlen, hmask⟩ := exists_endsAt mask
    obtain ⟨ret, t', A', hrun, h', hshrunk, hcases⟩ := radix32treeDelete_cases h hlen key
    rw [parseMask_eq hlen, radix32treeDelete_mask (endsAt_leadingMask hlen) hmask] at hrun
    refine ⟨t', A', by rw [RadixTreeT.call, hrun, Option.map_some], h', ?_⟩
    rcases hcases with ⟨-, hs, hπ⟩ | ⟨-, rfl⟩
    · exact hshrunk.tight hA hs hπ
    · exact hA

theorem calls_tight : ∀ (cs : List RadixCall) {t : RadixTreeT} {A : Layout}, Shaped t A → Tight A →
    (∀ c ∈ cs, c.Proper) → ∃ t' A', t.calls cs = some t' ∧ Shaped t' A' ∧ Tight A' := by
  intro cs
  induction cs with
  | nil => exact fun {t A} h hA _ => ⟨t, A, rfl, h, hA⟩
  | cons c cs ih =>
    intro t A h hA hcs
    obtain ⟨t₁, A₁, hcall, h₁, hA₁⟩ := call_tight h hA (hcs c List.mem_cons_self)
    obtain ⟨t', A', hcalls, h', hA'⟩ := ih h₁ hA₁ fun c hc => hcs c (List.mem_cons_of_mem _ hc)
    refine ⟨t', A', ?_, h', hA'⟩
    rw [RadixTreeT.calls, List.foldlM_cons, hcall]
    exact hcalls

theorem radixTreeCreate_tight {a a' : Allocs} (h : radixTreeCreate a = (some t, a')) (hA : Shaped t A) : Tight A := by
  rintro σ ⟨hne, ⟨p, hp⟩, -⟩
  obtain ⟨v, hr⟩ := hA.root
  rw [radixTreeCreate_eq h] at hr
  by_cases h0 : p = 0
  · exact hne (hA.inj (h0 ▸ hp) hr)
  · have hnone : t.nodes p = none := by
      rw [radixTreeCreate_eq h]
      exact Function.update_of_ne (f := fun _ => none) h0 _
    cases hnone.symm.trans (hA.node hp)

/-- **Which paths have a node**: the root, and the beginnings of the paths with a value. -/
theorem Tight.ne_none_iff (hA : Tight A) (h : Shaped t A) (π : List Bool) :
    A π ≠ none ↔ π = [] ∨ ∃ ρ, stored A (ρ ++ π) ≠ radixNoValue := by
  constructor
  · have hdown : ∀ (k : Nat) (π : List Bool), 32 < π.length + k → A π ≠ none → π ≠ [] →
        ∃ ρ, stored A (ρ ++ π) ≠ radixNoValue := by
      intro k
      induction k with
      | zero => exact fun π hk hπ _ => absurd (h.depth π hk) hπ
      | succ k ih =>
        intro π hk hπ hne
        obtain ⟨⟨p, v⟩, hv⟩ := Option.ne_none_iff_exists'.mp hπ
        by_cases hzero : v = radixNoValue
        · obtain ⟨c, hc⟩ : ∃ c, A (c :: π) ≠ none := by
            by_contra hno
            exact hA π ⟨hne, ⟨p, hzero ▸ hv⟩, fun c => by_contra fun hc => hno ⟨c, hc⟩⟩
          obtain ⟨ρ, hρ⟩ := ih (c :: π) (by rw [List.length_cons]; omega) hc (List.cons_ne_nil c π)
          exact ⟨ρ ++ [c], by rwa [List.append_assoc]⟩
        · exact ⟨[], by rwa [List.nil_append, stored_eq hv]⟩
    exact fun hπ => or_iff_not_imp_left.mpr (hdown 33 π (by omega) hπ)
  · rintro (rfl | ⟨ρ, hρ⟩) hnone
    · obtain ⟨v, hr⟩ := h.root
      cases hr.symm.trans hnone
    · exact hρ (stored_eq_zero (closed_append h.closed hnone ρ))

end Tight

/-! ## The links -/

section Links
variable {t t' : RadixTreeT} {A A' : Layout} {π : List Bool} {p : Nat}

theorem Shaped.linkedAt_iff (h : Shaped t A) : LinkedAt t π p ↔ ∃ v, A π = some (p, v) := by
  constructor
  · intro hlinked
    induction hlinked with
    | root => exact h.root
    | right _ hn hc ih =>
      obtain ⟨v, hv⟩ := ih
      cases hn.symm.trans (h.node hv)
      exact addr_eq_some hc
    | left _ hn hc ih =>
      obtain ⟨v, hv⟩ := ih
      cases hn.symm.trans (h.node hv)
      exact addr_eq_some hc
  · rintro ⟨v, hv⟩
    induction π generalizing p v with
    | nil =>
      obtain ⟨w, hr⟩ := h.root
      rw [(layout_inj hv hr).1]
      exact .root
    | cons b π ih =>
      obtain ⟨q, w, hq⟩ := h.parent hv
      cases b with
      | true => exact .right (ih w hq) (h.node hq) (addr_eq hv)
      | false => exact .left (ih w hq) (h.node hq) (addr_eq hv)

theorem Shaped.occupied_iff (h : Shaped t A) : Occupied t π ↔ stored A π ≠ radixNoValue := by
  constructor
  · rintro ⟨p, n, hlinked, hn, hvalue⟩
    obtain ⟨v, hv⟩ := h.linkedAt_iff.mp hlinked
    cases hn.symm.trans (h.node hv)
    rwa [stored_eq hv]
  · intro hvalue
    obtain ⟨⟨p, v⟩, hv⟩ : ∃ x, A π = some x := Option.ne_none_iff_exists'.mp fun hnone => hvalue (stored_eq_zero hnone)
    rw [stored_eq hv] at hvalue
    exact ⟨p, _, h.linkedAt_iff.mpr ⟨v, hv⟩, h.node hv, hvalue⟩

theorem Shaped.minimal (h : Shaped t A) (hA : Tight A) : Minimal t := by
  obtain ⟨v₀, hr⟩ := h.root
  refine ⟨fun p => ⟨?_, ?_⟩, fun hπ hπ' => ?_, fun π => ?_, fun {p c n} hn hlink => ?_, ⟨_, h.node hr, rfl⟩,
    fun {π p} hπ => ?_⟩
  · rintro ⟨n, hn⟩
    obtain ⟨π, hπ⟩ := h.only hn
    exact ⟨π, h.linkedAt_iff.mpr hπ⟩
  · rintro ⟨π, hπ⟩
    obtain ⟨v, hv⟩ := h.linkedAt_iff.mp hπ
    exact ⟨_, h.node hv⟩
  · obtain ⟨v, hv⟩ := h.linkedAt_iff.mp hπ
    obtain ⟨v', hv'⟩ := h.linkedAt_iff.mp hπ'
    exact h.inj hv hv'
  · have hsome : (∃ p, LinkedAt t π p) ↔ A π ≠ none := by
      simp only [h.linkedAt_iff, Option.ne_none_iff_exists', Prod.exists]
    simp only [hsome, hA.ne_none_iff h, h.occupied_iff]
  · obtain ⟨π, v, hv⟩ := h.only hn
    cases hn.symm.trans (h.node hv)
    have hchild : ∃ b, addr A (b :: π) = some c := hlink.elim (fun hc => ⟨false, hc⟩) fun hc => ⟨true, hc⟩
    obtain ⟨b, hb⟩ := hchild
    obtain ⟨w, hw⟩ := addr_eq_some hb
    exact ⟨_, h.node hw, addr_eq hv⟩
  · obtain ⟨v, hv⟩ := h.linkedAt_iff.mp hπ
    by_contra hlong
    cases hv.symm.trans (h.depth π (by omega))

theorem Shaped.nodes_eq (h : Shaped t A) (h' : Shaped t' A) : t'.nodes = t.nodes := by
  funext p
  cases hn : t.nodes p with
  | some n =>
    obtain ⟨π, v, hv⟩ := h.only hn
    rw [h'.node hv, ← hn, h.node hv]
  | none =>
    by_contra hne
    obtain ⟨n, hn'⟩ := Option.ne_none_iff_exists'.mp hne
    obtain ⟨π, v, hv⟩ := h'.only hn'
    cases hn.symm.trans (h.node hv)

/-- Layouts with the same values, the one grown to and shrunk from a third, are the same. -/
theorem Tight.eq_of_stored {B : Layout} (hA : Tight A) (h : Shaped t A) (hA' : Tight A') (h' : Shaped t' A')
    (hs : stored A' = stored A) (hgrown : Grown π A B) (hshrunk : Shrunk B A') : A' = A := by
  have hdomain : ∀ σ, A' σ ≠ none ↔ A σ ≠ none := by
    intro σ
    rw [hA'.ne_none_iff h', hA.ne_none_iff h, hs]
  funext σ
  cases hσ : A σ with
  | none => exact not_not.mp fun hne => (hdomain σ).mp hne hσ
  | some x =>
    obtain ⟨⟨q, w⟩, hq⟩ := Option.ne_none_iff_exists'.mp ((hdomain σ).mpr (by rw [hσ]; exact Option.some_ne_none x))
    obtain ⟨u, hu⟩ := hgrown.keeps hσ
    obtain ⟨u', hu'⟩ := hshrunk.keeps hq
    have hvalue : w = x.2 := by rw [← stored_eq hq, hs, stored_eq hσ]
    rw [hq, hvalue, (layout_inj hu' hu).1]

/-- **An insert of a new prefix and its delete** leave the nodes as they were. -/
theorem Shaped.restores (h : Shaped t A) (hA : Tight A) : Restores t := by
  intro key len value a hpos hlen hvalue ha hnew
  rw [h.occupied_iff, not_not] at hnew
  obtain ⟨ret, t', A', hrun, h', hgrown, hcases⟩ := radix32treeInsert_cases h hlen key value a
  rcases hcases with ⟨rfl, -, hs⟩ | ⟨-, hheld, -⟩ | ⟨-, hw, -⟩
  · have hA' := hgrown.tight h'.closed hA hvalue hs
    obtain ⟨ret', t'', A'', hrun', h'', hshrunk, hcases'⟩ := radix32treeDelete_cases h' hlen key
    have hret := radix32treeDelete_ret h' hlen hrun'
    rcases hcases' with ⟨rfl, hs', huseless⟩ | ⟨rfl, -⟩
    · have hback : stored A'' = stored A := by
        rw [hs', hs, Function.update_idem, Function.update_eq_self_iff.mpr hnew.symm]
      obtain rfl := hA.eq_of_stored h (hshrunk.tight hA' hs' huseless) h'' hback hgrown hshrunk
      obtain ⟨v, hr⟩ := h.root
      obtain ⟨v'', hr''⟩ := h''.root
      exact ⟨t', t'', hrun, hrun', h.nodes_eq h'', (layout_inj hr'' hr).1⟩
    · -- the node holds the value: the delete is not refused
      have hvalue' : stored A' (path key len) = value := by rw [hs, Function.update_self]
      obtain ⟨x, hx⟩ : ∃ x, A' (path key len) = some x := Option.ne_none_iff_exists'.mp fun hnone =>
        hvalue (hvalue'.symm.trans (stored_eq_zero hnone))
      have hnode : t'.nodeAt key len = some (nodeOf A' (path key len) x.2) := by rw [nodeAt_eq h' hlen, hx, Option.map_some]
      have hfound : x.2 = value := (stored_eq hx).symm.trans hvalue'
      cases hret.mpr ⟨_, hnode, hpos.ne', fun hz => absurd (hfound.symm.trans hz) hvalue⟩
  · exact absurd hnew hheld
  · exact absurd ha hw

/-- **The trie is minimal.** After any deletes and inserts of values under prefixes, while there is memory, the nodes
are exactly the root and the beginnings of the prefixes that hold a value, and inserting a new prefix and deleting it
again changes nothing. -/
theorem calls_minimal {a a' : Allocs} {t₀ : RadixTreeT} (h₀ : radixTreeCreate a = (some t₀, a')) (cs : List RadixCall)
    (hcs : ∀ c ∈ cs, c.Proper) : ∃ t, t₀.calls cs = some t ∧ Minimal t ∧ Restores t := by
  obtain ⟨A₀, hshape, -⟩ := radixTreeCreate_shaped h₀
  obtain ⟨t, A, hcalls, h, hA⟩ := calls_tight cs hshape (radixTreeCreate_tight h₀ hshape) hcs
  exact ⟨t, hcalls, h.minimal hA, h.restores hA⟩

/-- Two nested prefixes, and a delete of the outer one with a mask that has more bits behind its prefix. -/
theorem calls_minimal_nested : ∃ t₀ a', radixTreeCreate (Stream'.const true) = (some t₀, a') ∧
    ∃ t, t₀.calls [.insert 0x0a000000 (parseMask 8) 1 (Stream'.const true),
        .insert 0x0a010000 (parseMask 16) 2 (Stream'.const true), .delete 0x0a000000 0xff00ff00] = some t ∧
      Minimal t ∧ Restores t :=
  ⟨_, _, rfl, calls_minimal (a := Stream'.const true) rfl _ (List.forall_mem_cons.mpr
    ⟨⟨by decide, ⟨8, by decide, rfl⟩, fun _ => rfl⟩, List.forall_mem_cons.mpr
      ⟨⟨by decide, ⟨16, by decide, rfl⟩, fun _ => rfl⟩, List.forall_mem_singleton.mpr trivial⟩⟩)⟩

end Links

end Fnsproxy
