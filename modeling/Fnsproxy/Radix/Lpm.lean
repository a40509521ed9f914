import Fnsproxy.Radix.Shape

/-!
# The trie answers with the longest prefix

* `radix32treeInsert_spec`, `radix32treeDelete_spec`, `radix32treeFind_spec` : what each function does to
  a shaped tree, stated on the values stored under paths;
* `RadixOp`, `radixRun` : runs of inserts and deletes, with what each call returned;
* `prefixTable` : the map from prefixes to values that the returned codes describe;
* `radix32treeFind_longest` : **after every run `radix32tree_find` answers with the value of the longest
  prefix in that map**.
-/

namespace Fnsproxy
open Word BitPrefix

variable {t : RadixTreeT} {A : Layout} {key : U32} {len : Nat}

theorem parseMask_eq (h : len ≤ 32) : parseMask len = leadingMask 32 len := by
  unfold parseMask
  split_ifs with h0
  · subst h0
    decide
  · rfl

theorem layout_none_of_le (h : Shaped t A) {d : Nat} (hd : A (path key d) = none) (hle : d ≤ len) :
    A (path key len) = none := by
  induction len, hle using Nat.le_induction with
  | base => exact hd
  | succ n _ ih => exact h.closed _ _ ih

/-! ## The walks -/

/-- The search for a place ends at the node of the prefix, or at the last node on the way to it. -/
theorem radixPlace_spec (h : Shaped t A) (hlen : len ≤ 32) : ∀ (k d p : Nat) (v : U32) (fuel : Nat) (next : Nat),
    d + k = len → A (path key d) = some (p, v) → k < fuel →
    (∃ q w c, A (path key len) = some (q, w) ∧
      WhileLoop.run (radixPlaceStep t key (leadingMask 32 len)) fuel (bitAt 32 d, p, some next) =
        some (some (bitAt 32 len, q, some c))) ∨
    (∃ m q w, m < len ∧ A (path key m) = some (q, w) ∧ A (path key (m + 1)) = none ∧
      WhileLoop.run (radixPlaceStep t key (leadingMask 32 len)) fuel (bitAt 32 d, p, some next) =
        some (some (bitAt 32 m, q, none))) := by
  intro k
  induction k with
  | zero =>
    intro d p v fuel next hd hA hfuel
    obtain ⟨fuel, rfl⟩ : ∃ f, fuel = f + 1 := ⟨fuel - 1, by omega⟩
    obtain rfl : d = len := by omega
    refine Or.inl ⟨p, v, next, hA, WhileLoop.run_done ?_ fuel⟩
    rw [radixPlaceStep, if_neg (not_not.mpr ((bitAt_and_leadingMask hlen).mpr (Nat.le_refl d)))]
  | succ k ih =>
    intro d p v fuel next hd hA hfuel
    obtain ⟨fuel, rfl⟩ : ∃ f, fuel = f + 1 := ⟨fuel - 1, by omega⟩
    have hbit : bitAt 32 d &&& leadingMask 32 len ≠ 0 := fun h0 => by
      have := (bitAt_and_leadingMask hlen).mp h0
      omega
    cases hc : addr A (path key (d + 1)) with
    | none =>
      refine Or.inr ⟨d, p, v, by omega, hA, addr_eq_none.mp hc, WhileLoop.run_done ?_ fuel⟩
      simp only [radixPlaceStep, if_pos hbit, h.node hA, child_nodeOf, hc]
    | some c =>
      obtain ⟨w, hw⟩ := addr_eq_some hc
      have hstep : radixPlaceStep t key (leadingMask 32 len) (bitAt 32 d, p, some next) =
          .again (bitAt 32 (d + 1), c, some c) := by
        simp only [radixPlaceStep, if_pos hbit, h.node hA, child_nodeOf, hc, bitAt_succ]
      rw [WhileLoop.run_again hstep]
      exact ih (d + 1) c w fuel c (by omega) hw (by omega)

/-- The walk of a delete ends at the node of the prefix, if there is one. -/
theorem radixWalk_spec (h : Shaped t A) (hlen : len ≤ 32) : ∀ (k d fuel : Nat), d + k = len → k < fuel →
    WhileLoop.run (radixWalkStep t key (leadingMask 32 len)) fuel (bitAt 32 d, addr A (path key d)) =
      some (some (addr A (path key len))) := by
  intro k
  induction k with
  | zero =>
    intro d fuel hd hfuel
    obtain ⟨fuel, rfl⟩ : ∃ f, fuel = f + 1 := ⟨fuel - 1, by omega⟩
    obtain rfl : d = len := by omega
    refine WhileLoop.run_done ?_ fuel
    cases addr A (path key d) with
    | none => rfl
    | some p => rw [radixWalkStep, if_neg (not_not.mpr ((bitAt_and_leadingMask hlen).mpr (Nat.le_refl d)))]
  | succ k ih =>
    intro d fuel hd hfuel
    obtain ⟨fuel, rfl⟩ : ∃ f, fuel = f + 1 := ⟨fuel - 1, by omega⟩
    have hbit : bitAt 32 d &&& leadingMask 32 len ≠ 0 := fun h0 => by
      have := (bitAt_and_leadingMask hlen).mp h0
      omega
    cases hp : addr A (path key d) with
    | none =>
      rw [addr_eq_none.mpr (layout_none_of_le h (addr_eq_none.mp hp) (by omega))]
      exact WhileLoop.run_done rfl fuel
    | some p =>
      obtain ⟨v, hv⟩ := addr_eq_some hp
      have hstep : radixWalkStep t key (leadingMask 32 len) (bitAt 32 d, some p) =
          .again (bitAt 32 (d + 1), addr A (path key (d + 1))) := by
        simp only [radixWalkStep, if_pos hbit, h.node hv, child_nodeOf, bitAt_succ]
      rw [WhileLoop.run_again hstep]
      exact ih (d + 1) fuel (by omega) (by omega)

/-- The walk of a find has met the values of the first `d` prefixes when it reaches depth `d`. -/
theorem radixFind_walk (h : Shaped t A) : ∀ (k d fuel : Nat) (value : U32), d + k = 33 → k < fuel →
    (d = 0 ∧ value = 0 ∨ 0 < d ∧ value = longest (fun n => stored A (path key n)) (d - 1)) →
    WhileLoop.run (radixFindStep t key) fuel (bitAt 32 d, value, addr A (path key d)) =
      some (some (longest (fun n => stored A (path key n)) 32)) := by
  intro k
  induction k with
  | zero =>
    intro d fuel value hd hfuel hvalue
    obtain ⟨fuel, rfl⟩ : ∃ f, fuel = f + 1 := ⟨fuel - 1, by omega⟩
    obtain rfl : d = 33 := by omega
    have hnone : addr A (path key 33) = none := addr_eq_none.mpr (h.depth _ (by simp))
    rcases hvalue with ⟨h0, -⟩ | ⟨-, rfl⟩
    · exact absurd h0 (by decide)
    · rw [hnone]
      exact WhileLoop.run_done rfl fuel
  | succ k ih =>
    intro d fuel value hd hfuel hvalue
    obtain ⟨fuel, rfl⟩ : ∃ f, fuel = f + 1 := ⟨fuel - 1, by omega⟩
    cases hp : addr A (path key d) with
    | none =>
      have hnone : A (path key d) = none := addr_eq_none.mp hp
      rcases hvalue with ⟨rfl, -⟩ | ⟨h0, rfl⟩
      · obtain ⟨v, hr⟩ := h.root
        exact absurd (hr.symm.trans hnone) (by simp)
      · rw [longest_of_zero (m := d - 1) (n := 32) (by omega)
          (fun n h1 h2 => stored_eq_zero (layout_none_of_le h hnone (by omega)))]
        exact WhileLoop.run_done rfl fuel
    | some p =>
      obtain ⟨v, hv⟩ := addr_eq_some hp
      have hstep : radixFindStep t key (bitAt 32 d, value, some p) =
          .again (bitAt 32 (d + 1), if v ≠ radixNoValue then v else value, addr A (path key (d + 1))) := by
        simp only [radixFindStep, h.node hv, child_nodeOf, bitAt_succ]
        rfl
      rw [WhileLoop.run_again hstep]
      refine ih (d + 1) fuel _ (by omega) (by omega) (Or.inr ⟨Nat.succ_pos d, ?_⟩)
      rw [Nat.add_sub_cancel]
      rcases hvalue with ⟨rfl, rfl⟩ | ⟨h0, rfl⟩
      · rw [longest, stored_eq hv]
        split_ifs with hz
        · rfl
        · exact (not_not.mp hz).symm
      · obtain ⟨d, rfl⟩ : ∃ e, d = e + 1 := ⟨d - 1, by omega⟩
        rw [longest, stored_eq hv, Nat.add_sub_cancel]
        rfl

/-! ## The operations -/

theorem radix32treeFind_spec (h : Shaped t A) (key : U32) :
    radix32treeFind t key = some (longest (fun n => stored A (path key n)) 32) := by
  obtain ⟨v, hr⟩ := h.root
  have hwalk := @radixFind_walk t A key h 33 0 walkRounds 0 rfl (by decide) (Or.inl ⟨rfl, rfl⟩)
  rw [path, addr_eq hr, ← topBit_eq] at hwalk
  rw [radix32treeFind, show radixNoValue = 0 from rfl, hwalk]
  rfl

/-- Creating the rest of the path: the value is stored at its end, or an allocation fails and the path
stays without a value. -/
theorem radixExtend_spec (hlen : len ≤ 32) (value : U32) : ∀ (k m p : Nat) (v : U32) (t : RadixTreeT) (A : Layout)
    (a : Allocs) (fuel : Nat), m + k = len → Shaped t A → A (path key m) = some (p, v) →
    (0 < k → A (path key (m + 1)) = none) → k < fuel →
    ∃ ret t' A', WhileLoop.run (radixExtendStep key (leadingMask 32 len) value) fuel (t, a, bitAt 32 m, p) =
        some (some (ret, t')) ∧ Shaped t' A' ∧ Grown (path key len) A A' ∧
      ((ret = 0 ∧ stored A' = Function.update (stored A) (path key len) value) ∨
        (ret = -1 ∧ ¬ Willing a ∧ stored A' = stored A)) := by
  intro k
  induction k with
  | zero =>
    intro m p v t A a fuel hm h hA _ hfuel
    obtain ⟨fuel, rfl⟩ : ∃ f, fuel = f + 1 := ⟨fuel - 1, by omega⟩
    obtain rfl : m = len := by omega
    refine ⟨0, _, _, WhileLoop.run_done ?_ fuel, h.setValue hA value, Grown.setValue _ hA value, Or.inl ⟨rfl, ?_⟩⟩
    · simp only [radixExtendStep, h.node hA,
        if_neg (not_not.mpr ((bitAt_and_leadingMask hlen).mpr (Nat.le_refl m)))]
      rfl
    · rw [stored_update]
      rfl
  | succ k ih =>
    intro m p v t A a fuel hm h hA hnone hfuel
    obtain ⟨fuel, rfl⟩ : ∃ f, fuel = f + 1 := ⟨fuel - 1, by omega⟩
    have hbit : bitAt 32 m &&& leadingMask 32 len ≠ 0 := fun h0 => by
      have := (bitAt_and_leadingMask hlen).mp h0
      omega
    have hnew := hnone (Nat.succ_pos k)
    cases ha : a.head with
    | false =>
      have hunwilling : ¬ Willing a := fun hw => by
        rw [hw.head] at ha
        cases ha
      refine ⟨-1, t, A, WhileLoop.run_done ?_ fuel, h, Grown.refl _ A, Or.inr ⟨rfl, hunwilling, rfl⟩⟩
      simp only [radixExtendStep, h.node hA, if_pos hbit, radixAlloc, ha, Bool.false_eq_true, if_false]
    | true =>
      have hstep : radixExtendStep key (leadingMask 32 len) value (t, a, bitAt 32 m, p) =
          .again ((({ t with fresh := t.fresh + 1, size := t.size + sizeofRadixNode } : RadixTreeT).write t.fresh
            ⟨none, none, some p, radixNoValue⟩).write p
              ((nodeOf A (path key m) v).link key (bitAt 32 m) (some t.fresh)), a.tail, bitAt 32 (m + 1), t.fresh) := by
        simp only [radixExtendStep, h.node hA, if_pos hbit, radixAlloc, ha, if_true, bitAt_succ]
      have hshape := h.extend hA hnew (by rw [length_path]; omega)
        (n := (nodeOf A (path key m) v).link key (bitAt 32 m) (some t.fresh)) (link_nodeOf ..)
      have hself : Function.update A (path key (m + 1)) (some (t.fresh, radixNoValue)) (path key (m + 1)) =
          some (t.fresh, radixNoValue) := Function.update_self ..
      have hnext : Function.update A (path key (m + 1)) (some (t.fresh, radixNoValue)) (path key (m + 2)) = none := by
        rw [Function.update_of_ne (by rw [path]; exact (ne_cons_self _ _).symm)]
        exact h.closed _ _ hnew
      have hstored : stored (Function.update A (key.getMsbD m :: path key m) (some (t.fresh, radixNoValue))) =
          stored A := by
        rw [stored_update]
        exact Function.update_eq_self_iff.mpr (stored_eq_zero hnew).symm
      have hgrown : Grown (path key len) A (Function.update A (path key (m + 1)) (some (t.fresh, radixNoValue))) :=
        Grown.extend (path_suffix key (by omega)) hnew _
      rw [WhileLoop.run_again hstep]
      obtain ⟨ret, t', A', hrun, h', hg, hres⟩ :=
        ih (m + 1) t.fresh radixNoValue _ _ a.tail fuel (by omega) hshape hself (fun _ => hnext) (by omega)
      refine ⟨ret, t', A', hrun, h', hgrown.trans hg, ?_⟩
      rw [hstored] at hres
      exact hres.imp id (And.imp_right (And.imp_left (mt Willing.tail)))

/-- What `radix32tree_insert` does to the nodes, and in which cases it returns what. -/
theorem radix32treeInsert_cases (h : Shaped t A) (hlen : len ≤ 32) (key value : U32) (a : Allocs) :
    ∃ ret t' A', radix32treeInsert t key (parseMask len) value a = some (ret, t') ∧ Shaped t' A' ∧
      Grown (path key len) A A' ∧
      ((ret = 0 ∧ stored A (path key len) = radixNoValue ∧ stored A' = Function.update (stored A) (path key len) value) ∨
        (ret = 1 ∧ stored A (path key len) ≠ radixNoValue ∧ A' = A) ∨
        (ret = -1 ∧ ¬ Willing a ∧ stored A' = stored A)) := by
  obtain ⟨v₀, hr⟩ := h.root
  rw [parseMask_eq hlen, radix32treeInsert, topBit_eq]
  rcases @radixPlace_spec t A key len h hlen len 0 t.root v₀ walkRounds t.root (by omega) hr
    (by unfold walkRounds; omega) with ⟨q, w, c, hA, hrun⟩ | ⟨m, q, w, hm, hA, hnone, hrun⟩
  · simp only [hrun, h.node hA]
    by_cases hw : w ≠ radixNoValue
    · exact ⟨1, t, A, if_pos hw, h, Grown.refl _ A, Or.inr (Or.inl ⟨rfl, by rwa [stored_eq hA], rfl⟩)⟩
    · refine ⟨0, _, _, if_neg hw, h.setValue hA value, Grown.setValue _ hA value,
        Or.inl ⟨rfl, (stored_eq hA).trans (not_not.mp hw), ?_⟩⟩
      rw [stored_update]
      rfl
  · simp only [hrun]
    obtain ⟨ret, t', A', hext, h', hgrown, hres⟩ := @radixExtend_spec key len hlen value (len - m) m q w t A a walkRounds
      (by omega) h hA (fun _ => hnone) (by unfold walkRounds; omega)
    have hzero := stored_eq_zero (layout_none_of_le h hnone hm)
    exact ⟨ret, t', A', by rw [hext]; rfl, h', hgrown, hres.imp (fun ⟨hret, hs⟩ => ⟨hret, hzero, hs⟩) Or.inr⟩

/-- **`radix32tree_insert`** stores its value exactly when it returns 0. -/
theorem radix32treeInsert_spec (h : Shaped t A) (hlen : len ≤ 32) (key value : U32) (a : Allocs) :
    ∃ ret t' A', radix32treeInsert t key (parseMask len) value a = some (ret, t') ∧ Shaped t' A' ∧
      ((ret = 0 ∧ stored A' = Function.update (stored A) (path key len) value) ∨
        (ret ≠ 0 ∧ stored A' = stored A)) := by
  obtain ⟨ret, t', A', hrun, h', -, hcases⟩ := radix32treeInsert_cases h hlen key value a
  refine ⟨ret, t', A', hrun, h', ?_⟩
  rcases hcases with ⟨rfl, -, hs⟩ | ⟨rfl, -, rfl⟩ | ⟨rfl, -, hs⟩
  · exact Or.inl ⟨rfl, hs⟩
  · exact Or.inr ⟨by decide, rfl⟩
  · exact Or.inr ⟨by decide, hs⟩

/-- Pruning a leaf takes away its own value and no other, and leaves no useless node. -/
theorem radixPrune_spec : ∀ (ρ : List Bool) (t : RadixTreeT) (A : Layout) (p : Nat) (v : U32) (fuel : Nat),
    Shaped t A → A ρ = some (p, v) → ρ ≠ [] → (∀ c, A (c :: ρ) = none) → ρ.length < fuel →
    ∃ t' A', WhileLoop.run radixPruneStep fuel (t, p) = some (some t') ∧ Shaped t' A' ∧
      stored A' = Function.update (stored A) ρ radixNoValue ∧ Shrunk A A' ∧ A' ρ = none := by
  intro ρ
  induction ρ with
  | nil => intro t A p v fuel _ _ hne; exact absurd rfl hne
  | cons b π ih =>
    intro t A p v fuel h hA _ hchild hfuel
    obtain ⟨fuel, rfl⟩ : ∃ f, fuel = f + 1 := ⟨fuel - 1, by omega⟩
    obtain ⟨pp, pv, pn, hpar, hpp, hpn, hshape⟩ := h.unlink hA hchild
    have hpar' : Function.update A (b :: π) none π = some (pp, pv) :=
      (Function.update_of_ne (ne_cons_self b π) ..).trans hpar
    have hlinks : pn = nodeOf (Function.update A (b :: π) none) π pv := by
      have hnode := hshape.node hpar'
      rw [free_nodes_of_ne _ hpp, write_nodes_self] at hnode
      exact Option.some.inj hnode
    have hstored : stored (Function.update A (b :: π) none) =
        Function.update (stored A) (b :: π) radixNoValue := by
      rw [stored_update]
      rfl
    have hparent : (nodeOf A (b :: π) v).parent = some pp := addr_eq hpar
    have hstep : radixPruneStep (t, p) =
        if pn.right.isSome ∨ pn.left.isSome then .done (some ((t.write pp pn).free p))
        else if pn.value ≠ radixNoValue then .done (some ((t.write pp pn).free p))
        else if pn.parent = none then .done (some ((t.write pp pn).free p))
        else .again ((t.write pp pn).free p, pp) := by
      simp only [radixPruneStep, h.node hA, hparent, h.node hpar, hpn]
    by_cases hstop : (pn.right.isSome ∨ pn.left.isSome) ∨ pn.value ≠ radixNoValue ∨ pn.parent = none
    · refine ⟨_, _, WhileLoop.run_done ?_ fuel, hshape, hstored, (Shrunk.refl _).cut fun he => ?_, Function.update_self ..⟩
      · rw [hstep]
        split_ifs with h1 h2 h3
        · rfl
        · rfl
        · rfl
        · exact absurd hstop (by tauto)
      · obtain ⟨-, rfl⟩ := List.cons.inj he
        rintro ⟨hne, ⟨q, hq⟩, hchild⟩
        have hpv : pv = radixNoValue := (layout_inj hpar' hq).2
        rw [hlinks] at hstop
        rcases hstop with hlink | hval | hroot
        · exact (nodeOf_leaf_iff _ π pv).mpr hchild hlink
        · exact hval hpv
        · cases π with
          | nil => exact hne rfl
          | cons c π =>
            obtain ⟨q, w, hq⟩ := hshape.parent hpar'
            cases (addr_eq hq).symm.trans hroot
    · obtain ⟨h1, h23⟩ := not_or.mp hstop
      obtain ⟨h2, h3⟩ := not_or.mp h23
      rw [if_neg h1, if_neg h2, if_neg h3] at hstep
      rw [WhileLoop.run_again hstep]
      have hv : pv = radixNoValue := by
        rw [hlinks] at h2
        exact not_not.mp h2
      have hne : π ≠ [] := by
        rintro rfl
        rw [hlinks] at h3
        exact h3 rfl
      have hleaf : ∀ c, Function.update A (b :: π) none (c :: π) = none :=
        (nodeOf_leaf_iff _ π pv).mp (by rwa [hlinks] at h1)
      obtain ⟨t', A', hrun, h', hs, hshrunk, hgone⟩ := ih _ _ pp pv fuel hshape hpar' hne hleaf
        (by rw [List.length_cons] at hfuel; omega)
      refine ⟨t', A', hrun, h', ?_, hshrunk.cut fun he => ?_, h'.closed b π hgone⟩
      · rw [hs, Function.update_eq_self_iff.mpr ((stored_eq hpar').trans hv).symm, hstored]
      · obtain ⟨-, rfl⟩ := List.cons.inj he
        rintro ⟨-, ⟨q, hq⟩, -⟩
        rw [hgone] at hq
        cases hq

theorem radix32treeDelete_cases (h : Shaped t A) (hlen : len ≤ 32) (key : U32) :
    ∃ ret t' A', radix32treeDelete t key (parseMask len) = some (ret, t') ∧ Shaped t' A' ∧ Shrunk A A' ∧
      ((ret = 0 ∧ stored A' = Function.update (stored A) (path key len) radixNoValue ∧ ¬ Useless A' (path key len)) ∨
        (ret = -1 ∧ A' = A)) := by
  obtain ⟨v₀, hr⟩ := h.root
  have hwalk := @radixWalk_spec t A key len h hlen len 0 walkRounds (by omega) (by unfold walkRounds; omega)
  rw [path, addr_eq hr, ← topBit_eq] at hwalk
  rw [parseMask_eq hlen, radix32treeDelete]
  cases hp : addr A (path key len) with
  | none =>
    rw [hp] at hwalk
    exact ⟨-1, t, A, by simp only [hwalk], h, Shrunk.refl A, Or.inr ⟨rfl, rfl⟩⟩
  | some p =>
    rw [hp] at hwalk
    obtain ⟨v, hv⟩ := addr_eq_some hp
    simp only [hwalk, h.node hv]
    by_cases hpar : (nodeOf A (path key len) v).parent = none
    · exact ⟨-1, t, A, if_pos hpar, h, Shrunk.refl A, Or.inr ⟨rfl, rfl⟩⟩
    rw [if_neg hpar]
    by_cases hch : (nodeOf A (path key len) v).right.isSome ∨ (nodeOf A (path key len) v).left.isSome
    · rw [if_pos hch]
      by_cases hval : (nodeOf A (path key len) v).value ≠ radixNoValue
      · refine ⟨0, _, _, if_pos hval, h.setValue hv radixNoValue, Shrunk.setValue hv radixNoValue,
          Or.inl ⟨rfl, ?_, ?_⟩⟩
        · rw [stored_update]
          rfl
        · rintro ⟨-, -, hchild⟩
          refine (nodeOf_leaf_iff A _ v).mpr (fun c => ?_) hch
          rw [← hchild c, Function.update_of_ne (ne_cons_self c _).symm]
      · exact ⟨-1, t, A, if_neg hval, h, Shrunk.refl A, Or.inr ⟨rfl, rfl⟩⟩
    · rw [if_neg hch]
      have hne : path key len ≠ [] := by
        intro he
        rw [he] at hpar
        exact hpar rfl
      have hleaf : ∀ c, A (c :: path key len) = none := (nodeOf_leaf_iff A _ v).mp hch
      obtain ⟨t', A', hrun, h', hs, hshrunk, hgone⟩ := radixPrune_spec _ t A p v walkRounds h hv hne hleaf
        (by rw [length_path]; unfold walkRounds; omega)
      refine ⟨0, t', A', by rw [hrun]; rfl, h', hshrunk, Or.inl ⟨rfl, hs, ?_⟩⟩
      rintro ⟨-, ⟨q, hq⟩, -⟩
      rw [hgone] at hq
      cases hq

/-- **`radix32tree_delete`** takes the value of the prefix away exactly when it returns 0. -/
theorem radix32treeDelete_spec (h : Shaped t A) (hlen : len ≤ 32) (key : U32) :
    ∃ ret t' A', radix32treeDelete t key (parseMask len) = some (ret, t') ∧ Shaped t' A' ∧
      ((ret = 0 ∧ stored A' = Function.update (stored A) (path key len) radixNoValue) ∨
        (ret = -1 ∧ stored A' = stored A)) := by
  obtain ⟨ret, t', A', hrun, h', -, hcases⟩ := radix32treeDelete_cases h hlen key
  refine ⟨ret, t', A', hrun, h', hcases.imp (fun ⟨hret, hs, _⟩ => ⟨hret, hs⟩) ?_⟩
  rintro ⟨hret, rfl⟩
  exact ⟨hret, rfl⟩

/-! ## Runs -/

/-- A call of `radix32tree_insert` or `radix32tree_delete` with the mask of a prefix of `len` bits. -/
inductive RadixOp where
  | insert (key : U32) (len : Fin 33) (value : U32) (allocs : Allocs)
  | delete (key : U32) (len : Fin 33)

/-- Make one call. -/
def RadixTreeT.exec (t : RadixTreeT) : RadixOp → Option (Int × RadixTreeT)
  | .insert key len value allocs => radix32treeInsert t key (parseMask len) value allocs
  | .delete key len => radix32treeDelete t key (parseMask len)

/-- Make the calls one after the other, and note what each returned. -/
def radixRun (t : RadixTreeT) : List RadixOp → Option (RadixTreeT × List (RadixOp × Int))
  | [] => some (t, [])
  | op :: ops =>
    match t.exec op with
    | none => none
    | some (ret, t) =>
      match radixRun t ops with
      | none => none
      | some (t, log) => some (t, (op, ret) :: log)

/-- Values under prefixes, by length and masked key; 0 is no value. -/
abbrev PrefixTable := Nat × U32 → U32

/-- A call that returned 0 sets or removes its prefix, every other one changes nothing. -/
def PrefixTable.record (M : PrefixTable) : RadixOp × Int → PrefixTable
  | (.insert key len value _, ret) =>
    if ret = 0 then Function.update M (len, key &&& parseMask len) value else M
  | (.delete key len, ret) => if ret = 0 then Function.update M (len, key &&& parseMask len) 0 else M

/-- The map that the calls of a run and their results describe. -/
def prefixTable (log : List (RadixOp × Int)) : PrefixTable := log.foldl PrefixTable.record (fun _ => 0)

/-- The values stored in the tree are those of the map. -/
def Stores (A : Layout) (M : PrefixTable) : Prop :=
  ∀ (key : U32) (n : Nat), n ≤ 32 → stored A (path key n) = M (n, key &&& parseMask n)

theorem stores_update {B : Layout} {M : PrefixTable} (h : Stores A M) (hlen : len ≤ 32) {value : U32}
    (hB : stored B = Function.update (stored A) (path key len) value) :
    Stores B (Function.update M (len, key &&& parseMask len) value) := by
  intro key' n hn
  rw [hB]
  by_cases hp : path key' n = path key len
  · obtain ⟨rfl, hk⟩ := path_inj hn hp
    rw [hp, Function.update_self, parseMask_eq hn, hk, Function.update_self]
  · have hne : (n, key' &&& parseMask n) ≠ (len, key &&& parseMask len) := by
      intro he
      obtain ⟨rfl, hk⟩ := Prod.mk.inj he
      rw [parseMask_eq hn] at hk
      exact hp ((path_eq_iff hn).mpr hk)
    rw [Function.update_of_ne hp, Function.update_of_ne hne]
    exact h key' n hn

/-- Every call returns, keeps the shape and does to the stored values what its result says. -/
theorem exec_spec (h : Shaped t A) {M : PrefixTable} (hM : Stores A M) (op : RadixOp) :
    ∃ ret t' A', t.exec op = some (ret, t') ∧ Shaped t' A' ∧ Stores A' (M.record (op, ret)) := by
  cases op with
  | insert key len value allocs =>
    have hlen : len.val ≤ 32 := Nat.le_of_lt_succ len.isLt
    obtain ⟨ret, t', A', hrun, h', ⟨rfl, hs⟩ | ⟨hret, hs⟩⟩ := radix32treeInsert_spec h hlen key value allocs
    · refine ⟨0, t', A', hrun, h', ?_⟩
      rw [PrefixTable.record, if_pos rfl]
      exact stores_update hM hlen hs
    · refine ⟨ret, t', A', hrun, h', ?_⟩
      rw [PrefixTable.record, if_neg hret]
      exact fun key n hn => hs ▸ hM key n hn
  | delete key len =>
    have hlen : len.val ≤ 32 := Nat.le_of_lt_succ len.isLt
    obtain ⟨ret, t', A', hrun, h', ⟨rfl, hs⟩ | ⟨rfl, hs⟩⟩ := radix32treeDelete_spec h hlen key
    · refine ⟨0, t', A', hrun, h', ?_⟩
      rw [PrefixTable.record, if_pos rfl]
      exact stores_update hM hlen hs
    · exact ⟨-1, t', A', hrun, h', fun key n hn => hs ▸ hM key n hn⟩

theorem radixRun_spec : ∀ (ops : List RadixOp) (t : RadixTreeT) (A : Layout) (M : PrefixTable),
    Shaped t A → Stores A M →
    ∃ t' log A', radixRun t ops = some (t', log) ∧ log.map Prod.fst = ops ∧ Shaped t' A' ∧
      Stores A' (log.foldl PrefixTable.record M) := by
  intro ops
  induction ops with
  | nil => intro t A M h hM; exact ⟨t, [], A, rfl, rfl, h, hM⟩
  | cons op ops ih =>
    intro t A M h hM
    obtain ⟨ret, t₁, A₁, hexec, h₁, hM₁⟩ := exec_spec h hM op
    obtain ⟨t', log, A', hrun, hlog, h', hM'⟩ := ih t₁ A₁ _ h₁ hM₁
    exact ⟨t', (op, ret) :: log, A', by simp only [radixRun, hexec, hrun], by rw [List.map_cons, hlog], h', hM'⟩

theorem radixTreeCreate_eq {a a' : Allocs} (h : radixTreeCreate a = (some t, a')) :
    t = ⟨Function.update (fun _ => none) 0 (some ⟨none, none, none, radixNoValue⟩), 1, 0, sizeofRadixNode⟩ := by
  unfold radixTreeCreate radixAlloc at h
  split_ifs at h
  · simp only [Prod.mk.injEq, Option.some.injEq] at h
    rw [← h.1]
    rfl
  · simp at h
  · simp at h

theorem radixTreeCreate_shaped {a a' : Allocs} (h : radixTreeCreate a = (some t, a')) :
    ∃ A, Shaped t A ∧ Stores A (fun _ => 0) := by
  have ht := radixTreeCreate_eq h
  have hA : ∀ {π : List Bool} {p : Nat} {v : U32},
      (if π = [] then some (0, radixNoValue) else none) = some (p, v) → π = [] ∧ p = 0 ∧ v = radixNoValue := by
    intro π p v hπ
    split_ifs at hπ with hnil
    simp only [Option.some.injEq, Prod.mk.injEq] at hπ
    exact ⟨hnil, hπ.1.symm, hπ.2.symm⟩
  refine ⟨fun π => if π = [] then some (0, radixNoValue) else none, ⟨?_, ?_, ?_, ?_, ?_, ?_, ?_⟩, ?_⟩
  · exact ⟨radixNoValue, by rw [ht]; rfl⟩
  · intro b π _
    exact if_neg (by simp)
  · intro π π' p v v' h1 h2
    rw [(hA h1).1, (hA h2).1]
  · intro π p v h1
    obtain ⟨rfl, rfl, rfl⟩ := hA h1
    rw [ht]
    rfl
  · intro p n hn
    rw [ht] at hn
    by_cases hp : p = 0
    · exact ⟨[], radixNoValue, by rw [hp]; rfl⟩
    · have hnone : (Function.update (fun _ => none) 0 (some ⟨none, none, none, radixNoValue⟩) :
          Nat → Option RadixNodeT) p = none := Function.update_of_ne hp ..
      exact absurd (hn.symm.trans hnone) (by simp)
  · intro π hπ
    apply if_neg
    rintro rfl
    simp at hπ
  · intro π p v h1
    obtain ⟨rfl, rfl, rfl⟩ := hA h1
    rw [ht]
    exact Nat.zero_lt_one
  · intro key n _
    show ((if path key n = [] then some (0, radixNoValue) else none).map Prod.snd).getD radixNoValue = 0
    split_ifs <;> rfl

/-- **Longest prefix match.** Every run of inserts and deletes returns, and after it `radix32tree_find`
answers each key with the value of the longest prefix in the map its results describe. -/
theorem radix32treeFind_longest {a a' : Allocs} {t₀ : RadixTreeT} (h₀ : radixTreeCreate a = (some t₀, a'))
    (ops : List RadixOp) : ∃ t log, radixRun t₀ ops = some (t, log) ∧ log.map Prod.fst = ops ∧
      ∀ key : U32, ∃ value, radix32treeFind t key = some value ∧
        IsLongest (fun n => prefixTable log (n, key &&& parseMask n)) 32 value := by
  obtain ⟨A₀, hshape, hstores⟩ := radixTreeCreate_shaped h₀
  obtain ⟨t, log, A, hrun, hlog, h, hM⟩ := radixRun_spec ops t₀ A₀ _ hshape hstores
  refine ⟨t, log, hrun, hlog, fun key => ⟨_, radix32treeFind_spec h key, ?_⟩⟩
  rw [longest_congr (fun n hn => hM key n hn)]
  exact longest_spec _ 32

/-- Two nested blocks, an allocation that fails on the way to a third, and a delete that prunes. -/
theorem radix32treeFind_longest_nested : ∃ t₀ a', radixTreeCreate (Stream'.const true) = (some t₀, a') ∧
    ∃ t log, radixRun t₀ [.insert 0x0a000000 8 0x01010101 (Stream'.const true),
        .insert 0x0a010000 16 0x02020202 (Stream'.const true), .insert 0xc0000000 2 0x03030303 (Stream'.const false),
        .delete 0x0a010000 16] = some (t, log) ∧
      ∀ key : U32, ∃ value, radix32treeFind t key = some value ∧
        IsLongest (fun n => prefixTable log (n, key &&& parseMask n)) 32 value := by
  obtain ⟨t, log, hrun, -, h⟩ := radix32treeFind_longest (a := Stream'.const true) rfl
    [.insert 0x0a000000 8 0x01010101 (Stream'.const true), .insert 0x0a010000 16 0x02020202 (Stream'.const true),
      .insert 0xc0000000 2 0x03030303 (Stream'.const false), .delete 0x0a010000 16]
  exact ⟨_, _, rfl, t, log, hrun, h⟩

end Fnsproxy
