import Fnsproxy.Dlist.Spec
import Mathlib.Data.Stream.Init

/-!
# Copying a list

`dlist_dup` with every outcome of its allocations and of the calls of `dup`:

* `Copied` : the values of the copy are those `dup` has returned, or those of the original;
* `DupLaw` : the copy, or everything released; either way the original is as it was;
* `DupSafe` : where the first failing step may be for that;
* `Linked.dlistDestroy` : what `dlist_destroy` frees;
* `Copying`, `dup_loop` : the copy so far, and the rest of the loop;
* `dlistDup_iff` : `dlist_dup` keeps the law exactly when its failures are safe.
-/

namespace Fnsproxy
open Word

section Law
variable {V C : Type} [Counter C]

/-- The values `ws` of a copy of the values `vs`: what the calls of `dup` have returned, one after the other, or
the values themselves when it is not set. -/
def Copied (dup : Bool) (dups : Stream' (V → Option V)) (vs ws : List V) : Prop :=
  if dup then vs.mapIdx (fun i v => dups.get i v) = ws.map some else ws = vs

/-- What `dlist_dup` promises: the original keeps its nodes; a copy that is returned holds the copied values in
nodes of its own, and nothing has been freed; without one every value made has been freed, no other value and none
of the original has, and no node of the copy is left. -/
structure DupLaw (orig : DlistT V C) (ns : List (Nat × V)) (dups : Stream' (V → Option V))
    (r : DlistDupped V C) : Prop where
  intact : Linked r.orig ns
  header : r.orig = { orig with nodes := r.orig.nodes, fresh := r.orig.fresh }
  old : ∀ p < orig.fresh, r.orig.nodes p = orig.nodes p
  copied : ∀ copy, r.copy = some copy → copy.nodes = r.orig.nodes ∧ r.freed = [] ∧
    ∃ ms, Linked copy ms ∧ (∀ x ∈ ms, orig.fresh ≤ x.1) ∧ Copied orig.dup dups (ns.map Prod.snd) (ms.map Prod.snd)
  released : r.copy = none → r.freed = r.made ∧ (∀ v ∈ r.freed, v ∉ ns.map Prod.snd) ∧
    ∀ p, orig.fresh ≤ p → p < r.orig.fresh → r.orig.nodes p = none

/-- The rounds that copy the values `vs` behind those copied as `ws`, up to the first that fails: a call of `dup` may
fail when no node has been made, or when `free` is set and `dup` has returned no value of the original, `olds`; an
allocation may when `dup` is not set, and `free` is not set or no node has been made. -/
def DupSafe (dup free : Bool) (olds : List V) : List V → List V → Stream' Bool → Stream' (V → Option V) → Prop
  | _, [], _, _ => True
  | ws, v :: vs, allocs, dups =>
    match if dup then dups.head v else some v with
    | none => ws = [] ∨ free = true ∧ ∀ w ∈ ws, w ∉ olds
    | some w =>
      if allocs.head = true then DupSafe dup free olds (ws ++ [w]) vs allocs.tail (if dup then dups.tail else dups)
      else dup = false ∧ (free = false ∨ ws = [])

end Law

section Erase
variable {V C : Type}

/-- The list without the nodes at `ps`. -/
def DlistT.erase (dl : DlistT V C) (ps : List Nat) : DlistT V C :=
  { dl with nodes := fun p => if p ∈ ps then none else dl.nodes p }

theorem DlistT.erase_concat (dl : DlistT V C) (ps : List Nat) (p : Nat) :
    Function.update (dl.erase ps).nodes p none = (dl.erase (ps ++ [p])).nodes := by
  funext q
  by_cases hq : q = p
  · rw [hq, Function.update_self]
    exact (if_pos (by simp)).symm
  · rw [Function.update_of_ne hq]
    simp [DlistT.erase, hq]

theorem spliced_of_ne {dl : DlistT V C} {a b : Option Nat} {v : V} {r : Nat} (hr : r ≠ dl.fresh) (ha : a ≠ some r)
    (hb : b ≠ some r) : dl.spliced a b v r = dl.nodes r := by
  rw [DlistT.spliced, if_neg hr]
  cases dl.nodes r with
  | none => rfl
  | some n => rw [Option.map_some, relinked, if_neg hb, if_neg ha]

end Erase

section Destroy
variable {V C : Type} [Counter C] {dl : DlistT V C} {ns : List (Nat × V)}

theorem Linked.destroy_loop [DecidableEq C] (h : Linked dl ns) : ∀ (ys xs : List (Nat × V)) (len : C) (freed : List V)
    (fuel : Nat), ns = xs ++ ys → Counter.count len = ys.length → ys.length < fuel →
    WhileLoop.run dlistDestroyStep fuel ⟨dl.erase (xs.map Prod.fst), len, first ys, freed⟩ =
      some (some (dl.erase (ns.map Prod.fst), freed ++ if dl.free then ys.map Prod.snd else [])) := by
  intro ys
  induction ys with
  | nil =>
    intro xs len freed fuel hs hlen hfuel
    obtain ⟨fuel, rfl⟩ : ∃ f, fuel = f + 1 := ⟨fuel - 1, by omega⟩
    rw [List.append_nil] at hs
    refine WhileLoop.run_done ?_ fuel
    rw [dlistDestroyStep, if_pos (Counter.eq_zero_of_count hlen), hs]
    simp
  | cons y ys ih =>
    intro xs len freed fuel hs hlen hfuel
    obtain ⟨fuel, rfl⟩ : ∃ f, fuel = f + 1 := ⟨fuel - 1, by omega⟩
    have hy : y.1 ∉ xs.map Prod.fst := by
      have hnd := h.nodup
      rw [hs, (List.perm_middle.map Prod.fst).nodup_iff, List.map_cons, List.nodup_cons, List.map_append] at hnd
      exact fun hm => hnd.1 (List.mem_append_left _ hm)
    have hnode : (dl.erase (xs.map Prod.fst)).nodes y.1 = some ⟨last xs, first ys, y.2⟩ :=
      (if_neg hy).trans (h.node hs)
    have hstep : dlistDestroyStep ⟨dl.erase (xs.map Prod.fst), len, first (y :: ys), freed⟩ =
        .again ⟨dl.erase ((xs ++ [y]).map Prod.fst), len - 1, first ys, if dl.free then freed ++ [y.2] else freed⟩ := by
      rw [dlistDestroyStep, if_neg]
      · simp only [first_cons, hnode, DlistT.erase_concat, List.map_append]
        rfl
      · intro he
        have hzero := (Counter.count_eq_zero len).mp he
        exact absurd (hzero.symm.trans hlen) (by simp)
    rw [List.length_cons] at hlen hfuel
    rw [WhileLoop.run_again hstep, ih (xs ++ [y]) (len - 1) _ fuel (by rw [hs, List.append_cons])
      (by rw [Counter.count_sub len (by omega)]; omega) (by omega)]
    cases dl.free <;> simp

theorem Linked.dlistDestroy [DecidableEq C] (h : Linked dl ns) :
    dlistDestroy dl = some (dl.erase (ns.map Prod.fst), if dl.free then ns.map Prod.snd else []) := by
  have hloop := h.destroy_loop ns [] dl.len [] (Counter.count dl.len + 1) rfl h.len (by rw [h.len]; omega)
  have herase : dl.erase [] = dl := by simp [DlistT.erase]
  rw [List.map_nil, herase, ← h.head, List.nil_append] at hloop
  rw [Fnsproxy.dlistDestroy, hloop, Option.join_some]

end Destroy

section Dup
variable {V C : Type} [Counter C] {orig copy : DlistT V C} {ns xs ys ms : List (Nat × V)}
  {dups : Stream' (V → Option V)} {s : DlistDupT V C}

theorem Linked.inHeap (h : Linked orig ns) (hle : orig.fresh ≤ copy.fresh)
    (hold : ∀ p < orig.fresh, copy.nodes p = orig.nodes p) : Linked (orig.inHeap copy) ns :=
  ⟨h.head, h.tail, h.len, h.nodup, fun hp => lt_of_lt_of_le (h.fresh hp) hle, fun {_ p v _} hs =>
    (hold p (h.fresh (v := v) (by rw [hs]; simp))).trans (h.node hs)⟩

/-- The copy `ms` of the nodes `xs` of the original, `ys` being still to come. -/
structure Copying (orig : DlistT V C) (xs ys ms : List (Nat × V)) (dups : Stream' (V → Option V))
    (s : DlistDupT V C) : Prop where
  linked : Linked s.copy ms
  length : ms.length = xs.length
  dup : s.copy.dup = orig.dup
  free : s.copy.free = orig.free
  le : orig.fresh ≤ s.copy.fresh
  old : ∀ p < orig.fresh, s.copy.nodes p = orig.nodes p
  new : ∀ p, p ∈ ms.map Prod.fst ↔ orig.fresh ≤ p ∧ p < s.copy.fresh
  iter : s.iter = ⟨first ys, .startHead⟩
  made : s.made = if orig.dup then ms.map Prod.snd else []
  values : Copied orig.dup dups (xs.map Prod.snd) (ms.map Prod.snd)
  dups : orig.dup = true → s.dups = dups.drop xs.length

omit [Counter C] in
theorem freed_made_iff (free : Bool) (ws olds : List V) :
    ((if free then ws else []) = ws ∧ ∀ v ∈ if free then ws else [], v ∉ olds) ↔
      ws = [] ∨ free = true ∧ ∀ w ∈ ws, w ∉ olds := by
  cases free with
  | false => simp
  | true =>
    simp only [if_true, true_and]
    constructor
    · exact Or.inr
    · rintro (rfl | h)
      · simp
      · exact h

omit [Counter C] in
theorem freed_more_iff (dup free : Bool) (ws olds : List V) (w : V) :
    ((if free then ws else []) = (if dup then ws ++ [w] else []) ∧ ∀ v ∈ if free then ws else [], v ∉ olds) ↔
      dup = false ∧ (free = false ∨ ws = []) := by
  cases dup with
  | true => cases free <;> simp
  | false =>
    cases free with
    | false => simp
    | true =>
      constructor
      · exact fun h => ⟨rfl, Or.inr h.1⟩
      · rintro ⟨-, h | rfl⟩
        · exact absurd h (by decide)
        · simp

/-- The error exits free the nodes made so far; the law asks that the values freed are those made, and none of the
original. -/
theorem dupFail_iff [DecidableEq C] (made : List V) (h : Linked orig ns) (hc : Copying orig xs ys ms dups s) :
    ∃ r, dlistDupFail orig s.copy made = some r ∧
      (DupLaw orig ns dups r ↔ (if orig.free then ms.map Prod.snd else []) = made ∧
        ∀ v ∈ if orig.free then ms.map Prod.snd else [], v ∉ ns.map Prod.snd) := by
  have hdestroy := hc.linked.dlistDestroy
  refine ⟨_, by rw [dlistDupFail, hdestroy], ?_⟩
  rw [hc.free]
  constructor
  · exact fun hlaw => ⟨(hlaw.released rfl).1, (hlaw.released rfl).2.1⟩
  · rintro ⟨hfreed, holds⟩
    have hold : ∀ p < orig.fresh, (s.copy.erase (ms.map Prod.fst)).nodes p = orig.nodes p := by
      intro p hp
      refine (if_neg fun hm => ?_).trans (hc.old p hp)
      exact absurd ((hc.new p).mp hm).1 (Nat.not_le.mpr hp)
    exact ⟨h.inHeap hc.le hold, rfl, hold, fun _ he => absurd he (by simp),
      fun _ => ⟨hfreed, holds, fun p hp hlt => if_pos ((hc.new p).mpr ⟨hp, hlt⟩)⟩⟩

theorem Copying.again {y : Nat × V} {w : V} (h : Linked orig ns) (hs : ns = xs ++ y :: ys)
    (hc : Copying orig xs (y :: ys) ms dups s)
    (hw : (if s.copy.dup then s.dups.head y.2 else some y.2) = some w) :
    Copying orig (xs ++ [y]) ys (ms ++ [(s.copy.fresh, w)]) dups
      ⟨s.copy.splice ms [] w, ⟨first ys, .startHead⟩, s.allocs.tail, if s.copy.dup then s.dups.tail else s.dups,
        if s.copy.dup then s.made ++ [w] else s.made⟩ := by
  have hroom : Counter.Room s.copy.len := by
    apply Counter.Room.of_lt (d := orig.len)
    rw [hc.linked.len, h.len, hc.length, hs, List.length_append, List.length_cons]
    omega
  have hlinked := (show Linked s.copy (ms ++ []) by rw [List.append_nil]; exact hc.linked).splice hroom w
  have hold : ∀ p < orig.fresh, (s.copy.splice ms [] w).nodes p = s.copy.nodes p := by
    intro p hp
    refine spliced_of_ne (Nat.ne_of_lt (lt_of_lt_of_le hp hc.le)) (fun hl => ?_) (by simp)
    obtain ⟨u, hu⟩ := last_mem hl
    exact absurd ((hc.new p).mp (List.mem_map_of_mem hu)).1 (Nat.not_le.mpr hp)
  refine ⟨hlinked, ?_, hc.dup, hc.free, Nat.le_succ_of_le hc.le, fun p hp => (hold p hp).trans (hc.old p hp), ?_, rfl,
    ?_, ?_, ?_⟩
  · rw [List.length_append, List.length_append, hc.length]
    rfl
  · intro p
    show _ ↔ orig.fresh ≤ p ∧ p < s.copy.fresh + 1
    have hle := hc.le
    rw [List.map_append, List.mem_append, hc.new p, List.map_singleton, List.mem_singleton]
    constructor
    · rintro (⟨h1, h2⟩ | rfl) <;> omega
    · rintro ⟨h1, h2⟩
      omega
  · show (if s.copy.dup then s.made ++ [w] else s.made) = _
    rw [hc.dup, hc.made]
    cases orig.dup <;> simp
  · have hvalues := hc.values
    rw [hc.dup] at hw
    unfold Copied at hvalues ⊢
    cases hd : orig.dup with
    | false =>
      rw [hd, if_neg Bool.false_ne_true] at hvalues hw
      obtain rfl := Option.some.inj hw
      rw [if_neg Bool.false_ne_true, List.map_append, List.map_append, hvalues]
      rfl
    | true =>
      rw [hd, if_pos rfl] at hvalues hw
      rw [hc.dups hd, Stream'.head_drop] at hw
      rw [if_pos rfl, List.map_append, List.map_append, List.map_append, List.map_singleton, List.mapIdx_concat,
        hvalues, List.length_map, hw]
      rfl
  · intro hd
    show (if s.copy.dup then s.dups.tail else s.dups) = _
    rw [hc.dup, if_pos hd, hc.dups hd, List.length_append]
    exact Stream'.tail_drop'

/-- The rest of the loop: it ends, and the law holds as the rounds that are left decide. -/
theorem dup_loop [DecidableEq C] (h : Linked orig ns) : ∀ (ys xs ms : List (Nat × V)) (s : DlistDupT V C) (fuel : Nat),
    ns = xs ++ ys → Copying orig xs ys ms dups s → ys.length < fuel →
    ∃ r, WhileLoop.run (dlistDupStep orig) fuel s = some (some r) ∧
      (DupLaw orig ns dups r ↔ DupSafe orig.dup orig.free (ns.map Prod.snd) (ms.map Prod.snd) (ys.map Prod.snd)
        s.allocs s.dups) := by
  intro ys
  induction ys with
  | nil =>
    intro xs ms s fuel hs hc hfuel
    obtain ⟨fuel, rfl⟩ : ∃ f, fuel = f + 1 := ⟨fuel - 1, by omega⟩
    rw [List.append_nil] at hs
    have hstep : dlistDupStep orig s = .done (some ⟨some s.copy, orig.inHeap s.copy, s.made, []⟩) := by
      rw [dlistDupStep, hc.iter]
      rfl
    refine ⟨_, WhileLoop.run_done hstep fuel, iff_of_true ?_ trivial⟩
    refine ⟨h.inHeap hc.le hc.old, rfl, hc.old, fun copy he => ?_, fun he => absurd he (by simp)⟩
    obtain rfl := Option.some.inj he
    exact ⟨rfl, rfl, ms, hc.linked, fun x hx => ((hc.new x.1).mp (List.mem_map_of_mem hx)).1, hs ▸ hc.values⟩
  | cons y ys ih =>
    intro xs ms s fuel hs hc hfuel
    obtain ⟨fuel, rfl⟩ : ∃ f, fuel = f + 1 := ⟨fuel - 1, by omega⟩
    have hnext := (h.inHeap hc.le hc.old).next hs
    have hnode : s.copy.nodes y.1 = some ⟨last xs, first ys, y.2⟩ :=
      (h.inHeap hc.le hc.old).node hs
    rw [first_cons, List.tail_cons] at hnext
    have hmade := hc.made
    rw [List.map_cons, DupSafe, ← hc.dup]
    cases hw : (if s.copy.dup then s.dups.head y.2 else some y.2) with
    | none =>
      have hdup : orig.dup = true := by
        rw [hc.dup] at hw
        split_ifs at hw with hdup
        exact hdup
      obtain ⟨r, hr, hlaw⟩ := dupFail_iff s.made h hc
      have hstep : dlistDupStep orig s = .done (some r) := by
        rw [dlistDupStep, hc.iter, first_cons, hnext]
        simp only [hnode, hw, hr]
      refine ⟨r, WhileLoop.run_done hstep fuel, ?_⟩
      rw [if_pos hdup] at hmade
      rw [hlaw, hmade, freed_made_iff]
    | some w =>
      dsimp only
      cases ha : s.allocs.head with
      | false =>
        obtain ⟨r, hr, hlaw⟩ := dupFail_iff (if s.copy.dup then s.made ++ [w] else s.made) h hc
        have hstep : dlistDupStep orig s = .done (some r) := by
          rw [dlistDupStep, hc.iter, first_cons, hnext]
          simp only [hnode, hw, ha, dlistAddNodeTail, Bool.false_eq_true, if_false, hr]
        refine ⟨r, WhileLoop.run_done hstep fuel, ?_⟩
        rw [hlaw, if_neg Bool.false_ne_true, ← freed_more_iff s.copy.dup orig.free (ms.map Prod.snd) _ w, hmade, hc.dup]
        cases orig.dup <;> rfl
      | true =>
        have hadd := hc.linked.addNodeTail w
        have hstep : dlistDupStep orig s = .again ⟨s.copy.splice ms [] w, ⟨first ys, .startHead⟩, s.allocs.tail,
            if s.copy.dup then s.dups.tail else s.dups, if s.copy.dup then s.made ++ [w] else s.made⟩ := by
          rw [dlistDupStep, hc.iter, first_cons, hnext]
          simp only [hnode, hw, ha, hadd]
        rw [WhileLoop.run_again hstep, if_pos rfl]
        obtain ⟨r, hrun, hlaw⟩ := ih (xs ++ [y]) _ _ fuel (by rw [hs, List.append_cons]) (hc.again h hs hw)
          (Nat.lt_of_succ_lt_succ hfuel)
        refine ⟨r, hrun, ?_⟩
        rw [hlaw, List.map_append, hc.dup]
        rfl

/-- **`dlist_dup`** returns and keeps its law exactly when it gets no list or an iterator too, and its failures
are safe. -/
theorem dlistDup_iff [DecidableEq C] (h : Linked orig ns) (allocs : Stream' Bool) (dups : Stream' (V → Option V)) :
    (∃ r, dlistDup orig allocs dups = some r ∧ DupLaw orig ns dups r) ↔
      allocs.head = false ∨ allocs.tail.head = true ∧
        DupSafe orig.dup orig.free (ns.map Prod.snd) [] (ns.map Prod.snd) allocs.tail.tail dups := by
  cases ha : allocs.head with
  | false =>
    have hdup : dlistDup orig allocs dups = some ⟨none, orig, [], []⟩ := by
      rw [dlistDup, dlistCreate, ha, if_neg Bool.false_ne_true]
    refine iff_of_true ⟨_, hdup, h, rfl, fun _ _ => rfl, fun _ he => absurd he (by simp), fun _ => ⟨rfl, by simp, ?_⟩⟩
      (Or.inl rfl)
    exact fun p hp hlt => absurd hlt (Nat.not_lt.mpr hp)
  | true =>
    cases hi : allocs.tail.head with
    | false =>
      have hdup : dlistDup orig allocs dups = none := by
        rw [dlistDup, dlistCreate, ha, if_pos rfl]
        simp only [dlistGetIterator, hi, Bool.false_eq_true, if_false]
      exact iff_of_false (by simp [hdup]) (by simp)
    | true =>
      have hc : Copying orig [] ns [] dups ⟨{ (dlistInit : DlistT V C).inHeap orig with
          dup := orig.dup, free := orig.free, match' := orig.match' },
          ⟨first ns, .startHead⟩, allocs.tail.tail, dups, []⟩ := by
        refine ⟨⟨rfl, rfl, Counter.count_zero, List.nodup_nil, fun hp => absurd hp (by simp),
          fun hs => absurd hs (by simp)⟩, rfl, rfl, rfl, le_refl _, fun _ _ => rfl, ?_, rfl, ?_, ?_, fun _ => rfl⟩
        · intro p
          exact iff_of_false (by simp) fun hp => Nat.not_lt.mpr hp.1 hp.2
        · cases orig.dup <;> rfl
        · unfold Copied
          cases orig.dup <;> rfl
      obtain ⟨r, hrun, hlaw⟩ := dup_loop h ns [] [] _ (Counter.count orig.len + 1) rfl hc (by rw [h.len]; omega)
      have hdup : dlistDup orig allocs dups = some r := by
        rw [dlistDup, dlistCreate, ha, if_pos rfl]
        simp only [dlistGetIterator, hi, if_true, h.head]
        rw [hrun, Option.join_some]
      rw [hdup]
      constructor
      · rintro ⟨r', hr, h'⟩
        obtain rfl := Option.some.inj hr
        exact Or.inr ⟨rfl, hlaw.mp h'⟩
      · rintro (he | ⟨-, hsafe⟩)
        · exact absurd he (by simp)
        · exact ⟨r, rfl, hlaw.mpr hsafe⟩

end Dup

/-- Two values and a `free` method. -/
def freeing : DlistT Nat U32 := { ((dlistInit : DlistT Nat U32).splice [] [] 7).splice [(0, 7)] [] 9 with free := true }

/-- A `dup` that succeeds once. -/
def dupsFirst : Stream' (Nat → Option Nat) := fun i v => if i = 0 then some (v + 10) else none

theorem linked_freeing : Linked freeing [(0, 7), (1, 9)] := by
  have h₁ : Linked ((dlistInit : DlistT Nat U32).splice [] [] 7) [(0, 7)] :=
    linked_init.splice (Counter.room_bitVec.mpr (by decide)) 7
  have h₂ := (show Linked _ ([(0, 7)] ++ []) from h₁).splice (Counter.room_bitVec.mpr (by decide)) 9
  exact ⟨h₂.head, h₂.tail, h₂.len, h₂.nodup, h₂.fresh, h₂.node⟩

/-- `dup` of the second value fails, when that of the first has given a value of its own. -/
theorem dlistDup_iff_freeing : ∃ r, dlistDup { freeing with dup := true } (fun _ => true) dupsFirst = some r ∧
    DupLaw { freeing with dup := true } [(0, 7), (1, 9)] dupsFirst r := by
  have hlinked : Linked { freeing with dup := true } [(0, 7), (1, 9)] :=
    ⟨linked_freeing.head, linked_freeing.tail, linked_freeing.len, linked_freeing.nodup, linked_freeing.fresh,
      linked_freeing.node⟩
  refine (dlistDup_iff hlinked (fun _ => true) dupsFirst).mpr (Or.inr ⟨rfl, ?_⟩)
  exact Or.inr ⟨rfl, by decide⟩

/-- When the second node of the copy cannot be made, the first value of the original is freed. -/
theorem not_dupLaw : Linked freeing [(0, 7), (1, 9)] ∧
    ¬ ∃ r, dlistDup freeing (fun i => i != 3) (fun _ _ => none) = some r ∧
      DupLaw freeing [(0, 7), (1, 9)] (fun _ _ => none) r := by
  refine ⟨linked_freeing, ?_⟩
  rintro ⟨r, hr, hlaw⟩
  have hout : (dlistDup freeing (fun i => i != 3) (fun _ _ => none)).map (fun r => (r.copy.isNone, r.freed, r.made)) =
      some (true, [7], []) := by
    decide
  rw [hr, Option.map_some] at hout
  obtain ⟨hnone, hfreed⟩ := Prod.mk.inj (Option.some.inj hout)
  obtain ⟨hfreed, hmade⟩ := Prod.mk.inj hfreed
  have hlaw := (hlaw.released (Option.isNone_iff_eq_none.mp hnone)).1
  rw [hfreed, hmade] at hlaw
  exact absurd hlaw (by simp)

end Fnsproxy
