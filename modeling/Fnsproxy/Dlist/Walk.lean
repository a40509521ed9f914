import Fnsproxy.Dlist.Spec
import Mathlib.Data.List.Nodup

/-!
# Walking a list and deleting from it

The loop `while ((node = dlist_next(iter)) != NULL)` with a body that passes some of the nodes it gets to
`dlist_delete_node`:

* `dlistWalkStep` : a round of it;
* `Starts` : the iterators it can begin with;
* `walk_head`, `walk_tail` : the rest of the loop, towards the tail and towards the head;
* `walk_deleting` : every node is returned once, in order, and those not deleted are left.
-/

namespace Fnsproxy
open Word

section Loop
variable {V C : Type} [Counter C]

/-- The state of the loop, with the nodes it has got so far. -/
structure DlistWalkT (V C : Type) where
  dl : DlistT V C
  iter : DlistIterT
  returned : List Nat

/-- A round of the loop, which deletes the node it gets when `del` picks it. -/
def dlistWalkStep (del : Nat → Bool) (s : DlistWalkT V C) :
    WhileLoop.Next (DlistWalkT V C) (Option (DlistT V C × List Nat)) :=
  match dlistNext s.dl s.iter with
  | none => .done none
  | some (none, _) => .done (some (s.dl, s.returned))
  | some (some node, iter) =>
    if del node then
      match dlistDeleteNode s.dl node with
      | none => .done none
      | some (dl, _) => .again ⟨dl, iter, s.returned ++ [node]⟩
    else .again ⟨s.dl, iter, s.returned ++ [node]⟩

end Loop

section Starts
variable {V C : Type}

/-- The nodes in the order of a direction. -/
def DlistDirection.order (direction : DlistDirection) (ps : List Nat) : List Nat :=
  match direction with
  | .startHead => ps
  | .startTail => ps.reverse

/-- An iterator from `dlist_get_iterator`, `dlist_rewind` or `dlist_rewind_tail`. -/
def Starts (dl : DlistT V C) (direction : DlistDirection) (iter : DlistIterT) : Prop :=
  dlistGetIterator dl direction true = some iter ∨ (direction = .startHead ∧ iter = dlistRewind dl) ∨
    (direction = .startTail ∧ iter = dlistRewindTail dl)

theorem Starts.eq {dl : DlistT V C} {direction : DlistDirection} {iter : DlistIterT}
    (h : Starts dl direction iter) :
    (direction = .startHead ∧ iter = ⟨dl.head, .startHead⟩) ∨
      (direction = .startTail ∧ iter = ⟨dl.tail, .startTail⟩) := by
  rcases h with h | h | h
  · cases direction with
    | startHead => exact Or.inl ⟨rfl, (Option.some.inj h).symm⟩
    | startTail => exact Or.inr ⟨rfl, (Option.some.inj h).symm⟩
  · exact Or.inl h
  · exact Or.inr h

end Starts

section Walk
variable {V C : Type} [Counter C] (del : Nat → Bool)

/-- The rest of the loop towards the tail, `kept` being what it has left of the nodes before. -/
theorem walk_head : ∀ (ys kept : List (Nat × V)) (dl : DlistT V C) (returned : List Nat) (fuel : Nat),
    Linked dl (kept ++ ys) → ys.length < fuel →
    ∃ dl', WhileLoop.run (dlistWalkStep del) fuel ⟨dl, ⟨first ys, .startHead⟩, returned⟩ =
        some (some (dl', returned ++ ys.map Prod.fst)) ∧
      Linked dl' (kept ++ ys.filter fun x => !del x.1) := by
  intro ys
  induction ys with
  | nil =>
    intro kept dl returned fuel h hfuel
    obtain ⟨fuel, rfl⟩ : ∃ f, fuel = f + 1 := ⟨fuel - 1, by omega⟩
    refine ⟨dl, WhileLoop.run_done ?_ fuel, h⟩
    rw [List.map_nil, List.append_nil]
    rfl
  | cons y ys ih =>
    intro kept dl returned fuel h hfuel
    obtain ⟨fuel, rfl⟩ : ∃ f, fuel = f + 1 := ⟨fuel - 1, by omega⟩
    have hfuel' : ys.length < fuel := Nat.lt_of_succ_lt_succ hfuel
    have hnext := h.next rfl
    rw [first_cons, List.tail_cons] at hnext
    rw [List.map_cons, List.append_cons returned]
    cases hd : del y.1 with
    | true =>
      have hstep : dlistWalkStep del ⟨dl, ⟨first (y :: ys), .startHead⟩, returned⟩ =
          .again ⟨dl.cut kept ys y.1, ⟨first ys, .startHead⟩, returned ++ [y.1]⟩ := by
        simp only [dlistWalkStep, hnext, first_cons, hd, if_true, h.deleteNode rfl]
      rw [WhileLoop.run_again hstep, List.filter_cons_of_neg (by simp [hd])]
      exact ih kept _ _ fuel (h.cut rfl) hfuel'
    | false =>
      have hstep : dlistWalkStep del ⟨dl, ⟨first (y :: ys), .startHead⟩, returned⟩ =
          .again ⟨dl, ⟨first ys, .startHead⟩, returned ++ [y.1]⟩ := by
        simp only [dlistWalkStep, hnext, first_cons, hd, Bool.false_eq_true, if_false]
      rw [WhileLoop.run_again hstep, List.filter_cons_of_pos (by simp [hd]), List.append_cons kept]
      exact ih (kept ++ [y]) dl _ fuel (by rwa [← List.append_cons]) hfuel'

theorem walk_tail : ∀ (rs kept : List (Nat × V)) (dl : DlistT V C) (returned : List Nat) (fuel : Nat),
    Linked dl (rs.reverse ++ kept) → rs.length < fuel →
    ∃ dl', WhileLoop.run (dlistWalkStep del) fuel ⟨dl, ⟨last rs.reverse, .startTail⟩, returned⟩ =
        some (some (dl', returned ++ rs.map Prod.fst)) ∧
      Linked dl' ((rs.reverse.filter fun x => !del x.1) ++ kept) := by
  intro rs
  induction rs with
  | nil =>
    intro kept dl returned fuel h hfuel
    obtain ⟨fuel, rfl⟩ : ∃ f, fuel = f + 1 := ⟨fuel - 1, by omega⟩
    refine ⟨dl, WhileLoop.run_done ?_ fuel, h⟩
    rw [List.map_nil, List.append_nil]
    rfl
  | cons r rs ih =>
    intro kept dl returned fuel h hfuel
    obtain ⟨fuel, rfl⟩ : ∃ f, fuel = f + 1 := ⟨fuel - 1, by omega⟩
    have hfuel' : rs.length < fuel := Nat.lt_of_succ_lt_succ hfuel
    have hnext := h.prev rfl
    have hs : (r :: rs).reverse ++ kept = rs.reverse ++ r :: kept := by simp
    rw [List.reverse_cons, last_concat, List.dropLast_concat] at hnext
    rw [List.map_cons, List.append_cons returned, List.reverse_cons, last_concat, List.filter_append]
    cases hd : del r.1 with
    | true =>
      have hstep : dlistWalkStep del ⟨dl, ⟨some r.1, .startTail⟩, returned⟩ =
          .again ⟨dl.cut rs.reverse kept r.1, ⟨last rs.reverse, .startTail⟩, returned ++ [r.1]⟩ := by
        simp only [dlistWalkStep, hnext, hd, if_true, h.deleteNode hs]
      rw [WhileLoop.run_again hstep, List.filter_cons_of_neg (by simp [hd]), List.filter_nil, List.append_nil]
      exact ih kept _ _ fuel (h.cut hs) hfuel'
    | false =>
      have hstep : dlistWalkStep del ⟨dl, ⟨some r.1, .startTail⟩, returned⟩ =
          .again ⟨dl, ⟨last rs.reverse, .startTail⟩, returned ++ [r.1]⟩ := by
        simp only [dlistWalkStep, hnext, hd, Bool.false_eq_true, if_false]
      rw [WhileLoop.run_again hstep, List.filter_cons_of_pos (by simp [hd]), List.filter_nil,
        List.append_assoc (rs.reverse.filter _)]
      exact ih (r :: kept) dl _ fuel (by rwa [← hs]) hfuel'

/-- **Iteration with deletion**: the loop ends, has got every node of the list once and in its direction, and
leaves the list of the nodes it has not deleted. A read of a deleted node would have no result. -/
theorem walk_deleting {dl : DlistT V C} {ns : List (Nat × V)} (h : Linked dl ns) {direction : DlistDirection}
    {iter : DlistIterT} (hi : Starts dl direction iter) : ∃ dl' returned,
    WhileLoop.run (dlistWalkStep del) (ns.length + 1) ⟨dl, iter, []⟩ = some (some (dl', returned)) ∧
      returned.Nodup ∧
      returned = direction.order (ns.map Prod.fst) ∧
      Linked dl' (ns.filter fun x => !del x.1) := by
  rcases hi.eq with ⟨rfl, rfl⟩ | ⟨rfl, rfl⟩
  · obtain ⟨dl', hrun, h'⟩ := walk_head del ns [] dl [] (ns.length + 1) h (Nat.lt_succ_self _)
    rw [← h.head] at hrun
    exact ⟨dl', _, hrun, h.nodup, rfl, h'⟩
  · obtain ⟨dl', hrun, h'⟩ := walk_tail del ns.reverse [] dl [] (ns.length + 1)
      (by rwa [List.reverse_reverse, List.append_nil]) (by rw [List.length_reverse]; exact Nat.lt_succ_self _)
    rw [List.reverse_reverse, List.append_nil] at h'
    rw [List.reverse_reverse, ← h.tail, List.nil_append, List.map_reverse] at hrun
    exact ⟨dl', _, hrun, List.nodup_reverse.mpr h.nodup, rfl, h'⟩

theorem walk_deleting_two : ∃ dl' returned,
    WhileLoop.run (dlistWalkStep (· == 0)) 3
        ⟨((dlistInit : DlistT Nat U32).splice [] [] 7).splice [(0, 7)] [] 9, ⟨some 1, .startTail⟩, []⟩ =
        some (some (dl', returned)) ∧
      returned.Nodup ∧ returned = [1, 0] ∧ Linked dl' [(1, 9)] := by
  have h₁ : Linked ((dlistInit : DlistT Nat U32).splice [] [] 7) [(0, 7)] :=
    linked_init.splice (Counter.room_bitVec.mpr (by decide)) 7
  have h₂ := (show Linked _ ([(0, 7)] ++ []) from h₁).splice (Counter.room_bitVec.mpr (by decide)) 9
  have hstarts : Starts (((dlistInit : DlistT Nat U32).splice [] [] 7).splice [(0, 7)] [] 9) .startTail
      ⟨some 1, .startTail⟩ := Or.inr (Or.inr ⟨rfl, rfl⟩)
  exact walk_deleting (· == 0) h₂ hstarts

end Walk

end Fnsproxy
