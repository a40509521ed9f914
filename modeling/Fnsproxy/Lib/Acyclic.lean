import Mathlib.Data.Fintype.Card
import Mathlib.Data.Set.Finite.Basic
import Mathlib.Logic.Relation

/-!
# Relations without cycles

* `Ends` : every way on comes to an end;
* `not_transGen_of_ends` : then nothing that is reached is reached from itself;
* `ends_of_acyclic` : where only finitely much is reached, that is enough.
-/

namespace Acyclic
open Relation

variable {α : Type*} {r : α → α → Prop} {a b : α}

/-- Every way on from `a` comes to an end. -/
def Ends (r : α → α → Prop) (a : α) : Prop := Acc (Function.swap r) a

theorem Ends.next (h : Ends r a) (hab : r a b) : Ends r b := h.inv hab

theorem Ends.reach (h : Ends r a) (hab : ReflTransGen r a b) : Ends r b := by
  induction hab with
  | refl => exact h
  | tail _ hstep ih => exact ih.next hstep

theorem Ends.irrefl (h : Ends r a) : ¬ r a a := by
  induction h with
  | intro a _ ih => exact fun haa => ih a haa haa

theorem not_transGen_of_ends (h : Ends r a) (hab : ReflTransGen r a b) : ¬ TransGen r b b := by
  have hb : Acc (TransGen (Function.swap r)) b := (h.reach hab).transGen
  intro hbb
  have hswap : TransGen (Function.swap r) b b := transGen_swap.mpr hbb
  exact Ends.irrefl (r := Function.swap (TransGen (Function.swap r))) hb hswap

/-- Among finitely many things, ways that meet nothing twice come to an end. -/
theorem ends_of_acyclic (hfin : {b | ReflTransGen r a b}.Finite) (h : ∀ b, ReflTransGen r a b → ¬ TransGen r b b) :
    Ends r a := by
  have : Finite {b | ReflTransGen r a b} := hfin
  have hwf : WellFounded fun x y : {b | ReflTransGen r a b} => TransGen r y.1 x.1 := by
    have htrans : IsTrans {b | ReflTransGen r a b} fun x y => TransGen r y.1 x.1 := ⟨fun _ _ _ h1 h2 => h2.trans h1⟩
    have hirrefl : Std.Irrefl fun x y : {b | ReflTransGen r a b} => TransGen r y.1 x.1 := ⟨fun x => h x.1 x.2⟩
    exact Finite.wellFounded_of_trans_of_irrefl _
  have hall : ∀ x : {b | ReflTransGen r a b}, Ends r x.1 := by
    intro x
    induction x using hwf.induction with
    | _ x ih => exact Acc.intro _ fun b hb => ih ⟨b, ReflTransGen.tail x.2 hb⟩ (TransGen.single hb)
  exact hall ⟨a, ReflTransGen.refl⟩

end Acyclic
