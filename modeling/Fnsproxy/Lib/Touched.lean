import Fnsproxy.Lib.Buffer
import Mathlib.Order.Interval.Set.Basic

/-!
# Computations and the offsets they touch

* `Touched α` : a value, with the offsets of a buffer that were read or written on the way to it;
* `getByte`, `getHalf`, `getWord`, `setByte`, `setWord` : the accesses;
* `Within S x` : every offset touched lies in `S`, with `within_bind`, `within_pure` and the accesses;
* `Inside n x` : every offset touched lies below `n`;
* `Touched.run`, `Touched.scan` : loops whose rounds touch offsets, with `run_value`, `within_run`.
-/

namespace Bytes
open Word

/-- A value, and the offsets read or written on the way to it. -/
structure Touched (α : Type) where
  value : α
  offsets : List Nat
deriving DecidableEq, Repr

variable {α β σ ρ : Type}

namespace Touched

instance : Monad Touched where
  pure x := ⟨x, []⟩
  bind x f := ⟨(f x.value).value, x.offsets ++ (f x.value).offsets⟩

@[simp] theorem value_pure (x : α) : (pure x : Touched α).value = x := rfl

@[simp] theorem value_bind (x : Touched α) (f : α → Touched β) : (x >>= f).value = (f x.value).value := rfl

theorem offsets_bind (x : Touched α) (f : α → Touched β) : (x >>= f).offsets = x.offsets ++ (f x.value).offsets := rfl

theorem value_ite (c : Prop) [Decidable c] (x y : Touched α) :
    (if c then x else y).value = if c then x.value else y.value := by
  split_ifs <;> rfl

end Touched

/-! ## Accesses -/

def getByte (b : Buffer) (o : Nat) : Touched U8 := ⟨b o, [o]⟩

def getHalf (b : Buffer) (o : Nat) : Touched Nat := ⟨half b o, [o, o + 1]⟩

def getWord (b : Buffer) (o : Nat) : Touched U32 := ⟨word b o, [o, o + 1, o + 2, o + 3]⟩

def setByte (b : Buffer) (o : Nat) (c : U8) : Touched Buffer := ⟨Function.update b o c, [o]⟩

def setWord (b : Buffer) (o : Nat) (w : U32) : Touched Buffer := ⟨putWord b o w, [o, o + 1, o + 2, o + 3]⟩

@[simp] theorem getByte_value (b : Buffer) (o : Nat) : (getByte b o).value = b o := rfl
@[simp] theorem getHalf_value (b : Buffer) (o : Nat) : (getHalf b o).value = half b o := rfl
@[simp] theorem getWord_value (b : Buffer) (o : Nat) : (getWord b o).value = word b o := rfl
@[simp] theorem setByte_value (b : Buffer) (o : Nat) (c : U8) : (setByte b o c).value = Function.update b o c := rfl
@[simp] theorem setWord_value (b : Buffer) (o : Nat) (w : U32) : (setWord b o w).value = putWord b o w := rfl

/-! ## Bounds -/

/-- Every offset touched lies in `S`. -/
def Within (S : Set Nat) (x : Touched α) : Prop := ∀ o ∈ x.offsets, o ∈ S

section Within
variable {S T : Set Nat} {b : Buffer} {o : Nat}

theorem Within.mono {x : Touched α} (h : Within S x) (hST : S ⊆ T) : Within T x := fun o ho => hST (h o ho)

theorem within_pure (x : α) : Within S (pure x : Touched α) := fun _ h => absurd h List.not_mem_nil

theorem within_bind {x : Touched α} {f : α → Touched β} : Within S (x >>= f) ↔ Within S x ∧ Within S (f x.value) := by
  unfold Within
  rw [Touched.offsets_bind]
  exact List.forall_mem_append

theorem within_getByte : Within S (getByte b o) ↔ o ∈ S := by
  simp [Within, getByte]

theorem within_setByte {c : U8} : Within S (setByte b o c) ↔ o ∈ S := by
  simp [Within, setByte]

end Within

/-- Every offset touched lies below `n`. -/
def Inside (n : Nat) (x : Touched α) : Prop := ∀ o ∈ x.offsets, o < n

section Inside
variable {n : Nat} {b : Buffer} {o : Nat}

theorem inside_iff {x : Touched α} : Inside n x ↔ Within (Set.Iio n) x := Iff.rfl

theorem inside_pure (x : α) : Inside n (pure x : Touched α) := inside_iff.mpr (within_pure x)

theorem inside_bind {x : Touched α} {f : α → Touched β} : Inside n (x >>= f) ↔ Inside n x ∧ Inside n (f x.value) :=
  within_bind (S := Set.Iio n)

theorem inside_getByte : Inside n (getByte b o) ↔ o < n := within_getByte (S := Set.Iio n)

theorem inside_setByte {c : U8} : Inside n (setByte b o c) ↔ o < n := within_setByte (S := Set.Iio n)

theorem inside_getHalf : Inside n (getHalf b o) ↔ o + 1 < n := by
  simp only [Inside, getHalf, List.forall_mem_cons, List.not_mem_nil, false_implies, implies_true, and_true]
  omega

theorem inside_getWord : Inside n (getWord b o) ↔ o + 3 < n := by
  simp only [Inside, getWord, List.forall_mem_cons, List.not_mem_nil, false_implies, implies_true, and_true]
  omega

theorem inside_setWord {w : U32} : Inside n (setWord b o w) ↔ o + 3 < n := by
  simp only [Inside, setWord, List.forall_mem_cons, List.not_mem_nil, false_implies, implies_true, and_true]
  omega

end Inside

/-! ## Loops -/

/-- At most `fuel` rounds of a loop whose rounds touch offsets. -/
def Touched.run (step : σ → Touched (WhileLoop.Next σ ρ)) : Nat → σ → Touched (Option ρ)
  | 0, _ => pure none
  | fuel + 1, s => do
    match ← step s with
    | .again t => Touched.run step fuel t
    | .done r => pure (some r)

theorem run_value (step : σ → Touched (WhileLoop.Next σ ρ)) (fuel : Nat) (s : σ) :
    (Touched.run step fuel s).value = WhileLoop.run (fun s => (step s).value) fuel s := by
  induction fuel generalizing s with
  | zero => rfl
  | succ fuel ih =>
    rw [Touched.run, Touched.value_bind, WhileLoop.run]
    cases (step s).value with
    | again t => exact ih t
    | done r => rfl

section Rounds
variable {S : Set Nat} {step : σ → Touched (WhileLoop.Next σ ρ)} {s t : σ} {r : ρ}

theorem run_value_again (h : (step s).value = .again t) (fuel : Nat) :
    (Touched.run step (fuel + 1) s).value = (Touched.run step fuel t).value := by
  rw [Touched.run, Touched.value_bind, h]

theorem run_value_done (h : (step s).value = .done r) (fuel : Nat) :
    (Touched.run step (fuel + 1) s).value = some r := by
  rw [Touched.run, Touched.value_bind, h]
  rfl

theorem within_run_again (h : (step s).value = .again t) (fuel : Nat) :
    Within S (Touched.run step (fuel + 1) s) ↔ Within S (step s) ∧ Within S (Touched.run step fuel t) := by
  rw [Touched.run, within_bind, h]

theorem within_run_done (h : (step s).value = .done r) (fuel : Nat) :
    Within S (Touched.run step (fuel + 1) s) ↔ Within S (step s) := by
  rw [Touched.run, within_bind, h]
  exact and_iff_left (within_pure _)

end Rounds

/-- What a round keeps, and the offsets it touches, bound the offsets the loop touches. -/
theorem within_run {S : Set Nat} {step : σ → Touched (WhileLoop.Next σ ρ)} (I : σ → Prop)
    (hwithin : ∀ s, I s → Within S (step s)) (hagain : ∀ s t, I s → (step s).value = .again t → I t) :
    ∀ {fuel : Nat} {s : σ}, I s → Within S (Touched.run step fuel s) := by
  intro fuel
  induction fuel with
  | zero => exact fun _ => within_pure _
  | succ fuel ih =>
    intro s hI
    rw [Touched.run, within_bind]
    refine ⟨hwithin s hI, ?_⟩
    cases hs : (step s).value with
    | again t => exact ih (hagain s t hI hs)
    | done r => exact within_pure _

/-- What a round keeps, and that it stays inside, make the loop stay inside. -/
theorem inside_run {n : Nat} {step : σ → Touched (WhileLoop.Next σ ρ)} (I : σ → Prop)
    (hinside : ∀ s, I s → Inside n (step s)) (hagain : ∀ s t, I s → (step s).value = .again t → I t)
    {fuel : Nat} {s : σ} (hI : I s) : Inside n (Touched.run step fuel s) :=
  within_run (S := Set.Iio n) I hinside hagain hI

/-- Advance the cursor while a condition that touches offsets holds. -/
def Touched.scan (c : Nat → Touched Bool) (p : Nat) : Touched (WhileLoop.Next Nat Nat) := do
  if ← c p then pure (.again (p + 1)) else pure (.done p)

theorem scan_value {c : Nat → Touched Bool} {d : Nat → Prop} [DecidablePred d] (h : ∀ p, (c p).value = true ↔ d p) :
    (fun p => (Touched.scan c p).value) = scanStep d := by
  funext p
  rw [Touched.scan, Touched.value_bind, Touched.value_ite, scanStep]
  exact if_congr (h p) rfl rfl

theorem within_scan {S : Set Nat} {c : Nat → Touched Bool} {p : Nat} (h : Within S (c p)) :
    Within S (Touched.scan c p) := by
  rw [Touched.scan, within_bind]
  refine ⟨h, ?_⟩
  split_ifs <;> exact within_pure _

theorem inside_scan {n : Nat} {c : Nat → Touched Bool} {p : Nat} (h : Inside n (c p)) : Inside n (Touched.scan c p) :=
  within_scan (S := Set.Iio n) h

end Bytes
