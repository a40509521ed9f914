import Mathlib.Tactic.Common
import Mathlib.Data.Nat.Basic

/-!
# Loops with fuel

A loop is a `step` that either asks for another round or leaves with a result:

* `run step fuel s` : at most `fuel` rounds from `s`, `none` when they do not suffice;
* `Returns step s r` : some number of rounds is enough, and the result is `r`;
* `run_mono`, `Returns.unique` : more fuel changes nothing, the result is unique;
* `run_of_measure` : a measure that falls in every round gives the fuel;
* `run_rule` : an invariant of the rounds holds of the result;
* `run_congr` : loops whose rounds agree where an invariant holds have the same results;
* `Next.map`, `run_map` : rounds seen through maps of the states and the results;
* `rounds`, `rounds_unique` : the states in which rounds are made, the same for all fuel that suffices;
* `run_eq_none` : loops that never leave.
-/

namespace WhileLoop

/-- What one round of a loop does: ask for another round, or leave the loop. -/
inductive Next (σ ρ : Type*) where
  | again (s : σ)
  | done (r : ρ)

variable {σ ρ : Type*}

/-- At most `fuel` rounds of the loop. -/
def run (step : σ → Next σ ρ) : Nat → σ → Option ρ
  | 0, _ => none
  | fuel + 1, s =>
    match step s with
    | .again t => run step fuel t
    | .done r => some r

/-- The loop leaves with `r` when it is entered in `s`. -/
def Returns (step : σ → Next σ ρ) (s : σ) (r : ρ) : Prop := ∃ fuel, run step fuel s = some r

theorem run_again {step : σ → Next σ ρ} {s t : σ} (h : step s = .again t) (fuel : Nat) :
    run step (fuel + 1) s = run step fuel t := by
  simp only [run, h]

theorem run_done {step : σ → Next σ ρ} {s : σ} {r : ρ} (h : step s = .done r) (fuel : Nat) :
    run step (fuel + 1) s = some r := by
  simp only [run, h]

theorem run_mono {step : σ → Next σ ρ} {r : ρ} : ∀ {n m : Nat} {s : σ}, n ≤ m →
    run step n s = some r → run step m s = some r := by
  intro n
  induction n with
  | zero => intro m s _ h; exact absurd h (by simp [run])
  | succ n ih =>
    intro m s hnm h
    obtain ⟨k, rfl⟩ : ∃ k, m = k + 1 := ⟨m - 1, by omega⟩
    cases hs : step s with
    | again t =>
      rw [run_again hs] at h ⊢
      exact ih (by omega) h
    | done r' =>
      rw [run_done hs] at h ⊢
      exact h

theorem Returns.unique {step : σ → Next σ ρ} {s : σ} {r r' : ρ} (h : Returns step s r)
    (h' : Returns step s r') : r = r' := by
  obtain ⟨n, hn⟩ := h
  obtain ⟨m, hm⟩ := h'
  have h1 := run_mono (Nat.le_max_left n m) hn
  have h2 := run_mono (Nat.le_max_right n m) hm
  exact Option.some.inj (h1.symm.trans h2)

/-- What a round keeps (`I`) and what it ensures on leaving (`Q`) hold of the whole run. -/
theorem run_rule {step : σ → Next σ ρ} (I : σ → Prop) (Q : ρ → Prop)
    (hagain : ∀ s t, I s → step s = .again t → I t)
    (hdone : ∀ s r, I s → step s = .done r → Q r) :
    ∀ {fuel : Nat} {s : σ} {r : ρ}, I s → run step fuel s = some r → Q r := by
  intro fuel
  induction fuel with
  | zero => intro s r _ h; exact absurd h (by simp [run])
  | succ fuel ih =>
    intro s r hI h
    cases hs : step s with
    | again t =>
      rw [run_again hs] at h
      exact ih (hagain s t hI hs) h
    | done r' =>
      rw [run_done hs] at h
      cases h
      exact hdone s r hI hs

/-- Rounds that agree on the states a loop reaches make the same loop. -/
theorem run_congr {step step' : σ → Next σ ρ} (I : σ → Prop) (heq : ∀ s, I s → step s = step' s)
    (hagain : ∀ s t, I s → step s = .again t → I t) :
    ∀ {fuel : Nat} {s : σ}, I s → run step fuel s = run step' fuel s := by
  intro fuel
  induction fuel with
  | zero => exact fun _ => rfl
  | succ fuel ih =>
    intro s hI
    cases hs : step s with
    | again t =>
      rw [run_again hs, run_again ((heq s hI).symm.trans hs)]
      exact ih (hagain s t hI hs)
    | done r => rw [run_done hs, run_done ((heq s hI).symm.trans hs)]

/-- A round, seen through maps of the states and the results. -/
def Next.map {τ κ : Type*} (f : σ → τ) (g : ρ → κ) : Next σ ρ → Next τ κ
  | .again s => .again (f s)
  | .done r => .done (g r)

theorem run_map {τ κ : Type*} {step : σ → Next σ ρ} {step' : τ → Next τ κ} {f : σ → τ} {g : ρ → κ}
    (h : ∀ s, step' (f s) = (step s).map f g) (fuel : Nat) (s : σ) :
    run step' fuel (f s) = (run step fuel s).map g := by
  induction fuel generalizing s with
  | zero => rfl
  | succ fuel ih =>
    have hround := h s
    cases hs : step s with
    | again t =>
      rw [hs] at hround
      rw [run_again hs, run_again hround, ih]
    | done r =>
      rw [hs] at hround
      rw [run_done hs, run_done hround]
      rfl

/-- A measure that falls in every round bounds the rounds. -/
theorem run_of_measure {step : σ → Next σ ρ} (I : σ → Prop) (μ : σ → Nat)
    (hagain : ∀ s t, I s → step s = .again t → I t ∧ μ t < μ s) :
    ∀ {fuel : Nat} {s : σ}, I s → μ s < fuel → ∃ r, run step fuel s = some r := by
  intro fuel
  induction fuel with
  | zero => intro s _ h; exact absurd h (Nat.not_lt_zero _)
  | succ fuel ih =>
    intro s hI hμ
    cases hs : step s with
    | again t =>
      obtain ⟨hIt, hlt⟩ := hagain s t hI hs
      rw [run_again hs]
      exact ih hIt (by omega)
    | done r => exact ⟨r, run_done hs fuel⟩

/-- A loop that asks for another round as long as `I` holds, and keeps `I`, never leaves. -/
theorem run_eq_none {step : σ → Next σ ρ} (I : σ → Prop) (hagain : ∀ s, I s → ∃ t, step s = .again t ∧ I t) :
    ∀ (fuel : Nat) {s : σ}, I s → run step fuel s = none := by
  intro fuel
  induction fuel with
  | zero => exact fun _ => rfl
  | succ fuel ih =>
    intro s hI
    obtain ⟨t, hs, hIt⟩ := hagain s hI
    rw [run_again hs]
    exact ih hIt

/-- The states in which a loop makes its rounds, at most `fuel` of them. -/
def rounds (step : σ → Next σ ρ) : Nat → σ → List σ
  | 0, _ => []
  | fuel + 1, s =>
    match step s with
    | .again t => s :: rounds step fuel t
    | .done _ => [s]

theorem rounds_again {step : σ → Next σ ρ} {s t : σ} (h : step s = .again t) (fuel : Nat) :
    rounds step (fuel + 1) s = s :: rounds step fuel t := by
  simp only [rounds, h]

theorem rounds_done {step : σ → Next σ ρ} {s : σ} {r : ρ} (h : step s = .done r) (fuel : Nat) :
    rounds step (fuel + 1) s = [s] := by
  simp only [rounds, h]

theorem rounds_mono {step : σ → Next σ ρ} {r : ρ} : ∀ {n m : Nat} {s : σ}, n ≤ m →
    run step n s = some r → rounds step m s = rounds step n s := by
  intro n
  induction n with
  | zero => intro m s _ h; exact absurd h (by simp [run])
  | succ n ih =>
    intro m s hnm h
    obtain ⟨k, rfl⟩ : ∃ k, m = k + 1 := ⟨m - 1, by omega⟩
    cases hs : step s with
    | again t =>
      rw [run_again hs] at h
      rw [rounds_again hs, rounds_again hs, ih (by omega) h]
    | done r' => rw [rounds_done hs, rounds_done hs]

theorem rounds_unique {step : σ → Next σ ρ} {n m : Nat} {s : σ} {r r' : ρ} (h : run step n s = some r)
    (h' : run step m s = some r') : rounds step n s = rounds step m s := by
  rw [← rounds_mono (Nat.le_max_left n m) h, ← rounds_mono (Nat.le_max_right n m) h']

end WhileLoop
