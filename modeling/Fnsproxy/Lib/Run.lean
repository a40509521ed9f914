import Mathlib.Tactic.Common
import Mathlib.Data.List.Infix

/-!
# Runs of a labelled transition system

* `Run step s₀ ls s` : the labels `ls` lead from `s₀` to `s`;
* `Run.induct` : a property of the history and the state, kept by every step of a run;
* `Run.det`, `Run.split`, `Run.append` : runs of a deterministic system, the two parts of a run;
* `run_cons_iff`, `run_map_iff` : the first step of a run, labels that stand for others;
* `Run.filter` : a run as it looks to one who does not see all steps;
* `Always`, `EachStep` : a property of every state of a run, of every step of a run;
* `always_of_eachStep` : a step condition that carries an invariant through;
* `always_iff_eachStep` : **the exact step condition** of a property of all the states of a run;
* `always_and_eachStep_iff` : the same for a property of the states together with one of the steps;
* `Throughout` : a property of every state while operations are carried out, with its rules for `[]`, `::`, `++`.
-/

namespace Transition

variable {σ ι : Type*}

/-- The labels lead from `s₀` to the last state. -/
inductive Run (step : σ → ι → σ → Prop) (s₀ : σ) : List ι → σ → Prop where
  | start : Run step s₀ [] s₀
  | next {ls : List ι} {s t : σ} {l : ι} (h : Run step s₀ ls s) (hstep : step s l t) :
      Run step s₀ (ls ++ [l]) t

/-- Every state of the run, taken with the labels that led to it, has the property. -/
def Always (step : σ → ι → σ → Prop) (s₀ : σ) (ls : List ι) (P : List ι → σ → Prop) : Prop :=
  ∀ ls' s, ls' <+: ls → Run step s₀ ls' s → P ls' s

/-- Every step of the run meets the condition, in the state before it. -/
def EachStep (step : σ → ι → σ → Prop) (s₀ : σ) (ls : List ι) (C : σ → ι → Prop) : Prop :=
  ∀ ls' l s, ls' ++ [l] <+: ls → Run step s₀ ls' s → C s l

variable {step : σ → ι → σ → Prop} {s₀ : σ}

theorem run_nil {s : σ} (h : Run step s₀ [] s) : s = s₀ := by
  generalize hls : ([] : List ι) = ls at h
  cases h with
  | start => rfl
  | next _ _ => simp at hls

theorem run_concat {ls : List ι} {l : ι} {t : σ} (h : Run step s₀ (ls ++ [l]) t) :
    ∃ s, Run step s₀ ls s ∧ step s l t := by
  generalize hls : ls ++ [l] = ls' at h
  cases h with
  | start => simp at hls
  | next h hstep =>
    obtain ⟨rfl, hl⟩ := List.append_inj' hls rfl
    obtain rfl := List.singleton_inj.mp hl
    exact ⟨_, h, hstep⟩

/-- What holds at the start and is kept by every step holds of every run. -/
theorem Run.induct {ls : List ι} {s : σ} (h : Run step s₀ ls s) (P : List ι → σ → Prop) (h0 : P [] s₀)
    (hstep : ∀ ls s l t, Run step s₀ ls s → P ls s → step s l t → P (ls ++ [l]) t) : P ls s := by
  induction h with
  | start => exact h0
  | next h hl ih => exact hstep _ _ _ _ h ih hl

theorem Run.split {ls ls' : List ι} {t : σ} (h : Run step s₀ (ls ++ ls') t) :
    ∃ s, Run step s₀ ls s ∧ Run step s ls' t := by
  induction ls' using List.reverseRecOn generalizing t with
  | nil => exact ⟨t, by simpa using h, .start⟩
  | append_singleton ls' l ih =>
    rw [← List.append_assoc] at h
    obtain ⟨u, hu, hl⟩ := run_concat h
    obtain ⟨s, h1, h2⟩ := ih hu
    exact ⟨s, h1, h2.next hl⟩

theorem Run.append {ls ls' : List ι} {s t : σ} (h : Run step s₀ ls s) (h' : Run step s ls' t) :
    Run step s₀ (ls ++ ls') t := by
  induction h' with
  | start =>
    rw [List.append_nil]
    exact h
  | next _ hl ih =>
    rw [← List.append_assoc]
    exact ih.next hl

theorem run_append_iff {ls ls' : List ι} {t : σ} :
    Run step s₀ (ls ++ ls') t ↔ ∃ s, Run step s₀ ls s ∧ Run step s ls' t :=
  ⟨Run.split, fun ⟨_, h, h'⟩ => h.append h'⟩

theorem run_nil_iff {t : σ} : Run step s₀ [] t ↔ t = s₀ :=
  ⟨run_nil, fun h => h ▸ .start⟩

theorem run_singleton_iff {l : ι} {t : σ} : Run step s₀ [l] t ↔ step s₀ l t := by
  constructor
  · intro h
    rw [← List.nil_append [l]] at h
    obtain ⟨s, hs, hl⟩ := run_concat h
    exact run_nil hs ▸ hl
  · exact fun hl => Run.next .start hl

theorem run_cons_iff {l : ι} {ls : List ι} {t : σ} :
    Run step s₀ (l :: ls) t ↔ ∃ s, step s₀ l s ∧ Run step s ls t := by
  rw [← List.singleton_append, run_append_iff]
  simp only [run_singleton_iff]

theorem run_map_iff {κ : Type*} {f : κ → ι} {ks : List κ} {t : σ} :
    Run step s₀ (ks.map f) t ↔ Run (fun s k t => step s (f k) t) s₀ ks t := by
  induction ks generalizing s₀ with
  | nil => rw [List.map_nil, run_nil_iff, run_nil_iff]
  | cons k ks ih =>
    rw [List.map_cons, run_cons_iff, run_cons_iff]
    exact exists_congr fun s => and_congr_right fun _ => ih

/-- Steps that cannot be seen are left out of a run. -/
theorem Run.filter {τ : Type*} {step' : τ → ι → τ → Prop} (view : σ → τ) (hidden : ι → Bool) (I : σ → Prop)
    {ls : List ι} {s : σ} (h : Run step s₀ ls s) (hinv : ∀ ls s, Run step s₀ ls s → I s)
    (hskip : ∀ s l t, I s → hidden l = true → step s l t → view t = view s)
    (hkeep : ∀ s l t, I s → hidden l = false → step s l t → step' (view s) l (view t)) :
    Run step' (view s₀) (ls.filter fun l => !hidden l) (view s) := by
  induction h with
  | start => exact .start
  | @next ls s t l h hstep ih =>
    rw [List.filter_append, List.filter_singleton]
    cases hl : hidden l with
    | true =>
      rw [hskip s l t (hinv ls s h) hl hstep]
      simpa using ih
    | false => exact ih.next (hkeep s l t (hinv ls s h) hl hstep)

theorem Run.cut {ls ls' : List ι} {t : σ} (h : Run step s₀ ls t) (hp : ls' <+: ls) :
    ∃ s, Run step s₀ ls' s := by
  obtain ⟨rest, rfl⟩ := hp
  obtain ⟨s, hs, -⟩ := h.split
  exact ⟨s, hs⟩

theorem Run.det (hdet : ∀ s l t t', step s l t → step s l t' → t = t') {ls : List ι} {s t : σ}
    (h : Run step s₀ ls s) (h' : Run step s₀ ls t) : s = t := by
  induction h generalizing t with
  | start => exact (run_nil h').symm
  | next h hl ih =>
    obtain ⟨u, hu, hl'⟩ := run_concat h'
    rw [ih hu] at hl
    exact hdet _ _ _ _ hl hl'

theorem EachStep.cut {ls ls' : List ι} {C : σ → ι → Prop} (h : EachStep step s₀ ls C) (hp : ls' <+: ls) :
    EachStep step s₀ ls' C := fun _ _ _ hq hs => h _ _ _ (hq.trans hp) hs

theorem EachStep.nil (C : σ → ι → Prop) : EachStep step s₀ [] C := by
  intro ls l s hp
  exact absurd (List.prefix_nil.mp hp) (by simp)

theorem EachStep.concat (hdet : ∀ s l t t', step s l t → step s l t' → t = t') {ls : List ι} {l : ι} {s : σ}
    {C : σ → ι → Prop} (h : EachStep step s₀ ls C) (hrun : Run step s₀ ls s) (hl : C s l) :
    EachStep step s₀ (ls ++ [l]) C := by
  intro ls' l' s' hp hs
  rcases List.prefix_concat_iff.mp hp with heq | hp
  · obtain ⟨rfl, hl'⟩ := List.append_inj' heq rfl
    obtain rfl := List.singleton_inj.mp hl'
    obtain rfl := hs.det hdet hrun
    exact hl
  · exact h ls' l' s' hp hs

/-- A property that every step meeting `C` carries on holds in every state of a run of such steps. -/
theorem always_of_eachStep {P : List ι → σ → Prop} {C : σ → ι → Prop} (h0 : P [] s₀)
    (hstep : ∀ ls s l t, Run step s₀ ls s → P ls s → C s l → step s l t → P (ls ++ [l]) t)
    {ls : List ι} (hC : EachStep step s₀ ls C) : Always step s₀ ls P := by
  intro ls' s hp hrun
  have hC' := hC.cut hp
  clear hp hC
  induction hrun with
  | start => exact h0
  | next h hl ih =>
    exact hstep _ _ _ _ h (ih (hC'.cut (List.prefix_append _ _))) (hC' _ _ _ List.prefix_rfl h) hl

/-- **The exact step condition.** Where a step from a state with the property leads to one with the
property exactly if it meets `C`, all states of a run have the property exactly if all its steps
meet `C`. -/
theorem always_iff_eachStep (hdet : ∀ s l t t', step s l t → step s l t' → t = t')
    {P : List ι → σ → Prop} {C : σ → ι → Prop} (h0 : P [] s₀)
    (hiff : ∀ ls s l t, Run step s₀ ls s → P ls s → step s l t → (P (ls ++ [l]) t ↔ C s l))
    {ls : List ι} {t : σ} (hrun : Run step s₀ ls t) :
    Always step s₀ ls P ↔ EachStep step s₀ ls C := by
  constructor
  · intro hP ls' l s hp hs
    obtain ⟨u, hu⟩ := hrun.cut hp
    obtain ⟨s', hs', hl⟩ := run_concat hu
    obtain rfl := hs.det hdet hs'
    exact (hiff ls' s l u hs (hP ls' s ((List.prefix_append _ _).trans hp) hs) hl).mp (hP _ u hp hu)
  · exact always_of_eachStep h0 (fun ls s l t hs hP hC hl => (hiff ls s l t hs hP hl).mpr hC)

/-- The exact step condition of a property of the states (`P`) together with one of the steps (`Q`). -/
theorem always_and_eachStep_iff (hdet : ∀ s l t t', step s l t → step s l t' → t = t')
    {P : σ → Prop} {Q C : σ → ι → Prop} (h0 : P s₀)
    (hiff : ∀ s l t, P s → step s l t → (P t ∧ Q s l ↔ C s l)) {ls : List ι} {t : σ} (hrun : Run step s₀ ls t) :
    (Always step s₀ ls (fun _ => P) ∧ EachStep step s₀ ls Q) ↔ EachStep step s₀ ls C := by
  constructor
  · rintro ⟨hP, hQ⟩ ls' l s hp hs
    obtain ⟨u, hu⟩ := hrun.cut hp
    obtain ⟨s', hs', hl⟩ := run_concat hu
    obtain rfl := hs.det hdet hs'
    exact (hiff s l u (hP ls' s ((List.prefix_append _ _).trans hp) hs) hl).mp ⟨hP _ u hp hu, hQ ls' l s hp hs⟩
  · intro hC
    have hP : Always step s₀ ls (fun _ => P) :=
      always_of_eachStep h0 (fun ls s l t _ hP hC hl => ((hiff s l t hP hl).mpr hC).1) hC
    refine ⟨hP, fun ls' l s hp hs => ?_⟩
    obtain ⟨u, hu⟩ := hrun.cut hp
    obtain ⟨s', hs', hl⟩ := run_concat hu
    obtain rfl := hs.det hdet hs'
    exact ((hiff s l u (hP ls' s ((List.prefix_append _ _).trans hp) hs) hl).mpr (hC ls' l s hp hs)).2

/-! ## Operations -/

section Operations
variable (exec : σ → ι → σ) (P : σ → Prop)

/-- Before and after each of the operations, carried out one after the other, the state has the property. -/
def Throughout (s : σ) (ops : List ι) : Prop := ∀ past, past <+: ops → P (past.foldl exec s)

variable {exec P} {s : σ} {op : ι} {ops ops' : List ι}

theorem throughout_nil : Throughout exec P s [] ↔ P s :=
  ⟨fun h => h [] List.prefix_rfl, fun h past hp => by rw [List.prefix_nil.mp hp]; exact h⟩

theorem throughout_cons : Throughout exec P s (op :: ops) ↔ P s ∧ Throughout exec P (exec s op) ops := by
  constructor
  · exact fun h => ⟨h [] List.nil_prefix, fun past hp => h (op :: past) (List.cons_prefix_cons.mpr ⟨rfl, hp⟩)⟩
  · rintro ⟨h0, h⟩ past hp
    cases past with
    | nil => exact h0
    | cons op' past =>
      obtain ⟨rfl, hrest⟩ := List.cons_prefix_cons.mp hp
      exact h past hrest

theorem throughout_append :
    Throughout exec P s (ops ++ ops') ↔ Throughout exec P s ops ∧ Throughout exec P (ops.foldl exec s) ops' := by
  induction ops generalizing s with
  | nil =>
    rw [List.nil_append, throughout_nil, List.foldl_nil, iff_and_self]
    exact fun h => h [] List.nil_prefix
  | cons op ops ih => rw [List.cons_append, throughout_cons, throughout_cons, ih, List.foldl_cons, and_assoc]

theorem Throughout.last (h : Throughout exec P s ops) : P (ops.foldl exec s) := h ops List.prefix_rfl

theorem Throughout.mono {Q : σ → Prop} (h : Throughout exec P s ops) (hPQ : ∀ s, P s → Q s) : Throughout exec Q s ops :=
  fun past hp => hPQ _ (h past hp)

end Operations

end Transition
