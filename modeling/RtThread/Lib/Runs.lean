import Mathlib.Data.List.Basic

/-!
# Runs of a partial step function

A component is a state type `σ` with a step function
`step : σ → ι → Option (ω × σ)`: performing the operation `i` in state `s` is
either impossible (`none`) or produces an observable result and the next
state. `Run step s tr s'` says that the operations of the trace `tr`, performed
one after another from `s`, are all possible and lead to `s'`; the trace
records each operation with its result.

* `Run.inv`: a property that holds at the start and is kept by every step
  holds in every state a run reaches.
* `Run.invTrace`: the same for properties of the state and the trace so far.
* `StepsSatisfy.inv`: the same where only steps that satisfy a condition keep
  the property, for runs whose steps all satisfy it.
* `Run.of_exec`, `Run.of_isSome`: a run computed by `exec`;
  `StepsSatisfy.of_isSome` for a run of which each step is checked.
* `exec_refines`: if each step does what a total step function `step'` says, so does
  every sequence of operations.
-/

namespace Runs

open Option

variable {σ ι ω : Type*} {step : σ → ι → Option (ω × σ)} {s : σ}

/-- The operations of the trace, performed from `s`, lead to the last argument. -/
inductive Run (step : σ → ι → Option (ω × σ)) (s : σ) : List (ι × ω) → σ → Prop
  | nil : Run step s [] s
  | snoc {tr : List (ι × ω)} {s' s'' : σ} {i : ι} {o : ω} :
      Run step s tr s' → step s' i = some (o, s'') → Run step s (tr ++ [(i, o)]) s''

variable {tr : List (ι × ω)} {s' : σ}

/-- An invariant kept by every step holds after every run. -/
theorem Run.inv {I : σ → Prop} (h0 : I s) (hstep : ∀ s i o s', I s → step s i = some (o, s') → I s')
    (h : Run step s tr s') : I s' := by
  induction h with
  | nil => exact h0
  | snoc _ hs ih => exact hstep _ _ _ _ ih hs

variable {I : List (ι × ω) → σ → Prop} {C : σ → ι → Prop} {is : List ι}

/-- A relation between the trace and the state that every step keeps holds after every run. -/
theorem Run.invTrace (h0 : I [] s)
    (hstep : ∀ tr s i o s', I tr s → step s i = some (o, s') → I (tr ++ [(i, o)]) s')
    (h : Run step s tr s') : I tr s' := by
  induction h with
  | nil => exact h0
  | snoc _ hs ih => exact hstep _ _ _ _ _ ih hs

/-- A run of which every step is made in a state and with an operation that satisfy `C`. -/
inductive StepsSatisfy (step : σ → ι → Option (ω × σ)) (C : σ → ι → Prop) (s : σ) :
    List (ι × ω) → σ → Prop
  | nil : StepsSatisfy step C s [] s
  | snoc {tr : List (ι × ω)} {s' s'' : σ} {i : ι} {o : ω} :
      StepsSatisfy step C s tr s' → C s' i → step s' i = some (o, s'') →
      StepsSatisfy step C s (tr ++ [(i, o)]) s''

/-- One more step, to the state that `step` computes. -/
theorem StepsSatisfy.next {i : ι} (h : StepsSatisfy step C s tr s') (hc : C s' i)
    (hs : (step s' i).isSome) :
    StepsSatisfy step C s (tr ++ [(i, ((step s' i).get hs).1)]) ((step s' i).get hs).2 :=
  .snoc h hc (some_get hs).symm

/-- An invariant kept by the steps that satisfy `C` holds after every run all of whose steps satisfy
`C`. -/
theorem StepsSatisfy.inv {I : σ → Prop} (h0 : I s)
    (hstep : ∀ s i o s', I s → C s i → step s i = some (o, s') → I s')
    (h : StepsSatisfy step C s tr s') : I s' := by
  induction h with
  | nil => exact h0
  | snoc _ hc hs ih => exact hstep _ _ _ _ ih hc hs

/-- The same for relations between the trace and the state. -/
theorem StepsSatisfy.invTrace (h0 : I [] s)
    (hstep : ∀ tr s i o s', I tr s → C s i → step s i = some (o, s') → I (tr ++ [(i, o)]) s')
    (h : StepsSatisfy step C s tr s') : I tr s' := by
  induction h with
  | nil => exact h0
  | snoc _ hc hs ih => exact hstep _ _ _ _ _ ih hc hs

/-- Perform a list of operations; `none` if one of them is impossible. -/
def exec (step : σ → ι → Option (ω × σ)) : σ → List ι → Option (List ω × σ)
  | s, [] => some ([], s)
  | s, i :: is =>
    match step s i with
    | none => none
    | some (o, s') => (exec step s' is).map fun r => (o :: r.1, r.2)

theorem Run.cons {i : ι} {o : ω} {s'' : σ} (hs : step s i = some (o, s')) (h : Run step s' tr s'') :
    Run step s ((i, o) :: tr) s'' := by
  induction h with
  | nil => exact .snoc .nil hs
  | snoc _ hs' ih => exact .snoc ih hs'

/-- What `exec` computes is a run. -/
theorem Run.of_exec {os : List ω} (h : exec step s is = some (os, s')) :
    Run step s (is.zip os) s' := by
  induction is generalizing s os with
  | nil =>
    obtain ⟨rfl, rfl⟩ := h
    exact .nil
  | cons i is ih =>
    rw [exec] at h
    split at h
    · cases h
    · rename_i o s₁ hs
      obtain ⟨⟨os', s₂⟩, he, heq⟩ := map_eq_some_iff.mp h
      cases heq
      exact .cons hs (ih he)

/-- The run that `exec` performs, for operations that are all possible. -/
theorem Run.of_isSome (h : (exec step s is).isSome) :
    Run step s (is.zip ((exec step s is).get h).1) ((exec step s is).get h).2 :=
  .of_exec (some_get h).symm

section Refines

variable {τ : Type*} {step' : τ → ι → ω × τ} {t : τ}

/-- Perform a list of operations of which each is possible. -/
def execTotal (step' : τ → ι → ω × τ) : τ → List ι → List ω × τ
  | t, [] => ([], t)
  | t, i :: is =>
    let r := execTotal step' (step' t i).2 is
    ((step' t i).1 :: r.1, r.2)

theorem execTotal_append (step' : τ → ι → ω × τ) (t : τ) (is js : List ι) :
    execTotal step' t (is ++ js) =
      ((execTotal step' t is).1 ++ (execTotal step' (execTotal step' t is).2 js).1,
        (execTotal step' (execTotal step' t is).2 js).2) := by
  induction is generalizing t with
  | nil => rfl
  | cons i is ih => simp only [List.cons_append, execTotal, ih]

theorem exec_refines {R : σ → τ → Prop}
    (hstep : ∀ s t i, R s t → ∃ s', step s i = some ((step' t i).1, s') ∧ R s' (step' t i).2)
    (h : R s t) (is : List ι) :
    ∃ s', exec step s is = some ((execTotal step' t is).1, s') ∧ R s' (execTotal step' t is).2 := by
  induction is generalizing s t with
  | nil => exact ⟨s, rfl, h⟩
  | cons i is ih =>
    obtain ⟨s₁, hs₁, hr₁⟩ := hstep s t i h
    obtain ⟨s₂, hs₂, hr₂⟩ := ih hr₁
    refine ⟨s₂, ?_, hr₂⟩
    simp only [exec, hs₁, hs₂, map_some, execTotal]

end Refines

/-- The steps that satisfy `C`. -/
def guard (C : σ → ι → Prop) [∀ s i, Decidable (C s i)] (step : σ → ι → Option (ω × σ)) :
    σ → ι → Option (ω × σ) :=
  fun s i => if C s i then step s i else none

section Guard

variable {C : σ → ι → Prop} [∀ s i, Decidable (C s i)]

theorem StepsSatisfy.of_guard {tr : List (ι × ω)} {s' : σ} (h : Run (guard C step) s tr s') :
    StepsSatisfy step C s tr s' := by
  induction h with
  | nil => exact .nil
  | snoc _ hs ih =>
    unfold guard at hs
    split_ifs at hs with hc
    exact .snoc ih hc hs

theorem StepsSatisfy.of_isSome {is : List ι} (h : (exec (guard C step) s is).isSome) :
    StepsSatisfy step C s (is.zip ((exec (guard C step) s is).get h).1)
      ((exec (guard C step) s is).get h).2 :=
  .of_guard (.of_isSome h)

end Guard

end Runs
