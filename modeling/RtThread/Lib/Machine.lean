import Mathlib.Tactic

/-!
# Machines that run until they stop

A machine takes steps as long as it is `running`; a step may fail. `Reaches` is what
its steps lead to, and `loop` runs it for a number of rounds.

* `loop_of_reaches`: a machine whose steps use something up is done after as many
  rounds as there was of it.
* `lockstep`: two runs that stay related, as long as the steps of the first meet a
  condition, show the same.
-/

namespace Machine

variable {σ : Type*} {running : σ → Prop} {step : σ → Option σ} {s s₁ s' : σ}

/-- Steps lead from one state to the other. -/
def Reaches (running : σ → Prop) (step : σ → Option σ) : σ → σ → Prop :=
  Relation.ReflTransGen fun s s' => running s ∧ step s = some s'

theorem Reaches.refl (s : σ) : Reaches running step s s := Relation.ReflTransGen.refl

theorem Reaches.single (hs : running s) (h : step s = some s') : Reaches running step s s' :=
  Relation.ReflTransGen.single ⟨hs, h⟩

theorem Reaches.trans (h : Reaches running step s s₁) (h' : Reaches running step s₁ s') :
    Reaches running step s s' :=
  Relation.ReflTransGen.trans h h'

/-- Run the machine for at most `n` rounds; without a result if it still runs then. -/
def loop (running : σ → Prop) [DecidablePred running] (step : σ → Option σ) : ℕ → σ → Option σ
  | 0, s => if running s then none else some s
  | n + 1, s => if running s then (step s).bind (loop running step n) else some s

variable [DecidablePred running]

theorem loop_of_not_running (h : ¬ running s) (n : ℕ) : loop running step n s = some s := by
  cases n <;> simp only [loop, if_neg h]

theorem loop_of_reaches (left : σ → ℕ) (hpos : ∀ s, running s → 0 < left s)
    (hstep : ∀ s s', running s → step s = some s' → left s' < left s) {n : ℕ} (hn : left s ≤ n)
    (h : Reaches running step s s') (hs' : ¬ running s') : loop running step n s = some s' := by
  induction h using Relation.ReflTransGen.head_induction_on generalizing n with
  | refl => exact loop_of_not_running hs' n
  | head hfirst _ ih =>
    obtain ⟨hrun, hnext⟩ := hfirst
    have hlt := hstep _ _ hrun hnext
    cases n with
    | zero => exact absurd (hpos _ hrun) (by omega)
    | succ n => rw [loop, if_pos hrun, hnext, Option.bind_some, ih (by omega)]

/-! ## Two runs -/

section Lockstep

variable {κ ω : Type*}

/-- What the states show in which the steps of a run are made. -/
def trace (running : σ → Prop) [DecidablePred running] (step : σ → Option σ) (out : σ → List ω) :
    ℕ → σ → List ω
  | 0, _ => []
  | n + 1, s => if running s then out s ++ (step s).elim [] (trace running step out n) else []

/-- The steps of a run meet a condition on the state and on the notes `k` that are taken of the run.
-/
def StepsMeet (running : σ → Prop) (step : σ → Option σ) (note : κ → σ → κ) (C : κ → σ → Prop) :
    ℕ → κ → σ → Prop
  | 0, _, _ => True
  | n + 1, k, s =>
    running s → C k s ∧ ∀ s', step s = some s' → StepsMeet running step note C n (note k s) s'

/-- Both runs show the same, and end in related states or without a result. -/
theorem lockstep {out : σ → List ω} {note : κ → σ → κ} {C : κ → σ → Prop} {R : κ → σ → σ → Prop}
    (hrunning : ∀ k s t, R k s t → (running s ↔ running t))
    (hout : ∀ k s t, R k s t → running s → C k s → out s = out t)
    (hstep : ∀ k s t, R k s t → running s → C k s → Option.Rel (R (note k s)) (step s) (step t))
    {n : ℕ} {k : κ} {t : σ} (h : R k s t) (hmeet : StepsMeet running step note C n k s) :
    trace running step out n s = trace running step out n t ∧
      ∃ k', Option.Rel (R k') (loop running step n s) (loop running step n t) := by
  induction n generalizing k s t with
  | zero =>
    refine ⟨rfl, k, ?_⟩
    by_cases hs : running s
    · simpa only [loop, if_pos hs, if_pos ((hrunning k s t h).mp hs)] using .none
    · simpa only [loop, if_neg hs, if_neg (mt (hrunning k s t h).mpr hs)] using .some h
  | succ n ih =>
    by_cases hs : running s
    · have ht := (hrunning k s t h).mp hs
      obtain ⟨hc, hnext⟩ := hmeet hs
      simp only [trace, loop, if_pos hs, if_pos ht, hout k s t h hs hc]
      have hrel := hstep k s t h hs hc
      generalize step s = r, step t = r' at hrel hnext
      cases hrel with
      | none => exact ⟨rfl, k, .none⟩
      | some hr =>
        obtain ⟨htrace, hends⟩ := ih hr (hnext _ rfl)
        exact ⟨congrArg (out t ++ ·) htrace, hends⟩
    · have ht := mt (hrunning k s t h).mpr hs
      simp only [trace, loop, if_neg hs, if_neg ht]
      exact ⟨trivial, k, .some h⟩

end Lockstep

end Machine
