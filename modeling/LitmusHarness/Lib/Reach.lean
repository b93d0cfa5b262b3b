import Mathlib.Logic.Relation

/-!
# Reachable states

The states that a system reaches from its initial ones, and the rule for their invariants (`Reachable.inv`). A run of
a system that is given by a partial function of labelled steps is `run`; what it reaches is reachable
(`reachable_run`); what holds of each of its steps is `Along`, and two conditions on a step that an invariant makes the
same hold along the same runs (`along_iff`). What can be reached by steps that lower a measure is given by
`exists_of_measure`.
-/

namespace Reach

variable {σ α : Type}

/-- Reached from an initial state by steps. -/
inductive Reachable (init : σ → Prop) (step : σ → σ → Prop) : σ → Prop
  | init {s : σ} : init s → Reachable init step s
  | step {s s' : σ} : Reachable init step s → step s s' → Reachable init step s'

/-- What holds initially and is kept by the steps holds of every reachable state. -/
theorem Reachable.inv {init : σ → Prop} {step : σ → σ → Prop} {I : σ → Prop} (h0 : ∀ s, init s → I s)
    (hstep : ∀ s s', I s → step s s' → I s') {s : σ} (h : Reachable init step s) : I s := by
  induction h with
  | init h => exact h0 _ h
  | step _ hs ih => exact hstep _ _ ih hs

/-- More steps reach more states. -/
theorem Reachable.mono {init : σ → Prop} {step step' : σ → σ → Prop} (h : ∀ s s', step s s' → step' s s') {s : σ}
    (hr : Reachable init step s) : Reachable init step' s := by
  induction hr with
  | init h0 => exact .init h0
  | step _ hs ih => exact ih.step (h _ _ hs)

/-- While a goal is not reached there is a step that lowers the measure: then there is a run to the goal. -/
theorem exists_of_measure {step : σ → σ → Prop} {I goal : σ → Prop} (m : σ → Nat)
    (h : ∀ s, I s → ¬goal s → ∃ s', step s s' ∧ I s' ∧ m s' < m s) {s : σ} (hs : I s) :
    ∃ s', Relation.ReflTransGen step s s' ∧ I s' ∧ goal s' := by
  induction hk : m s using Nat.strongRecOn generalizing s with
  | ind k ih =>
    by_cases hg : goal s
    · exact ⟨s, .refl, hs, hg⟩
    · obtain ⟨s₁, hstep, hi, hlt⟩ := h s hs hg
      obtain ⟨s₂, hrun, hi₂, hg₂⟩ := ih (m s₁) (by omega) hi rfl
      exact ⟨s₂, .head hstep hrun, hi₂, hg₂⟩

/-- The run of a list of labels, if all steps are possible. -/
def run (step : σ → α → Option σ) : σ → List α → Option σ
  | s, [] => some s
  | s, a :: l =>
    match step s a with
    | none => none
    | some s' => run step s' l

/-- What a run reaches is reachable, by steps that have a label. -/
theorem reachable_run {init : σ → Prop} {step : σ → α → Option σ} {l : List α} {s s' : σ}
    (h : Reachable init (fun s s' => ∃ a, step s a = some s') s) (hr : run step s l = some s') :
    Reachable init (fun s s' => ∃ a, step s a = some s') s' := by
  induction l generalizing s with
  | nil =>
    cases hr
    exact h
  | cons a l ih =>
    rw [run] at hr
    cases ha : step s a with
    | none => simp [ha] at hr
    | some s₁ =>
      simp only [ha] at hr
      exact ih (h.step ⟨a, ha⟩) hr

/-- `P` holds of each step of the run of a list of labels, as far as the run gets. -/
def Along (step : σ → α → Option σ) (P : σ → α → Prop) : σ → List α → Prop
  | _, [] => True
  | s, a :: l => P s a ∧ ∀ s', step s a = some s' → Along step P s' l

/-- When the steps with `Q` keep an invariant, and `P` is `Q` under the invariant, a run has `P` along it if and only
if it has `Q`. -/
theorem along_iff {step : σ → α → Option σ} {P Q : σ → α → Prop} {I : σ → Prop}
    (hiff : ∀ s a, I s → (P s a ↔ Q s a)) (hstep : ∀ s a s', I s → Q s a → step s a = some s' → I s') :
    ∀ {l : List α} {s : σ}, I s → (Along step P s l ↔ Along step Q s l) := by
  intro l s h
  induction l generalizing s with
  | nil => exact Iff.rfl
  | cons a l ih =>
    simp only [Along, hiff s a h]
    refine and_congr_right fun hq => forall_congr' fun s' => forall_congr' fun hs => ?_
    exact ih (hstep s a s' h hq hs)

end Reach
