import Mathlib.Data.List.Basic

/-!
# Runs of a step function

A run is a list of actions applied from left to right. A condition on an action may
depend on the state the action meets; `Along` says that every action of a run
satisfies it there, and `Along.inv` lifts what one such action preserves to the run.
-/

namespace Goobers.Lib

variable {σ α : Type} {step : σ → α → σ} {C : σ → α → Prop} {s : σ}

/-- Every action of the run meets a state in which the condition holds. -/
def Along (step : σ → α → σ) (C : σ → α → Prop) : σ → List α → Prop
  | _, [] => True
  | s, a :: actions => C s a ∧ Along step C (step s a) actions

@[simp]
theorem along_nil : Along step C s [] := trivial

@[simp]
theorem along_cons {a : α} {actions : List α} :
    Along step C s (a :: actions) ↔ C s a ∧ Along step C (step s a) actions := Iff.rfl

instance decidableAlong [∀ s a, Decidable (C s a)] : ∀ s actions, Decidable (Along step C s actions)
  | _, [] => isTrue trivial
  | s, a :: actions => @instDecidableAnd _ _ _ (decidableAlong (step s a) actions)

theorem along_append {before after : List α} :
    Along step C s (before ++ after) ↔
      Along step C s before ∧ Along step C (before.foldl step s) after := by
  induction before generalizing s with
  | nil => simp
  | cons a before ih => simp [ih, and_assoc]

theorem Along.inv {I : σ → Prop} (hstep : ∀ s a, C s a → I s → I (step s a)) {actions : List α}
    (hs : I s) (hrun : Along step C s actions) : I (actions.foldl step s) := by
  induction actions generalizing s with
  | nil => exact hs
  | cons a actions ih => exact ih (hstep s a hrun.1 hs) hrun.2

end Goobers.Lib
