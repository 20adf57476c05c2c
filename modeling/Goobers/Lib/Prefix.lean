import Mathlib.Data.List.Infix

/-!
# Runs and their prefixes

A run is the list of its inputs, and the states it passes through are those of its
prefixes. What holds in all of them is settled step by step.
-/

namespace Goobers.Lib

variable {α : Type}

theorem prefix_induction {P : List α → Prop} {xs : List α} (hnil : P [])
    (hstep : ∀ p a, p ++ [a] <+: xs → P p → P (p ++ [a])) : P xs := by
  suffices h : ∀ p, p <+: xs → P p from h xs List.prefix_rfl
  intro p
  induction p using List.reverseRecOn with
  | nil => exact fun _ => hnil
  | append_singleton p a ih =>
    intro hp
    exact hstep p a hp (ih ((List.prefix_append p [a]).trans hp))

/--
If a state that has `P` keeps it over exactly the steps that meet `C`, all the states
of a run have `P` exactly when all its steps meet `C`.
-/
theorem forall_prefix_iff {P : List α → Prop} {C : List α → α → Prop} (hnil : P [])
    (hstep : ∀ p a, P p → (P (p ++ [a]) ↔ C p a)) (xs : List α) :
    (∀ p, p <+: xs → P p) ↔ ∀ p a, p ++ [a] <+: xs → C p a := by
  constructor
  · intro h p a hpa
    have hp : P p := h p ((List.prefix_append p [a]).trans hpa)
    exact (hstep p a hp).mp (h _ hpa)
  · intro h p hp
    refine prefix_induction hnil (fun q a hqa hq => ?_)
    exact (hstep q a hq).mpr (h q a (hqa.trans hp))

end Goobers.Lib
