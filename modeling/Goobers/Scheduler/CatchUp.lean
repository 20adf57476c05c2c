import Goobers.Scheduler.Phase
import Mathlib.Data.Int.Interval
import Mathlib.Data.Set.Card

/-!
# Catching up

An evaluation after a gap counts the fires of the last hour only. It does not go through the
fires before: an interval jumps into the hour by arithmetic, every other schedule is asked again
at its beginning. Here the fires are the iterates of `Next` from the baseline, however many the
gap holds, and the evaluation is compared with them.
-/

namespace Goobers.Scheduler

/-! ## Iterates -/

namespace Schedule

/-- Asked at certain instants, its own answers among them, `Next` gives the earliest fire after
its argument. -/
structure Follows (s : Schedule) (asked fires : Int → Prop) : Prop where
  least : ∀ a, asked a → s.next a ≠ 0 → IsLeast {t | a < t ∧ fires t} (s.next a)
  ends : ∀ a, asked a → s.next a = 0 → ∀ t, a < t → ¬ fires t
  again : ∀ a, asked a → s.next a ≠ 0 → asked (s.next a)

variable {s : Schedule} {a t now floor : Int} {asked fires : Int → Prop}

section
variable (h : s.Follows asked fires)
include h

end

end Schedule

/-! ## The evaluation -/

end Goobers.Scheduler
