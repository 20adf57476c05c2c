import Mathlib.Data.String.Defs
import Goobers.Lib.GoMap

/-!
# The repass budget

Every gate evaluation is charged to the run's `RepassBudget`. Policy repasses,
infrastructure repasses and timeout polls have counters of their own, per gate and
per target stage, and an outcome of one class gives back what another has spent.

A counter that is not in its map reads as `0`, so a nil map and an empty one are
the same here.
-/

namespace Goobers.Gates

open Lib

def outcomePass : String := "pass"

def outcomeFail : String := "fail"

def outcomeInfra : String := "infra"

def outcomeTimeout : String := "timeout"

/-- The part of a gate's definition that its evaluation reads. -/
structure Gate where
  name : String
  branches : GoMap String String := ∅
  maxRepasses : Nat := 0
  /-- Of the automated evaluator; `0` if it declares none. -/
  maxTimeoutPolls : Nat := 0

def branchTarget (g : Gate) (outcome : String) : Option String := g.branches.get? outcome

def defaultMaxRepasses : Nat := 3

def defaultMaxInfrastructureRepasses : Nat := 2

def defaultMaxTimeoutPolls : Nat := 12

def maxRepassesForGate (g : Gate) (inherited : Nat) : Nat :=
  if g.maxRepasses > 0 then g.maxRepasses
  else if inherited > 0 then inherited
  else defaultMaxRepasses

def maxTimeoutPollsForGate (g : Gate) : Nat :=
  if g.maxTimeoutPolls > 0 then g.maxTimeoutPolls else defaultMaxTimeoutPolls

abbrev Counters := GoMap String Nat

namespace Counters

def count (m : Counters) (key : String) : Nat := (m.get? key).getD 0

def incr (m : Counters) (key : String) : Counters := m.put key (m.count key + 1)

@[simp] theorem count_empty (key : String) : count ∅ key = 0 := rfl

theorem count_put (m : Counters) (key : String) (n : Nat) (key' : String) :
    count (m.put key n) key' = if key' = key then n else m.count key' := by
  unfold count
  rw [GoMap.get?_put]
  split <;> rfl

theorem count_incr (m : Counters) (key key' : String) :
    (m.incr key).count key' = if key' = key then m.count key + 1 else m.count key' :=
  count_put m key _ key'

end Counters

/-- The counters of a run's gates. -/
structure RepassBudget where
  attempts : Counters := ∅
  infrastructureAttempts : Counters := ∅
  repassAttempts : Counters := ∅
  infrastructureRepassAttempts : Counters := ∅
  pollAttempts : Counters := ∅

/-- What a charge returns. -/
structure RepassCharge where
  attempt : Nat := 0
  gateAttempt : Nat := 0
  repassTarget : String := ""
  infrastructure : Bool := false
  bound : Nat := 0
  exceeded : Bool := false
  polling : Bool := false
  pollAttempt : Nat := 0
  pollTarget : String := ""
  deriving DecidableEq, Repr

/-- Set the counter of a branch the gate declares back to zero. -/
def resetBranch (g : Gate) (outcome : String) (m : Counters) : Counters :=
  match branchTarget g outcome with
  | some target => m.put target 0
  | none => m

namespace RepassBudget

/-- The resets of the per-target counters: progress gives the retries back. -/
def giveBack (b : RepassBudget) (g : Gate) (outcome : String) : RepassBudget :=
  let infrastructure := outcome = outcomeInfra
  let waiting := outcome = outcomeTimeout
  let b :=
    if ¬ infrastructure ∧ ¬ waiting then
      { b with
        infrastructureRepassAttempts :=
          resetBranch g outcomeInfra b.infrastructureRepassAttempts }
    else b
  if ¬ waiting then { b with pollAttempts := resetBranch g outcomeTimeout b.pollAttempts } else b

/-- The per-gate counters, and the gate's count in the outcome's class. -/
def countGate (b : RepassBudget) (g : Gate) (outcome : String) : RepassBudget × Nat :=
  if outcome = outcomePass then
    ({ b with
       attempts := b.attempts.put g.name 0
       infrastructureAttempts := b.infrastructureAttempts.put g.name 0 }, 0)
  else if outcome = outcomeTimeout then (b, 0)
  else if outcome = outcomeInfra then
    ({ b with
       attempts := b.attempts.put g.name 0
       infrastructureAttempts := b.infrastructureAttempts.incr g.name },
      b.infrastructureAttempts.count g.name + 1)
  else
    ({ b with
       infrastructureAttempts := b.infrastructureAttempts.put g.name 0
       attempts := b.attempts.incr g.name }, b.attempts.count g.name + 1)

/-- `Charge`. `target` is the gate's configured branch for the outcome. -/
def charge (b : RepassBudget) (g : Gate) (outcome target : String) (reentry : Bool)
    (maxRepasses : Nat) : RepassBudget × RepassCharge :=
  let infrastructure := outcome = outcomeInfra
  let waiting := outcome = outcomeTimeout
  let (b, gateAttempt) := (b.giveBack g outcome).countGate g outcome
  let bound :=
    if infrastructure then defaultMaxInfrastructureRepasses else maxRepassesForGate g maxRepasses
  let c : RepassCharge :=
    { infrastructure := infrastructure, bound := bound, gateAttempt := gateAttempt }
  if waiting then
    if !reentry then (b, c)
    else
      let n := b.pollAttempts.count target + 1
      let bound := maxTimeoutPollsForGate g
      ({ b with pollAttempts := b.pollAttempts.incr target },
        { c with bound := bound, polling := true, pollAttempt := n, pollTarget := target,
                 exceeded := n > bound })
  else if !reentry ∨ outcome = outcomePass then (b, c)
  else if infrastructure then
    let n := b.infrastructureRepassAttempts.count target + 1
    ({ b with infrastructureRepassAttempts := b.infrastructureRepassAttempts.incr target },
      { c with attempt := n, repassTarget := target, exceeded := n > bound })
  else
    let n := b.repassAttempts.count target + 1
    ({ b with repassAttempts := b.repassAttempts.incr target },
      { c with attempt := n, repassTarget := target, exceeded := n > bound })

end RepassBudget

def reasonRepassBudgetExhausted : String := "REPASS_BUDGET_EXHAUSTED"

def reasonInfrastructureBudgetExhausted : String := "INFRASTRUCTURE_REPASS_BUDGET_EXHAUSTED"

def reasonPollingBudgetExhausted : String := "POLLING_BUDGET_EXHAUSTED"

def RepassCharge.escalationReason (c : RepassCharge) : String :=
  if c.polling then reasonPollingBudgetExhausted
  else if c.infrastructure then reasonInfrastructureBudgetExhausted
  else reasonRepassBudgetExhausted

/-! ## What a charge does, counter by counter -/

@[simp] theorem outcomeInfra_ne_timeout : outcomeInfra ≠ outcomeTimeout := by decide

@[simp] theorem outcomeInfra_ne_pass : outcomeInfra ≠ outcomePass := by decide

@[simp] theorem outcomePass_ne_timeout : outcomePass ≠ outcomeTimeout := by decide

@[simp] theorem outcomePass_ne_infra : outcomePass ≠ outcomeInfra := by decide

@[simp] theorem outcomeTimeout_ne_infra : outcomeTimeout ≠ outcomeInfra := by decide

namespace RepassBudget

theorem count_resetBranch (g : Gate) (outcome : String) (m : Counters) (key : String) :
    (resetBranch g outcome m).count key
      = if branchTarget g outcome = some key then 0 else m.count key := by
  unfold resetBranch
  cases h : branchTarget g outcome with
  | none => simp
  | some t =>
    rw [Counters.count_put]
    by_cases hk : key = t
    · simp [hk]
    · have hk' : ¬ t = key := fun heq => hk heq.symm
      simp [hk, hk']

variable (b : RepassBudget) (g : Gate)

theorem countGate_infrastructure (outcome : String) :
    (b.countGate g outcome).1.infrastructureRepassAttempts = b.infrastructureRepassAttempts := by
  unfold countGate
  repeat' split
  all_goals rfl

theorem countGate_poll (outcome : String) :
    (b.countGate g outcome).1.pollAttempts = b.pollAttempts := by
  unfold countGate
  repeat' split
  all_goals rfl

theorem giveBack_infrastructure (outcome : String) :
    (b.giveBack g outcome).infrastructureRepassAttempts
      = if outcome = outcomeInfra ∨ outcome = outcomeTimeout then b.infrastructureRepassAttempts
        else resetBranch g outcomeInfra b.infrastructureRepassAttempts := by
  unfold giveBack
  by_cases hi : outcome = outcomeInfra
  · simp [hi]
  by_cases hw : outcome = outcomeTimeout
  · simp [hw]
  · simp [hi, hw]

theorem giveBack_poll (outcome : String) :
    (b.giveBack g outcome).pollAttempts
      = if outcome = outcomeTimeout then b.pollAttempts
        else resetBranch g outcomeTimeout b.pollAttempts := by
  unfold giveBack
  by_cases hi : outcome = outcomeInfra
  · simp [hi]
  by_cases hw : outcome = outcomeTimeout
  · simp [hw]
  · simp [hi, hw]

variable (target : String) (reentry : Bool) (maxRepasses : Nat)

/-- What a charge does to the infrastructure counter of a target. -/
theorem charge_infrastructure (outcome key : String) :
    (b.charge g outcome target reentry maxRepasses).1.infrastructureRepassAttempts.count key =
      if outcome = outcomeTimeout then b.infrastructureRepassAttempts.count key
      else if outcome = outcomeInfra then
        if reentry = true ∧ key = target then b.infrastructureRepassAttempts.count target + 1
        else b.infrastructureRepassAttempts.count key
      else if branchTarget g outcomeInfra = some key then 0
      else b.infrastructureRepassAttempts.count key := by
  have hback := (countGate_infrastructure (b.giveBack g outcome) g outcome).trans
    (giveBack_infrastructure b g outcome)
  unfold charge
  generalize (b.giveBack g outcome).countGate g outcome = counted at hback
  dsimp only at hback ⊢
  by_cases hw : outcome = outcomeTimeout
  · rw [if_pos (Or.inr hw)] at hback
    rw [if_pos hw, ← hback]
    split <;> rfl
  · rw [if_neg hw]
    by_cases hi : outcome = outcomeInfra
    · rw [if_pos (Or.inl hi)] at hback
      rw [← hback]
      cases reentry with
      | false => simp [hi]
      | true => simp [hi, Counters.count_incr]
    · rw [if_neg (by simp [hi, hw])] at hback
      rw [← count_resetBranch, ← hback]
      split <;> rfl

/-- What it does to the polling counter of a target. -/
theorem charge_poll (outcome key : String) :
    (b.charge g outcome target reentry maxRepasses).1.pollAttempts.count key =
      if outcome = outcomeTimeout then
        if reentry = true ∧ key = target then b.pollAttempts.count target + 1
        else b.pollAttempts.count key
      else if branchTarget g outcomeTimeout = some key then 0
      else b.pollAttempts.count key := by
  have hback := (countGate_poll (b.giveBack g outcome) g outcome).trans (giveBack_poll b g outcome)
  unfold charge
  generalize (b.giveBack g outcome).countGate g outcome = counted at hback
  dsimp only at hback ⊢
  split_ifs at hback with hw
  · rw [if_pos hw, if_pos hw, ← hback]
    cases reentry with
    | false => simp
    | true => simp [Counters.count_incr]
  · rw [if_neg hw, ← count_resetBranch, ← hback]
    split
    · rfl
    · split <;> rfl

theorem charge_of_infra :
    let r := b.charge g outcomeInfra target reentry maxRepasses
    (reentry = true → r.2.repassTarget = target ∧
      r.2.attempt = b.infrastructureRepassAttempts.count target + 1) ∧
    (reentry = false → r.2.repassTarget = "" ∧ r.2.attempt = 0 ∧ r.2.exceeded = false) := by
  have hback : ((b.giveBack g outcomeInfra).countGate g outcomeInfra).1.infrastructureRepassAttempts
      = b.infrastructureRepassAttempts := by
    rw [countGate_infrastructure, giveBack_infrastructure, if_pos (Or.inl rfl)]
  unfold charge
  refine ⟨fun hr => ?_, fun hr => ?_⟩
  · subst hr
    simp [hback]
  · subst hr
    simp

theorem charge_of_timeout :
    let r := b.charge g outcomeTimeout target reentry maxRepasses
    (reentry = true → r.2.pollTarget = target ∧ r.2.pollAttempt = b.pollAttempts.count target + 1) ∧
    (reentry = false → r.2.pollTarget = "" ∧ r.2.pollAttempt = 0 ∧ r.2.exceeded = false) := by
  have hback : ((b.giveBack g outcomeTimeout).countGate g outcomeTimeout).1.pollAttempts
      = b.pollAttempts := by
    rw [countGate_poll, giveBack_poll, if_pos rfl]
  unfold charge
  refine ⟨fun hr => ?_, fun hr => ?_⟩
  · subst hr
    simp [hback]
  · subst hr
    simp

end RepassBudget

end Goobers.Gates
