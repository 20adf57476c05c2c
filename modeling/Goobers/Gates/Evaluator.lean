import Goobers.Gates.Budget
import Goobers.Journal.Event

/-!
# Gate evaluations and their journal records

`Evaluate` marks the start of an evaluation with the count the gate will have if it
fails, gets an outcome from the gate's evaluator, charges it to the budget, and
journals what came of it. What the evaluator answers is an input here: the outcome
of an automated check, or the decision of a reviewer.

A gate whose own count is past its bound before it is dispatched is not evaluated
again; the escalation is journaled in its place.
-/

namespace Goobers.Gates

open Lib
open Journal (Event RunnerValue)

/-- The decisions a reviewer may return. -/
inductive Decision where
  | pass
  | fail
  | needsChanges
  | defer
  | escalate
  deriving DecidableEq, Repr

def Decision.text : Decision → String
  | .pass => "pass"
  | .fail => "fail"
  | .needsChanges => "needs-changes"
  | .defer => "defer"
  | .escalate => "escalate"

def branchEscalate : String := "escalate"

def escalationTarget (g : Gate) : String :=
  (branchTarget g branchEscalate).getD Journal.targetEscalate

/-- The gate takes deferrals and has a route of its own for mechanical stops. -/
def structuredMechanicalEscalation (g : Gate) : Bool :=
  (branchTarget g Decision.defer.text).isSome && (branchTarget g Decision.escalate.text).isSome

/-- What the gate's evaluator answered: an automated outcome, or a reviewer's verdict. -/
inductive Finding where
  | automated (outcome : String)
  | agentic (decision : Decision)
  deriving DecidableEq, Repr

def Finding.outcome : Finding → String
  | .automated outcome => outcome
  | .agentic decision => decision.text

def budgetEscalationVerdict (g : Gate) (exhausted : Bool) (finding : Finding) : String :=
  match finding with
  | .automated outcome => outcome
  | .agentic decision =>
    if exhausted && structuredMechanicalEscalation g then Decision.escalate.text
    else decision.text

structure Result where
  gate : String
  outcome : String
  target : String
  attempt : Nat := 0
  repassTarget : String := ""
  gateAttempt : Nat := 0
  pollAttempt : Nat := 0
  pollTarget : String := ""
  escalated : Bool := false
  duplicateDiff : Bool := false
  reason : String := ""
  cacheHit : Bool := false
  interrupted : Bool := false
  deriving DecidableEq, Repr

def startEvent (gate : String) (repassAttempt : Nat) : Event :=
  { type := .gateStarted, gate := gate, runner := [("repassAttempt", .num repassAttempt)] }

def verdictEvent (r : Result) (diffDigest : String) : Event :=
  { type := .gateEvaluated, gate := r.gate, verdict := r.outcome, target := r.target,
    escalated := r.escalated,
    runner :=
      [("repassAttempt", .num r.attempt), ("gateAttempt", .num r.gateAttempt),
       ("escalated", .bool r.escalated), ("duplicateDiff", .bool r.duplicateDiff),
       ("verdictCacheHit", .bool r.cacheHit)] ++
      (if r.repassTarget ≠ "" then [("repassTarget", .str r.repassTarget)] else []) ++
      (if r.pollTarget ≠ "" then
        [("pollAttempt", .num r.pollAttempt), ("pollTarget", .str r.pollTarget)] else []) ++
      (if r.interrupted then [("interrupted", .bool true)] else []) ++
      (if diffDigest ≠ "" then [("diffDigest", .str diffDigest)] else []) ++
      (if r.reason ≠ "" then [("reason", .str r.reason)] else []) }

/-- The budget, with the journal it is seeded from. -/
structure Evaluator where
  budget : RepassBudget := {}
  journal : List Event := []

/-- The gates of a workflow, by name. -/
structure GateSet where
  gate : String → Gate
  named : ∀ name, (gate name).name = name

/-- One call of the evaluator: the gate, what was found and how the run stands to its target. -/
structure Evaluation where
  gate : String
  finding : Finding
  /-- The target of the outcome's branch is a stage that has completed. -/
  reentry : Bool
  duplicateDiff : Bool := false
  forcedEscalation : Bool := false
  cacheHit : Bool := false
  diffDigest : String := ""
  outcomeReason : String := ""
  deriving DecidableEq, Repr

def Evaluation.outcome (e : Evaluation) : String := e.finding.outcome

def reasonUnchangedRepass : String := "UNCHANGED_REPASS"

/-- The result of a charged evaluation; an escalated one leaves the configured branch. -/
def chargedResult (g : Gate) (e : Evaluation) (target : String) (charge : RepassCharge) : Result :=
  let escalated := charge.exceeded || e.duplicateDiff || e.forcedEscalation
  let reason := if e.duplicateDiff then reasonUnchangedRepass else e.outcomeReason
  { gate := g.name, outcome := budgetEscalationVerdict g charge.exceeded e.finding
    target := if escalated then escalationTarget g else target
    attempt := charge.attempt, repassTarget := charge.repassTarget
    gateAttempt := charge.gateAttempt, pollAttempt := charge.pollAttempt
    pollTarget := charge.pollTarget, escalated := escalated
    duplicateDiff := e.duplicateDiff
    reason := if escalated ∧ reason = "" then charge.escalationReason else reason
    cacheHit := e.cacheHit }

section
variable (gates : GateSet) (maxRepasses : Nat)

/--
`resolveOutcome`: charge the outcome and journal the result. An outcome without a
branch is an error and leaves no record.
-/
def Evaluator.resolveOutcome (ev : Evaluator) (e : Evaluation) : Evaluator × Option Result :=
  let g := gates.gate e.gate
  match branchTarget g e.outcome with
  | none => (ev, none)
  | some target =>
    let (budget, charge) := ev.budget.charge g e.outcome target e.reentry maxRepasses
    let r := chargedResult g e target charge
    (⟨budget, ev.journal ++ [verdictEvent r e.diffDigest]⟩, some r)

/-- The escalation that stands for an evaluation of a gate past its bound. -/
def interruptedResult (g : Gate) (attempt : Nat) : Result :=
  { gate := g.name
    outcome := if structuredMechanicalEscalation g then Decision.escalate.text else outcomeFail
    target := escalationTarget g, attempt := attempt, gateAttempt := attempt
    escalated := true, interrupted := true, reason := reasonRepassBudgetExhausted }

def Evaluator.recoverInterrupted (ev : Evaluator) (gate diffDigest : String) :
    Option (Evaluator × Result) :=
  let g := gates.gate gate
  let attempt := ev.budget.attempts.count g.name
  if attempt ≤ maxRepassesForGate g maxRepasses then none
  else
    let r := interruptedResult g attempt
    some ({ ev with journal := ev.journal ++ [verdictEvent r diffDigest] }, r)

def Evaluator.recordStart (ev : Evaluator) (gate : String) : Evaluator :=
  let name := (gates.gate gate).name
  { ev with journal := ev.journal ++ [startEvent name (ev.budget.attempts.count name + 1)] }

/-- `Evaluate`, for an automated or agentic gate. -/
def Evaluator.evaluate (ev : Evaluator) (e : Evaluation) : Evaluator × Option Result :=
  match ev.recoverInterrupted gates maxRepasses e.gate e.diffDigest with
  | some (ev, r) => (ev, some r)
  | none => (ev.recordStart gates e.gate).resolveOutcome gates maxRepasses e

/-! ## What an evaluation leaves behind -/

variable {gates maxRepasses} {ev : Evaluator} {e : Evaluation}

theorem resolveOutcome_of_none (h : branchTarget (gates.gate e.gate) e.outcome = none) :
    ev.resolveOutcome gates maxRepasses e = (ev, none) := by
  unfold Evaluator.resolveOutcome
  dsimp only
  rw [h]

theorem resolveOutcome_of_some {target : String}
    (h : branchTarget (gates.gate e.gate) e.outcome = some target) :
    let charged := ev.budget.charge (gates.gate e.gate) e.outcome target e.reentry maxRepasses
    let r := chargedResult (gates.gate e.gate) e target charged.2
    ev.resolveOutcome gates maxRepasses e
      = (⟨charged.1, ev.journal ++ [verdictEvent r e.diffDigest]⟩, some r) := by
  unfold Evaluator.resolveOutcome
  dsimp only
  rw [h]

end

theorem Decision.text_ne (d : Decision) : d.text ≠ outcomeInfra ∧ d.text ≠ outcomeTimeout := by
  cases d <;> decide

theorem budgetEscalationVerdict_class (g : Gate) (exhausted : Bool) (finding : Finding)
    {outcome : String} (h : outcome = outcomeInfra ∨ outcome = outcomeTimeout) :
    budgetEscalationVerdict g exhausted finding = outcome ↔ finding.outcome = outcome := by
  have hne : ∀ d : Decision, d.text ≠ outcome := by
    intro d heq
    rcases h with h | h
    · exact d.text_ne.1 (heq.trans h)
    · exact d.text_ne.2 (heq.trans h)
  cases finding with
  | automated outcome => exact Iff.rfl
  | agentic decision =>
    refine iff_of_false ?_ (hne decision)
    unfold budgetEscalationVerdict
    dsimp only
    split
    · exact hne .escalate
    · exact hne decision

theorem chargedResult_outcome_iff (g : Gate) (e : Evaluation) (target : String) (c : RepassCharge)
    {outcome : String} (h : outcome = outcomeInfra ∨ outcome = outcomeTimeout) :
    (chargedResult g e target c).outcome = outcome ↔ e.outcome = outcome :=
  budgetEscalationVerdict_class g c.exceeded e.finding h

end Goobers.Gates
