import Goobers.Gates.Evaluator

/-!
# Rebuilding the counters from the journal

A resumed run does not keep the budget of the run before it. Each of its maps is
rebuilt by a fold over the journal. The two per-target seeds with resets remember,
for each gate, the target it last charged, and give that one back; the budget
itself gives back the branch the gate declares.
-/

namespace Goobers.Gates

open Lib
open Journal (Event)

/-- A runner annotation read as a number. -/
def runnerCount (e : Event) (key : String) : Option Nat :=
  match e.runnerValue key with
  | some (.num n) => some n.toNat
  | _ => none

def handoffValidationRetryAnnotationKind : String := "handoff.validation.retry"

def isHandoffRetry (e : Event) : Bool :=
  e.type = .runnerAnnotate &&
    e.runnerValue "kind" = some (.str handoffValidationRetryAnnotationKind)

/-! ## The gate's own counters -/

def gateRepassStep (seed : Counters) (e : Event) : Counters :=
  if isHandoffRetry e then
    match runnerCount e "repassAttempt" with
    | some n =>
      if e.runnerString "target" = "" then seed
      else seed.put ("handoff.validation:" ++ e.stage) n
    | none => seed
  else if e.type ≠ .gateStarted ∧ e.type ≠ .gateEvaluated then seed
  else if e.type = .gateEvaluated ∧ e.verdict = outcomeTimeout then seed
  else if e.type = .gateEvaluated ∧ e.verdict = outcomeInfra then seed.put e.gate 0
  else
    match (runnerCount e "gateAttempt").or (runnerCount e "repassAttempt") with
    | some n => seed.put e.gate n
    | none => seed

def gateRepassSeed (events : List Event) : Counters := events.foldl gateRepassStep ∅

def gateInfrastructureStep (seed : Counters) (e : Event) : Counters :=
  if e.type ≠ .gateEvaluated then seed
  else if e.verdict = outcomeTimeout then seed
  else if e.verdict ≠ outcomeInfra then seed.put e.gate 0
  else
    match (runnerCount e "gateAttempt").or (runnerCount e "repassAttempt") with
    | some n => seed.put e.gate n
    | none => seed

def gateInfrastructureSeed (events : List Event) : Counters :=
  events.foldl gateInfrastructureStep ∅

/-! ## The counters of target stages -/

/-- The higher of the counts seen. -/
def raise (seed : Counters) (target : String) (n : Nat) : Counters :=
  if seed.count target < n then seed.put target n else seed

def targetRepassStep (seed : Counters) (e : Event) : Counters :=
  if isHandoffRetry e then
    match runnerCount e "repassAttempt" with
    | some n =>
      if e.runnerString "target" = "" then seed else raise seed (e.runnerString "target") n
    | none => seed
  else if e.type ≠ .gateEvaluated ∨ e.verdict = outcomeInfra ∨ e.verdict = outcomeTimeout then seed
  else
    let target := e.runnerString "repassTarget"
    let target :=
      if target = "" ∧ e.verdict ≠ outcomePass ∧ e.escalated = false then e.target else target
    match runnerCount e "repassAttempt" with
    | some n => if target = "" then seed else raise seed target n
    | none => seed

def targetRepassSeed (events : List Event) : Counters := events.foldl targetRepassStep ∅

/-- A seed with resets: the counts, and the target each gate charged last. -/
structure TargetSeed where
  seed : Counters := ∅
  gateTargets : GoMap String String := ∅

namespace TargetSeed

def gateTarget (s : TargetSeed) (gate : String) : String := (s.gateTargets.get? gate).getD ""

def reset (s : TargetSeed) (gate : String) : TargetSeed :=
  if s.gateTarget gate = "" then s else { s with seed := s.seed.put (s.gateTarget gate) 0 }

def note (s : TargetSeed) (gate target : String) (n : Nat) : TargetSeed :=
  { seed := raise s.seed target n, gateTargets := s.gateTargets.put gate target }

/--
One event of a seed with resets. `charged` is the outcome whose charges are counted
under the annotations `targetKey` and `attemptKey`; any other outcome is a reset,
unless it is `ignored`.
-/
def step (ignored : Option String) (charged targetKey attemptKey : String) (s : TargetSeed)
    (e : Event) : TargetSeed :=
  if e.type ≠ .gateEvaluated then s
  else if some e.verdict = ignored then s
  else if e.verdict ≠ charged then s.reset e.gate
  else
    let target := e.runnerString targetKey
    let target := if target = "" ∧ e.escalated = false then e.target else target
    match runnerCount e attemptKey with
    | some n => if target = "" then s else s.note e.gate target n
    | none => s

end TargetSeed

def infrastructureTargetRepassLoop (events : List Event) : TargetSeed :=
  events.foldl
    (TargetSeed.step (some outcomeTimeout) outcomeInfra "repassTarget" "repassAttempt") {}

def infrastructureTargetRepassSeed (events : List Event) : Counters :=
  (infrastructureTargetRepassLoop events).seed

def pollingTargetLoop (events : List Event) : TargetSeed :=
  events.foldl (TargetSeed.step none outcomeTimeout "pollTarget" "pollAttempt") {}

def pollingTargetSeed (events : List Event) : Counters := (pollingTargetLoop events).seed

/-! ## The budget of a resumed run -/

/--
`seedGateBudgets`: the budget a run has after a crash resume, rebuilt map by map from the
events of its segment of the journal. A rerun request, which also clears gates, starts a
segment of its own.
-/
def seededBudget (events : List Event) : RepassBudget where
  attempts := gateRepassSeed events
  infrastructureAttempts := gateInfrastructureSeed events
  repassAttempts := targetRepassSeed events
  infrastructureRepassAttempts := infrastructureTargetRepassSeed events
  pollAttempts := pollingTargetSeed events

/-! ## What a verdict's record says -/

section
variable (r : Result) (diffDigest : String)

@[simp] theorem verdictEvent_type : (verdictEvent r diffDigest).type = .gateEvaluated := rfl

@[simp] theorem verdictEvent_gate : (verdictEvent r diffDigest).gate = r.gate := rfl

@[simp] theorem verdictEvent_verdict : (verdictEvent r diffDigest).verdict = r.outcome := rfl

@[simp] theorem verdictEvent_target : (verdictEvent r diffDigest).target = r.target := rfl

@[simp] theorem verdictEvent_escalated : (verdictEvent r diffDigest).escalated = r.escalated := rfl

@[simp] theorem isHandoffRetry_verdictEvent :
    isHandoffRetry (verdictEvent r diffDigest) = false := rfl

@[simp] theorem runnerCount_repassAttempt :
    runnerCount (verdictEvent r diffDigest) "repassAttempt" = some r.attempt := rfl

@[simp] theorem runnerCount_gateAttempt :
    runnerCount (verdictEvent r diffDigest) "gateAttempt" = some r.gateAttempt := rfl

@[simp] theorem runnerString_repassTarget :
    (verdictEvent r diffDigest).runnerString "repassTarget" = r.repassTarget := by
  unfold verdictEvent Event.runnerString Event.runnerValue
  by_cases h : r.repassTarget = ""
  · by_cases hp : r.pollTarget = "" <;> by_cases hi : r.interrupted = true <;>
      by_cases hd : diffDigest = "" <;> by_cases hr : r.reason = "" <;>
      simp [h, hp, hi, hd, hr, List.lookup_cons]
  · simp [h, List.lookup_cons]

@[simp] theorem runnerString_pollTarget :
    (verdictEvent r diffDigest).runnerString "pollTarget" = r.pollTarget := by
  unfold verdictEvent Event.runnerString Event.runnerValue
  by_cases h : r.repassTarget = "" <;> by_cases hp : r.pollTarget = "" <;>
    by_cases hi : r.interrupted = true <;> by_cases hd : diffDigest = "" <;>
    by_cases hr : r.reason = "" <;> simp [h, hp, hi, hd, hr, List.lookup_cons]

@[simp] theorem runnerCount_pollAttempt :
    runnerCount (verdictEvent r diffDigest) "pollAttempt"
      = if r.pollTarget = "" then none else some r.pollAttempt := by
  unfold verdictEvent runnerCount Event.runnerValue
  by_cases h : r.repassTarget = "" <;> by_cases hp : r.pollTarget = "" <;>
    by_cases hi : r.interrupted = true <;> by_cases hd : diffDigest = "" <;>
    by_cases hr : r.reason = "" <;> simp [h, hp, hi, hd, hr, List.lookup_cons]

end

end Goobers.Gates
