import Goobers.Lib.GoMap
import Goobers.Scheduler.Window

/-!
# Run conditions

A tracker counts the active runs of every workflow and of the instance, and decides
whether a new run may start, whether an existing run may continue, and whether a
parked parent may resume. A parent whose resume is refused for capacity keeps a claim
on the next slot: it counts against every new start, every plain continuation and
every parent that began to wait later, until it resumes or the claim expires.

A claim always holds a slot of its workflow, and a slot of the instance only while
its workflow has room for it.

Instants are nanoseconds. What the gates of a new start answer (provider quota, open
pull requests, memory, disk) is input.
-/

namespace Goobers.Scheduler

open Lib

def reasonMaxParallel : String := "conditions: max-parallel"

def reasonInstanceMaxParallel : String := "conditions: instance max-parallel"

def reasonBudget : String := "conditions: budget"

def reasonDailyBudget : String := "conditions: daily-budget"

def reasonOpenPRCap : String := "conditions: open-pr-cap"

def reasonMemoryPressure : String := "conditions: memory-pressure"

def reasonStorageCritical : String := "conditions: storage-critical"

def reasonProviderQuota : String := "provider-quota"

def budgetWindow : Int := 3600 * second

def dayWindow : Int := 24 * 3600 * second

/-- How long a claim holds capacity without a retry. -/
def continuationClaimTTL : Int := 600 * second

structure WorkflowIdentity where
  gaggle : String := ""
  workflow : String
  deriving DecidableEq, Repr

structure ReadinessConditions where
  maxConcurrentRuns : Int := 0
  maxRunsPerHour : Int := 0
  maxRunsPerDay : Int := 0
  maxOpenPRs : Int := 0
  deriving DecidableEq, Repr

/-- A parked parent waiting to resume. -/
structure ContinuationClaim where
  identity : WorkflowIdentity
  maxConcurrent : Int
  since : Int
  until_ : Int
  deriving DecidableEq, Repr

/-- The tracker: slots, starts, budgets and claims. -/
structure Conditions where
  active : GoMap WorkflowIdentity Int := ∅
  starts : GoMap WorkflowIdentity (List Int) := ∅
  totalActive : Int := 0
  /-- `0` is unlimited. -/
  instanceMaxParallel : Int := 0
  workflowBudgets : GoMap String Int := ∅
  dayBudgets : GoMap String Int := ∅
  disableCadenceBudgets : Bool := false
  claims : GoMap String ContinuationClaim := ∅

/-- What the gates of a new start answer: the time a spent quota resumes, the count of open pull
requests if it is known, and the details of memory and disk pressure. -/
structure Gates where
  quota : Option String := none
  openPRs : Option Int := none
  memory : Option String := none
  disk : Option String := none
  deriving DecidableEq, Repr

namespace Conditions

def activeOf (c : Conditions) (identity : WorkflowIdentity) : Int :=
  (c.active.get? identity).getD 0

/-! ## Claims -/

/-- Run IDs break ties. -/
def olderThan (a : ContinuationClaim) (aRun : String) (b : ContinuationClaim) (bRun : String) :
    Bool :=
  a.since < b.since || (a.since = b.since && aRun < bRun)

def pruneClaims (c : Conditions) (now : Int) : Conditions :=
  { c with
    claims := c.claims.sift fun _ claim => if now < claim.until_ then some claim else none }

/-- The claim's own workflow has a slot for it. -/
def claimCanUseInstance (c : Conditions) (runID : String) (claim : ContinuationClaim) : Bool :=
  let ahead := c.claims.rows.filter fun row =>
    row.1 ≠ runID && row.2.identity = claim.identity && olderThan row.2 row.1 claim runID
  c.activeOf claim.identity + ahead.length < claim.maxConcurrent

def heldByClaims (c : Conditions) (identity : WorkflowIdentity) (runID : String) : Nat × Nat :=
  let own := c.claims.get? runID
  let holding := c.claims.rows.filter fun row =>
    row.1 ≠ runID && own.all (fun own => olderThan row.2 row.1 own runID)
  ((holding.filter fun row => row.2.identity = identity).length,
    (holding.filter fun row => c.claimCanUseInstance row.1 row.2).length)

/-- A renewal keeps the claim's place. -/
def markContinuationWaiting (c : Conditions) (runID : String) (identity : WorkflowIdentity)
    (maxConcurrent now : Int) : Conditions :=
  let since :=
    match c.claims.get? runID with
    | some claim => if claim.identity = identity then claim.since else now
    | none => now
  { c with
    claims := c.claims.put runID
      { identity := identity, maxConcurrent := maxConcurrent, since := since
        until_ := now + continuationClaimTTL } }

def clearContinuationClaim (c : Conditions) (runID : String) : Conditions :=
  { c with claims := c.claims.del runID }

/-! ## Continuations -/

def maxConcurrentRuns (r : ReadinessConditions) : Int :=
  if r.maxConcurrentRuns ≤ 0 then 1 else r.maxConcurrentRuns

def take (c : Conditions) (identity : WorkflowIdentity) : Conditions :=
  { c with
    active := c.active.put identity (c.activeOf identity + 1), totalActive := c.totalActive + 1 }

def workflowFull (c : Conditions) (identity : WorkflowIdentity) (r : ReadinessConditions)
    (runID : String) : Bool :=
  maxConcurrentRuns r ≤ c.activeOf identity + (c.heldByClaims identity runID).1

def instanceFull (c : Conditions) (identity : WorkflowIdentity) (runID : String) : Bool :=
  0 < c.instanceMaxParallel &&
    c.instanceMaxParallel ≤ c.totalActive + (c.heldByClaims identity runID).2

def reserveContinuationFor (c : Conditions) (identity : WorkflowIdentity)
    (r : ReadinessConditions) (runID : String) : Conditions × Except String Unit :=
  if c.workflowFull identity r runID then (c, .error reasonMaxParallel)
  else if c.instanceFull identity runID then (c, .error reasonInstanceMaxParallel)
  else (c.take identity, .ok ())

/-- A run that is no waiting parent yields to every waiting one. -/
def reserveContinuation (c : Conditions) (now : Int) (identity : WorkflowIdentity)
    (r : ReadinessConditions) : Conditions × Except String Unit :=
  (c.pruneClaims now).reserveContinuationFor identity r ""

def reserveParentContinuation (c : Conditions) (now : Int) (runID : String)
    (identity : WorkflowIdentity) (r : ReadinessConditions) : Conditions × Except String Unit :=
  match (c.pruneClaims now).reserveContinuationFor identity r runID with
  | (c, .ok ()) => (c.clearContinuationClaim runID, .ok ())
  | (c, .error reason) =>
    if reason = reasonMaxParallel ∨ reason = reasonInstanceMaxParallel then
      (c.markContinuationWaiting runID identity (maxConcurrentRuns r) now, .error reason)
    else (c, .error reason)

def releaseWorkflow (c : Conditions) (identity : WorkflowIdentity) : Conditions :=
  if 0 < c.activeOf identity then
    { c with
      active := c.active.put identity (c.activeOf identity - 1), totalActive := c.totalActive - 1 }
  else c

/-! ## New starts -/

def toInt32 (n : Int) : Int := n.bmod (2 ^ 32)

def pruneStarts (starts : List Int) (now window : Int) : List Int :=
  starts.dropWhile (· < now - window)

def countSince (starts : List Int) (cutoff : Int) : Nat :=
  (starts.reverse.takeWhile (cutoff ≤ ·)).length

def hourlyBudget (c : Conditions) (workflow : String) (r : ReadinessConditions) : Int :=
  match c.workflowBudgets.get? workflow with
  | some override =>
    if 0 < override then toInt32 override
    else if r.maxRunsPerHour ≤ 0 then 10 else r.maxRunsPerHour
  | none => if r.maxRunsPerHour ≤ 0 then 10 else r.maxRunsPerHour

def dailyBudget (c : Conditions) (workflow : String) (r : ReadinessConditions) : Int :=
  match c.dayBudgets.get? workflow with
  | some override => if 0 < override then toInt32 override else r.maxRunsPerDay
  | none => r.maxRunsPerDay

/-- The detail follows the reason unless it is empty. -/
def withDetail (reason detail : String) : String :=
  if detail = "" then reason else reason ++ ": " ++ detail

/-- What refuses a new start before its budgets are looked at. -/
def startRefusal (c : Conditions) (identity : WorkflowIdentity) (gates : Gates)
    (r : ReadinessConditions) : Option String :=
  if c.workflowFull identity r "" then some reasonMaxParallel
  else if 0 < r.maxOpenPRs && gates.openPRs.any (r.maxOpenPRs ≤ ·) then some reasonOpenPRCap
  -- an override of zero is a stop, not a budget
  else if c.workflowBudgets.get? identity.workflow = some 0 then some reasonBudget
  else if c.dayBudgets.get? identity.workflow = some 0 then some reasonDailyBudget
  else none

/-- What refuses a new start that is within its budgets. -/
def poolRefusal (c : Conditions) (identity : WorkflowIdentity) (gates : Gates) : Option String :=
  if c.instanceFull identity "" then some reasonInstanceMaxParallel
  else
    match gates.memory with
    | some detail => some (withDetail reasonMemoryPressure detail)
    | none => gates.disk.map (withDetail reasonStorageCritical)

/-- What refuses a new start for its budgets, given the starts of the last day. -/
def budgetRefusal (c : Conditions) (identity : WorkflowIdentity) (r : ReadinessConditions)
    (starts : List Int) (now : Int) (bypassCadenceBudgets : Bool) : Option String :=
  if bypassCadenceBudgets || c.disableCadenceBudgets then none
  else if c.hourlyBudget identity.workflow r ≤ countSince starts (now - budgetWindow) then
    some reasonBudget
  else
    let maxRunsPerDay := c.dailyBudget identity.workflow r
    if 0 < maxRunsPerDay && maxRunsPerDay ≤ starts.length then some reasonDailyBudget else none

/-- `clockNow` is the claims' clock, `now` the start's own instant. -/
def admitProviderWorkflow (c : Conditions) (clockNow : Int) (identity : WorkflowIdentity)
    (gates : Gates) (r : ReadinessConditions) (now : Int) (bypassCadenceBudgets : Bool) :
    Conditions × Except String Unit :=
  match gates.quota with
  | some resetAt => (c, .error (reasonProviderQuota ++ ": resumes at " ++ resetAt))
  | none =>
    let c := c.pruneClaims clockNow
    match c.startRefusal identity gates r with
    | some reason => (c, .error reason)
    | none =>
      let starts := pruneStarts ((c.starts.get? identity).getD []) now dayWindow
      match c.budgetRefusal identity r starts now bypassCadenceBudgets with
      | some reason => ({ c with starts := c.starts.put identity starts }, .error reason)
      | none =>
        match c.poolRefusal identity gates with
        | some reason => (c, .error reason)
        | none =>
          ({ c.take identity with starts := c.starts.put identity (starts ++ [now]) },
            .ok ())

end Conditions

/-! ## The tracker and its clock -/

/-- The ID of a run is not empty; the empty string stands for a run that is no parent. -/
structure RunID where
  id : String
  nonempty : id ≠ ""
  deriving DecidableEq

/-- The tracker with the claims' clock. -/
structure World where
  now : Int
  conditions : Conditions

inductive Op where
  /-- `admitProviderWorkflow`, at its own instant. -/
  | admitWorkflow (identity : WorkflowIdentity) (gates : Gates) (now : Int)
      (bypassCadenceBudgets : Bool)
  /-- `ReserveContinuation`. -/
  | reserve (identity : WorkflowIdentity)
  /-- `reserveParentContinuation`. -/
  | resume (run : RunID) (identity : WorkflowIdentity)
  /-- `ReleaseWorkflow`. -/
  | release (identity : WorkflowIdentity)
  /-- `ClearContinuationClaim`. -/
  | clear (run : RunID)
  | advance (d : Nat)

/-- The limits of a workflow are fixed. -/
def World.step (limits : WorkflowIdentity → ReadinessConditions) (w : World) : Op → World
  | .admitWorkflow identity gates now bypass =>
    { w with
      conditions :=
        (w.conditions.admitProviderWorkflow w.now identity gates (limits identity) now bypass).1 }
  | .reserve identity =>
    { w with
      conditions := (w.conditions.reserveContinuation w.now identity (limits identity)).1 }
  | .resume run identity =>
    { w with
      conditions :=
        (w.conditions.reserveParentContinuation w.now run.id identity (limits identity)).1 }
  | .release identity => { w with conditions := w.conditions.releaseWorkflow identity }
  | .clear run => { w with conditions := w.conditions.clearContinuationClaim run.id }
  | .advance d => { w with now := w.now + d }

def World.run (limits : WorkflowIdentity → ReadinessConditions) (w : World) (ops : List Op) :
    World :=
  ops.foldl (World.step limits) w

end Goobers.Scheduler
