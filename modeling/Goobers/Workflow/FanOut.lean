import Goobers.Workflow.Structure

/-!
# Fan-out checks

The rules that make a parallel or a map safe to run: its bounds and its failure policy
are declared, branch bodies are disjoint and end at branch targets, a join is entered
through its fan-out only, and `@join` stands in a branch or a mapped task.
-/

namespace Goobers.Workflow

open Lib

def maxParallelBranches : Nat := 32

def maxMapConcurrency : Nat := maxParallelBranches

def FailurePolicy.text : FailurePolicy → String
  | .unset => ""
  | .failFast => "fail_fast"
  | .allOrNothing => "all_or_nothing"
  | .continueOnError => "continue_on_error"
  | .other name => name

def containsDot (s : String) : Bool := s.toList.contains '.'

/-! ## The declaration of a parallel -/

section
variable (d : Definition)

def branchDeclarationProblems (p : Parallel) : List String → List Branch → List String
  | _, [] => []
  | seen, b :: rest =>
    if b.name = "" then
      ("parallel " ++ quote p.name ++ " has a branch with no name") ::
        branchDeclarationProblems p seen rest
    else
      problemIf (b.name ∈ seen)
        ("parallel " ++ quote p.name ++ " declares duplicate branch " ++ quote b.name) ++
      (if b.start = "" then
        ["parallel " ++ quote p.name ++ " branch " ++ quote b.name ++ " has no start state"]
      else
        problemIf (!d.has b.start)
          ("parallel " ++ quote p.name ++ " branch " ++ quote b.name ++ " start " ++
            quote b.start ++ " is not a defined state")) ++
      branchDeclarationProblems p (b.name :: seen) rest

def parallelPolicyProblems (p : Parallel) : List String :=
  match p.failurePolicy with
  | .failFast | .allOrNothing =>
    if p.onFailure = "" then
      ["parallel " ++ quote p.name ++ " failurePolicy " ++ quote p.failurePolicy.text ++
        " requires onFailure (a state name, @abort, or @escalate) so branch failure is a " ++
          "defined branch, never a silent stop"]
    else if isStateName p.onFailure && !d.has p.onFailure then
      ["parallel " ++ quote p.name ++ " onFailure " ++ quote p.onFailure ++
        " is not a defined state"]
    else
      problemIf (isReservedBranchTarget p.onFailure)
        ("parallel " ++ quote p.name ++ " onFailure must not be " ++ quote targetJoin)
  | .continueOnError =>
    problemIf (p.onFailure ≠ "")
      ("parallel " ++ quote p.name ++ " failurePolicy " ++ quote p.failurePolicy.text ++
        " must not declare onFailure; the join always runs and owns the decision via the " ++
          "completeness record")
  | .unset =>
    ["parallel " ++ quote p.name ++
      " has no failurePolicy; declare one of fail_fast, all_or_nothing, continue_on_error " ++
        "(there is no default)"]
  | .other name =>
    ["parallel " ++ quote p.name ++ " failurePolicy " ++ quote name ++
      " is not one of fail_fast, all_or_nothing, continue_on_error"]

/-- No stage of a branch may have a longer timeout than the branch. -/
def branchTimeoutProblems (p : Parallel) : List String :=
  if 0 < p.branchTimeoutSeconds then
    p.branches.flatMap (fun b => (branchBody d b.start).flatMap (fun s =>
      match d.task s with
      | some t =>
        problemIf (0 < t.timeoutSeconds && p.branchTimeoutSeconds < t.timeoutSeconds)
          ("parallel " ++ quote p.name ++ " branch " ++ quote b.name ++ ": task " ++
            quote t.name ++ " timeoutSeconds " ++ toString t.timeoutSeconds ++
            " exceeds branchTimeoutSeconds " ++ toString p.branchTimeoutSeconds ++
            ", so the branch can never finish within its budget")
      | none => []))
  else []

def parallelShapeProblems (p : Parallel) : List String :=
  problemIf (p.branches.length < 2)
    ("parallel " ++ quote p.name ++ " declares " ++ toString p.branches.length ++
      " branches; a parallel needs at least 2 (use an ordinary task for one)") ++
  problemIf (maxParallelBranches < p.branches.length)
    ("parallel " ++ quote p.name ++ " declares " ++ toString p.branches.length ++
      " branches; the maximum is " ++ toString maxParallelBranches) ++
  branchDeclarationProblems d p [] p.branches ++
  problemIf (p.maxConcurrentBranches < 0)
    ("parallel " ++ quote p.name ++ " maxConcurrentBranches " ++
      toString p.maxConcurrentBranches ++ " is negative") ++
  parallelPolicyProblems d p ++
  problemIf (p.branchTimeoutSeconds < 0)
    ("parallel " ++ quote p.name ++ " branchTimeoutSeconds " ++
      toString p.branchTimeoutSeconds ++ " is negative") ++
  branchTimeoutProblems d p

/-! ## Branch bodies -/

def Task.effectiveWorkspace (t : Task) : WorkspaceMode :=
  match t.run with
  | some run => if run.workspace ≠ .unset then run.workspace else t.workspace
  | none => t.workspace

def Gate.effectiveWorkspace (g : Gate) : WorkspaceMode := g.agenticWorkspace.getD .unset

/-- A workspace that is not declared is a writable repository. -/
def branchEffectiveTaskWorkspace (t : Task) : WorkspaceMode :=
  if t.effectiveWorkspace ≠ .unset then t.effectiveWorkspace else .repo

def branchEffectiveGateWorkspace (g : Gate) : WorkspaceMode :=
  if g.effectiveWorkspace ≠ .unset then g.effectiveWorkspace else .repo

def v31DSLVersion : String := "3.1"

def branchStateProblems (p : Parallel) (b : Branch) (state : String) : List String :=
  let place := "parallel " ++ quote p.name ++ " branch " ++ quote b.name
  problemIf ((d.gate state).any (fun g => g.evaluator = .human))
    (place ++ ": gate " ++ quote state ++
      " is a human gate; human gates are not supported inside a branch (put it before the " ++
        "parallel or at the join)") ++
  (if d.dslVersion = v31DSLVersion && parallelHasChildStage d p then []
  else
    problemIf ((d.task state).any (fun t => branchEffectiveTaskWorkspace t = .repo))
      (place ++ ": task " ++ quote state ++
        " resolves to a writable repo workspace; branch stages must use scratch or " ++
          "repo-readonly (concurrent repo-backed branches collide on the run branch)") ++
    problemIf ((d.gate state).any (fun g =>
        g.evaluator = .agentic && branchEffectiveGateWorkspace g = .repo))
      (place ++ ": gate " ++ quote state ++
        " resolves to a writable repo workspace; branch stages must use scratch or " ++
          "repo-readonly (concurrent repo-backed branches collide on the run branch)"))

/-- What a state inside a branch may share with other branches and with its own fan-out. -/
def branchMemberProblems (p : Parallel) (owner : GoMap String BranchRef) (b : Branch)
    (state : String) : List String :=
  let place := "parallel " ++ quote p.name ++ " branch " ++ quote b.name
  (match owner.get? state with
    | some ref =>
      problemIf (ref.parallel ≠ p.name || ref.branch ≠ b.name)
        ("parallel " ++ quote p.name ++ ": state " ++ quote state ++
          " is reachable from both branch " ++ quote b.name ++ " and branch " ++
          quote ref.branch ++ " (of parallel " ++ quote ref.parallel ++
          "); branch subgraphs must be disjoint so every event belongs to exactly one branch")
    | none => []) ++
  problemIf (state = p.join)
    (place ++ " reaches the join state " ++ quote p.join ++
      " directly; a branch must end at " ++ quote targetJoin ++ " instead") ++
  problemIf (p.onFailure ≠ "" && state = p.onFailure)
    (place ++ " reaches its own onFailure state " ++ quote p.onFailure ++
      "; the failure route must be outside every branch") ++
  problemIf (state = p.name) (place ++ " routes back to the parallel itself") ++
  problemIf (d.parallel state).isSome
    (place ++ " contains parallel " ++ quote state ++ "; nested parallels are not supported") ++
  problemIf (d.map state).isSome
    (place ++ " contains map " ++ quote state ++
      "; a map may not be nested in a parallel branch") ++
  branchStateProblems d p b state

/-- The states of a branch that can reach a branch-terminal target. Completing the run is no
exit. -/
def branchExitSet (body : List String) : List String :=
  saturate (fun exits s => (d.outgoing s).any (fun t =>
    isReservedBranchTarget t || isReservedTarget t || (t ∈ body && t ∈ exits))) body []

def branchBodies (p : Parallel) (name : String) : List String :=
  match p.branches.reverse.find? (fun b => b.name = name && b.start ≠ "" && d.has b.start) with
  | some b => branchBody d b.start
  | none => []

def parallelBodyProblems (p : Parallel) (owner : GoMap String BranchRef) : List String :=
  p.branches.flatMap (fun b =>
    (branchBodies d p b.name).flatMap (branchMemberProblems d p owner b)) ++
  p.branches.flatMap (fun b =>
    let body := branchBodies d p b.name
    let exits := branchExitSet d body
    body.flatMap (fun s =>
      problemIf (s ∉ exits)
        ("parallel " ++ quote p.name ++ " branch " ++ quote b.name ++ ": state " ++ quote s ++
          " cannot reach " ++ quote targetJoin ++
          ", @abort, or @escalate (a branch may not complete the run)")))

def selectionProblems (p : Parallel) : List String :=
  let optional := (p.branches.filter Branch.isOptional).length
  if p.selection && optional = 0 then
    ["parallel " ++ quote p.name ++
      " declares selection but no optional branch; mark the branches the selection may skip " ++
        "optional: true"]
  else
    problemIf (!p.selection && 0 < optional)
      ("parallel " ++ quote p.name ++ " declares " ++ toString optional ++
        " optional branch(es) but no selection; an optional branch runs only when a selection " ++
          "names it")

/-! ## Maps -/

def mapPolicyProblems (f : Map) : List String :=
  match f.failurePolicy with
  | .failFast | .allOrNothing =>
    if f.onFailure = "" then
      ["map " ++ quote f.name ++ " failurePolicy " ++ quote f.failurePolicy.text ++
        " requires onFailure (a state name, @abort, or @escalate) so item failure is a defined " ++
          "branch, never a silent stop"]
    else if isReservedBranchTarget f.onFailure then
      ["map " ++ quote f.name ++ " onFailure must not be " ++ quote targetJoin]
    else if isStateName f.onFailure && !d.has f.onFailure then
      ["map " ++ quote f.name ++ " onFailure " ++ quote f.onFailure ++ " is not a defined state"]
    else
      problemIf (f.onFailure = f.task)
        ("map " ++ quote f.name ++ " onFailure " ++ quote f.onFailure ++
          " is its own mapped task")
  | .continueOnError =>
    problemIf (f.onFailure ≠ "")
      ("map " ++ quote f.name ++ " failurePolicy " ++ quote f.failurePolicy.text ++
        " must not declare onFailure; the join always runs and owns the decision via the " ++
          "completeness record")
  | .unset =>
    ["map " ++ quote f.name ++
      " has no failurePolicy; declare one of fail_fast, all_or_nothing, continue_on_error " ++
        "(there is no default)"]
  | .other name =>
    ["map " ++ quote f.name ++ " failurePolicy " ++ quote name ++
      " is not one of fail_fast, all_or_nothing, continue_on_error"]

def mapJoinProblems (f : Map) : List String :=
  if f.join = "" then ["map " ++ quote f.name ++ " has no join state"]
  else if !d.has f.join then
    ["map " ++ quote f.name ++ " join " ++ quote f.join ++ " is not a defined state"]
  else if isFanOutState d f.join then
    ["map " ++ quote f.name ++ " join " ++ quote f.join ++ " is itself a parallel or map"]
  else
    problemIf (f.join = f.task)
      ("map " ++ quote f.name ++ " join " ++ quote f.join ++ " is its own mapped task")

def mapShapeProblems (f : Map) : List String :=
  problemIf (containsDot f.name)
    ("map " ++ quote f.name ++
      " name must not contain '.'; dots are reserved for qualified references") ++
  mapPolicyProblems d f ++ mapJoinProblems d f ++
  problemIf (f.itemTimeoutSeconds < 0)
    ("map " ++ quote f.name ++ " itemTimeoutSeconds " ++ toString f.itemTimeoutSeconds ++
      " is negative") ++
  problemIf (f.maxConcurrent < 0 || (maxMapConcurrency : Int) < f.maxConcurrent)
    ("map " ++ quote f.name ++ " maxConcurrent " ++ toString f.maxConcurrent ++
      " is outside 1.." ++ toString maxMapConcurrency ++ " (omit it for sequential execution)")

/-- The states that enter the mapped task, apart from the map itself. -/
def mapTaskEntrySources (f : Map) : List String :=
  let sources := d.stateNames.filter (fun s =>
    let targets := d.outgoing s
    f.task ∈ (if s = f.name then targets.drop 1 else targets))
  sortStrings ((if d.start = f.task then ["spec.start"] else []) ++ sources)

def displayTarget (target : String) : String :=
  if target = terminalComplete then "<complete>" else target

def mapTaskProblems (f : Map) (taskOwner : GoMap String String)
    (branchOwner : GoMap String BranchRef) : List String :=
  match d.task f.task with
  | none =>
    if isFanOutState d f.task then
      ["map " ++ quote f.name ++ " task " ++ quote f.task ++
        " is a parallel or map; a map runs one task and nested fan-out is not supported"]
    else ["map " ++ quote f.name ++ " task " ++ quote f.task ++ " is not a defined task"]
  | some t =>
    let owner := (taskOwner.get? t.name).getD ""
    problemIf (owner ≠ f.name)
      ("map " ++ quote f.name ++ " task " ++ quote t.name ++ " is already owned by map " ++
        quote owner ++ "; a mapped task belongs to exactly one map") ++
    (match branchOwner.get? t.name with
      | some ref =>
        ["map " ++ quote f.name ++ " task " ++ quote t.name ++
          " is also reachable from parallel " ++ quote ref.parallel ++ " branch " ++
          quote ref.branch ++ "; a mapped task belongs to exactly one fan-out"]
      | none => []) ++
    (mapTaskEntrySources d f).map (fun source =>
      "map " ++ quote f.name ++ " task " ++ quote t.name ++ " is entered by " ++ quote source ++
        "; only its map may enter a mapped task") ++
    problemIf (t.next ≠ targetJoin && !isReservedTarget t.next)
      ("map " ++ quote f.name ++ " task " ++ quote t.name ++ " routes to " ++
        quote (displayTarget t.next) ++ "; a mapped task must end at " ++ quote targetJoin ++
        ", @abort, or @escalate") ++
    problemIf (branchEffectiveTaskWorkspace t = .repo)
      ("map " ++ quote f.name ++ " task " ++ quote t.name ++
        " resolves to a writable repo workspace; mapped tasks must use scratch or " ++
          "repo-readonly, even at maxConcurrent 1") ++
    problemIf t.childWorkflows
      ("map " ++ quote f.name ++ " task " ++ quote t.name ++
        " declares childWorkflows; a mapped task may not enable child tools") ++
    problemIf (0 < f.itemTimeoutSeconds && f.itemTimeoutSeconds < t.timeoutSeconds)
      ("map " ++ quote f.name ++ ": task " ++ quote t.name ++ " timeoutSeconds " ++
        toString t.timeoutSeconds ++ " exceeds itemTimeoutSeconds " ++
        toString f.itemTimeoutSeconds ++ ", so an item can never finish within its budget")

/-- Letters, digits, `_` and `-`, at least one and at most 128 of them. -/
def isBindingName (name : String) : Bool :=
  0 < name.toList.length && name.toList.length ≤ 128 &&
    name.toList.all (fun r => r.isAlphanum || r = '_' || r = '-')

def mapBindingProblems (f : Map) : List String :=
  (sortedKeys f.bindings).flatMap (fun name =>
    problemIf (!isBindingName name)
      ("map " ++ quote f.name ++ " binding " ++ quote name ++
        " is not a valid input name (letters, digits, '_' or '-', at most 128)") ++
    (match f.bindings.get? name with
      | some (.other value) =>
        ["map " ++ quote f.name ++ " binding " ++ quote name ++ " value " ++ quote value ++
          " is not one of item, identity, digest"]
      | _ => []) ++
    (match d.task f.task with
      | some t =>
        problemIf (t.inputs.get? name).isSome
          ("map " ++ quote f.name ++ " binding " ++ quote name ++
            " collides with static input " ++ quote name ++ " of task " ++ quote t.name) ++
        problemIf (t.inputsFrom.get? name).isSome
          ("map " ++ quote f.name ++ " binding " ++ quote name ++
            " collides with inputsFrom input " ++ quote name ++ " of task " ++ quote t.name)
      | none => []))

def mapProblems (branchOwner : GoMap String BranchRef) : List String :=
  d.maps.flatMap (fun f =>
    mapShapeProblems d f ++ mapTaskProblems d f (mapOwnership d) branchOwner ++
      mapBindingProblems d f)

/-! ## Joins -/

/-- The fan-out a state is the join of, the last one if there are several. -/
def joinOwner (state : String) : Option (String × String) :=
  match d.maps.reverse.find? (fun f => f.join ≠ "" && f.join = state) with
  | some f => some ("map", f.name)
  | none =>
    (d.parallels.reverse.find? (fun p => p.join ≠ "" && p.join = state)).map
      (fun p => ("parallel", p.name))

def joinEntryProblem (source target : String) : List String :=
  match joinOwner d target with
  | some (kind, name) =>
    [source ++ ", which is the join of " ++ kind ++ " " ++ quote name ++
      "; a join may only be entered through its " ++ kind]
  | none => []

/-- Without any declared join there is nothing to check, and the missing ones go unreported. -/
def joinEntryProblems : List String :=
  if d.parallels.all (fun p => p.join = "") && d.maps.all (fun f => f.join = "") then []
  else
    d.parallels.flatMap (fun p =>
      if p.join = "" then ["parallel " ++ quote p.name ++ " has no join state"]
      else
        problemIf (!d.has p.join)
          ("parallel " ++ quote p.name ++ " join " ++ quote p.join ++ " is not a defined state") ++
        problemIf (d.parallel p.join).isSome
          ("parallel " ++ quote p.name ++ " join " ++ quote p.join ++ " is itself a parallel")) ++
    d.tasks.flatMap (fun t =>
      joinEntryProblem d ("task " ++ quote t.name ++ " routes to " ++ quote t.next) t.next) ++
    d.gates.flatMap (fun g => (sortedKeys g.branches).flatMap (fun outcome =>
      let target := (g.branches.get? outcome).getD ""
      joinEntryProblem d
        ("gate " ++ quote g.name ++ " branch " ++ quote outcome ++ " routes to " ++ quote target)
        target)) ++
    (match joinOwner d d.start with
      | some (kind, name) =>
        ["start state " ++ quote d.start ++ " is the join of " ++ kind ++ " " ++ quote name ++
          "; a join may only be entered through its " ++ kind]
      | none => [])

def strayJoinProblems (owner : GoMap String BranchRef) : List String :=
  d.tasks.flatMap (fun t =>
    problemIf (isReservedBranchTarget t.next && !((mapOwnership d).get? t.name).isSome &&
        !(owner.get? t.name).isSome)
      ("task " ++ quote t.name ++ " routes to " ++ quote targetJoin ++
        " but is not inside a parallel branch")) ++
  d.gates.flatMap (fun g => (sortedKeys g.branches).flatMap (fun outcome =>
    problemIf (isReservedBranchTarget ((g.branches.get? outcome).getD "") &&
        !(owner.get? g.name).isSome)
      ("gate " ++ quote g.name ++ " branch " ++ quote outcome ++ " routes to " ++
        quote targetJoin ++ " but the gate is not inside a parallel branch")))

end

end Goobers.Workflow
