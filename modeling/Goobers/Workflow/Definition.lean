import Mathlib.Data.List.Sort
import Mathlib.Data.String.Basic
import Goobers.Lib.GoMap
import Goobers.Lib.Walk

/-!
# Workflow definitions and their state machine

A definition declares tasks, gates, parallels and maps under one space of state
names. A transition target is a state name or one of the reserved words: the empty
target completes the run, `@abort` and `@escalate` end it, and `@join` ends a branch
of a fan-out, after which the run goes on at the fan-out's join.

The compiled machine looks states up by name, the last declaration of a name
winning, and tasks before gates, parallels and maps.
-/

namespace Goobers.Workflow

open Lib

/-! ## Targets -/

def terminalComplete : String := ""

def targetAbort : String := "@abort"

def targetEscalate : String := "@escalate"

def targetJoin : String := "@join"

def isReservedTarget (target : String) : Bool := target = targetAbort || target = targetEscalate

def isReservedBranchTarget (target : String) : Bool := target = targetJoin

def isReservedAnyTarget (target : String) : Bool :=
  isReservedTarget target || isReservedBranchTarget target

/-- The target ends the run; `@join` does not. -/
def isTerminal (target : String) : Bool := target = terminalComplete || isReservedTarget target

def isStateName (target : String) : Bool := !isTerminal target && !isReservedBranchTarget target

/-! ## Declarations -/

inductive TaskType where
  | deterministic
  | agentic
  | other (name : String)
  deriving DecidableEq, Repr

/-- A declared integrity; the empty one is `unset`. -/
inductive Integrity where
  | unset
  | trusted
  | maintainer
  | unapproved
  | derived
  | other (name : String)
  deriving DecidableEq, Repr

inductive OnTimeout where
  | unset
  | fail
  | salvage
  | other (name : String)
  deriving DecidableEq, Repr

inductive WorkspaceMode where
  | unset
  | repo
  | scratch
  | repoReadOnly
  | other (name : String)
  deriving DecidableEq, Repr

inductive EvaluatorKind where
  | automated
  | agentic
  | human
  | other (name : String)
  deriving DecidableEq, Repr

inductive FailurePolicy where
  | unset
  | failFast
  | allOrNothing
  | continueOnError
  | other (name : String)
  deriving DecidableEq, Repr

inductive MapBinding where
  | item
  | identity
  | digest
  | other (name : String)
  deriving DecidableEq, Repr

structure DeterministicRun where
  /-- `none` where no command is declared, unlike an empty one. -/
  command : Option (List String) := none
  script : String := ""
  workspace : WorkspaceMode := .unset
  deriving DecidableEq, Repr

structure Task where
  name : String
  type : TaskType := .deterministic
  next : String := ""
  run : Option DeterministicRun := none
  workspace : WorkspaceMode := .unset
  inputs : GoMap String String := ∅
  inputsFrom : GoMap String String := ∅
  expectedOutputs : List String := []
  contextFrom : List String := []
  minimumIntegrity : Integrity := .unset
  onTimeout : OnTimeout := .unset
  timeoutSeconds : Int := 0
  /-- The task declares a child workflow policy. -/
  childWorkflows : Bool := false
  /-- The stages whose commits the task wants to find on the run branch. -/
  repoFrom : List String := []
  commitsRepo : Bool := false

structure Gate where
  name : String
  evaluator : EvaluatorKind := .automated
  /-- Of the agentic evaluator, `none` if the gate declares no such block. -/
  agenticWorkspace : Option WorkspaceMode := none
  branches : GoMap String String := ∅

structure Branch where
  name : String
  start : String
  isOptional : Bool := false
  deriving DecidableEq, Repr

/-- Branches that run side by side, and the state that joins them. -/
structure Parallel where
  name : String
  failurePolicy : FailurePolicy := .unset
  branches : List Branch := []
  join : String := ""
  onFailure : String := ""
  branchTimeoutSeconds : Int := 0
  maxConcurrentBranches : Int := 0
  /-- The parallel declares a selection. -/
  selection : Bool := false
  deriving DecidableEq, Repr

/-- A task run once for each item of a roster. -/
structure Map where
  name : String
  task : String
  bindings : GoMap String MapBinding := ∅
  failurePolicy : FailurePolicy := .unset
  join : String := ""
  onFailure : String := ""
  itemTimeoutSeconds : Int := 0
  maxConcurrent : Int := 0

/-- A workflow as it is declared. -/
structure Definition where
  name : String := ""
  dslVersion : String := "3.0"
  start : String := ""
  tasks : List Task := []
  gates : List Gate := []
  parallels : List Parallel := []
  maps : List Map := []

def sortStrings (l : List String) : List String := l.insertionSort (fun a b => a ≤ b)

@[simp] theorem mem_sortStrings {l : List String} {s : String} : s ∈ sortStrings l ↔ s ∈ l :=
  List.mem_insertionSort _

@[simp] theorem sortStrings_eq_nil_iff {l : List String} : sortStrings l = [] ↔ l = [] := by
  have hlength : (sortStrings l).length = l.length := (List.perm_insertionSort _ l).length_eq
  rw [← List.length_eq_zero_iff, hlength, List.length_eq_zero_iff]

def sortedKeys {ν : Type} (m : GoMap String ν) : List String := sortStrings (m.rows.map Prod.fst)

/-! ## The machine -/

namespace Definition

variable (d : Definition)

/-- The last declaration of a name. -/
def task (name : String) : Option Task := d.tasks.reverse.find? (fun t => t.name = name)

def gate (name : String) : Option Gate := d.gates.reverse.find? (fun g => g.name = name)

def parallel (name : String) : Option Parallel :=
  d.parallels.reverse.find? (fun p => p.name = name)

def map (name : String) : Option Map := d.maps.reverse.find? (fun f => f.name = name)

def has (name : String) : Bool :=
  (d.task name).isSome || (d.gate name).isSome || (d.parallel name).isSome ||
    (d.map name).isSome

/-- All state names, in the order of their kinds. -/
def stateNames : List String :=
  d.tasks.map Task.name ++ d.gates.map Gate.name ++ d.parallels.map Parallel.name ++
    d.maps.map Map.name

end Definition

def Gate.targets (g : Gate) : List String :=
  (sortedKeys g.branches).filterMap g.branches.get?

def failureTargets (onFailure : String) : List String :=
  if onFailure ≠ "" then [onFailure] else []

theorem mem_failureTargets {onFailure : String} (h : onFailure ≠ "") :
    onFailure ∈ failureTargets onFailure := by
  unfold failureTargets
  rw [if_pos h]
  exact List.mem_singleton_self _

def Parallel.targets (p : Parallel) : List String :=
  p.branches.map Branch.start ++ [p.join] ++ failureTargets p.onFailure

def Map.targets (f : Map) : List String := [f.task, f.join] ++ failureTargets f.onFailure

/-- The transition targets of a state: all the run may be at next because of it. -/
def Definition.outgoing (d : Definition) (state : String) : List String :=
  match d.task state with
  | some t => [t.next]
  | none =>
    match d.gate state with
    | some g => g.targets
    | none =>
      match d.parallel state with
      | some p => p.targets
      | none =>
        match d.map state with
        | some f => f.targets
        | none => []

def isFanOutState (d : Definition) (name : String) : Bool :=
  (d.parallel name).isSome || (d.map name).isSome

/-! ## Branch bodies and their owners -/

section
variable (d : Definition)

/-- The states a branch that begins at `start` goes through, without those after its exits. -/
def branchBody (start : String) : List String :=
  sortStrings (walk d.stateNames d.outgoing
    (fun s => s = terminalComplete || isReservedAnyTarget s || !d.has s) [] [start])

def joinTerminalStates (start : String) : List String :=
  (branchBody d start).filter (fun s => targetJoin ∈ d.outgoing s)

structure BranchRef where
  parallel : String
  branch : String
  deriving DecidableEq, Repr

/-- Each state of a branch body goes to the first branch that reaches it. -/
def branchOwnership : GoMap String BranchRef :=
  let refs := d.parallels.flatMap (fun p => p.branches.flatMap (fun b =>
    (branchBody d b.start).map (fun s => (s, (⟨p.name, b.name⟩ : BranchRef)))))
  refs.foldl (fun owner row =>
    if (owner.get? row.1).isSome then owner else owner.put row.1 row.2) ∅

/-- Each mapped task goes to the first map that names it. -/
def mapOwnership : GoMap String String :=
  d.maps.foldl (fun owner f =>
    if (owner.get? f.task).isNone ∧ f.task ≠ "" then owner.put f.task f.name else owner) ∅

def parallelHasChildStage (p : Parallel) : Bool :=
  let visited := walk d.stateNames d.outgoing
    (fun s => s = "" || s = p.join || isReservedAnyTarget s) [] (p.branches.map Branch.start)
  visited.any (fun s => (d.task s).any Task.childWorkflows)

def precedesBranchJoinOnEveryPath (start producer : String) : Bool :=
  start = producer ||
    !walkFinds d.stateNames d.outgoing (fun s => s = producer) (fun s => s = targetJoin)
      (fun s => s = terminalComplete || isReservedAnyTarget s || !d.has s) [] [start]

end

end Goobers.Workflow
