import Mathlib.Data.List.Dedup
import Goobers.Lib.MemoWalk
import Goobers.Lib.Trim
import Goobers.Workflow.Compile

/-!
# Path simulation

The check walks the machine one gate outcome and one parallel branch at a time and carries along
what the last task is known to produce. A task that reads a bare output which that task does not
produce is a broken handoff; it is reported once, with the first path that shows it.

A set of output keys is the sorted list of its members, so equal sets are equal lists.
-/

namespace Goobers.Workflow

open Lib

/-! ## References and outputs -/

/-- `<stage>.<key>`, cut at the first dot. -/
def splitQualifiedRef (value : String) : Option (String × String) :=
  match (splitN '.' 2 value.toList).map String.ofList with
  | [stage, key] => if stage = "" ∨ key = "" then none else some (stage, key)
  | _ => none

/-- The value names an output of a declared parallel or task, and is not a bare key. -/
def isQualifiedInputReference (d : Definition) (value : String) : Bool :=
  (splitBranchInputReference value).any (fun ref => (d.parallel ref.parallel).isSome) ||
    (splitQualifiedRef value).any (fun ref => (d.task ref.1).isSome)

/-- An input that is not declared reads as the empty text. -/
def Task.input (t : Task) (key : String) : String := trimSpace ((t.inputs.get? key).getD "")

def isShellStage (t : Task) : Bool :=
  t.type = .deterministic && t.run.isSome && (t.input "kind" = "" || t.input "kind" = "shell")

/-- What the task emits: `none` is unknown. A shell stage without a result file emits nothing. -/
def taskProducedOutputs (t : Task) : Option (List String) :=
  if t.expectedOutputs.isEmpty then none
  else if isShellStage t && t.input "resultFile" = "" then some []
  else some (sortStrings t.expectedOutputs.dedup)

def liveOutputsSignature : Option (List String) → String
  | none => "?"
  | some keys => ",".intercalate keys

/-! ## Frames -/

/-- The state about to be entered and what is known of the outputs there. -/
structure Arrival where
  state : String
  live : Option (List String) := none
  deriving DecidableEq, Repr

/-- An arrival with what a message says about the way to it. -/
structure PathSimulationFrame extends Arrival where
  lastTask : String := ""
  path : List String := []
  deriving DecidableEq, Repr

/-- What the walk remembers of an arrival. -/
def Arrival.visitKey (a : Arrival) : String := a.state ++ "\x00" ++ liveOutputsSignature a.live

/-- What the walk remembers of a report. -/
def reportKey (task input : String) : String := task ++ "\x00" ++ input

structure HandoffProblem where
  task : String
  input : String
  output : String
  path : List String
  lastTask : String
  produced : List String
  deriving DecidableEq, Repr

def HandoffProblem.text (p : HandoffProblem) : String :=
  "task " ++ quote p.task ++ " reads inputsFrom " ++ quote p.input ++ " from upstream output " ++
    quote p.output ++ ", unresolvable on path " ++ " -> ".intercalate p.path ++
    ": the immediately preceding task on this path is " ++ quote p.lastTask ++
    ", which produces " ++ bracketed p.produced ++ " and not " ++ quote p.output

structure PathReports where
  reported : List String := []
  problems : List HandoffProblem := []
  deriving DecidableEq, Repr

section
variable (d : Definition)

def reportInput (t : Task) (f : PathSimulationFrame) (r : PathReports) (inputKey : String) :
    PathReports :=
  let outputKey := (t.inputsFrom.get? inputKey).getD ""
  if isQualifiedInputReference d outputKey then r
  else
    match f.live with
    | none => r
    | some live =>
      if outputKey ∈ live then r
      else if reportKey f.state inputKey ∈ r.reported then r
      else
        { reported := reportKey f.state inputKey :: r.reported
          problems := r.problems ++ [{ task := f.state, input := inputKey, output := outputKey
                                       path := f.path ++ [f.state], lastTask := f.lastTask
                                       produced := live }] }

def reportFrame (f : PathSimulationFrame) (r : PathReports) : PathReports :=
  match d.task f.state with
  | some t => (sortedKeys t.inputsFrom).foldl (reportInput d t f) r
  | none => r

/-- The frames that a frame leads to. A map state is none of the three kinds the walk knows. -/
def nextFrames (f : PathSimulationFrame) : List PathSimulationFrame :=
  match d.task f.state with
  | some t =>
    [{ state := t.next, live := taskProducedOutputs t, lastTask := f.state
       path := f.path ++ [f.state] }]
  | none =>
    match d.gate f.state with
    | some g =>
      (sortedKeys g.branches).filterMap (fun outcome => (g.branches.get? outcome).map (fun target =>
        { f with state := target, path := f.path ++ [f.state ++ ":" ++ outcome] }))
    | none =>
      match d.parallel f.state with
      | some p =>
        p.branches.map (fun b =>
          { f with state := b.start, path := f.path ++ [f.state ++ ":" ++ b.name] }) ++
        -- what is live after the join depends on the branches, so nothing is known there
        [{ state := p.join, live := none, lastTask := f.state
           path := f.path ++ [f.state ++ ":@join"] }] ++
        (failureTargets p.onFailure).map (fun target =>
          { state := target, live := none, lastTask := f.state
            path := f.path ++ [f.state ++ ":@onFailure"] })
      | none => []

def maxPathSimulationExpansions : Nat := 20000

def pathSearch : MemoSearch PathSimulationFrame String PathReports where
  key := fun f => f.visitKey
  stop := fun f => isTerminal f.state
  next := nextFrames d
  visit := reportFrame d
  bound := maxPathSimulationExpansions

def pathSimulation : Memo String PathReports := (pathSearch d).run { state := d.start } {}

def pathSimulationProblems : List String :=
  sortStrings ((pathSimulation d).out.problems.map HandoffProblem.text) ++
    problemIf (pathSimulation d).bounded
      ("path simulation exceeded " ++ toString maxPathSimulationExpansions ++
        " visited (state, output-knowledge) combinations for workflow " ++ quote d.name ++
        "; coverage may be incomplete")

def checkPathSimulation : List String :=
  if structuralProblems d ≠ [] then [] else pathSimulationProblems d

end

/-! ## Walks -/

section
variable (d : Definition)

/--
The arrivals that an arrival leads to, in the machine's order of kinds. The routes out of a map
are those of a parallel, with nothing known of the outputs; `throughMaps` says whether they count.
-/
def Arrival.next (throughMaps : Bool) (a : Arrival) : List Arrival :=
  match d.task a.state with
  | some t => [⟨t.next, taskProducedOutputs t⟩]
  | none =>
    match d.gate a.state with
    | some g => g.targets.map (fun target => ⟨target, a.live⟩)
    | none =>
      match d.parallel a.state with
      | some p =>
        p.branches.map (fun b => ⟨b.start, a.live⟩) ++ [⟨p.join, none⟩] ++
          (failureTargets p.onFailure).map (fun target => ⟨target, none⟩)
      | none =>
        match d.map a.state with
        | some f =>
          if throughMaps then
            ⟨f.join, none⟩ :: (failureTargets f.onFailure).map (fun target => ⟨target, none⟩)
          else []
        | none => []

def WalksTo (throughMaps : Bool) (a b : Arrival) : Prop :=
  ¬ isTerminal a.state = true ∧ b ∈ a.next d throughMaps

def Arrives (throughMaps : Bool) (a : Arrival) : Prop :=
  Relation.ReflTransGen (WalksTo d throughMaps) ⟨d.start, none⟩ a

/-- The task that is entered reads a bare key that is known not to be produced. -/
def BreaksAt (a : Arrival) (input : String) : Prop :=
  ∃ t live output, d.task a.state = some t ∧ a.live = some live ∧
    t.inputsFrom.get? input = some output ∧ isQualifiedInputReference d output = false ∧
    output ∉ live

def Breaks (throughMaps : Bool) (task input : String) : Prop :=
  ∃ a : Arrival, Arrives d throughMaps a ∧ isTerminal a.state = false ∧ a.state = task ∧
    BreaksAt d a input

def ReportsHandoff (task input : String) : Prop :=
  ∃ p : HandoffProblem, p.task = task ∧ p.input = input ∧ p ∈ (pathSimulation d).out.problems ∧
    p.text ∈ checkPathSimulation d

end

end Goobers.Workflow
