import Goobers.Workflow.FanOut

/-!
# Compiling a definition

`compile` puts the checks together. It accepts a definition if none of them has found
a problem, and the error of a definition it refuses names them all.

The checks that look at other parts of a definition (features, schedules, triggers,
admission, placement, repository handoff, gate vocabularies, workspaces) are
independent of the state machine; what they report is an input here.
-/

namespace Goobers.Workflow

open Lib

/-! ## Branch-qualified inputs -/

/-- The pieces between separators, at most `n` of them; the last takes the rest. -/
def splitN (sep : Char) : Nat → List Char → List (List Char)
  | 0, _ => []
  | 1, cs => [cs]
  | n + 2, cs =>
    match cs.span (fun r => r ≠ sep) with
    | (piece, []) => [piece]
    | (piece, _ :: rest) => piece :: splitN sep (n + 1) rest

structure BranchInputReference where
  parallel : String
  branch : String
  stage : String := ""
  key : String
  shorthand : Bool := false
  deriving DecidableEq, Repr

/-- `<parallel>.<branch>.<stage>.<key>`, or without the stage. -/
def splitBranchInputReference (value : String) : Option BranchInputReference :=
  match (splitN '.' 4 value.toList).map String.ofList with
  | [parallel, branch, key] =>
    if parallel = "" ∨ branch = "" ∨ key = "" then none
    else some { parallel := parallel, branch := branch, key := key, shorthand := true }
  | [parallel, branch, stage, key] =>
    if parallel = "" ∨ branch = "" ∨ stage = "" ∨ key = "" then none
    else some { parallel := parallel, branch := branch, stage := stage, key := key }
  | _ => none

section
variable (d : Definition)

/-- The check of a reference to a stage of one of the join's own branches. -/
def branchStageProblems (t : Task) (inputKey : String) (b : Branch) (ref : BranchInputReference)
    (stage : String) : List String :=
  let place := "task " ++ quote t.name ++ " inputsFrom " ++ quote inputKey
  let branchPlace := "parallel " ++ quote ref.parallel ++ " branch " ++ quote ref.branch
  if stage ∉ branchBody d b.start then
    [place ++ " references unknown stage " ++ quote stage ++ " in " ++ branchPlace]
  else
    match d.task stage with
    | none =>
      [place ++ " references stage " ++ quote stage ++ " in " ++ branchPlace ++
        ", but it is not a task and produces no outputs"]
    | some producer =>
      problemIf (!precedesBranchJoinOnEveryPath d b.start stage)
        (place ++ " references stage " ++ quote stage ++ " in " ++ branchPlace ++
          ", but that stage does not run on every successful path to @join") ++
      problemIf (!producer.expectedOutputs.isEmpty && ref.key ∉ producer.expectedOutputs)
        (place ++ " references output " ++ quote ref.key ++ " from " ++ branchPlace ++
          " stage " ++ quote stage ++ ", but that stage declares outputs " ++
          bracketed producer.expectedOutputs)

/-- The check of a reference at the join it names. -/
def joinReferenceProblems (t : Task) (inputKey : String) (join : Parallel)
    (ref : BranchInputReference) : List String :=
  let place := "task " ++ quote t.name ++ " inputsFrom " ++ quote inputKey
  match join.branches.find? (fun b => b.name = ref.branch) with
  | none =>
    [place ++ " references unknown branch " ++ quote ref.branch ++ " of parallel " ++
      quote ref.parallel]
  | some b =>
    if ref.shorthand then
      match joinTerminalStates d b.start with
      | [stage] => branchStageProblems d t inputKey b ref stage
      | terminals =>
        ["parallel " ++ quote join.name ++ " branch has " ++ toString terminals.length ++
          " join-terminal stages, qualify the stage (branch " ++ quote b.name ++ ", task " ++
          quote t.name ++ " inputsFrom " ++ quote inputKey ++ ")"]
    else branchStageProblems d t inputKey b ref ref.stage

def branchInputProblems (t : Task) (inputKey value : String) : List String :=
  let place := "task " ++ quote t.name ++ " inputsFrom " ++ quote inputKey
  let join := d.parallels.reverse.find? (fun p => p.join = t.name)
  match splitBranchInputReference value with
  | none =>
    problemIf (join.isSome && 2 ≤ value.toList.count '.')
      (place ++ " has malformed branch-qualified reference " ++ quote value ++
        "; use <parallel>.<branch>.<stage>.<outputKey>")
  | some ref =>
    -- a reference that begins with a task's name is qualified by that stage
    if (d.task ref.parallel).isSome then []
    else
      match join with
      | none =>
        problemIf (d.parallel ref.parallel).isSome
          (place ++ " uses branch-qualified reference " ++ quote value ++
            " but is not a parallel join")
      | some join =>
        if !(d.parallel ref.parallel).isSome then
          [place ++ " references unknown parallel " ++ quote ref.parallel]
        else if ref.parallel ≠ join.name then
          ["task " ++ quote t.name ++ " is the join of parallel " ++ quote join.name ++
            " but inputsFrom " ++ quote inputKey ++ " references parallel " ++
            quote ref.parallel]
        else joinReferenceProblems d t inputKey join ref

def branchInputsFromProblems : List String :=
  d.tasks.flatMap (fun t => (sortedKeys t.inputsFrom).flatMap (fun inputKey =>
    branchInputProblems d t inputKey ((t.inputsFrom.get? inputKey).getD "")))

def parallelProblems : List String :=
  if d.parallels.isEmpty && d.maps.isEmpty then []
  else
    let owner := branchOwnership d
    sortStrings (d.parallels.flatMap (fun p =>
        parallelShapeProblems d p ++ parallelBodyProblems d p owner ++ selectionProblems p) ++
      mapProblems d owner ++ joinEntryProblems d ++ strayJoinProblems d owner ++
      branchInputsFromProblems d)

/-! ## The other checks -/

/-- Spaces as `strings.TrimSpace` takes them, in ASCII. -/
def isBlank (s : String) : Bool :=
  s.toList.all (fun r => r = ' ' || r = '\t' || r = '\n' || r.toNat = 0x0B ||
    r.toNat = 0x0C || r = '\r')

def runScriptProblems : List String :=
  d.tasks.flatMap (fun t =>
    match t.run with
    | none => []
    | some run =>
      problemIf (run.command.isSome && run.script ≠ "")
        ("task " ++ quote t.name ++ ": run.command and run.script are mutually exclusive") ++
      (match run.command with
        | some (executable :: _) =>
          problemIf (isBlank executable)
            ("task " ++ quote t.name ++
              ": run.command[0] must name a non-whitespace executable, got " ++
              quote executable)
        | _ => []))

def dottedStateNameProblems : List String :=
  d.tasks.flatMap (fun t =>
    problemIf (containsDot t.name)
      ("task name " ++ quote t.name ++
        " contains a dot; state names must not, so a qualified inputsFrom reference stays " ++
          "unambiguous")) ++
  d.gates.flatMap (fun g =>
    problemIf (containsDot g.name)
      ("gate name " ++ quote g.name ++
        " contains a dot; state names must not, so a qualified inputsFrom reference stays " ++
          "unambiguous")) ++
  d.parallels.flatMap (fun p =>
    problemIf (containsDot p.name)
      ("parallel name " ++ quote p.name ++
        " contains a dot; parallel names must not, so a branch-qualified inputsFrom reference " ++
          "stays unambiguous") ++
    p.branches.flatMap (fun b =>
      problemIf (containsDot b.name)
        ("parallel " ++ quote p.name ++ " branch name " ++ quote b.name ++
          " contains a dot; branch names must not, so a branch-qualified inputsFrom reference " ++
            "stays unambiguous")))

end

/-- What the checks of other parts of a definition report for it. -/
structure OtherProblems where
  feature : List String := []
  gooberFeature : List String := []
  schedule : List String := []
  gateOutcome : List String := []
  triggerField : List String := []
  admission : List String := []
  removedSurface : List String := []
  runsOn : List String := []
  osToken : List String := []
  restriction : List String := []
  gateRunsOn : List String := []
  repoHandoff : List String := []
  gateVocab : List String := []
  gateParam : List String := []
  workspace : List String := []
  claimLedgerPlacement : List String := []
  deriving DecidableEq, Repr

/-- What keeps the graph from being walked at all. -/
def earlyProblems (other : OtherProblems) (d : Definition) : List String :=
  [other.feature, runScriptProblems d, other.gooberFeature, structuralProblems d].flatten

/-- All problems, in the order they are reported. -/
def compileProblems (other : OtherProblems) (d : Definition) : List String :=
  [earlyProblems other d,
   if (earlyProblems other d).isEmpty then reachabilityProblems d else [],
   other.schedule, other.gateOutcome, other.triggerField, other.admission, other.removedSurface,
   other.runsOn, other.osToken, other.restriction, other.gateRunsOn, other.repoHandoff,
   other.gateVocab, other.gateParam, other.workspace, dottedStateNameProblems d,
   parallelProblems d, other.claimLedgerPlacement].flatten

/-- The definition is its machine: states are looked up by name in it. -/
def compile (other : OtherProblems) (d : Definition) : Except String Definition :=
  match compileProblems other d with
  | [] => .ok d
  | problems =>
    .error ("invalid workflow " ++ quote d.name ++ ": " ++ "; ".intercalate problems)

/-! ## What acceptance says -/

/-- The checks of the state machine have all passed. -/
structure Accepted (d : Definition) : Prop where
  structural : structuralProblems d = []
  reachability : reachabilityProblems d = []
  parallel : parallelProblems d = []

/-- What `compile` returns is the definition itself, with no problem found. -/
theorem accepted_of_compile {other : OtherProblems} {d m : Definition}
    (h : compile other d = .ok m) : m = d ∧ Accepted d := by
  unfold compile at h
  split at h
  · rename_i hnil
    cases h
    refine ⟨rfl, ?_⟩
    unfold compileProblems at hnil
    rw [List.flatten_eq_nil_iff] at hnil
    have hearly : earlyProblems other d = [] := hnil _ (by simp)
    have hreach := hnil (if (earlyProblems other d).isEmpty then reachabilityProblems d else [])
      (by simp)
    rw [hearly, List.isEmpty_nil] at hreach
    unfold earlyProblems at hearly
    rw [List.flatten_eq_nil_iff] at hearly
    exact ⟨hearly _ (by simp), hreach, hnil _ (by simp)⟩
  · cases h

end Goobers.Workflow
