import Mathlib.Data.List.Sort
import Goobers.Journal.Event

/-!
# What the log says about a run

The event log is the source of truth; `state.json` is derived from it. These are
the scans that rebuild the derived part: the lifecycle phase, the reason of a
terminal run, the resume that is still in force, and the per-branch cursors.

The source walks the events by index from the newest to the oldest. Here a
backward scan is a recursion over the events *newest first*, and the function
under the source's name applies it to the reversed log.
-/

namespace Goobers.Journal

/-! ## Phase -/

/--
Whether the runner executed the gate whose evaluation was just passed, given the
events before that evaluation, newest first. Only records of the evaluation's own
branch count; a pause of this gate that no `gate.started` follows is a decision
still pending.
-/
def terminalGateExecuted (gateName : String) (branch : Int) : List Event → Bool
  | [] => true
  | ev :: older =>
    if ev.branch ≠ branch then terminalGateExecuted gateName branch older
    else if ev.gate ≠ gateName then
      if ev.type = .gatePaused ∨ ev.type = .gateStarted then
        terminalGateExecuted gateName branch older
      else true
    else
      match ev.type with
      | .gateStarted => true
      | .gatePaused => false
      | .gateEvaluated => true
      | _ => terminalGateExecuted gateName branch older

/-- The loop of `reconstructPhase`, over the events newest first. -/
def phaseNewestFirst : List Event → RunPhase
  | [] => .running
  | ev :: older =>
    match ev.type with
    | .stageRerunRequested | .runResumed | .gateOverridden => .running
    | .runFinished => phaseFromStatus ev.status
    | .gateEvaluated =>
      match phaseFromTerminalTarget ev.target with
      | some phase =>
        if terminalGateExecuted ev.gate ev.branch older then phase else .running
      | none => phaseNewestFirst older
    | _ => phaseNewestFirst older

def reconstructPhase (events : List Event) : RunPhase := phaseNewestFirst events.reverse

/-! ## Reason and resume -/

/-- The message of a `run.finished` event, empty if it carries no error. -/
def Event.errorMessage (ev : Event) : String :=
  match ev.error with
  | some detail => detail.message
  | none => ""

/-- The loop of `reconstructReason`, over the events newest first. -/
def reasonNewestFirst : List Event → String
  | [] => ""
  | ev :: older =>
    match ev.type with
    | .stageRerunRequested | .runResumed | .gateOverridden => ""
    | .runFinished => ev.errorMessage
    | _ => reasonNewestFirst older

def reconstructReason (events : List Event) : String := reasonNewestFirst events.reverse

/-- The loop of `latestActiveResume`, over the events newest first. -/
def resumeNewestFirst : List Event → Option Event
  | [] => none
  | ev :: older =>
    match ev.type with
    | .runResumed | .gateOverridden => some ev
    | .runFinished => none
    | _ => resumeNewestFirst older

def latestActiveResume (events : List Event) : Option Event := resumeNewestFirst events.reverse

/-! ## Branch cursors -/

/-- A per-branch resume position. -/
structure BranchCursor where
  branch : Int
  name : String
  parallel : String
  itemIdentity : String
  itemDigest : String
  machineState : String
  status : String
  deriving DecidableEq, Repr

structure OpenFanOut where
  parallel : String := ""
  finish : EventType := .parallelFinished
  deriving DecidableEq, Repr

/-- A finish closes only the start of the same construct. -/
def OpenFanOut.step (o : OpenFanOut) (e : Event) : OpenFanOut :=
  match e.type with
  | .parallelStarted => ⟨e.parallel, .parallelFinished⟩
  | .mapStarted => ⟨e.parallel, .mapFinished⟩
  | .parallelFinished | .mapFinished =>
    if e.type = o.finish ∧ e.parallel = o.parallel then { o with parallel := "" } else o
  | _ => o

def updateCursor (cursors : List BranchCursor) (branch : Int) (f : BranchCursor → BranchCursor) :
    List BranchCursor :=
  cursors.map (fun c => if c.branch = branch then f c else c)

def cursorStep (openParallel : String) (cursors : List BranchCursor) (e : Event) :
    List BranchCursor :=
  if e.parallel ≠ openParallel ∧ e.branch = 0 then cursors
  else
    match e.type with
    | .branchStarted =>
      if e.parallel ≠ openParallel then cursors
      else
        let cursor : BranchCursor :=
          { branch := e.branch, name := e.branchName, parallel := e.parallel,
            itemIdentity := e.mapItemIdentity, itemDigest := e.mapItemDigest,
            machineState := e.stage, status := "" }
        if cursors.any (fun c => c.branch = e.branch) then
          updateCursor cursors e.branch (fun _ => cursor)
        else cursors ++ [cursor]
    | .branchFinished =>
      if e.parallel ≠ openParallel then cursors
      else updateCursor cursors e.branch
        (fun c => { c with status := e.branchStatus, machineState := "" })
    | .stageStarted | .gateEvaluated =>
      updateCursor cursors e.branch (fun c =>
        if c.status ≠ "" then c
        else if e.stage ≠ "" then { c with machineState := e.stage }
        else if e.gate ≠ "" then { c with machineState := e.gate }
        else c)
    | _ => cursors

def reconstructBranchCursors (events : List Event) : Option (List BranchCursor) :=
  let openParallel := (events.foldl OpenFanOut.step {}).parallel
  if openParallel = "" then none
  else
    let cursors := events.foldl (cursorStep openParallel) []
    if cursors = [] then none
    else some (cursors.insertionSort (fun a b => a.branch ≤ b.branch))

end Goobers.Journal
