import Goobers.Journal.EventLog
import Goobers.Journal.Phase

/-!
# The run handle

A run directory is the event log and the checkpoint derived from it. A live
handle carries the sequence counter, the flag that blocks appends after a
failure, and the lifecycle state it writes into the next checkpoint.

The last section puts the pieces together: one directory, at most one live
handle (the run lock admits no second one), and what can happen to them.
-/

namespace Goobers.Journal

open Lib

/-- The checkpoint in `state.json`. -/
structure State where
  phase : RunPhase
  machineState : String
  branches : List BranchCursor
  reason : String
  lastSeq : Nat
  deriving DecidableEq, Repr

/-- A run directory. An absent or unreadable checkpoint is `none`. -/
structure RunDir where
  log : LogFile := {}
  state : Option State := none
  deriving DecidableEq, Repr

/-- A live handle. -/
structure Run where
  seq : Nat := 0
  /-- An append failed and the boundary was not repaired since. -/
  appendErr : Bool := false
  branch : Int := 0
  phase : RunPhase := .running
  machineState : String := ""
  branches : List BranchCursor := []
  reason : String := ""
  deriving DecidableEq, Repr

/-! ## Appending -/

/-- One minute, in nanoseconds. -/
def agentProgressRateLimitWindow : Int := 60 * 1000000000

def agentProgressRateLimitMax : Nat := 32

def sameAgentProgressAttempt (left right : AgentProgress) : Bool :=
  left.agentID = right.agentID ∧ left.runID = right.runID ∧ left.stage = right.stage ∧
    left.attempt = right.attempt

/--
`validateAgentProgressRate` refuses: the window already holds the maximum for
this agent attempt. The newest-pod filter it applies first drops only lifecycle
records, which the count never looks at.
-/
def progressRateExceeded (events : List Event) (progress : AgentProgress) (observedAt : Int) :
    Bool :=
  let windowStart := observedAt - agentProgressRateLimitWindow
  let counted := events.filter (fun ev =>
    ev.type = .agentProgress ∧ ev.progress.any (sameAgentProgressAttempt · progress) ∧
      ¬ ev.time < windowStart)
  agentProgressRateLimitMax ≤ counted.length

/-- The refusals `Run.append` makes before it stamps anything. -/
def Run.refusal (c : TextLayer) (r : Run) (now : Int) (f : LogFile) (ev : Event) :
    Option AppendError :=
  if r.appendErr then some .blocked
  else
    match ev.type, ev.progress with
    | .agentProgress, some progress =>
      match readEvents c.unmarshal f.data with
      | .error e => some (.read e)
      | .ok (events, _) =>
        if progressRateExceeded events progress now then some .rateLimited else none
    | _, _ => none

/-- The lock-held core of every append. Any failure past the refusals blocks the handle. -/
def Run.append (c : TextLayer) (io : WriteOutcome) (now : Int) (r : Run) (f : LogFile)
    (ev : Event) :
    Run × LogFile × Except AppendError Unit :=
  match r.refusal c now f ev with
  | some e => (r, f, .error e)
  | none =>
    let ev := if ev.branch = 0 then { ev with branch := r.branch } else ev
    match appendEvent c io now f r.seq ev with
    | (f', seq', .error e) => ({ r with seq := seq', appendErr := true }, f', .error e)
    | (f', seq', .ok _) => ({ r with seq := seq' }, f', .ok ())

/-- The event `Append` writes for `ev`: attributed to the handle's branch and stamped. -/
def Run.stamped (r : Run) (now : Int) (ev : Event) : Event :=
  stampEvent (r.seq + 1) now (if ev.branch = 0 then { ev with branch := r.branch } else ev)

def Run.applyLifecycle (r : Run) (ev : Event) : Run :=
  match ev.type with
  | .runResumed | .gateOverridden =>
    { r with phase := .running, machineState := ev.target, reason := "" }
  | .runFinished =>
    { r with phase := phaseFromStatus ev.status, machineState := "", reason := ev.errorMessage }
  | .stageRerunRequested =>
    { r with phase := .running, machineState := ev.stage, reason := "" }
  | _ => r

def Run.checkpoint (r : Run) : State :=
  { phase := r.phase, machineState := r.machineState, branches := r.branches,
    reason := r.reason, lastSeq := r.seq }

def Run.appendPrepared (c : TextLayer) (io : WriteOutcome) (now : Int) (r : Run) (d : RunDir)
    (ev : Event) : Run × RunDir × Except AppendError Unit :=
  match r.append c io now d.log ev with
  | (r', log, .error e) => (r', { d with log := log }, .error e)
  | (r', log, .ok ()) =>
    let r' := r'.applyLifecycle ev
    (r', { log := log, state := some r'.checkpoint }, .ok ())

/-! ## Repair and recovery -/

/-- The corrective event a repair leaves behind. -/
def repairedEvent (tornBytes : Nat) : Event :=
  { type := .repaired, runner := [("discardedBytes", .num tornBytes)] }

def Run.repairAppendBoundary (c : TextLayer) (io : WriteOutcome) (now : Int) (r : Run)
    (f : LogFile) : Run × LogFile × Except AppendError Unit :=
  match readEvents c.unmarshal f.data with
  | .error e => (r, f, .error (.read e))
  | .ok (events, tornBytes) =>
    let f := truncateTornTail f tornBytes
    let r := { r with seq := highestEventSeq events, appendErr := false }
    if tornBytes = 0 then (r, f, .ok ())
    else r.append c io now f (repairedEvent tornBytes)

/-- The branch cursors of a recovered run: where log and checkpoint disagree, the log wins. -/
def healBranches (events : List Event) (branches : List BranchCursor) :
    List BranchCursor × Bool :=
  match reconstructBranchCursors events with
  | some cursors => if branches ≠ cursors then (cursors, true) else (branches, false)
  | none => if branches ≠ [] then ([], true) else (branches, false)

/--
The machine state of a recovered run. A terminal run has none. A running one
keeps the checkpoint's, except that a resume the checkpoint has not passed names
it exactly.
-/
def healMachineState (events : List Event) (disk : Option State) : String × Bool :=
  let phase := reconstructPhase events
  let machineState := (disk.map State.machineState).getD ""
  if phase ≠ .running then
    match disk with
    | none => ("", true)
    | some st =>
      if st.phase ≠ phase ∨ st.machineState ≠ "" ∨ st.reason ≠ reconstructReason events then
        ("", true)
      else (machineState, false)
  else
    match latestActiveResume events, disk with
    | some resumed, some st =>
      if st.lastSeq ≤ resumed.seq ∧ (st.phase ≠ .running ∨ st.machineState ≠ resumed.target) then
        (resumed.target, true)
      else (machineState, false)
    | _, _ => (machineState, false)

/-- The handle `recover` builds from the log and the checkpoint, before it writes anything. -/
def recoveredRun (events : List Event) (disk : Option State) : Run :=
  { seq := highestEventSeq events
    phase := reconstructPhase events
    reason := reconstructReason events
    machineState := (healMachineState events disk).1
    branches := (healBranches events ((disk.map State.branches).getD [])).1 }

/-- Whether `recover` has to write a checkpoint even without a torn tail. -/
def needsCheckpoint (events : List Event) (disk : Option State) : Bool :=
  (healBranches events ((disk.map State.branches).getD [])).2 || (healMachineState events disk).2

/--
`Recover` from the events of the log on: the torn tail is cut off and its repair put on
record, and a checkpoint that no longer fits is written again. A failed repair leaves no
handle.
-/
def reopen (c : TextLayer) (io : WriteOutcome) (now : Int) (d : RunDir) (events : List Event)
    (tornBytes : Nat) : RunDir × Except AppendError Run :=
  let d := { d with log := truncateTornTail d.log tornBytes }
  let r := recoveredRun events d.state
  if tornBytes = 0 then
    if needsCheckpoint events d.state then ({ d with state := some r.checkpoint }, .ok r)
    else (d, .ok r)
  else
    match r.append c io now d.log (repairedEvent tornBytes) with
    | (_, log, .error e) => ({ d with log := log }, .error e)
    | (r', log, .ok ()) => ({ log := log, state := some r'.checkpoint }, .ok r')

/--
`Recover` on a new handle. Its last step cleans up after completed transcripts; where that
fails there is no handle either, and the log and the checkpoint are as written.
-/
def recover (c : TextLayer) (io : WriteOutcome) (now : Int) (d : RunDir)
    (leftovers : Leftovers := []) : RunDir × Except AppendError Run :=
  match readEvents c.unmarshal d.log.data with
  | .error e => (d, .error (.read e))
  | .ok (events, tornBytes) =>
    match reopen c io now d events tornBytes with
    | (d, .error e) => (d, .error e)
    | (d, .ok r) =>
      match recoverCompletedTranscripts leftovers events with
      | .error e => (d, .error (.transcript e))
      | .ok () => (d, .ok r)

/-- **What the last step of a recovery adds**: nothing to the files, and one more way to fail. -/
theorem recover_of_read {c : Codec} {d : RunDir} {events : List Event} {tornBytes : Nat}
    (hread : readEvents c.unmarshal d.log.data = .ok (events, tornBytes)) (io : WriteOutcome)
    (now : Int) (leftovers : Leftovers) :
    (recover c io now d leftovers).1 = (reopen c io now d events tornBytes).1 ∧
      ∀ r, (recover c io now d leftovers).2 = .ok r ↔
        (reopen c io now d events tornBytes).2 = .ok r ∧
          recoverCompletedTranscripts leftovers events = .ok () := by
  unfold recover
  rw [hread]
  dsimp only
  rcases hopen : reopen c io now d events tornBytes with ⟨d', e | r'⟩
  · exact ⟨rfl, by simp⟩
  · cases recoverCompletedTranscripts leftovers events with
    | error e => exact ⟨rfl, by simp⟩
    | ok u => exact ⟨rfl, by simp⟩

/-! ## The directory and its handle over time -/

/-- A run's directory, and the handle of the process that has it open. -/
structure World where
  dir : RunDir := {}
  handle : Option Run := none
  deriving DecidableEq, Repr

/--
What can happen. An append that a crash interrupts is an append whose write stops
or whose fsync fails, followed by the crash; an interrupted repair likewise.
-/
inductive Action where
  | append (io : WriteOutcome) (now : Int) (ev : Event)
  | repairAppendBoundary (io : WriteOutcome) (now : Int)
  | recover (io : WriteOutcome) (now : Int) (leftovers : Leftovers := [])
  | crash (kept fill : Nat)
  /-- The handle is closed and releases the run lock. -/
  | close
  deriving DecidableEq, Repr

/-- An action without the handle it needs, or against the run lock, does nothing. -/
def World.step (c : TextLayer) (w : World) : Action → World × Except AppendError Unit
  | .append io now ev =>
    match w.handle with
    | none => (w, .error .closed)
    | some r =>
      let (r', dir, res) := r.appendPrepared c io now w.dir ev
      (⟨dir, some r'⟩, res)
  | .repairAppendBoundary io now =>
    match w.handle with
    | none => (w, .error .closed)
    | some r =>
      let (r', log, res) := r.repairAppendBoundary c io now w.dir.log
      (⟨{ w.dir with log := log }, some r'⟩, res)
  | .recover io now leftovers =>
    match w.handle with
    | some _ => (w, .error .blocked)
    | none =>
      match Journal.recover c io now w.dir leftovers with
      | (dir, .error e) => (⟨dir, none⟩, .error e)
      | (dir, .ok r) => (⟨dir, some r⟩, .ok ())
  | .crash kept fill => (⟨{ w.dir with log := w.dir.log.crash kept fill }, none⟩, .ok ())
  | .close => (⟨w.dir, none⟩, .ok ())

def World.run (c : TextLayer) (w : World) (actions : List Action) : World :=
  actions.foldl (fun w a => (w.step c a).1) w

end Goobers.Journal
