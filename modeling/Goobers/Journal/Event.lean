import Mathlib.Data.List.Basic

/-!
# The journal envelope

One JSON object per line of `events.jsonl`. The envelope is flat and mostly
optional; the fields here are the ones some modelled function reads or writes.
A type string the taxonomy does not name is kept as `EventType.other`, because
the readers pass unknown types over rather than refuse them.

A 64-bit sequence number is a `Nat`: a log long enough to wrap it does not fit
in a file. Instants are nanoseconds, with `0` for Go's zero time.
-/

namespace Goobers.Journal

/-- The event taxonomy, as far as a modelled function switches on it. -/
inductive EventType where
  | runStarted
  | runResumed
  | runFinished
  | stageStarted
  | stageFinished
  | stageRerunRequested
  | gateStarted
  | gatePaused
  | gateEvaluated
  | gateOverridden
  | parallelStarted
  | parallelFinished
  | mapStarted
  | mapFinished
  | branchStarted
  | branchFinished
  | repaired
  | agentProgress
  | spanRecorded
  | runnerAnnotate
  | initCompleted
  | triggerFired
  | tickSkipped
  | configReloaded
  | clusterCheckCompleted
  | workerConfigDivergence
  | other (name : String)
  deriving DecidableEq, Repr

/-- A value under the runner namespace. Arrays and objects are all `other`. -/
inductive RunnerValue where
  | str (s : String)
  | num (n : Int)
  | bool (b : Bool)
  | other
  deriving DecidableEq, Repr

/-- Failure detail on an event. -/
structure ErrorDetail where
  code : String
  message : String := ""
  deriving DecidableEq, Repr

/-- The part of a nested agent's progress report the journal looks at. -/
structure AgentProgress where
  agentID : String
  runID : String
  stage : String
  attempt : Int
  sequence : Nat := 0
  occurredAt : Int := 0
  updatedAt : Int := 0
  deriving DecidableEq, Repr

/-- A content address: the path of a blob inside the run directory, and its digest. -/
structure Ref where
  path : String
  digest : String
  deriving DecidableEq, Repr

/-- A record of the journal. -/
structure Event where
  schema : String := ""
  seq : Nat := 0
  type : EventType
  branch : Int := 0
  time : Int := 0
  stage : String := ""
  gate : String := ""
  verdict : String := ""
  target : String := ""
  escalated : Bool := false
  status : String := ""
  error : Option ErrorDetail := none
  progress : Option AgentProgress := none
  runner : List (String × RunnerValue) := []
  parallel : String := ""
  branchName : String := ""
  mapItemIdentity : String := ""
  mapItemDigest : String := ""
  branchStatus : String := ""
  workflow : String := ""
  gaggle : String := ""
  reason : String := ""
  name : String := ""
  ref : Option Ref := none
  deriving DecidableEq, Repr

/-- The envelope version this build owns. -/
def eventSchema : String := "goobers.dev/journal/event/v1"

/-- A runner annotation, if the event carries it. -/
def Event.runnerValue (ev : Event) (key : String) : Option RunnerValue := ev.runner.lookup key

/-- A runner annotation read as a string; anything else reads as empty. -/
def Event.runnerString (ev : Event) (key : String) : String :=
  match ev.runnerValue key with
  | some (.str s) => s
  | _ => ""

inductive RunPhase where
  | running
  | completed
  | failed
  | aborted
  | escalated
  deriving DecidableEq, Repr

/-- A status that names no terminal phase counts as completed. -/
def phaseFromStatus (status : String) : RunPhase :=
  if status = "failed" then .failed
  else if status = "aborted" then .aborted
  else if status = "escalated" then .escalated
  else .completed

def targetAbort : String := "@abort"

def targetEscalate : String := "@escalate"

/-- `@join` is not here: it ends a branch and the run goes on at the join. -/
def phaseFromTerminalTarget (target : String) : Option RunPhase :=
  if target = targetAbort then some .aborted
  else if target = targetEscalate then some .escalated
  else none

theorem phaseFromTerminalTarget_ne_running {target : String} {phase : RunPhase}
    (h : phaseFromTerminalTarget target = some phase) : phase ≠ .running := by
  unfold phaseFromTerminalTarget at h
  intro hrunning
  subst hrunning
  split at h
  · simp at h
  · split at h <;> simp at h

theorem phaseFromStatus_ne_running (status : String) : phaseFromStatus status ≠ .running := by
  unfold phaseFromStatus
  split
  · simp
  · split
    · simp
    · split <;> simp

/-- The highest sequence number of a log; `0` for an empty one. -/
def highestEventSeq (events : List Event) : Nat :=
  events.foldl (fun highest ev => if ev.seq > highest then ev.seq else highest) 0

private theorem foldl_highest_le {events : List Event} {start n : Nat} :
    events.foldl (fun highest ev => if ev.seq > highest then ev.seq else highest) start ≤ n ↔
      start ≤ n ∧ ∀ ev ∈ events, ev.seq ≤ n := by
  induction events generalizing start with
  | nil => simp
  | cons ev events ih =>
    simp only [List.foldl_cons, List.mem_cons, forall_eq_or_imp, ih]
    split
    · constructor
      · rintro ⟨h, hall⟩; exact ⟨by omega, h, hall⟩
      · rintro ⟨_, h, hall⟩; exact ⟨h, hall⟩
    · constructor
      · rintro ⟨h, hall⟩; exact ⟨h, by omega, hall⟩
      · rintro ⟨h, _, hall⟩; exact ⟨h, hall⟩

theorem highestEventSeq_le {events : List Event} {n : Nat} :
    highestEventSeq events ≤ n ↔ ∀ ev ∈ events, ev.seq ≤ n := by
  unfold highestEventSeq
  rw [foldl_highest_le]
  simp

theorem le_highestEventSeq {events : List Event} {ev : Event} (h : ev ∈ events) :
    ev.seq ≤ highestEventSeq events :=
  highestEventSeq_le.mp (Nat.le_refl _) ev h

end Goobers.Journal
