import Goobers.Journal.Phase

/-!
# Runs that wait at a gate

A stalled run is escalated unless it is parked at a gate. Several writers append to one
journal, so a record that only observes the run may land anywhere in the log, and the scan
for a parked run passes such records over.

The phase is read from the same log. Its look-back from a terminal verdict to the pause it
answers does not pass them over: a record of another gate or of none, in between, reads as
the run having moved on. A human decision that is still pending then counts as executed.
-/

namespace Goobers.Journal

/-! ## Parking -/

/-- What an event says about waiting at a gate: `none` for the observational ones. -/
def gateParkingEffect (ev : Event) : Option Bool :=
  match ev.type with
  | .gatePaused => some true
  | .gateStarted | .gateEvaluated | .gateOverridden
  | .runStarted | .runResumed | .runFinished
  | .stageStarted | .stageFinished | .stageRerunRequested
  | .parallelStarted | .parallelFinished | .mapStarted | .mapFinished
  | .branchStarted | .branchFinished => some false
  | _ => none

def parkedNewestFirst : List Event → Bool
  | [] => false
  | ev :: older => (gateParkingEffect ev).getD (parkedNewestFirst older)

def parkedAtGate (events : List Event) : Bool := parkedNewestFirst events.reverse

/-- The same, one event at a time. -/
def gateParkingAfter (prior : Bool) (ev : Event) : Bool := (gateParkingEffect ev).getD prior

/-! ## What the phase scans look at -/

/-- The scan for the phase stops at the event. -/
def Event.decidesPhase (ev : Event) : Bool :=
  match ev.type with
  | .stageRerunRequested | .runResumed | .gateOverridden | .runFinished => true
  | .gateEvaluated => (phaseFromTerminalTarget ev.target).isSome
  | _ => false

/-- The look-back of a gate's evaluation goes on past the event. -/
def Event.passedOver (gateName : String) (branch : Int) (ev : Event) : Bool :=
  if ev.branch ≠ branch then true
  else if ev.gate ≠ gateName then ev.type = .gatePaused || ev.type = .gateStarted
  else ev.type ≠ .gateStarted && ev.type ≠ .gatePaused && ev.type ≠ .gateEvaluated

/--
The event comes between a pause and the terminal verdict on it that is still pending, where
the look-back takes it for a sign that the run went on. The events after it and those before
it are newest first.
-/
def unmasks (ev : Event) (older : List Event) : List Event → Bool
  | [] => false
  | g :: between =>
    -- the newest event that decides the phase is the only one the record can change
    if g.decidesPhase then
      g.type = .gateEvaluated && between.all (Event.passedOver g.gate g.branch) &&
        ev.branch = g.branch && ev.gate ≠ g.gate && !terminalGateExecuted g.gate g.branch older
    else unmasks ev older between

theorem phaseNewestFirst_of_not_decides {ev : Event} {older : List Event}
    (h : ev.decidesPhase = false) : phaseNewestFirst (ev :: older) = phaseNewestFirst older := by
  unfold Event.decidesPhase at h
  rw [phaseNewestFirst]
  cases ht : ev.type <;> rw [ht] at h <;> simp_all

theorem phaseNewestFirst_of_decides {g : Event} (hdecides : g.decidesPhase = true)
    (heval : g.type ≠ .gateEvaluated) (older older' : List Event) :
    phaseNewestFirst (g :: older) = phaseNewestFirst (g :: older') := by
  unfold Event.decidesPhase at hdecides
  rw [phaseNewestFirst, phaseNewestFirst]
  cases ht : g.type <;> rw [ht] at hdecides <;> simp_all

theorem phaseNewestFirst_eval_eq {g : Event} {phase : RunPhase} {older older' : List Event}
    (heval : g.type = .gateEvaluated) (hphase : phaseFromTerminalTarget g.target = some phase) :
    phaseNewestFirst (g :: older) = phaseNewestFirst (g :: older') ↔
      terminalGateExecuted g.gate g.branch older = terminalGateExecuted g.gate g.branch older' := by
  have hne : phase ≠ .running := phaseFromTerminalTarget_ne_running hphase
  rw [phaseNewestFirst, phaseNewestFirst]
  simp only [heval, hphase]
  cases terminalGateExecuted g.gate g.branch older <;>
    cases terminalGateExecuted g.gate g.branch older' <;> simp [hne, hne.symm]

theorem terminalGateExecuted_cons (gateName : String) (branch : Int) (ev : Event)
    (older : List Event) :
    terminalGateExecuted gateName branch (ev :: older) =
      if ev.passedOver gateName branch then terminalGateExecuted gateName branch older
      else !(ev.gate = gateName && ev.type = .gatePaused) := by
  rw [terminalGateExecuted]
  unfold Event.passedOver
  by_cases hbranch : ev.branch = branch
  · by_cases hgate : ev.gate = gateName
    · cases ht : ev.type <;> simp [hgate]
    · by_cases hmark : ev.type = .gatePaused ∨ ev.type = .gateStarted
      · simp [hgate, hmark]
      · simp [hgate, hmark]
  · simp [hbranch]

/-! ## An observational record anywhere in the log -/

section Observational

variable {ev : Event} (hev : gateParkingEffect ev = none)

include hev

theorem parkedNewestFirst_insert (newer older : List Event) :
    parkedNewestFirst (newer ++ ev :: older) = parkedNewestFirst (newer ++ older) := by
  induction newer with
  | nil => simp [parkedNewestFirst, hev]
  | cons e newer ih => simp [parkedNewestFirst, ih]

theorem not_decidesPhase_of_observational : ev.decidesPhase = false := by
  unfold gateParkingEffect at hev
  unfold Event.decidesPhase
  cases ht : ev.type <;> simp_all

/-- The look-back stops at it exactly when it is of the same branch and of another gate. -/
theorem passedOver_of_observational (gateName : String) (branch : Int) :
    ev.passedOver gateName branch = !(ev.branch = branch && ev.gate ≠ gateName) := by
  unfold gateParkingEffect at hev
  unfold Event.passedOver
  by_cases hbranch : ev.branch = branch <;> by_cases hgate : ev.gate = gateName <;>
    cases ht : ev.type <;> simp_all

/-- When a new event changes whether the gate counts as executed. -/
theorem terminalGateExecuted_insert (gateName : String) (branch : Int)
    (between older : List Event) :
    terminalGateExecuted gateName branch (between ++ ev :: older) =
        terminalGateExecuted gateName branch (between ++ older) ↔
      ¬(between.all (Event.passedOver gateName branch) = true ∧
        ev.branch = branch ∧ ev.gate ≠ gateName ∧
        terminalGateExecuted gateName branch older = false) := by
  induction between with
  | nil =>
    rw [List.nil_append, List.nil_append, terminalGateExecuted_cons,
      passedOver_of_observational hev]
    -- where the look-back stops at the record it answers "executed"
    by_cases hstop : ev.branch = branch ∧ ev.gate ≠ gateName
    · cases terminalGateExecuted gateName branch older <;> simp [hstop.2]
    · have hpass : (decide (ev.branch = branch) && decide (ev.gate ≠ gateName)) = false := by
        simpa using hstop
      simp only [hpass, Bool.not_false, if_true, true_iff]
      rintro ⟨_, hbranch, hgate, _⟩
      exact hstop ⟨hbranch, hgate⟩
  | cons e between ih =>
    rw [List.cons_append, List.cons_append, terminalGateExecuted_cons,
      terminalGateExecuted_cons, List.all_cons]
    cases hpass : e.passedOver gateName branch with
    | true => simpa using ih
    | false => simp

/-- When a new event in the middle of the log changes the phase. -/
theorem phaseNewestFirst_insert (newer older : List Event) :
    phaseNewestFirst (newer ++ ev :: older) = phaseNewestFirst (newer ++ older) ↔
      unmasks ev older newer = false := by
  induction newer with
  | nil =>
    simp [phaseNewestFirst_of_not_decides (not_decidesPhase_of_observational hev), unmasks]
  | cons g between ih =>
    rw [List.cons_append, List.cons_append, unmasks]
    cases hdecides : g.decidesPhase with
    | false =>
      rw [phaseNewestFirst_of_not_decides hdecides, phaseNewestFirst_of_not_decides hdecides]
      exact ih
    | true =>
      by_cases heval : g.type = .gateEvaluated
      · obtain ⟨phase, hphase⟩ : ∃ phase, phaseFromTerminalTarget g.target = some phase := by
          simpa [Event.decidesPhase, heval, Option.isSome_iff_exists] using hdecides
        rw [phaseNewestFirst_eval_eq heval hphase, terminalGateExecuted_insert hev]
        simp [heval]
      · rw [phaseNewestFirst_of_decides hdecides heval (between ++ ev :: older)
          (between ++ older)]
        simp [heval]

end Observational

/--
**An observational record changes neither reading of the log, unless it unmasks a pending
decision**: wherever it lands, a run is parked with it exactly if it is parked without it, and
the phase is the same exactly if the record does not stand between a gate's pause and the
terminal verdict on it, in that branch and without that gate's name.
-/
theorem observational_insert_iff (before after : List Event) (ev : Event)
    (hev : gateParkingEffect ev = none) :
    (parkedAtGate (before ++ ev :: after) = parkedAtGate (before ++ after) ∧
        reconstructPhase (before ++ ev :: after) = reconstructPhase (before ++ after)) ↔
      unmasks ev before.reverse after.reverse = false := by
  unfold parkedAtGate reconstructPhase
  rw [List.reverse_append, List.reverse_cons, List.append_assoc, List.singleton_append,
    List.reverse_append, phaseNewestFirst_insert hev]
  exact and_iff_right (parkedNewestFirst_insert hev after.reverse before.reverse)

def reviewPaused : Event := { seq := 1, type := .gatePaused, branch := 0, gate := "review" }

/-- The human's verdict on it. -/
def reviewRejected : Event :=
  { seq := 3, type := .gateEvaluated, branch := 0, gate := "review", target := targetAbort }

/-- Anything a stage of the run records meanwhile. -/
def noteRecorded : Event := { seq := 2, type := .runnerAnnotate, branch := 0 }

/-- Before the pause, the record is harmless. -/
theorem note_before_pause :
    gateParkingEffect noteRecorded = none ∧
      reconstructPhase [noteRecorded, reviewPaused, reviewRejected] =
        reconstructPhase [reviewPaused, reviewRejected] := by
  refine ⟨by decide, ?_⟩
  exact ((observational_insert_iff [] [reviewPaused, reviewRejected] noteRecorded
    (by decide)).mpr (by decide)).2

/-- After it, the pending rejection counts as executed and the run as aborted. -/
theorem note_unmasks_rejection :
    gateParkingEffect noteRecorded = none ∧
      reconstructPhase [reviewPaused, reviewRejected] = .running ∧
      reconstructPhase [reviewPaused, noteRecorded, reviewRejected] = .aborted := by
  decide

end Goobers.Journal
