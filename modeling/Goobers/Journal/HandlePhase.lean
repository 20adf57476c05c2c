import Goobers.Journal.Lifecycle

/-!
# The handle's phase and the log's

A handle keeps the phase and the reason it writes into the next checkpoint, and the
log determines them too: they are those of its last lifecycle event. `Append` and the
batch bring the handle up to date after each event they wrote; two operations do not.
`AppendIfAbsent` writes its event and leaves the handle as it was, and
`RepairAppendBoundary` keeps a line whose append failed after all of it was written,
without looking at what the line says.

So the two agree as long as no lifecycle event goes through `AppendIfAbsent` and none
is kept from a failed append.
-/

namespace Goobers.Journal

open Lib Run

variable {r : Run} {d : RunDir}

/-! ## What the log determines -/

def Event.lifecycle (ev : Event) : Option (RunPhase × String) :=
  match ev.type with
  | .runFinished => some (phaseFromStatus ev.status, ev.errorMessage)
  | .runResumed | .gateOverridden | .stageRerunRequested => some (.running, "")
  | _ => none

/-- Those of the last lifecycle event of a log; running with no reason if there is none. -/
def lifecycleIn (events : List Event) : RunPhase × String :=
  (events.reverse.findSome? Event.lifecycle).getD (.running, "")

@[simp] theorem lifecycleIn_concat (events : List Event) (ev : Event) :
    lifecycleIn (events ++ [ev]) = ev.lifecycle.getD (lifecycleIn events) := by
  unfold lifecycleIn
  rw [List.reverse_append, List.reverse_singleton, List.singleton_append, List.findSome?_cons]
  cases ev.lifecycle <;> rfl

def terminalGateNewestFirst : List Event → Bool
  | [] => false
  | ev :: older =>
    if ev.lifecycle.isSome then false
    else if ev.type = .gateEvaluated ∧ (phaseFromTerminalTarget ev.target).isSome then true
    else terminalGateNewestFirst older

/--
The log holds a gate verdict with a terminal target after its last lifecycle event.
`reconstructPhase` goes by such a verdict; the events the handle goes by do not have it.
-/
def EndsAtTerminalGate (events : List Event) : Prop :=
  terminalGateNewestFirst events.reverse = true

instance (events : List Event) : Decidable (EndsAtTerminalGate events) := by
  unfold EndsAtTerminalGate
  infer_instance

theorem reconstructReason_eq_lifecycleIn (events : List Event) :
    reconstructReason events = (lifecycleIn events).2 := by
  unfold reconstructReason lifecycleIn
  induction events.reverse with
  | nil => rfl
  | cons ev older ih =>
    rw [reasonNewestFirst, List.findSome?_cons]
    unfold Event.lifecycle
    cases ev.type <;> first | rfl | exact ih

/-- Recovery takes the log's phase, unless a terminal gate verdict comes in between. -/
theorem reconstructPhase_eq_lifecycleIn {events : List Event} (h : ¬ EndsAtTerminalGate events) :
    reconstructPhase events = (lifecycleIn events).1 := by
  unfold EndsAtTerminalGate at h
  unfold reconstructPhase lifecycleIn
  generalize events.reverse = newestFirst at h ⊢
  induction newestFirst with
  | nil => rfl
  | cons ev older ih =>
    unfold terminalGateNewestFirst at h
    rw [phaseNewestFirst, List.findSome?_cons]
    unfold Event.lifecycle at h ⊢
    cases ht : ev.type
    case gateEvaluated =>
      simp only [ht] at h ⊢
      cases htarget : phaseFromTerminalTarget ev.target with
      | some phase => simp [htarget] at h
      | none => exact ih (by simpa [htarget] using h)
    all_goals simp only [ht] at h ⊢
    all_goals first | rfl | exact ih h

/-! ## The operations of one handle -/

structure LineOutcome where
  write : WriteOutcome := .ok
  /-- The checkpoint after the event is written. -/
  checkpoint : Bool := true
  now : Int := 0
  /-- The instant the batch's size check stamps. -/
  checkedAt : Int := 0
  deriving DecidableEq, Repr

/-- Why a call on the handle does not return success. -/
inductive HandleError where
  | append (e : AppendError)
  | checkpoint
  deriving DecidableEq, Repr

/-- The checkpoint after a durable event. -/
def Run.commit (io : LineOutcome) (r : Run) (d : RunDir) (log : LogFile) :
    RunDir × Except HandleError Unit :=
  if io.checkpoint then ({ log := log, state := some r.checkpoint }, .ok ())
  else ({ d with log := log }, .error .checkpoint)

/-- `Run.Append`, with a checkpoint that may fail as well. -/
def Run.appendLine (c : Codec) (io : LineOutcome) (r : Run) (d : RunDir) (ev : Event) :
    Run × RunDir × Except HandleError Unit :=
  match r.append c io.write io.now d.log ev with
  | (r', log, .error e) => (r', { d with log := log }, .error (.append e))
  | (r', log, .ok ()) =>
    let r' := r'.applyLifecycle ev
    (r', r'.commit io d log)

/-- The check of a batch before its first write: every event marshals and fits. -/
def Run.batchRefusal (c : Codec) (r : Run) : Nat → List (LineOutcome × Event) → Option AppendError
  | _, [] => none
  | i, (io, ev) :: rest =>
    match c.marshalEvent
        { ev with seq := r.seq + i + 1, schema := eventSchema, time := io.checkedAt } with
    | none => some .marshal
    | some line =>
      if (c.scrub line).length + 1 > maxEventBytes then some .tooLong
      else r.batchRefusal c (i + 1) rest

/-- The writes of a batch: an ordered prefix, with how many of its events are committed. -/
def Run.appendLines (c : Codec) : List (LineOutcome × Event) → Run → RunDir →
    Run × RunDir × Nat × Except HandleError Unit
  | [], r, d => (r, d, 0, .ok ())
  | (io, ev) :: rest, r, d =>
    match r.appendLine c io d ev with
    | (r', d', .error (.append e)) => (r', d', 0, .error (.append e))
    | (r', d', .error .checkpoint) => (r', d', 1, .error .checkpoint)
    | (r', d', .ok ()) =>
      let (r'', d'', committed, res) := Run.appendLines c rest r' d'
      (r'', d'', committed + 1, res)

def Run.appendBatch (c : Codec) (r : Run) (d : RunDir) (items : List (LineOutcome × Event)) :
    Run × RunDir × Nat × Except HandleError Unit :=
  match r.batchRefusal c 0 items with
  | some e => (r, d, 0, .error (.append e))
  | none => Run.appendLines c items r d

def Run.appendIfAbsent (c : Codec) (io : LineOutcome) (r : Run) (d : RunDir) (ev : Event)
    (isMatch : Event → Bool) : Run × RunDir × Except HandleError Bool :=
  match readEvents c.unmarshal d.log.data with
  | .error e => (r, d, .error (.append (.read e)))
  | .ok (events, _) =>
    if events.any isMatch then (r, d, .ok false)
    else
      match r.append c io.write io.now d.log ev with
      | (r', log, .error e) => (r', { d with log := log }, .error (.append e))
      | (r', log, .ok ()) =>
        -- the handle's lifecycle state is not brought up to date here
        let (d', res) := r'.commit io d log
        (r', d', res.map (fun _ => true))

inductive HandleCall where
  | append (io : LineOutcome) (ev : Event)
  | appendBatch (items : List (LineOutcome × Event))
  | appendIfAbsent (io : LineOutcome) (ev : Event) (isMatch : Event → Bool)
  | repairAppendBoundary (write : WriteOutcome) (now : Int)

def callStep (c : Codec) : Run × RunDir → HandleCall → Run × RunDir
  | (r, d), .append io ev =>
    let next := r.appendLine c io d ev
    (next.1, next.2.1)
  | (r, d), .appendBatch items =>
    let next := r.appendBatch c d items
    (next.1, next.2.1)
  | (r, d), .appendIfAbsent io ev isMatch =>
    let next := r.appendIfAbsent c io d ev isMatch
    (next.1, next.2.1)
  | (r, d), .repairAppendBoundary write now =>
    let next := r.repairAppendBoundary c write now d.log
    (next.1, { d with log := next.2.1 })

def callRun (c : Codec) (start : Run × RunDir) (calls : List HandleCall) : Run × RunDir :=
  calls.foldl (callStep c) start

/-! ## Agreement -/

section
variable {c : Codec}

/-- The log as a reader gets it. -/
def recordedEvents (c : Codec) (kept : List Attempt) : List Event :=
  kept.map (fun a => c.redact a.event)

/-- The handle has the phase and reason that its log shows. -/
def Agrees (c : Codec) (r : Run) (f : LogFile) : Prop :=
  ∃ kept torn, LogInv c f kept torn ∧ Ready kept torn r ∧
    (r.phase, r.reason) = lifecycleIn (recordedEvents c kept)

/--
The whole line of `ev` reaches the file. This is no success yet: the fsync may fail, or
the write may report an error after its last byte.
-/
def Run.Completes (c : Codec) (r : Run) (io : LineOutcome) (ev : Event) : Prop :=
  ∃ text, c.marshalEvent (r.stamped io.now ev) = some text ∧
    (⟨r.stamped io.now ev, c.scrub text, io.write⟩ : Attempt).Whole

/-- Redaction leaves alone what the handle takes from the event. -/
def Run.RecordedAs (c : Codec) (r : Run) (now : Int) (ev : Event)
    (lifecycle : Option (RunPhase × String)) : Prop :=
  (c.redact (r.stamped now ev)).lifecycle = lifecycle

/--
An append that the log and the handle come out of alike: the log records the lifecycle
event the handle was given, and if the append fails, its line is not complete.
-/
structure AppendSafe (c : Codec) (r : Run) (io : LineOutcome) (ev : Event) : Prop where
  recorded : r.RecordedAs c io.now ev ev.lifecycle
  failed : ev.lifecycle ≠ none → io.write ≠ .ok → ¬ r.Completes c io ev

def BatchSafe (c : Codec) : List (LineOutcome × Event) → Run → RunDir → Prop
  | [], _, _ => True
  | (io, ev) :: rest, r, d =>
    AppendSafe c r io ev ∧
      ((r.appendLine c io d ev).2.2 = .ok () →
        BatchSafe c rest (r.appendLine c io d ev).1 (r.appendLine c io d ev).2.1)

/--
A call that keeps handle and log in agreement. `AppendIfAbsent` writes no lifecycle
event; `RepairAppendBoundary` needs nothing but that its own event is recorded as none.
-/
def CallSafe (c : Codec) : Run × RunDir → HandleCall → Prop
  | (r, _), .append io ev => AppendSafe c r io ev
  | (r, d), .appendBatch items => BatchSafe c items r d
  | (r, d), .appendIfAbsent io ev isMatch =>
    ∀ events tornBytes, readEvents c.unmarshal d.log.data = .ok (events, tornBytes) →
      events.any isMatch = false → r.Completes c io ev → r.RecordedAs c io.now ev none
  | (r, d), .repairAppendBoundary _ now =>
    ∀ events tornBytes, readEvents c.unmarshal d.log.data = .ok (events, tornBytes) →
      ({ r with seq := highestEventSeq events } : Run).RecordedAs c now (repairedEvent tornBytes)
        none

def CallsSafe (c : Codec) : Run × RunDir → List HandleCall → Prop
  | _, [] => True
  | s, call :: calls => CallSafe c s call ∧ CallsSafe c (callStep c s call) calls

/-! ## Every call keeps the agreement -/

theorem applyLifecycle_lifecycle (r : Run) (ev : Event) :
    ((r.applyLifecycle ev).phase, (r.applyLifecycle ev).reason) =
      ev.lifecycle.getD (r.phase, r.reason) := by
  unfold applyLifecycle Event.lifecycle
  cases ev.type <;> rfl

@[simp] theorem recordedEvents_concat (kept : List Attempt) (a : Attempt) :
    recordedEvents c (kept ++ [a]) = recordedEvents c kept ++ [c.redact a.event] := by
  simp [recordedEvents]

theorem append_lifecycle (r : Run) (f : LogFile) (io : WriteOutcome) (now : Int) (ev : Event) :
    ((r.append c io now f ev).1.phase, (r.append c io now f ev).1.reason) =
      (r.phase, r.reason) := by
  unfold append
  split
  · rfl
  · dsimp only
    split <;> rfl

/--
**What an append does to the agreement.** Either no line is kept and it stands; or the
whole line is, and a handle agrees with the new log if its lifecycle state follows the
event as it was recorded.
-/
theorem agrees_append {f : LogFile} (h : Agrees c r f) (io : LineOutcome) (ev : Event) :
    (∃ e, (r.append c io.write io.now f ev).2.2 = .error e ∧
        Agrees c (r.append c io.write io.now f ev).1 (r.append c io.write io.now f ev).2.1) ∨
      (r.Completes c io ev ∧
        ((r.append c io.write io.now f ev).2.2 = .ok () ↔ io.write = .ok) ∧
        (r.append c io.write io.now f ev).1 =
          { r with seq := r.seq + 1, appendErr := decide (io.write ≠ .ok) } ∧
        ∀ r' : Run, r'.seq = r.seq + 1 →
          (r'.phase, r'.reason) =
            (c.redact (r.stamped io.now ev)).lifecycle.getD (r.phase, r.reason) →
          Agrees c r' (r.append c io.write io.now f ev).2.1) := by
  obtain ⟨kept, torn, hlog, hready, hagree⟩ := h
  rcases append_kept hlog hready io.write io.now ev with
    ⟨e, torn', herr, hlog', hready'⟩ |
      ⟨a, hevent, hline, hio, hwhole, hres, hrun, -, -, hlog', hbound⟩
  · refine Or.inl ⟨e, herr, kept, torn', hlog', hready', ?_⟩
    rw [← hagree]
    exact append_lifecycle r f io.write io.now ev
  · refine Or.inr ⟨?_, hres, hrun, ?_⟩
    · obtain ⟨text, hmarshal, htext⟩ := Option.map_eq_some_iff.mp hline
      refine ⟨text, hevent ▸ hmarshal, ?_⟩
      rw [htext, ← hio]
      exact hwhole
    · intro r' hseq hlifecycle
      refine ⟨kept ++ [a], [], hlog', fun _ => ⟨rfl, hseq ▸ hbound⟩, ?_⟩
      rw [hlifecycle, recordedEvents_concat, lifecycleIn_concat, hevent, hagree]

theorem agrees_of_unrecorded {f : LogFile} (h : Agrees c r f) (io : LineOutcome) (ev : Event)
    (hnone : r.Completes c io ev → r.RecordedAs c io.now ev none) :
    Agrees c (r.append c io.write io.now f ev).1 (r.append c io.write io.now f ev).2.1 := by
  rcases agrees_append h io ev with ⟨e, -, hagrees⟩ | ⟨hcompletes, -, hrun, hagrees⟩
  · exact hagrees
  · refine hagrees _ (by rw [hrun]) ?_
    rw [append_lifecycle, hnone hcompletes]
    rfl

@[simp] theorem commit_log (io : LineOutcome) (r : Run) (d : RunDir) (log : LogFile) :
    (r.commit io d log).1.log = log := by
  unfold commit
  split <;> rfl

/-- A line written safely leaves the handle with the phase that the log shows. -/
theorem agrees_appendLine (h : Agrees c r d.log) {io : LineOutcome} {ev : Event}
    (hsafe : AppendSafe c r io ev) :
    Agrees c (r.appendLine c io d ev).1 (r.appendLine c io d ev).2.1.log := by
  rcases agrees_append h io ev with ⟨e, herr, hagrees⟩ | ⟨hcompletes, hres, hrun, hagrees⟩
  · unfold appendLine
    split
    · rename_i heq
      rw [heq] at hagrees
      exact hagrees
    · rename_i heq
      rw [heq] at herr
      cases herr
  · by_cases hok : io.write = .ok
    · -- the handle follows the event it was given, the log the one it recorded
      have hsuccess := hres.mpr hok
      unfold appendLine
      split
      · rename_i heq
        rw [heq] at hsuccess
        cases hsuccess
      · rename_i r' log heq
        rw [heq] at hagrees hrun
        rw [commit_log]
        have hr' : r' = { r with seq := r.seq + 1, appendErr := decide (io.write ≠ .ok) } := hrun
        refine hagrees _ (by rw [applyLifecycle_seq, hr']) ?_
        rw [applyLifecycle_lifecycle, hsafe.recorded, hr']
    · -- a complete line of a failed append: it may be no lifecycle event
      have hev : ev.lifecycle = none := by
        by_contra hne
        exact hsafe.failed hne hok hcompletes
      have hagrees' := agrees_of_unrecorded h io ev (fun _ => hsafe.recorded.trans hev)
      have hfailed := mt hres.mp hok
      unfold appendLine
      split
      · rename_i heq
        rw [heq] at hagrees'
        exact hagrees'
      · rename_i heq
        rw [heq] at hfailed
        exact absurd rfl hfailed

/-- So does a batch, line by line. -/
theorem agrees_appendLines {items : List (LineOutcome × Event)} (h : Agrees c r d.log)
    (hsafe : BatchSafe c items r d) :
    Agrees c (appendLines c items r d).1 (appendLines c items r d).2.1.log := by
  induction items generalizing r d with
  | nil => exact h
  | cons item rest ih =>
    obtain ⟨hfirst, hrest⟩ := hsafe
    have hagrees := agrees_appendLine h hfirst
    unfold appendLines
    split
    · rename_i heq
      rw [heq] at hagrees
      exact hagrees
    · rename_i heq
      rw [heq] at hagrees
      exact hagrees
    · rename_i r' d' heq
      rw [heq] at hagrees hrest
      exact ih hagrees (hrest rfl)

theorem agrees_appendIfAbsent (h : Agrees c r d.log) {io : LineOutcome} {ev : Event}
    {isMatch : Event → Bool} (hsafe : CallSafe c (r, d) (.appendIfAbsent io ev isMatch)) :
    Agrees c (r.appendIfAbsent c io d ev isMatch).1
      (r.appendIfAbsent c io d ev isMatch).2.1.log := by
  unfold appendIfAbsent
  cases hread : readEvents c.unmarshal d.log.data with
  | error e => exact h
  | ok read =>
    obtain ⟨events, tornBytes⟩ := read
    dsimp only
    split_ifs with hany
    · exact h
    · have hagrees := agrees_of_unrecorded h io ev
        (hsafe events tornBytes hread (by simpa using hany))
      split
      · rename_i heq
        rw [heq] at hagrees
        exact hagrees
      · rename_i heq
        rw [heq] at hagrees
        simpa using hagrees

theorem agrees_repair (h : Agrees c r d.log) {write : WriteOutcome} {now : Int}
    (hsafe : CallSafe c (r, d) (.repairAppendBoundary write now)) :
    Agrees c (r.repairAppendBoundary c write now d.log).1
      (r.repairAppendBoundary c write now d.log).2.1 := by
  obtain ⟨kept, torn, hlog, -, hagree⟩ := h
  have hread := hlog.readEvents_eq
  have hrecorded := hsafe _ _ hread
  unfold repairAppendBoundary
  rw [hread]
  dsimp only
  have hcut : Agrees c
      { r with seq := highestEventSeq (kept.map (fun a => c.redact a.event)), appendErr := false }
      (truncateTornTail d.log torn.length) := by
    refine ⟨kept, [], hlog.truncate, fun _ => ⟨rfl, ?_⟩, hagree⟩
    intro a ha
    rw [← c.redact_seq]
    exact le_highestEventSeq (List.mem_map_of_mem ha)
  split
  · exact hcut
  · exact agrees_of_unrecorded hcut { write := write, now := now } _ (fun _ => hrecorded)

/-- So does every call on the handle. -/
theorem agrees_step {s : Run × RunDir} (h : Agrees c s.1 s.2.log) {call : HandleCall}
    (hsafe : CallSafe c s call) : Agrees c (callStep c s call).1 (callStep c s call).2.log := by
  obtain ⟨r, d⟩ := s
  cases call with
  | append io ev => exact agrees_appendLine h hsafe
  | appendBatch items =>
    show Agrees c (r.appendBatch c d items).1 (r.appendBatch c d items).2.1.log
    unfold appendBatch
    split
    · exact h
    · exact agrees_appendLines h hsafe
  | appendIfAbsent io ev isMatch => exact agrees_appendIfAbsent h hsafe
  | repairAppendBoundary write now => exact agrees_repair h hsafe

theorem agrees_run {s : Run × RunDir} (h : Agrees c s.1 s.2.log) {calls : List HandleCall}
    (hsafe : CallsSafe c s calls) : Agrees c (callRun c s calls).1 (callRun c s calls).2.log := by
  induction calls generalizing s with
  | nil => exact h
  | cons call calls ih => exact ih (agrees_step h hsafe.1) hsafe.2

/-! ## From the opening of the handle on -/

/--
A log that recovery opens a handle in agreement with: no terminal gate verdict after its
last lifecycle event, and a repair that is recorded as none.
-/
def OpenSafe (c : Codec) (now : Int) (d : RunDir) : Prop :=
  ∀ events tornBytes, readEvents c.unmarshal d.log.data = .ok (events, tornBytes) →
    ¬ EndsAtTerminalGate events ∧
      (recoveredRun events d.state).RecordedAs c now (repairedEvent tornBytes) none

/-- Recovery gives the handle the phase of the log. -/
theorem agrees_recover {kept : List Attempt} {torn : Bytes} (hlog : LogInv c d.log kept torn)
    {io : WriteOutcome} {now : Int} (hsafe : OpenSafe c now d) {leftovers : Leftovers}
    {d' : RunDir} (h : recover c io now d leftovers = (d', .ok r)) : Agrees c r d'.log := by
  have hread := hlog.readEvents_eq
  obtain ⟨hgate, hrecorded⟩ := hsafe _ _ hread
  -- before the repair the phase is that of the events read
  have hcut : Agrees c (recoveredRun (kept.map (fun a => c.redact a.event)) d.state)
      (truncateTornTail d.log torn.length) := by
    refine ⟨kept, [], hlog.truncate, fun _ => ⟨rfl, ?_⟩, ?_⟩
    · intro a ha
      rw [← c.redact_seq]
      exact le_highestEventSeq (List.mem_map_of_mem ha)
    · exact Prod.ext (reconstructPhase_eq_lifecycleIn hgate) (reconstructReason_eq_lifecycleIn _)
  obtain ⟨hdir, hres⟩ := recover_of_read hread io now leftovers
  rw [h] at hdir hres
  replace h : reopen c io now d _ torn.length = (d', .ok r) :=
    Prod.ext hdir.symm ((hres r).mp rfl).1
  unfold reopen at h
  dsimp only at h
  split at h
  · split at h
    · cases h
      exact hcut
    · cases h
      exact hcut
  · -- the record of the repair decides no phase
    have hagrees := agrees_of_unrecorded hcut { write := io, now := now }
      (repairedEvent torn.length) (fun _ => hrecorded)
    split at h
    · cases h
    · rename_i heq
      rw [heq] at hagrees
      cases h
      exact hagrees

theorem recover_of_createRun {io : WriteOutcome} {now : Int} {requestedTarget : String}
    (h : createRun c io now requestedTarget = .ok (r, d)) : recover c io now
        (World.init.run c [.append io now (runStartedEvent requestedTarget), .close]).dir =
      (d, .ok r) := by
  unfold createRun at h
  simp only [World.run, World.init, List.foldl_cons, World.step,
    appendPrepared]
  cases happend : ({} : Run).append c io now {} (runStartedEvent requestedTarget) with
  | mk r' rest =>
    obtain ⟨log, res⟩ := rest
    rw [happend] at h
    cases res with
    | error e => cases h
    | ok _ =>
      dsimp only at h ⊢
      split at h
      · cases h
      · rename_i d' r'' heq
        cases h
        exact heq

/--
**The handle's next checkpoint says what the log says.** A handle is opened on the log of
any history, and then called any number of times, with any outcome of each write. If no
lifecycle event goes through `AppendIfAbsent`, is kept from an append that failed, or is
recorded as something else, the phase and the reason of the next checkpoint are those of
the last lifecycle event that is complete in the file.
-/
theorem checkpoint_agrees_with_log (c : Codec) (history : List Action) (io : WriteOutcome)
    (now : Int) (leftovers : Leftovers) (r : Run) (d : RunDir)
    (hopen : recover c io now (World.init.run c history).dir leftovers = (d, .ok r))
    (hstart : OpenSafe c now (World.init.run c history).dir) (calls : List HandleCall)
    (hsafe : CallsSafe c (r, d) calls) :
    ∃ events tornBytes,
      readEvents c.unmarshal (callRun c (r, d) calls).2.log.data = .ok (events, tornBytes) ∧
        ((callRun c (r, d) calls).1.checkpoint.phase,
          (callRun c (r, d) calls).1.checkpoint.reason) = lifecycleIn events := by
  obtain ⟨kept, torn, hlog, -⟩ := worldInv_run (c := c) worldInv_init history
  have hagrees := agrees_run (s := (r, d)) (agrees_recover hlog hstart hopen) hsafe
  obtain ⟨kept', torn', hlog', -, hphase⟩ := hagrees
  exact ⟨_, _, hlog'.readEvents_eq, hphase⟩

end

theorem torn_resume_agrees :
    let calls : List HandleCall :=
      [.append {} { type := .runFinished, status := "failed" },
       .append { write := .stops 1 } { type := .runResumed, target := "review" },
       .repairAppendBoundary .ok 0]
    let s := callRun textCodec createdRun calls
    ∃ events tornBytes, readEvents textCodec.unmarshal s.2.log.data = .ok (events, tornBytes) ∧
      (s.1.checkpoint.phase, s.1.checkpoint.reason) = lifecycleIn events := by
  intro calls s
  have hcreate : createRun textCodec .ok 0 "" = .ok createdRun := by decide
  refine checkpoint_agrees_with_log textCodec _ .ok 0 [] createdRun.1 createdRun.2
    (recover_of_createRun hcreate) ?_ calls ?_
  · intro events tornBytes hread
    have hgate : (readEvents textCodec.unmarshal (World.init.run textCodec
        [.append .ok 0 (runStartedEvent ""), .close]).dir.log.data).map
          (fun read => decide (EndsAtTerminalGate read.1)) = .ok false := by
      decide
    rw [hread] at hgate
    exact ⟨of_decide_eq_false (Except.ok.inj hgate), rfl⟩
  · refine ⟨⟨rfl, fun _ hne => absurd rfl hne⟩, ⟨rfl, ?_⟩, fun _ _ _ => rfl, trivial⟩
    -- one byte is not a whole line
    rintro - - ⟨text, hmarshal, hwhole⟩
    have hne : textCodec.scrub text ≠ [] := (textCodec.object _ _ hmarshal).ne_nil
    have hlength := List.length_pos_iff.mpr hne
    change (textCodec.scrub text).length + 1 ≤ 1 at hwhole
    omega

/--
Two ways for the handle to miss `run.finished`: its fsync fails and the boundary is
repaired, or it goes through `AppendIfAbsent`. The handle says running, the log failed.
-/
theorem finish_missed_by_handle :
    let finished : Event := { type := .runFinished, status := "failed" }
    let unsynced := callRun textCodec createdRun
      [.append { write := .syncFails } finished, .repairAppendBoundary .ok 0]
    let absent := callRun textCodec createdRun
      [.appendIfAbsent {} finished (fun ev => ev.type = .runFinished)]
    (unsynced.1.checkpoint.phase = .running ∧
        (readEvents textCodec.unmarshal unsynced.2.log.data).map (fun read => lifecycleIn read.1) =
          .ok (.failed, "")) ∧
      absent.1.checkpoint.phase = .running ∧
        (readEvents textCodec.unmarshal absent.2.log.data).map (fun read => lifecycleIn read.1) =
          .ok (.failed, "") := by
  decide +kernel

end Goobers.Journal
