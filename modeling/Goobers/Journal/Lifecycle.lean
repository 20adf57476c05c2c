import Goobers.Journal.CrashSafety

/-!
# Lifecycle events across a crash

`Append` syncs the event, then brings the handle's phase, machine state and reason
up to date, then writes the checkpoint. A crash between the first and the last of
these leaves a log that is one event ahead of the checkpoint, and `recover` has to
find the same lifecycle state from the two.

It does for `run.finished`, `run.resumed` and `gate.overridden`, as far as the log
holds the event as it was appended: the handle goes by the event it was given and
recovery by the one that was written, after redaction. A `stage.rerun.requested`
event is not looked at for the machine state at all.
-/

namespace Goobers.Journal

open Lib

/-! ## A handle from its creation on -/

def runStartedEvent (requestedTarget : String) : Event :=
  { type := .runStarted, status := "running", target := requestedTarget }

/-- `Create`: the first event and the first checkpoint, then the published run is opened. -/
def createRun (c : Codec) (io : WriteOutcome) (now : Int) (requestedTarget : String) :
    Except AppendError (Run × RunDir) :=
  match ({} : Run).append c io now {} (runStartedEvent requestedTarget) with
  | (_, _, .error e) => .error e
  | (r, log, .ok ()) =>
    match recover c io now ⟨log, some r.checkpoint⟩ with
    | (_, .error e) => .error e
    | (d, .ok r) => .ok (r, d)

/-- What the owner of a handle does with it. -/
inductive HandleAction where
  | append (io : WriteOutcome) (now : Int) (ev : Event)
  | setMachineState (state : String)
  | setBranch (branch : Int)
  | setBranchCursors (cursors : List BranchCursor)
  | checkpoint
  deriving DecidableEq, Repr

/-- Only appends and `Checkpoint` write; the setters wait for the next checkpoint. -/
def handleStep (c : Codec) : Run × RunDir → HandleAction → Run × RunDir
  | (r, d), .append io now ev =>
    let next := r.appendPrepared c io now d ev
    (next.1, next.2.1)
  | (r, d), .setMachineState state => ({ r with machineState := state }, d)
  | (r, d), .setBranch branch => ({ r with branch := branch }, d)
  | (r, d), .setBranchCursors cursors => ({ r with branches := cursors }, d)
  | (r, d), .checkpoint => (r, { d with state := some r.checkpoint })

def handleRun (c : Codec) (start : Run × RunDir) (actions : List HandleAction) : Run × RunDir :=
  actions.foldl (handleStep c) start

/-! ## The scans over a log with one more event -/

section
variable (events : List Event) {ev : Event}

theorem reconstructPhase_concat_finished (h : ev.type = .runFinished) :
    reconstructPhase (events ++ [ev]) = phaseFromStatus ev.status := by
  unfold reconstructPhase
  rw [List.reverse_concat, phaseNewestFirst, h]

theorem reconstructReason_concat_finished (h : ev.type = .runFinished) :
    reconstructReason (events ++ [ev]) = ev.errorMessage := by
  unfold reconstructReason
  rw [List.reverse_concat, reasonNewestFirst, h]

def EventType.Reenters (t : EventType) : Prop :=
  t = .stageRerunRequested ∨ t = .runResumed ∨ t = .gateOverridden

theorem reconstructPhase_concat_reenters (h : ev.type.Reenters) :
    reconstructPhase (events ++ [ev]) = .running := by
  unfold reconstructPhase
  rw [List.reverse_concat, phaseNewestFirst]
  rcases h with h | h | h <;> rw [h]

theorem reconstructReason_concat_reenters (h : ev.type.Reenters) :
    reconstructReason (events ++ [ev]) = "" := by
  unfold reconstructReason
  rw [List.reverse_concat, reasonNewestFirst]
  rcases h with h | h | h <;> rw [h]

theorem latestActiveResume_concat_resume (h : ev.type = .runResumed ∨ ev.type = .gateOverridden) :
    latestActiveResume (events ++ [ev]) = some ev := by
  unfold latestActiveResume
  rw [List.reverse_concat, resumeNewestFirst]
  rcases h with h | h <;> rw [h]

theorem latestActiveResume_concat_rerun (h : ev.type = .stageRerunRequested) :
    latestActiveResume (events ++ [ev]) = latestActiveResume events := by
  unfold latestActiveResume
  rw [List.reverse_concat, resumeNewestFirst, h]

end

/-- The machine state a running log and its checkpoint name: a resume's if the checkpoint has not
passed it, and else the checkpoint's. -/
def standingMachineState (events : List Event) (st : State) : String :=
  match latestActiveResume events with
  | some resumed => if st.lastSeq ≤ resumed.seq then resumed.target else st.machineState
  | none => st.machineState

/-- A running run is healed to the state its events stand at. -/
theorem healMachineState_running {events : List Event} (h : reconstructPhase events = .running)
    (st : State) : (healMachineState events (some st)).1 = standingMachineState events st := by
  unfold healMachineState standingMachineState
  rw [if_neg (fun hne => hne h)]
  cases latestActiveResume events with
  | none => rfl
  | some resumed =>
    dsimp only
    by_cases hseq : st.lastSeq ≤ resumed.seq
    · split
      · rfl
      -- the checkpoint is running and names the resume's target already
      rename_i hsame
      rw [not_and_or, not_or, Classical.not_not, Classical.not_not] at hsame
      exact (hsame.resolve_left (fun hle => hle hseq)).2
    · rw [if_neg hseq, if_neg (fun hand => hseq hand.1)]
      rfl

theorem healMachineState_terminal {events : List Event} (h : reconstructPhase events ≠ .running)
    (st : State) : (healMachineState events (some st)).1 = "" := by
  unfold healMachineState
  dsimp only
  rw [if_pos h]
  split_ifs with hsame
  · rfl
  rw [not_or, not_or, Classical.not_not, Classical.not_not] at hsame
  exact hsame.2.1

/-! ## The handle, its log and its checkpoint -/

section
variable {c : Codec}

/-- A reported append advances the number by one and adds its line. -/
theorem append_ok_spec {f : LogFile} {r : Run} (h : HandleInv c f r) {io : WriteOutcome}
    {now : Int} {ev : Event} (hok : (r.append c io now f ev).2.2 = .ok ()) :
    (r.append c io now f ev).1 = { r with seq := r.seq + 1 } ∧
      ∃ kept a, LogShape c f kept [] ∧ LogShape c (r.append c io now f ev).2.1 (kept ++ [a]) [] ∧
        a.event = r.stamped now ev := by
  obtain ⟨kept, torn, hlog, hready⟩ := h
  rcases append_kept hlog hready io now ev with
    ⟨e, -, herr, -⟩ | ⟨a, hevent, -, -, -, hres, hrun, hbefore, hclear, hafter, -⟩
  · exact absurd (herr.symm.trans hok) (by simp)
  · refine ⟨?_, kept, a, hbefore.toLogShape, hafter.toLogShape, hevent⟩
    rw [hrun, hclear, hres.mp hok]
    rfl

theorem append_seq_le {f : LogFile} {r : Run} (io : WriteOutcome) (now : Int) (ev : Event) :
    r.seq ≤ (r.append c io now f ev).1.seq := by
  unfold Run.append
  cases r.refusal c now f ev with
  | some e => exact Nat.le_refl _
  | none =>
    dsimp only
    generalize (if ev.branch = 0 then { ev with branch := r.branch } else ev) = ev'
    rcases appendEvent_cases c io now f r.seq ev' with ⟨e, heq⟩ | ⟨a, _, _, _, heq⟩
    · rw [heq]
    · rw [heq]
      cases io <;> exact Nat.le_succ _

@[simp] theorem applyLifecycle_seq (r : Run) (ev : Event) : (r.applyLifecycle ev).seq = r.seq := by
  unfold Run.applyLifecycle
  split <;> rfl

/-- Without a torn tail a recovery can only fail in its last step. -/
theorem recover_of_clean {d : RunDir} {events : List Event}
    (hread : readEvents c.unmarshal d.log.data = .ok (events, 0)) (io : WriteOutcome) (now : Int)
    (leftovers : Leftovers) :
    let r := recoveredRun events d.state
    (∀ r', (recover c io now d leftovers).2 = .ok r' ↔
        r' = r ∧ recoverCompletedTranscripts leftovers events = .ok ()) ∧
      (recover c io now d leftovers).1.state = (if needsCheckpoint events d.state then
        some r.checkpoint else d.state) := by
  intro r
  obtain ⟨hdir, hres⟩ := recover_of_read hread io now leftovers
  have hopen : reopen c io now d events 0 =
      ({ log := truncateTornTail d.log 0
         state := if needsCheckpoint events d.state then some r.checkpoint else d.state },
        .ok r) := by
    unfold reopen
    dsimp only
    rw [if_pos rfl]
    split <;> rfl
  rw [hdir, hopen]
  refine ⟨fun r' => ?_, rfl⟩
  rw [hres, hopen]
  simp only [Except.ok.injEq, eq_comm]

/-- The handle, its log and its checkpoint are in step. -/
structure HandleOk (c : Codec) (r : Run) (d : RunDir) : Prop where
  log : HandleInv c d.log r
  checkpoint : ∃ st, d.state = some st ∧ st.lastSeq ≤ r.seq

/-- An append and its checkpoint keep the handle in step with the directory. -/
theorem HandleOk.append {r : Run} {d : RunDir} (h : HandleOk c r d) (io : WriteOutcome)
    (now : Int) (ev : Event) :
    HandleOk c (r.appendPrepared c io now d ev).1 (r.appendPrepared c io now d ev).2.1 := by
  have happ := handleInv_append h.log io now ev
  have hseq := append_seq_le (c := c) (f := d.log) (r := r) io now ev
  obtain ⟨st, hst, hle⟩ := h.checkpoint
  unfold Run.appendPrepared
  split
  · rename_i heq
    rw [heq] at happ hseq
    exact ⟨happ, st, hst, Nat.le_trans hle hseq⟩
  · rename_i heq
    rw [heq] at happ
    refine ⟨happ.applyLifecycle ev, _, rfl, ?_⟩
    exact Nat.le_refl _

theorem HandleOk.of_eq {r r' : Run} {d : RunDir} (h : HandleOk c r d) (hseq : r'.seq = r.seq)
    (herr : r'.appendErr = r.appendErr) : HandleOk c r' d := by
  obtain ⟨kept, torn, hlog, hready⟩ := h.log
  refine ⟨⟨kept, torn, hlog, ?_⟩, ?_⟩
  · unfold Ready at hready ⊢
    rw [hseq, herr]
    exact hready
  · rw [hseq]
    exact h.checkpoint

theorem handleOk_step {r : Run} {d : RunDir} (h : HandleOk c r d) (a : HandleAction) :
    HandleOk c (handleStep c (r, d) a).1 (handleStep c (r, d) a).2 := by
  cases a with
  | append io now ev => exact h.append io now ev
  | setMachineState state | setBranch branch | setBranchCursors cursors => exact h.of_eq rfl rfl
  | checkpoint => exact ⟨h.log, _, rfl, Nat.le_refl _⟩

theorem handleOk_run {start : Run × RunDir} (h : HandleOk c start.1 start.2)
    (actions : List HandleAction) :
    HandleOk c (handleRun c start actions).1 (handleRun c start actions).2 := by
  induction actions generalizing start with
  | nil => exact h
  | cons a actions ih => exact ih (handleOk_step h a)

theorem handleOk_create {io : WriteOutcome} {now : Int} {requestedTarget : String}
    {start : Run × RunDir} (h : createRun c io now requestedTarget = .ok start) :
    HandleOk c start.1 start.2 := by
  have hinit : HandleInv c {} ({} : Run) := ⟨[], [], logInv_init, fun _ => ⟨rfl, by simp⟩⟩
  unfold createRun at h
  split at h
  · cases h
  rename_i r log heq
  have hok : (({} : Run).append c io now {} (runStartedEvent requestedTarget)).2.2 = .ok () := by
    rw [heq]
  have happ := handleInv_append hinit io now (runStartedEvent requestedTarget)
  have hclear := append_ok_clear hok
  obtain ⟨hrun, kept, a, -, hshape, ha⟩ := append_ok_spec hinit hok
  rw [heq] at happ hclear hrun hshape
  dsimp only at happ hclear hrun hshape
  obtain ⟨kept', hlog⟩ := happ.clean hclear
  have hrec := (handleInv_recover (d := ⟨log, some r.checkpoint⟩) hlog io now []).2
  obtain ⟨hres, hstate⟩ := recover_of_clean (d := ⟨log, some r.checkpoint⟩)
    hshape.readEvents_eq io now []
  split at h
  · cases h
  rename_i d' r' heq'
  cases h
  rw [heq'] at hrec hres hstate
  refine ⟨(hrec r' rfl).1, ?_⟩
  -- the checkpoint is the staged run's or the published one's
  have hres := ((hres r').mp rfl).1
  have hseq : r.checkpoint.lastSeq ≤ r'.seq := by
    rw [hres]
    have hmem : c.redact a.event ∈ (kept ++ [a]).map (fun a => c.redact a.event) :=
      List.mem_map_of_mem (by simp)
    have hle := le_highestEventSeq hmem
    rw [c.redact_seq, ha] at hle
    rw [hrun]
    exact hle
  rw [hstate]
  split
  · exact ⟨_, rfl, by rw [hres]; exact Nat.le_refl _⟩
  · exact ⟨_, rfl, hseq⟩

end

/-! ## A crash between an event and its checkpoint -/

def EventType.Lifecycle (t : EventType) : Prop := t = .runFinished ∨ t.Reenters

/-- Redaction replaces texts, never the type of an event. -/
def Codec.KeepsTypes (c : Codec) : Prop := ∀ ev, (c.redact ev).type = ev.type

/--
The log and the checkpoint tell what the event `ev`, of which the log holds
`recorded`, made of the handle. `events` is the log before it, `st` the checkpoint
before it.
-/
def LifecycleOnRecord (ev recorded : Event) (events : List Event) (st : State) : Prop :=
  match ev.type with
  | .runFinished =>
    phaseFromStatus recorded.status = phaseFromStatus ev.status ∧
      recorded.errorMessage = ev.errorMessage
  | .runResumed | .gateOverridden => recorded.target = ev.target
  | .stageRerunRequested => standingMachineState events st = ev.stage
  | _ => True

def Run.lifecycle (r : Run) : RunPhase × String × String := (r.phase, r.machineState, r.reason)

/-- What recovery makes of a log that ends in a lifecycle event, and when it is what the handle
had. -/
theorem recoveredRun_lifecycle_iff {ev recorded : Event} (hev : ev.type.Lifecycle)
    (htype : recorded.type = ev.type) {events : List Event} {st : State}
    (hseq : st.lastSeq ≤ recorded.seq) (r : Run) :
    (recoveredRun (events ++ [recorded]) (some st)).lifecycle = (r.applyLifecycle ev).lifecycle ↔
      LifecycleOnRecord ev recorded events st := by
  unfold Run.lifecycle recoveredRun
  rcases hev with hfin | hre
  · have hphase := reconstructPhase_concat_finished events (htype.trans hfin)
    have hstate := healMachineState_terminal
      (by rw [hphase]; exact phaseFromStatus_ne_running recorded.status) st
    rw [hphase, reconstructReason_concat_finished events (htype.trans hfin), hstate]
    unfold Run.applyLifecycle LifecycleOnRecord
    rw [hfin]
    simp
  · have hphase := reconstructPhase_concat_reenters events (htype ▸ hre)
    rw [healMachineState_running hphase st, hphase,
      reconstructReason_concat_reenters events (htype ▸ hre)]
    unfold standingMachineState
    rcases hre with hre | hre
    · rw [latestActiveResume_concat_rerun events (htype.trans hre)]
      unfold Run.applyLifecycle LifecycleOnRecord standingMachineState
      rw [hre]
      simp
    · rw [latestActiveResume_concat_resume events (by rw [htype]; exact hre)]
      unfold Run.applyLifecycle LifecycleOnRecord
      dsimp only
      rw [if_pos hseq]
      rcases hre with hre | hre <;> (rw [hre]; simp)

/--
**Which lifecycle events survive a crash before their checkpoint.** Take any run that
was created and then driven by appends, by the handle's setters and by checkpoints,
and a lifecycle event whose append returned success. Recovery from the log with the
event in it and the checkpoint from before it gives the phase, machine state and
reason the handle had exactly if log and checkpoint tell them, and if it returns a
handle: the cleanup of completed transcripts, its last step, must go through.
-/
theorem lifecycle_survives_crash_iff (c : Codec) (hkeeps : c.KeepsTypes) (ioCreate : WriteOutcome)
    (nowCreate : Int) (requestedTarget : String) (start : Run × RunDir)
    (hcreate : createRun c ioCreate nowCreate requestedTarget = .ok start)
    (actions : List HandleAction) (io : WriteOutcome) (now : Int) (ev : Event)
    (hev : ev.type.Lifecycle) (r r' : Run) (d d' : RunDir)
    (hrun : handleRun c start actions = (r, d))
    (happ : r.appendPrepared c io now d ev = (r', d', .ok ()))
    (ioRecover : WriteOutcome) (nowRecover : Int) (leftovers : Leftovers) :
    ∃ events st, readEvents c.unmarshal d.log.data = .ok (events, 0) ∧ d.state = some st ∧
      ((∃ recovered,
          (recover c ioRecover nowRecover ⟨d'.log, d.state⟩ leftovers).2 = .ok recovered ∧
            recovered.lifecycle = r'.lifecycle) ↔
        recoverCompletedTranscripts leftovers (events ++ [c.redact (r.stamped now ev)]) = .ok () ∧
          LifecycleOnRecord ev (c.redact (r.stamped now ev)) events st) := by
  have hok := handleOk_run (handleOk_create hcreate) actions
  rw [hrun] at hok
  obtain ⟨st, hst, hle⟩ := hok.checkpoint
  -- the append itself succeeded, and the handle went on from its own lifecycle
  have hparts : (r.append c io now d.log ev).2.2 = .ok () ∧
      r' = (r.append c io now d.log ev).1.applyLifecycle ev ∧
      d'.log = (r.append c io now d.log ev).2.1 := by
    unfold Run.appendPrepared at happ
    split at happ
    · cases happ
    rename_i heq
    cases happ
    rw [heq]
    exact ⟨rfl, rfl, rfl⟩
  obtain ⟨happend, hr', hd'⟩ := hparts
  obtain ⟨-, kept, a, hbefore, hafter, ha⟩ := append_ok_spec hok.log happend
  rw [← hd'] at hafter
  have hread := hbefore.readEvents_eq
  have hrec := (recover_of_clean (d := ⟨d'.log, d.state⟩) hafter.readEvents_eq ioRecover
    nowRecover leftovers).1
  rw [List.map_append, List.map_singleton, ha, hst] at hrec
  refine ⟨_, st, hread, hst, ?_⟩
  have htype : (c.redact (r.stamped now ev)).type = ev.type := by
    rw [hkeeps]
    unfold Run.stamped
    split <;> rfl
  have hseq : st.lastSeq ≤ (c.redact (r.stamped now ev)).seq := by
    rw [c.redact_seq]
    exact Nat.le_succ_of_le hle
  rw [hst, hr', ← recoveredRun_lifecycle_iff hev htype hseq (r.append c io now d.log ev).1]
  constructor
  · rintro ⟨recovered, hok, hsame⟩
    obtain ⟨rfl, hclean⟩ := (hrec recovered).mp hok
    exact ⟨hclean, hsame⟩
  · rintro ⟨hclean, hsame⟩
    exact ⟨_, (hrec _).mpr ⟨rfl, hclean⟩, hsame⟩

def createdRun : Run × RunDir := (createRun textCodec .ok 0 "").toOption.getD ({}, {})

def failedRun : Run × RunDir :=
  handleRun textCodec createdRun [.append .ok 1 { type := .runFinished, status := "failed" }]

theorem failedRun_resume_recovered :
    let ev : Event := { type := .runResumed, target := "review" }
    let live := failedRun.1.appendPrepared textCodec .ok 2 failedRun.2 ev
    ∃ recovered, (recover textCodec .ok 3 ⟨live.2.1.log, failedRun.2.state⟩).2 = .ok recovered ∧
      recovered.lifecycle = live.1.lifecycle := by
  intro ev live
  have hok : live.2.2 = .ok () := by decide
  have hlive : live = (live.1, live.2.1, .ok ()) := by rw [← hok]
  obtain ⟨events, st, hread, -, hiff⟩ :=
    lifecycle_survives_crash_iff textCodec (fun _ => rfl) .ok 0 "" createdRun (by decide)
      [.append .ok 1 { type := .runFinished, status := "failed" }] .ok 2 ev
      (.inr (.inr (.inl rfl))) failedRun.1 live.1 failedRun.2 live.2.1 Prod.mk.eta.symm
      hlive .ok 3 []
  have hevents : (readEvents textUnmarshal failedRun.2.log.data).map Prod.fst = .ok events :=
    congrArg (Except.map Prod.fst) hread
  have hspans : ((readEvents textUnmarshal failedRun.2.log.data).map Prod.fst).map
      (fun events => recoverCompletedTranscripts [] (events ++ [failedRun.1.stamped 2 ev])) =
        .ok (.ok ()) := by
    decide +kernel
  rw [hevents] at hspans
  exact hiff.mpr ⟨Except.ok.inj hspans, rfl⟩

theorem failedRun_rerun_lost :
    let ev : Event := { type := .stageRerunRequested, stage := "build" }
    let live := failedRun.1.appendPrepared textCodec .ok 2 failedRun.2 ev
    live.2.2 = .ok () ∧ live.1.lifecycle = (.running, "build", "") ∧
      (recover textCodec .ok 3 ⟨live.2.1.log, failedRun.2.state⟩).2.map Run.lifecycle
        = .ok (.running, "", "") := by
  decide +kernel

/-! ## The recovery of the other backends -/

/-- `RecoverState`: the derived fields of a checkpoint, rebuilt from the committed events. -/
def recoverState (prior : State) (events : List Event) : State where
  phase := reconstructPhase events
  reason := reconstructReason events
  branches := (reconstructBranchCursors events).getD []
  lastSeq := highestEventSeq events
  machineState :=
    if reconstructPhase events ≠ .running then ""
    else
      match latestActiveResume events with
      | some resumed =>
        if prior.lastSeq ≤ resumed.seq then resumed.target else prior.machineState
      | none => prior.machineState

theorem healBranches_fst (events : List Event) (branches : List BranchCursor) :
    (healBranches events branches).1 = (reconstructBranchCursors events).getD [] := by
  unfold healBranches
  split
  · rename_i cursors hlog
    rw [hlog]
    split
    · rfl
    · rename_i heq
      exact not_not.mp heq
  · rename_i hlog
    rw [hlog]
    split_ifs with heq
    · rfl
    · exact not_not.mp heq

theorem healMachineState_fst (events : List Event) (prior : State) :
    (healMachineState events (some prior)).1 = (recoverState prior events).machineState := by
  unfold healMachineState recoverState
  dsimp only [Option.map_some, Option.getD_some]
  split
  · split_ifs with hsame
    · rfl
    · simp only [not_or, not_not] at hsame
      exact hsame.2.1
  · cases latestActiveResume events with
    | none => rfl
    | some resumed =>
      dsimp only
      by_cases hseq : prior.lastSeq ≤ resumed.seq
      · split_ifs with hsame
        · rfl
        · simp only [hseq, true_and, not_or, not_not] at hsame
          exact hsame.2
      · rw [if_neg hseq, if_neg (fun h => hseq h.1)]

/--
**The two recoveries agree.** On a log without a torn tail and any checkpoint, the handle
`Recover` returns has the lifecycle state, branch cursors and number that `RecoverState`
derives from the same events and the same checkpoint. It returns one unless the cleanup of
completed transcripts fails, which `RecoverState` does not do.
-/
theorem recover_eq_recoverState (c : Codec) (d : RunDir) (prior : State) (events : List Event)
    (hread : readEvents c.unmarshal d.log.data = .ok (events, 0)) (hstate : d.state = some prior)
    (io : WriteOutcome) (now : Int) (leftovers : Leftovers) :
    (∀ r, (recover c io now d leftovers).2 = .ok r →
        r.checkpoint = recoverState prior events) ∧
      ((∃ r, (recover c io now d leftovers).2 = .ok r) ↔
        recoverCompletedTranscripts leftovers events = .ok ()) := by
  have hrec := (recover_of_clean hread io now leftovers).1
  refine ⟨fun r hok => ?_, fun ⟨r, hok⟩ => ((hrec r).mp hok).2,
    fun hclean => ⟨_, (hrec _).mpr ⟨rfl, hclean⟩⟩⟩
  obtain ⟨rfl, -⟩ := (hrec r).mp hok
  unfold Run.checkpoint recoveredRun
  rw [hstate, healMachineState_fst, healBranches_fst]
  rfl

theorem failedRun_recovered_alike :
    let events := ((readEvents textUnmarshal failedRun.2.log.data).toOption.getD ([], 0)).1
    ∃ r, (recover textCodec .ok 3 ⟨failedRun.2.log, createdRun.2.state⟩).2 = .ok r ∧
      r.checkpoint = recoverState createdRun.1.checkpoint events := by
  intro events
  obtain ⟨hsame, hopens⟩ := recover_eq_recoverState textCodec
    ⟨failedRun.2.log, createdRun.2.state⟩ createdRun.1.checkpoint events (by decide +kernel)
    (by decide +kernel) .ok 3 []
  obtain ⟨r, hok⟩ := hopens.mpr (by decide +kernel)
  exact ⟨r, hok, hsame r hok⟩

end Goobers.Journal
