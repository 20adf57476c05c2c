import Goobers.Journal.Parking
import Goobers.Journal.Lifecycle

/-!
# A terminal outcome outlives every restart

Nothing but recoveries writes to the log of a run that has ended, and a recovery adds at
most its own `repaired` line. Whatever crashes do in between, the log keeps the lines it
ended with and then has some of those, and no scan for the phase or the reason stops at one.
-/

namespace Goobers.Journal

open Lib List

def Action.Restarts : Action → Prop
  | .recover _ _ _ | .crash _ _ | .close => True
  | _ => False

/-- Scrubbing makes no lifecycle event or gate verdict of a `repaired` event. -/
def Codec.RepairsQuietly (c : Codec) : Prop :=
  ∀ ev, ev.type = .repaired → (c.redact ev).decidesPhase = false

/-! ## The scans pass over a quiet event -/

theorem reasonNewestFirst_of_not_decides {ev : Event} {older : List Event}
    (h : ev.decidesPhase = false) : reasonNewestFirst (ev :: older) = reasonNewestFirst older := by
  unfold Event.decidesPhase at h
  rw [reasonNewestFirst]
  cases ht : ev.type <;> rw [ht] at h <;> simp_all

theorem reconstruct_append_quiet (events : List Event) {more : List Event}
    (h : ∀ ev ∈ more, ev.decidesPhase = false) :
    reconstructPhase (events ++ more) = reconstructPhase events ∧
      reconstructReason (events ++ more) = reconstructReason events := by
  unfold reconstructPhase reconstructReason
  induction more using reverseRecOn with
  | nil => simp
  | append_singleton more ev ih =>
    have hev : ev.decidesPhase = false := h ev (by simp)
    rw [← append_assoc, reverse_concat, phaseNewestFirst_of_not_decides hev,
      reasonNewestFirst_of_not_decides hev]
    exact ih (fun ev' hmem => h ev' (mem_append_left _ hmem))

/-! ## Recovering an ended run -/

variable {c : Codec} {events : List Event} {torn : Nat} {data : Bytes}

/-- What a recovery of a run that has ended returns and leaves behind. -/
def EndsAs (phase : RunPhase) (reason : String) (r : Run) (d : RunDir) : Prop :=
  r.phase = phase ∧ r.reason = reason ∧
    ∃ st, d.state = some st ∧ st.phase = phase ∧ st.machineState = ""

theorem healMachineState_ended (hended : reconstructPhase events ≠ .running)
    (disk : Option State) : (healMachineState events disk).1 = "" := by
  cases disk with
  | none => simp [healMachineState, hended]
  | some st => exact healMachineState_terminal hended st

theorem checkpoint_of_not_needed (hended : reconstructPhase events ≠ .running)
    {disk : Option State} (h : needsCheckpoint events disk = false) :
    ∃ st, disk = some st ∧ st.phase = reconstructPhase events ∧ st.machineState = "" := by
  have hheal := (Bool.or_eq_false_iff.mp h).2
  unfold healMachineState at hheal
  cases disk with
  | none => simp [hended] at hheal
  | some st =>
    simp only [hended, ne_eq, not_false_eq_true, if_true] at hheal
    split at hheal
    · cases hheal
    · rename_i hsame
      rw [not_or, not_or, Classical.not_not, Classical.not_not] at hsame
      exact ⟨st, rfl, hsame.1, hsame.2.1⟩

theorem append_lifecycleState (r : Run) (f : LogFile) (io : WriteOutcome) (now : Int)
    (ev : Event) : (r.append c io now f ev).1.phase = r.phase ∧
      (r.append c io now f ev).1.reason = r.reason ∧
      (r.append c io now f ev).1.machineState = r.machineState := by
  unfold Run.append
  split
  · exact ⟨rfl, rfl, rfl⟩
  · dsimp only
    split <;> exact ⟨rfl, rfl, rfl⟩

/--
**A recovery of an ended run** returns how it ended, and does return if its write and the
cleanup of transcripts succeed.
-/
theorem recover_ended (hquiet : c.RepairsQuietly) {d : RunDir} {more : List Event}
    (hended : reconstructPhase events ≠ .running) (hmore : ∀ ev ∈ more, ev.type = .repaired)
    (hread : readEvents c.unmarshal d.log.data = .ok (events ++ more.map c.redact, torn))
    (io : WriteOutcome) (now : Int) (leftovers : Leftovers) :
    (RepairedFits c → io = .ok →
        recoverCompletedTranscripts leftovers (events ++ more.map c.redact) = .ok () →
        ∃ r, (recover c io now d leftovers).2 = .ok r) ∧
      ∀ r, (recover c io now d leftovers).2 = .ok r →
        EndsAs (reconstructPhase events) (reconstructReason events) r
          (recover c io now d leftovers).1 := by
  have hpass : ∀ ev ∈ more.map c.redact, ev.decidesPhase = false := by
    intro ev hev
    obtain ⟨ev', hmem, rfl⟩ := mem_map.mp hev
    exact hquiet ev' (hmore ev' hmem)
  obtain ⟨hphase, hreason⟩ := reconstruct_append_quiet events hpass
  rw [← hphase] at hended
  rw [← hphase, ← hreason]
  obtain ⟨hdir, hres⟩ := recover_of_read hread io now leftovers
  simp only [hdir, hres]
  -- the last step decides only whether the handle is returned
  suffices hopen : (RepairedFits c → io = .ok →
        ∃ r, (reopen c io now d (events ++ more.map c.redact) torn).2 = .ok r) ∧
      ∀ r, (reopen c io now d (events ++ more.map c.redact) torn).2 = .ok r →
        EndsAs (reconstructPhase (events ++ more.map c.redact))
          (reconstructReason (events ++ more.map c.redact)) r
          (reopen c io now d (events ++ more.map c.redact) torn).1 by
    refine ⟨fun hfits hio hclean => ?_, fun r hok => hopen.2 r hok.1⟩
    obtain ⟨r, hok⟩ := hopen.1 hfits hio
    exact ⟨r, hok, hclean⟩
  unfold reopen
  dsimp only
  have hempty := healMachineState_ended hended d.state
  split
  · split_ifs with hneeds
    · refine ⟨fun _ _ => ⟨_, rfl⟩, ?_⟩
      rintro r ⟨⟩
      exact ⟨rfl, rfl, _, rfl, rfl, hempty⟩
    · refine ⟨fun _ _ => ⟨_, rfl⟩, ?_⟩
      rintro r ⟨⟩
      exact ⟨rfl, rfl, checkpoint_of_not_needed hended (by simpa using hneeds)⟩
  · generalize hr : recoveredRun (events ++ more.map c.redact) d.state = r
    have hstate := append_lifecycleState (c := c) r (truncateTornTail d.log torn) io now
      (repairedEvent torn)
    have hok : RepairedFits c → io = .ok →
        (r.append c io now (truncateTornTail d.log torn) (repairedEvent torn)).2.2 = .ok () := by
      rintro hfits rfl
      exact append_repaired_ok hfits (hr ▸ rfl) now _ torn
    subst hr
    split
    · rename_i heq
      rw [heq] at hok
      exact ⟨fun hfits hio => absurd (hok hfits hio) (by simp), fun r hr => by cases hr⟩
    · rename_i heq
      rw [heq] at hstate
      refine ⟨fun _ _ => ⟨_, rfl⟩, ?_⟩
      rintro _ ⟨⟩
      obtain ⟨hp, hre, hm⟩ := hstate
      exact ⟨hp, hre, _, rfl, hp, hm.trans hempty⟩

/-! ## Every restart -/

/-- Only records of repairs came after the lines of `first`, and those no crash can take. -/
structure OnlyRepairs (c : Codec) (first f : LogFile) : Prop
    extends RepairsOf c (fun ev => ev.type = .repaired) first f where
  safe : Stored f (lines newline first.data)

theorem OnlyRepairs.crash {first f : LogFile} (h : OnlyRepairs c first f) (n fill : Nat) :
    OnlyRepairs c first (f.crash n fill) := by
  obtain ⟨hlines, hsafe⟩ := h.safe.crash n fill
  obtain ⟨added, hadded, hsound⟩ := h.added
  obtain ⟨left, hleft⟩ := hsafe.first
  rw [hadded, ← hleft, prefix_append_right_inj] at hlines
  refine ⟨⟨⟨added.take left.length, ?_, ?_⟩, ?_⟩, hsafe⟩
  · rw [← hleft, map_take, ← prefix_iff_eq_take.mp hlines]
  · exact fun a ha => hsound a (mem_of_mem_take ha)
  · exact fun ls hls => ((h.stored ls hls).crash n fill).2

theorem OnlyRepairs.trans {first f f' : LogFile} (h : OnlyRepairs c first f)
    (h' : RepairsOf c (fun ev => ev.type = .repaired) f f') : OnlyRepairs c first f' := by
  obtain ⟨added, hadded, hsound⟩ := h.added
  obtain ⟨added', hadded', hsound'⟩ := h'.added
  refine ⟨⟨⟨added ++ added', ?_, ?_⟩, fun ls hls => h'.stored ls (h.stored ls hls)⟩,
    h'.stored _ h.safe⟩
  · rw [hadded', hadded, map_append, append_assoc]
  · exact fun a ha => (mem_append.mp ha).elim (hsound a) (hsound' a)

/-- A restart of a finished run adds repair records and nothing else. -/
theorem onlyRepairs_step {first : LogFile} {w : World} (h : OnlyRepairs c first w.dir.log)
    {a : Action} (ha : a.Restarts) : OnlyRepairs c first (w.step c a).1.dir.log := by
  cases a with
  | append io now ev | repairAppendBoundary io now => exact absurd ha id
  | recover io now leftovers =>
    have hrec := h.trans (recover_repairs w.dir io now leftovers
      (fun _ _ _ _ _ => by unfold Run.stamped; split <;> rfl))
    unfold World.step
    cases w.handle with
    | some r => exact h
    | none =>
      dsimp only
      split
      · rename_i heq
        rwa [heq] at hrec
      · rename_i heq
        rwa [heq] at hrec
  | crash kept fill => exact h.crash kept fill
  | close => exact h

/--
**A terminal outcome is stable under any number of restarts.** Take any run directory whose
log, with its complete lines on stable storage, reads as the log of a run that has ended, and
any crashes and recoveries; a recovery that is interrupted is one whose write stops or whose
fsync fails, and then a crash. The log still begins with the same events. A further recovery
returns the phase and the reason the run ended with and leaves a checkpoint with that phase
and no machine state; it does return if its own write succeeds and the cleanup of completed
transcripts, the last step of every recovery, goes through.
-/
theorem terminal_outcome_stable (c : Codec) (hquiet : c.RepairsQuietly) (d : RunDir)
    (hstored : (complete newline d.log.data).length ≤ d.log.durable) {events : List Event}
    {torn : Nat} (hread : readEvents c.unmarshal d.log.data = .ok (events, torn))
    (hended : reconstructPhase events ≠ .running) (restarts : List Action)
    (hrestarts : ∀ a ∈ restarts, a.Restarts) :
    let dir := (World.run c ⟨d, none⟩ restarts).dir
    ∃ more tornBytes, readEvents c.unmarshal dir.log.data = .ok (events ++ more, tornBytes) ∧
      ∀ io now leftovers,
        (RepairedFits c → io = .ok →
          recoverCompletedTranscripts leftovers (events ++ more) = .ok () →
          ∃ r, (recover c io now dir leftovers).2 = .ok r) ∧
        ∀ r, (recover c io now dir leftovers).2 = .ok r →
          EndsAs (reconstructPhase events) (reconstructReason events) r
            (recover c io now dir leftovers).1 := by
  intro dir
  have hrun : ∀ w : World, OnlyRepairs c d.log w.dir.log →
      OnlyRepairs c d.log (w.run c restarts).dir.log := by
    induction restarts with
    | nil => exact fun w h => h
    | cons a restarts ih =>
      exact fun w h => ih (fun b hb => hrestarts b (mem_cons_of_mem a hb)) _
        (onlyRepairs_step h (hrestarts a mem_cons_self))
  rw [complete_eq_frame_lines] at hstored
  have hdir : OnlyRepairs c d.log dir.log :=
    hrun ⟨d, none⟩ ⟨RepairsOf.refl d.log, prefix_refl _, hstored⟩
  obtain ⟨more, hmore, hrepairs⟩ := hdir.read hread
  exact ⟨_, _, hmore, recover_ended hquiet hended (fun ev hev => (hrepairs ev hev).2) hmore⟩

/-- A failed run, and a line after its end that was cut short. -/
def failedDir : RunDir :=
  (World.init.run textCodec
    [.append .ok 1 { type := .runFinished, status := "failed" },
     .append (.stops 5) 2 { type := .stageStarted }]).dir

/-- The first recovery is cut in its own line, and the second finds what is left of that. -/
theorem failedDir_stays_failed :
    let restarts := [.crash 3 2, .recover (.stops 4) 3, .crash 9 0, .recover .ok 4, .crash 0 1]
    let dir := (World.run textCodec ⟨failedDir, none⟩ restarts).dir
    ∀ r, (recover textCodec .ok 5 dir).2 = .ok r →
      EndsAs .failed "" r (recover textCodec .ok 5 dir).1 := by
  have hread : readEvents textCodec.unmarshal failedDir.log.data =
      .ok ([stampEvent 1 1 { type := .runFinished, status := "failed" }], 5) := by
    decide +kernel
  have hquiet : textCodec.RepairsQuietly := by
    intro ev hev
    show ev.decidesPhase = false
    rw [Event.decidesPhase, hev]
  intro restarts dir
  obtain ⟨more, torn, -, hends⟩ := terminal_outcome_stable textCodec hquiet failedDir (by decide)
    hread (by decide) restarts (by simp [restarts, Action.Restarts])
  exact (hends .ok 5 []).2

end Goobers.Journal
