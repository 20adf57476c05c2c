import Goobers.Journal.Parse
import Goobers.Journal.Phase

/-!
# The bounded phase read

`Phase` parses the whole event log to find the one record that decides the run's
phase. `PhaseBounded` reads the log backwards in growing windows and stops at the
decisive record; when its byte budget runs out first it reads the log forwards
from the start, one piece at a time.

The backward half is exact: whatever window it answers from, the answer is
`reconstructPhase`'s. The forward half is a second, smaller program. It follows
only the lifecycle records, so a terminal gate evaluation further back than the
budget is lost, and it bounds the torn tail, which `Phase` does not.
`phaseBounded_eq_phase_iff` says exactly on which logs the two reads agree.
-/

namespace Goobers.Journal

open Lib List

variable {window chunkSize : Nat} {data : Bytes}

/-- How many bytes the backward scan may read before it gives up. -/
def runPhaseTailBudget : Nat := maxEventBytes

/-- The first backward step, and the size of a forward read. -/
def runPhaseChunkSize : Nat := 16 * 1024

/-- The cap on the geometric growth of the backward step. -/
def runPhaseMaxChunkSize : Nat := 1024 * 1024

/-! ## The backward scan -/

/-- A terminal gate evaluation whose execution the scan has not settled yet. -/
structure TerminalGate where
  gate : String
  branch : Int
  phase : RunPhase
  deriving DecidableEq, Repr

/-- Where the backward scan stands. -/
inductive Scan where
  | found (phase : RunPhase)
  | looking (terminalGate : Option TerminalGate)
  deriving DecidableEq, Repr

/-- One record of the backward scan. -/
def decisiveStep (terminalGate : Option TerminalGate) (ev : Event) : Scan :=
  match terminalGate with
  | some g =>
    if ev.branch ≠ g.branch then .looking (some g)
    else if ev.gate ≠ g.gate then
      if ev.type = .gatePaused ∨ ev.type = .gateStarted then .looking (some g)
      else .found g.phase
    else
      match ev.type with
      | .gateStarted | .gateEvaluated => .found g.phase
      | .gatePaused => .found .running
      | _ => .looking (some g)
  | none =>
    match ev.type with
    | .stageRerunRequested | .runResumed | .gateOverridden => .found .running
    | .runFinished => .found (phaseFromStatus ev.status)
    | .gateEvaluated =>
      .looking ((phaseFromTerminalTarget ev.target).map (fun phase => ⟨ev.gate, ev.branch, phase⟩))
    | _ => .looking none

section
variable (unmarshal : Bytes → Option Event)

/-- The loop of `decisivePhaseInChunk`, over the lines of the buffer newest first. -/
def scanLines : Option TerminalGate → List Bytes → Except ReadError Scan
  | terminalGate, [] => .ok (.looking terminalGate)
  | terminalGate, l :: older =>
    let line := cleanLine l
    if line = [] then scanLines terminalGate older
    else
      match unmarshal line with
      | none => .error .corrupt
      | some ev =>
        match decisiveStep terminalGate ev with
        | .found phase => .ok (.found phase)
        | .looking terminalGate => scanLines terminalGate older

/--
The phase the records of `buf` decide, if they do. `buf` ends in a newline or is
empty. Unless it begins the file, its first line may be the end of a longer one
and is not looked at.
-/
def decisivePhaseInChunk (buf : Bytes) (atFileStart : Bool) : Except ReadError (Option RunPhase) :=
  let whole := if atFileStart then lines newline buf else (lines newline buf).tail
  match scanLines unmarshal none whole.reverse with
  | .error e => .error e
  | .ok (.found phase) => .ok (some phase)
  | .ok (.looking (some g)) => if atFileStart then .ok (some g.phase) else .ok none
  | .ok (.looking none) => .ok none

/-- What the backward read comes to. -/
inductive TailPhase where
  | decided (phase : RunPhase)
  | budgetExhausted
  | failed (err : ReadError)
  deriving DecidableEq, Repr

def nextChunkSize (chunkSize : Nat) : Nat :=
  if chunkSize < runPhaseMaxChunkSize then chunkSize * 2 else chunkSize

/--
The loop of `tailPhase`. The window is the file from `start` to its end. Where the
torn tail begins is known once the window holds a newline or the whole file; the
records before it are `complete newline window`.
-/
def tailPhaseLoop (data : Bytes) (start chunkSize : Nat) : TailPhase :=
  if _h : 0 < start ∧ 0 < chunkSize then
    let chunkStart := start - chunkSize
    let window := data.drop chunkStart
    let tailKnown := newline ∈ window ∨ chunkStart = 0
    let scanned :=
      if tailKnown then decisivePhaseInChunk unmarshal (complete newline window) (chunkStart = 0)
      else .ok none
    match scanned with
    | .error e => .failed e
    | .ok (some phase) => .decided phase
    | .ok none =>
      if chunkStart = 0 then .decided .running
      else if window.length ≥ runPhaseTailBudget then .budgetExhausted
      else tailPhaseLoop data chunkStart (nextChunkSize chunkSize)
  else .decided .running
termination_by start
decreasing_by omega

def tailPhase (data : Bytes) : TailPhase :=
  tailPhaseLoop unmarshal data data.length runPhaseChunkSize

/-! ## The forward read -/

/-- One record of the forward read. -/
def lifecycleStep (phase : RunPhase) (ev : Event) : RunPhase :=
  match ev.type with
  | .stageRerunRequested | .runResumed | .gateOverridden => .running
  | .runFinished => phaseFromStatus ev.status
  | _ => phase

/-- The inner loop of `phaseFromReader`: the complete lines of what was read. -/
def drainLines : RunPhase → List Bytes → Except ReadError RunPhase
  | phase, [] => .ok phase
  | phase, l :: ls =>
    let line := cleanLine l
    if line = [] then drainLines phase ls
    else
      match unmarshal line with
      | none => .error .corrupt
      | some ev => drainLines (lifecycleStep phase ev) ls

/-- The outer loop of `phaseFromReader`, over the pieces the reader returns. -/
def phaseFromReads : RunPhase → Bytes → List Bytes → Except ReadError RunPhase
  | phase, pending, [] => if pending.length > maxEventBytes then .error .tooLong else .ok phase
  | phase, pending, piece :: pieces =>
    match drainLines unmarshal phase (lines newline (pending ++ piece)) with
    | .error e => .error e
    | .ok phase =>
      let pending := tornTail newline (pending ++ piece)
      if pending.length > maxEventBytes then .error .tooLong
      else phaseFromReads phase pending pieces

end

/-- The pieces of at most `size` bytes in which a file is read to its end. -/
def fileReads (size : Nat) : Nat → Bytes → List Bytes
  | 0, _ => []
  | fuel + 1, data =>
    if data = [] then [] else data.take size :: fileReads size fuel (data.drop size)

section
variable (unmarshal : Bytes → Option Event)

def phaseFromReader (data : Bytes) : Except ReadError RunPhase :=
  phaseFromReads unmarshal .running [] (fileReads runPhaseChunkSize data.length data)

/-- The full read: every record is parsed, a missing log is an empty one. -/
def phase (data : Bytes) : Except ReadError RunPhase :=
  match readEvents unmarshal data with
  | .error e => .error e
  | .ok (events, _) => .ok (reconstructPhase events)

def phaseBounded (data : Bytes) : Except ReadError RunPhase :=
  match tailPhase unmarshal data with
  | .decided phase => .ok phase
  | .failed e => .error e
  | .budgetExhausted => phaseFromReader unmarshal data

end

/-! ## The scan over events -/

/-- The backward scan over the events themselves, newest first. -/
def scanEvents : Option TerminalGate → List Event → Scan
  | terminalGate, [] => .looking terminalGate
  | terminalGate, ev :: older =>
    match decisiveStep terminalGate ev with
    | .found phase => .found phase
    | .looking terminalGate => scanEvents terminalGate older

def Scan.phaseOver (older : List Event) : Scan → RunPhase
  | .found phase => phase
  | .looking none => phaseNewestFirst older
  | .looking (some g) =>
    if terminalGateExecuted g.gate g.branch older then g.phase else .running

def Scan.isFound : Scan → Bool
  | .found _ => true
  | .looking _ => false

theorem decisiveStep_phaseOver (terminalGate : Option TerminalGate) (ev : Event)
    (older : List Event) :
    (decisiveStep terminalGate ev).phaseOver older
      = (Scan.looking terminalGate).phaseOver (ev :: older) := by
  cases terminalGate with
  | none =>
    simp only [decisiveStep, Scan.phaseOver, phaseNewestFirst]
    cases ev.type <;> simp only
    cases phaseFromTerminalTarget ev.target <;> simp
  | some g =>
    simp only [decisiveStep, Scan.phaseOver, terminalGateExecuted]
    by_cases hbranch : ev.branch ≠ g.branch
    · simp [hbranch]
    · by_cases hgate : ev.gate ≠ g.gate
      · by_cases hpause : ev.type = .gatePaused ∨ ev.type = .gateStarted
        · simp [hgate, hpause]
        · simp [hbranch, hgate, hpause]
      · simp only [hbranch, hgate]
        cases ev.type <;> simp

/-- **The backward scan is `reconstructPhase` stopped early.** -/
theorem scanEvents_phaseOver (terminalGate : Option TerminalGate) (newer older : List Event) :
    (scanEvents terminalGate newer).phaseOver older
      = (Scan.looking terminalGate).phaseOver (newer ++ older) := by
  induction newer generalizing terminalGate with
  | nil => rfl
  | cons ev newer ih =>
    rw [cons_append, ← decisiveStep_phaseOver]
    unfold scanEvents
    cases decisiveStep terminalGate ev with
    | found p => rfl
    | looking g => exact ih g

theorem scanEvents_append (terminalGate : Option TerminalGate) (newer older : List Event) :
    scanEvents terminalGate (newer ++ older) =
      match scanEvents terminalGate newer with
      | .found phase => .found phase
      | .looking g => scanEvents g older := by
  induction newer generalizing terminalGate with
  | nil => rfl
  | cons ev newer ih =>
    simp only [cons_append, scanEvents]
    cases decisiveStep terminalGate ev with
    | found p => rfl
    | looking g => exact ih g

/-! ## The scan over lines -/

section
variable (unmarshal : Bytes → Option Event)

def loggedEvents (data : Bytes) : List Event :=
  (lines newline data).filterMap (decodeLine unmarshal)

/-- The records that lie wholly in the last `window` bytes, newest first. -/
def windowEvents (data : Bytes) (window : Nat) : List Event :=
  ((lines newline (data.drop (data.length - window))).tail.filterMap
    (decodeLine unmarshal)).reverse

variable {unmarshal}

theorem decodeLine_of_lineOk {l : Bytes} (hok : LineOk unmarshal l) (hfill : cleanLine l ≠ []) :
    ∃ ev, unmarshal (cleanLine l) = some ev ∧ decodeLine unmarshal l = some ev := by
  rcases hok.2 with h | ⟨ev, h⟩
  · exact absurd h hfill
  · exact ⟨ev, h, by simp [decodeLine, hfill, h]⟩

theorem scanLines_eq {ls : List Bytes} (hok : ∀ l ∈ ls, LineOk unmarshal l)
    (terminalGate : Option TerminalGate) :
    scanLines unmarshal terminalGate ls
      = .ok (scanEvents terminalGate (ls.filterMap (decodeLine unmarshal))) := by
  induction ls generalizing terminalGate with
  | nil => rfl
  | cons l ls ih =>
    have hrest := ih (fun m hm => hok m (by simp [hm]))
    unfold scanLines
    by_cases hfill : cleanLine l = []
    · simp [hfill, decodeLine, hrest]
    · obtain ⟨ev, hev, hdec⟩ := decodeLine_of_lineOk (hok l (by simp)) hfill
      simp only [hfill, hev, filterMap_cons, hdec, scanEvents]
      cases decisiveStep terminalGate ev with
      | found p => rfl
      | looking g => exact hrest g

theorem drainLines_eq {ls : List Bytes} (hok : ∀ l ∈ ls, LineOk unmarshal l) (p : RunPhase) :
    drainLines unmarshal p ls
      = .ok ((ls.filterMap (decodeLine unmarshal)).foldl lifecycleStep p) := by
  induction ls generalizing p with
  | nil => rfl
  | cons l ls ih =>
    have hrest := ih (fun m hm => hok m (by simp [hm]))
    unfold drainLines
    by_cases hfill : cleanLine l = []
    · simp [hfill, decodeLine, hrest]
    · obtain ⟨ev, hev, hdec⟩ := decodeLine_of_lineOk (hok l (by simp)) hfill
      simp only [hfill, hev, filterMap_cons, hdec]
      exact hrest _

theorem windowEvents_prefix (data : Bytes) (window : Nat) :
    windowEvents unmarshal data window <+: (loggedEvents unmarshal data).reverse := by
  unfold windowEvents loggedEvents
  rw [List.reverse_prefix]
  exact (window_lines_suffix newline data _).filterMap _

/-- A wider window shows the same newest events, and older ones. -/
theorem windowEvents_mono (data : Bytes) {wider : Nat} (h : window ≤ wider) :
    windowEvents unmarshal data window <+: windowEvents unmarshal data wider := by
  unfold windowEvents
  rw [List.reverse_prefix]
  refine List.IsSuffix.filterMap _ ?_
  have hle : data.length - wider ≤ data.length - window := by omega
  have hcut : data.drop (data.length - wider)
      = (data.drop (data.length - wider)).take (data.length - window - (data.length - wider))
        ++ data.drop (data.length - window) := by
    have hdrop : data.drop (data.length - window) = (data.drop (data.length - wider)).drop
        (data.length - window - (data.length - wider)) := by
      rw [drop_drop, Nat.add_sub_cancel' hle]
    rw [hdrop, take_append_drop]
  rw [hcut]
  exact tail_lines_suffix newline _ _

/-! ## The windows -/

variable (unmarshal) in
/-- Whether the records wholly inside the last `window` bytes settle the phase. -/
def windowDecides (data : Bytes) (window : Nat) : Bool :=
  (scanEvents none (windowEvents unmarshal data window)).isFound

theorem windowDecides_mono {wider : Nat} (h : window ≤ wider)
    (hdec : windowDecides unmarshal data window = true) :
    windowDecides unmarshal data wider = true := by
  obtain ⟨rest, hrest⟩ := windowEvents_mono data h
  unfold windowDecides at hdec ⊢
  rw [← hrest, scanEvents_append]
  cases hscan : scanEvents none (windowEvents unmarshal data window) with
  | found p => rfl
  | looking g => simp [hscan, Scan.isFound] at hdec

theorem reconstructPhase_of_window {p : RunPhase}
    (h : scanEvents none (windowEvents unmarshal data window) = .found p) :
    reconstructPhase (loggedEvents unmarshal data) = p := by
  obtain ⟨rest, hrest⟩ := windowEvents_prefix data window
  have hphase := scanEvents_phaseOver none (windowEvents unmarshal data window) rest
  rw [h, hrest] at hphase
  exact hphase.symm

inductive Spends : Nat → Nat → Nat → Prop
  | stop {chunkSize window : Nat} (h : runPhaseTailBudget ≤ window + chunkSize) :
      Spends chunkSize window (window + chunkSize)
  | grow {chunkSize window last : Nat} (h : window + chunkSize < runPhaseTailBudget)
      (rest : Spends (nextChunkSize chunkSize) (window + chunkSize) last) :
      Spends chunkSize window last

theorem Spends.le {last : Nat} (h : Spends chunkSize window last) : window + chunkSize ≤ last := by
  induction h with
  | stop h => exact Nat.le_refl _
  | grow h rest ih => omega

theorem nextChunkSize_pos (h : 0 < chunkSize) : 0 < nextChunkSize chunkSize := by
  unfold nextChunkSize
  split <;> omega

/-- The widest window: the chunks double from 16 KiB to 1 MiB until 8 MiB are read. -/
def tailReach : Nat := 9420800

theorem spends_tailReach : Spends runPhaseChunkSize 0 tailReach := by
  iterate 13 refine Spends.grow (by decide) ?_
  exact Spends.stop (by decide)

section Accepted
variable {data : Bytes} (hok : ∀ l ∈ lines newline data, LineOk unmarshal l)
include hok

theorem decisivePhaseInChunk_window (window : Nat) :
    decisivePhaseInChunk unmarshal (complete newline (data.drop (data.length - window))) false
      = match scanEvents none (windowEvents unmarshal data window) with
        | .found p => .ok (some p)
        | .looking _ => .ok none := by
  have hlines : ∀ l ∈ (lines newline (data.drop (data.length - window))).tail.reverse,
      LineOk unmarshal l := by
    intro l hl
    exact hok l ((window_lines_suffix newline data _).mem (mem_reverse.mp hl))
  have hscan : scanLines unmarshal none
      (lines newline (data.drop (data.length - window))).tail.reverse
        = .ok (scanEvents none (windowEvents unmarshal data window)) := by
    rw [scanLines_eq hlines, filterMap_reverse, windowEvents]
  simp only [decisivePhaseInChunk, Bool.false_eq_true, if_false, lines_complete, hscan]
  cases scanEvents none (windowEvents unmarshal data window) with
  | found p => rfl
  | looking g => cases g <;> rfl

theorem decisivePhaseInChunk_file :
    ∃ r, decisivePhaseInChunk unmarshal (complete newline data) true = .ok r ∧
      r.getD .running = reconstructPhase (loggedEvents unmarshal data) := by
  have hlines : ∀ l ∈ (lines newline data).reverse, LineOk unmarshal l :=
    fun l hl => hok l (mem_reverse.mp hl)
  have hscan : scanLines unmarshal none (lines newline data).reverse
      = .ok (scanEvents none (loggedEvents unmarshal data).reverse) := by
    rw [scanLines_eq hlines, filterMap_reverse, loggedEvents]
  have hphase := scanEvents_phaseOver none (loggedEvents unmarshal data).reverse []
  rw [append_nil] at hphase
  simp only [decisivePhaseInChunk, if_true, lines_complete, hscan]
  -- the rest of the log is empty here, so a gate still being looked at was executed
  cases hev : scanEvents none (loggedEvents unmarshal data).reverse with
  | found p => exact ⟨some p, rfl, by rw [hev] at hphase; exact hphase⟩
  | looking g =>
    rw [hev] at hphase
    cases g with
    | none => exact ⟨none, rfl, hphase⟩
    | some g => exact ⟨some g.phase, rfl, hphase⟩

/-- One round of the backward scan: decided, out of budget, or on with a wider window. -/
theorem tailPhaseLoop_step (hw : window < data.length) (hc : 0 < chunkSize) :
    tailPhaseLoop unmarshal data (data.length - window) chunkSize =
      if data.length ≤ window + chunkSize ∨
          windowDecides unmarshal data (window + chunkSize) = true then
        .decided (reconstructPhase (loggedEvents unmarshal data))
      else if runPhaseTailBudget ≤ window + chunkSize then .budgetExhausted
      else tailPhaseLoop unmarshal data (data.length - (window + chunkSize))
        (nextChunkSize chunkSize) := by
  have hstart : data.length - window - chunkSize = data.length - (window + chunkSize) := by omega
  rw [tailPhaseLoop, dif_pos ⟨by omega, hc⟩]
  simp only [hstart]
  by_cases hfile : data.length ≤ window + chunkSize
  · have hzero : data.length - (window + chunkSize) = 0 := by omega
    obtain ⟨r, hr, hphase⟩ := decisivePhaseInChunk_file hok
    simp only [hzero, drop_zero, decide_true, hfile, hr]
    cases r with
    | none | some p => simpa using hphase
  · have hpos : data.length - (window + chunkSize) ≠ 0 := by omega
    have hlen : (data.drop (data.length - (window + chunkSize))).length = window + chunkSize := by
      rw [length_drop]
      omega
    have hscan := decisivePhaseInChunk_window hok (window + chunkSize)
    have hnone : newline ∉ data.drop (data.length - (window + chunkSize)) →
        windowDecides unmarshal data (window + chunkSize) = false := by
      intro hno
      simp [windowDecides, windowEvents, lines_eq_nil newline hno, scanEvents, Scan.isFound]
    simp only [hpos, decide_false, hscan, hlen, hfile]
    by_cases hnl : newline ∈ data.drop (data.length - (window + chunkSize))
    · simp only [hnl]
      cases hev : scanEvents none (windowEvents unmarshal data (window + chunkSize)) with
      | found p =>
        have hphase := reconstructPhase_of_window hev
        simp [windowDecides, hev, Scan.isFound, hphase]
      | looking g => simp [windowDecides, hev, Scan.isFound]
    · simp [hnl, hnone hnl]

/-- **The backward loop answers with the log's phase or spends its budget.** -/
theorem tailPhaseLoop_eq {last : Nat} (h : Spends chunkSize window last) (hw : window < data.length)
    (hc : 0 < chunkSize) : tailPhaseLoop unmarshal data (data.length - window) chunkSize =
      if data.length ≤ last ∨ windowDecides unmarshal data last = true then
        .decided (reconstructPhase (loggedEvents unmarshal data))
      else .budgetExhausted := by
  induction h with
  | stop h =>
    rw [tailPhaseLoop_step hok hw hc]
    simp [h]
  | @grow chunkSize window last h rest ih =>
    rw [tailPhaseLoop_step hok hw hc]
    have hle := rest.le
    by_cases hnow : data.length ≤ window + chunkSize ∨
        windowDecides unmarshal data (window + chunkSize) = true
    · -- a decision in this window is one in every wider window
      have hlater : data.length ≤ last ∨ windowDecides unmarshal data last = true := by
        rcases hnow with hlen | hdec
        · exact Or.inl (by omega)
        · exact Or.inr (windowDecides_mono (by omega) hdec)
      rw [if_pos hnow, if_pos hlater]
    · have hlen : window + chunkSize < data.length := by
        rcases Nat.lt_or_ge (window + chunkSize) data.length with hlt | hge
        · exact hlt
        · exact absurd (Or.inl hge) hnow
      rw [if_neg hnow, if_neg (by omega)]
      exact ih hlen (nextChunkSize_pos hc)

/-- The backward scan either gives the phase of the whole log or says that it gave up. -/
theorem tailPhase_eq :
    tailPhase unmarshal data =
      if data.length ≤ tailReach ∨ windowDecides unmarshal data tailReach = true then
        .decided (reconstructPhase (loggedEvents unmarshal data))
      else .budgetExhausted := by
  unfold tailPhase
  rcases Nat.eq_zero_or_pos data.length with hzero | hpos
  · have hnil : data = [] := length_eq_zero_iff.mp hzero
    subst hnil
    rw [tailPhaseLoop]
    simp [loggedEvents, reconstructPhase, phaseNewestFirst]
  · exact tailPhaseLoop_eq hok spends_tailReach hpos (by decide)

end Accepted

/-! ## The forward read's answer -/

theorem fileReads_flatten {size : Nat} (hsize : 0 < size) (fuel : Nat) (data : Bytes)
    (hfuel : data.length ≤ fuel) : (fileReads size fuel data).flatten = data := by
  induction fuel generalizing data with
  | zero => simpa [fileReads] using (length_eq_zero_iff.mp (by omega)).symm
  | succ fuel ih =>
    unfold fileReads
    split
    · rename_i hnil
      simp [hnil]
    · rename_i hne
      have hrest : (data.drop size).length ≤ fuel := by
        rw [length_drop]
        omega
      rw [flatten_cons, ih _ hrest, take_append_drop]

/-- **The forward read**, for any way the bytes come in: the lifecycle records are
folded, and only a torn tail over the line bound is refused. -/
theorem phaseFromReads_eq (pieces : List Bytes) (p : RunPhase) (pending : Bytes)
    (hok : ∀ l ∈ lines newline (pending ++ pieces.flatten), LineOk unmarshal l)
    (hpending : newline ∉ pending) :
    phaseFromReads unmarshal p pending pieces =
      if (tornTail newline (pending ++ pieces.flatten)).length > maxEventBytes then .error .tooLong
      else .ok ((loggedEvents unmarshal (pending ++ pieces.flatten)).foldl lifecycleStep p) := by
  induction pieces generalizing p pending with
  | nil =>
    simp [phaseFromReads, tornTail_of_notMem newline hpending, loggedEvents,
      lines_eq_nil newline hpending]
  | cons piece pieces ih =>
    rw [flatten_cons, ← append_assoc] at hok ⊢
    have hlines := lines_append_eq newline (pending ++ piece) pieces.flatten
    have htorn := tornTail_append_eq newline (pending ++ piece) pieces.flatten
    have hfirst : ∀ l ∈ lines newline (pending ++ piece), LineOk unmarshal l := by
      intro l hl
      exact hok l (by rw [hlines]; exact mem_append_left _ hl)
    have hrest : ∀ l ∈ lines newline (tornTail newline (pending ++ piece) ++ pieces.flatten),
        LineOk unmarshal l := by
      intro l hl
      exact hok l (by rw [hlines]; exact mem_append_right _ hl)
    have hnl := sep_notMem_tornTail newline (pending ++ piece)
    simp only [phaseFromReads, drainLines_eq hfirst]
    by_cases hlong : (tornTail newline (pending ++ piece)).length > maxEventBytes
    · -- a started line over the bound is never ended, since ended lines are within it
      have hno : newline ∉ pieces.flatten := by
        intro hmem
        have hjoin := lines_append newline (tornTail newline (pending ++ piece)) pieces.flatten
        rw [lines_eq_nil newline hnl, tornTail_of_notMem newline hnl] at hjoin
        cases hls : lines newline pieces.flatten with
        | nil =>
          have hframe := frame_lines_append_tornTail newline pieces.flatten
          rw [hls, frame_nil, nil_append] at hframe
          exact sep_notMem_tornTail newline pieces.flatten (hframe.symm ▸ hmem)
        | cons l ls =>
          rw [hls] at hjoin
          have hbound := (hrest (tornTail newline (pending ++ piece) ++ l)
            (by rw [hjoin]; simp)).1
          rw [length_append] at hbound
          omega
      rw [if_pos hlong, htorn, tornTail_of_notMem newline (by simp [hnl, hno]), if_pos]
      rw [length_append]
      omega
    · rw [if_neg hlong, ih _ _ hrest hnl, htorn]
      simp only [loggedEvents, hlines, filterMap_append, foldl_append]

/-- The fallback folds the lifecycle events alone. -/
theorem phaseFromReader_eq (hok : ∀ l ∈ lines newline data, LineOk unmarshal l) :
    phaseFromReader unmarshal data =
      if (tornTail newline data).length > maxEventBytes then .error .tooLong
      else .ok ((loggedEvents unmarshal data).foldl lifecycleStep .running) := by
  have hsize : 0 < runPhaseChunkSize := by decide
  have hflat := fileReads_flatten hsize data.length data (Nat.le_refl _)
  have hreads : ∀ l ∈ lines newline ([] ++ (fileReads runPhaseChunkSize data.length data).flatten),
      LineOk unmarshal l := by
    rw [hflat]
    exact hok
  have h := phaseFromReads_eq _ .running [] hreads (by simp)
  rwa [hflat] at h

/-! ## When the two reads agree -/

def lifecycleNewestFirst : List Event → RunPhase
  | [] => .running
  | ev :: older =>
    match ev.type with
    | .stageRerunRequested | .runResumed | .gateOverridden => .running
    | .runFinished => phaseFromStatus ev.status
    | _ => lifecycleNewestFirst older

theorem foldl_lifecycleStep (events : List Event) :
    events.foldl lifecycleStep .running = lifecycleNewestFirst events.reverse := by
  rw [← foldr_reverse]
  generalize events.reverse = newest
  induction newest with
  | nil => rfl
  | cons ev older ih =>
    rw [foldr_cons, ih]
    unfold lifecycleStep
    conv_rhs => unfold lifecycleNewestFirst

/--
If the newest record that bears on the phase is a terminal gate evaluation, the
lifecycle records before it already give the phase that the evaluation gives:
the same terminal one if the gate was executed, running if it was not.
-/
def TerminalGateAgrees : List Event → Prop
  | [] => True
  | ev :: older =>
    match ev.type with
    | .stageRerunRequested | .runResumed | .gateOverridden | .runFinished => True
    | .gateEvaluated =>
      match phaseFromTerminalTarget ev.target with
      | some p =>
        if terminalGateExecuted ev.gate ev.branch older then lifecycleNewestFirst older = p
        else lifecycleNewestFirst older = .running
      | none => TerminalGateAgrees older
    | _ => TerminalGateAgrees older

theorem lifecycle_eq_phase_iff (newest : List Event) :
    lifecycleNewestFirst newest = phaseNewestFirst newest ↔ TerminalGateAgrees newest := by
  induction newest with
  | nil => simp [lifecycleNewestFirst, phaseNewestFirst, TerminalGateAgrees]
  | cons ev older ih =>
    unfold lifecycleNewestFirst phaseNewestFirst TerminalGateAgrees
    cases ev.type <;> simp only [ih]
    cases phaseFromTerminalTarget ev.target with
    | none => exact ih
    | some p => by_cases hex : terminalGateExecuted ev.gate ev.branch older <;> simp [hex]

variable (unmarshal) in
/-- The backward scan finds the answer within its widest window. -/
def TailDecides (data : Bytes) : Prop :=
  data.length ≤ tailReach ∨ windowDecides unmarshal data tailReach = true

theorem phase_ok_iff {p : RunPhase} : phase unmarshal data = .ok p ↔
      (∀ l ∈ lines newline data, LineOk unmarshal l) ∧
        (∀ ev ∈ loggedEvents unmarshal data, ev.schema = eventSchema) ∧
        reconstructPhase (loggedEvents unmarshal data) = p := by
  unfold phase
  cases hread : readEvents unmarshal data with
  | error e =>
    simp only [reduceCtorEq, false_iff]
    intro ⟨hok, hschema, _⟩
    have := (readEvents_ok_iff unmarshal).mpr ⟨hok, rfl, hschema, rfl⟩
    rw [hread] at this
    cases this
  | ok r =>
    obtain ⟨events, tornBytes⟩ := r
    obtain ⟨hok, hevents, hschema, _⟩ := (readEvents_ok_iff unmarshal).mp hread
    have heq : events = loggedEvents unmarshal data := hevents
    subst heq
    simp only [Except.ok.injEq]
    exact ⟨fun h => ⟨hok, hschema, h⟩, fun h => h.2.2⟩

theorem phaseBounded_of_tailDecides (hok : ∀ l ∈ lines newline data, LineOk unmarshal l)
    (h : TailDecides unmarshal data) :
    phaseBounded unmarshal data = .ok (reconstructPhase (loggedEvents unmarshal data)) := by
  unfold TailDecides at h
  unfold phaseBounded
  rw [tailPhase_eq hok, if_pos h]

theorem phaseBounded_of_not_tailDecides (hok : ∀ l ∈ lines newline data, LineOk unmarshal l)
    (h : ¬ TailDecides unmarshal data) : phaseBounded unmarshal data =
      if (tornTail newline data).length > maxEventBytes then .error .tooLong
      else .ok (lifecycleNewestFirst (loggedEvents unmarshal data).reverse) := by
  unfold TailDecides at h
  unfold phaseBounded
  rw [tailPhase_eq hok, if_neg h]
  simp [phaseFromReader_eq hok, foldl_lifecycleStep]

/-- **Exactly when the bounded read returns the phase of the full read.** -/
theorem phaseBounded_eq_phase_iff (unmarshal : Bytes → Option Event) (data : Bytes) (p : RunPhase)
    (h : phase unmarshal data = .ok p) :
    phaseBounded unmarshal data = .ok p ↔
      TailDecides unmarshal data ∨
        ((tornTail newline data).length ≤ maxEventBytes ∧
          TerminalGateAgrees (loggedEvents unmarshal data).reverse) := by
  obtain ⟨hok, _, hphase⟩ := phase_ok_iff.mp h
  by_cases hdec : TailDecides unmarshal data
  · rw [phaseBounded_of_tailDecides hok hdec, hphase]
    simp [hdec]
  · rw [phaseBounded_of_not_tailDecides hok hdec, ← lifecycle_eq_phase_iff, ← hphase]
    simp only [hdec, false_or]
    by_cases hlong : (tornTail newline data).length > maxEventBytes
    · rw [if_pos hlong]
      simp only [reduceCtorEq, false_iff]
      intro hc
      omega
    · rw [if_neg hlong]
      simp only [Except.ok.injEq]
      exact ⟨fun heq => ⟨by omega, heq⟩, fun hc => hc.2⟩

end

/-! ## A gate behind the budget -/

/-- The gate `review` ends the run, and the runner has executed it. -/
def abortLine : Bytes :=
  asciiBytes "\x7b\"schema\":\"goobers.dev/journal/event/v1\",\"seq\":1,"
    ++ asciiBytes "\"type\":\"gate.evaluated\",\"branch\":0,\"time\":\"2026-01-01T00:00:00Z\","
    ++ asciiBytes "\"gate\":\"review\",\"verdict\":\"fail\",\"target\":\"@abort\"\x7d"

def abortEvent : Event :=
  { schema := eventSchema, seq := 1, type := .gateEvaluated, time := 1767225600000000000,
    gate := "review", verdict := "fail", target := targetAbort }

def errorHead : Bytes :=
  asciiBytes "\x7b\"schema\":\"goobers.dev/journal/event/v1\",\"type\":\"error\","
    ++ asciiBytes "\"branch\":0,\"time\":\"2026-01-01T00:00:01Z\","
    ++ asciiBytes "\"error\":\x7b\"code\":\"harness\",\"message\":\""

/-- A recorded error with `fill` bytes of message, and a one-digit `seq`. -/
def errorLine (fill : Nat) (seq : UInt8) : Bytes :=
  errorHead ++ List.replicate fill 0x78 ++ (asciiBytes "\"\x7d,\"seq\":" ++ [0x30 + seq, 0x7D])

def errorEvent (fill seq : Nat) : Event :=
  { schema := eventSchema, seq := seq, type := .other "error", time := 1767225601000000000,
    error := some ⟨"harness", String.ofList (List.replicate fill 'x')⟩ }

/-- What `json.Unmarshal` makes of the three lines. -/
def farGateUnmarshal (fill : Nat) (line : Bytes) : Option Event :=
  if line = abortLine then some abortEvent
  else if line = errorLine fill 2 then some (errorEvent fill 2)
  else if line = errorLine fill 3 then some (errorEvent fill 3)
  else none

def farGateLog (fill : Nat) : Bytes := frame newline [abortLine, errorLine fill 2, errorLine fill 3]

theorem abortLine_object : IsObjectLine abortLine where
  first := by decide
  last := by decide
  oneLine := by decide

theorem errorLine_object (fill : Nat) (seq : UInt8) (h : 0x30 + seq ≠ newline) :
    IsObjectLine (errorLine fill seq) where
  first := by
    have hhead : errorHead.head? = some 0x7B := by decide
    simp [errorLine, hhead]
  last := by simp [errorLine]
  oneLine := by
    have hhead : newline ∉ errorHead := by decide
    have hfill : newline ∉ replicate fill (0x78 : UInt8) := by
      rw [mem_replicate]
      exact fun hc => absurd hc.2 (by decide)
    have htail : newline ∉ asciiBytes "\"\x7d,\"seq\":" := by decide
    have hlast : newline ∉ [0x30 + seq, (0x7D : UInt8)] := by
      simp only [mem_cons, not_or]
      exact ⟨h.symm, by decide⟩
    simp only [errorLine, mem_append, not_or]
    exact ⟨⟨hhead, hfill⟩, htail, hlast⟩

theorem errorLine_length (fill : Nat) (seq : UInt8) :
    fill ≤ (errorLine fill seq).length ∧ (errorLine fill seq).length ≤ fill + 200 := by
  have hhead : errorHead.length ≤ 150 := by decide +kernel
  have htail : (asciiBytes "\"\x7d,\"seq\":").length ≤ 10 := by decide
  simp only [errorLine, length_append, length_replicate, length_cons,
    length_nil]
  omega

theorem errorLine_ne (fill : Nat) {seq seq' : UInt8} (h : seq ≠ seq') :
    errorLine fill seq ≠ errorLine fill seq' := by
  intro heq
  have hlast := append_cancel_left (append_cancel_left heq)
  have hadd : 0x30 + seq = 0x30 + seq' := (cons.inj hlast).1
  exact h (by simpa using hadd)

theorem abortLine_short : abortLine.length ≤ 200 := by decide +kernel

theorem errorLine_ne_abortLine (fill : Nat) (seq : UInt8) : errorLine fill seq ≠ abortLine := by
  intro heq
  have hhead : errorHead <+: abortLine := by
    rw [← heq, errorLine, append_assoc]
    exact prefix_append ..
  exact absurd hhead (by decide)

section
variable {fill : Nat} (hfits : fill ≤ 8000000)

theorem errorLines_oneLine (fill : Nat) : ∀ l ∈ [errorLine fill 2, errorLine fill 3], newline ∉ l :=
  forall_mem_cons.mpr ⟨(errorLine_object fill 2 (by decide)).oneLine,
    forall_mem_singleton.mpr (errorLine_object fill 3 (by decide)).oneLine⟩

theorem farGate_lines :
    lines newline (farGateLog fill) = [abortLine, errorLine fill 2, errorLine fill 3] := by
  have h := lines_frame_append newline
    (forall_mem_cons.mpr ⟨abortLine_object.oneLine, errorLines_oneLine fill⟩) not_mem_nil
  rwa [append_nil] at h

theorem decodeLine_farGate {line : Bytes} {ev : Event} (hobj : IsObjectLine line)
    (hlen : line.length + 1 ≤ maxEventBytes) (h : farGateUnmarshal fill line = some ev) :
    decodeLine (farGateUnmarshal fill) line = some ev ∧ LineOk (farGateUnmarshal fill) line := by
  refine ⟨?_, hlen, Or.inr ⟨ev, ?_⟩⟩
  · rw [decodeLine, hobj.cleanLine_eq, if_neg hobj.ne_nil, h]
  · rw [hobj.cleanLine_eq, h]

theorem abortLine_decodes : decodeLine (farGateUnmarshal fill) abortLine = some abortEvent ∧
    LineOk (farGateUnmarshal fill) abortLine := by
  refine decodeLine_farGate abortLine_object ?_ (by rw [farGateUnmarshal, if_pos rfl])
  have hshort := abortLine_short
  unfold maxEventBytes
  omega

include hfits in
theorem errorLine_decodes (seq : UInt8) (hseq : seq = 2 ∨ seq = 3) :
    decodeLine (farGateUnmarshal fill) (errorLine fill seq) = some (errorEvent fill seq.toNat) ∧
      LineOk (farGateUnmarshal fill) (errorLine fill seq) := by
  have hfits : (errorLine fill seq).length + 1 ≤ maxEventBytes := by
    have hlen := (errorLine_length fill seq).2
    unfold maxEventBytes
    omega
  have hobj : IsObjectLine (errorLine fill seq) :=
    errorLine_object fill seq (by rcases hseq with rfl | rfl <;> decide)
  refine decodeLine_farGate hobj hfits ?_
  rw [farGateUnmarshal, if_neg (errorLine_ne_abortLine fill seq)]
  rcases hseq with rfl | rfl
  · exact if_pos rfl
  · rw [if_neg (errorLine_ne fill (by decide)), if_pos rfl]
    rfl

include hfits in
theorem farGate_events :
    loggedEvents (farGateUnmarshal fill) (farGateLog fill) =
      [abortEvent, errorEvent fill 2, errorEvent fill 3] := by
  rw [loggedEvents, farGate_lines]
  simp [abortLine_decodes.1, (errorLine_decodes hfits 2 (.inl rfl)).1,
    (errorLine_decodes hfits 3 (.inr rfl)).1]

include hfits in
theorem farGate_lineOk : ∀ l ∈ lines newline (farGateLog fill),
    LineOk (farGateUnmarshal fill) l := by
  rw [farGate_lines]
  exact forall_mem_cons.mpr ⟨abortLine_decodes.2, forall_mem_cons.mpr
    ⟨(errorLine_decodes hfits 2 (.inl rfl)).2,
      forall_mem_singleton.mpr (errorLine_decodes hfits 3 (.inr rfl)).2⟩⟩

include hfits in
theorem farGate_phase : phase (farGateUnmarshal fill) (farGateLog fill) = .ok .aborted := by
  refine phase_ok_iff.mpr ⟨farGate_lineOk hfits, ?_, ?_⟩
  · rw [farGate_events hfits]
    simp [abortEvent, errorEvent]
  · rw [farGate_events hfits]
    simp [reconstructPhase, phaseNewestFirst, abortEvent, errorEvent, phaseFromTerminalTarget,
      terminalGateExecuted]

-- the two records after the gate span the widest window
variable (hfar : 4710400 ≤ fill)

include hfits hfar in
theorem farGate_not_tailDecides : ¬ TailDecides (farGateUnmarshal fill) (farGateLog fill) := by
  have h2 := (errorLine_length fill 2).1
  have h3 := (errorLine_length fill 3).1
  have hsplit : farGateLog fill = (abortLine ++ [newline]) ++
      frame newline [errorLine fill 2, errorLine fill 3] := by
    simp [farGateLog]
  have hwide : tailReach ≤ (frame newline [errorLine fill 2, errorLine fill 3]).length := by
    simp only [frame_cons, length_append, length_cons]
    unfold tailReach
    omega
  have hwindow : windowEvents (farGateUnmarshal fill) (farGateLog fill)
      (frame newline [errorLine fill 2, errorLine fill 3]).length = [errorEvent fill 3] := by
    have hdrop : (farGateLog fill).drop ((farGateLog fill).length
        - (frame newline [errorLine fill 2, errorLine fill 3]).length)
          = frame newline [errorLine fill 2, errorLine fill 3] := by
      rw [hsplit, length_append, Nat.add_sub_cancel, drop_left]
    have hlines : lines newline (frame newline [errorLine fill 2, errorLine fill 3])
        = [errorLine fill 2, errorLine fill 3] := by
      have h := lines_frame_append newline (errorLines_oneLine fill) not_mem_nil
      rwa [append_nil] at h
    rw [windowEvents, hdrop, hlines]
    simp [(errorLine_decodes hfits 3 (.inr rfl)).1]
  intro h
  rcases h with hlen | hdec
  · rw [hsplit, length_append, length_append, length_singleton] at hlen
    omega
  · have hwidedec := windowDecides_mono hwide hdec
    rw [windowDecides, hwindow] at hwidedec
    simp [scanEvents, decisiveStep, errorEvent, Scan.isFound] at hwidedec

include hfits hfar in
theorem farGate_phaseBounded :
    phaseBounded (farGateUnmarshal fill) (farGateLog fill) = .ok .running := by
  have htorn : tornTail newline (farGateLog fill) = [] := by
    have h := tornTail_frame_append newline [abortLine, errorLine fill 2, errorLine fill 3]
      not_mem_nil
    rwa [append_nil] at h
  rw [phaseBounded_of_not_tailDecides (farGate_lineOk hfits) (farGate_not_tailDecides hfits hfar),
    htorn, farGate_events hfits]
  simp [lifecycleNewestFirst, abortEvent, errorEvent]

end

/-- The full read says aborted; the bounded one, past its budget, says still running. -/
theorem farGate_phaseBounded_differs :
    phase (farGateUnmarshal 5000000) (farGateLog 5000000) = .ok .aborted ∧
      phaseBounded (farGateUnmarshal 5000000) (farGateLog 5000000) = .ok .running :=
  ⟨farGate_phase (by decide), farGate_phaseBounded (by decide) (by decide)⟩

/-- At the log above both sides are false; with short messages the tail decides and both hold. -/
theorem farGate_phaseBounded_iff :
    (phase (farGateUnmarshal 5000000) (farGateLog 5000000) = .ok .aborted ∧
      (phaseBounded (farGateUnmarshal 5000000) (farGateLog 5000000) = .ok .aborted ↔
        TailDecides (farGateUnmarshal 5000000) (farGateLog 5000000) ∨
          ((tornTail newline (farGateLog 5000000)).length ≤ maxEventBytes ∧
            TerminalGateAgrees
              (loggedEvents (farGateUnmarshal 5000000) (farGateLog 5000000)).reverse))) ∧
      phase (farGateUnmarshal 7) (farGateLog 7) = .ok .aborted ∧
        phaseBounded (farGateUnmarshal 7) (farGateLog 7) = .ok .aborted := by
  have hfar := farGate_phase (show 5000000 ≤ 8000000 by decide)
  have hnear := farGate_phase (show 7 ≤ 8000000 by decide)
  refine ⟨⟨hfar, phaseBounded_eq_phase_iff _ _ .aborted hfar⟩, hnear, ?_⟩
  exact (phaseBounded_eq_phase_iff _ _ .aborted hnear).mpr (.inl (.inl (by decide +kernel)))

end Goobers.Journal
