import Goobers.Lib.GoMap
import Goobers.Journal.Run

/-!
# The instance log

One long-lived log for the scheduler, written by any number of handles under one
lock. A handle takes its next number from the log's tail, so that handles of other
processes are seen, and never goes below what it has written itself.

Two passes drop records from it. `Compact` drops what is older than a cutoff and
no checkpoint; `CompactTickSkips` drops old `tick.skipped` records. Both write the
survivors to a new generation and move a pointer to it, so the log is replaced as
a whole or not at all.
-/

namespace Goobers.Journal

open Lib

/-! ## The highest number -/

def instanceTailBudget : Nat := 8 * 1024 * 1024

def tailChunkSize : Nat := 64 * 1024

section
variable (unmarshal : Bytes → Option Event)

/-- The loop of `highestSeqInChunk`, newest line first; `found` is the highest number so far. -/
def scanSeqs : Option Nat → List Bytes → Except ReadError (Option Nat)
  | found, [] => .ok found
  | found, l :: older =>
    let line := cleanLine l
    if line = [] then scanSeqs found older
    else
      match unmarshal line with
      | none => .error .corrupt
      | some ev =>
        if ev.schema ≠ eventSchema then .error (.schema ev.schema)
        else if ev.seq = 0 then scanSeqs found older
        else scanSeqs (some (max (found.getD 0) ev.seq)) older

/--
The highest number in `buf`, which ends in a newline or is empty. Unless it begins
the file, its first line may be the end of a longer one and is not looked at.
-/
def highestSeqInChunk (buf : Bytes) (atFileStart : Bool) : Except ReadError (Option Nat) :=
  let whole := if atFileStart then lines newline buf else (lines newline buf).tail
  scanSeqs unmarshal none whole.reverse

/-- What the backward read comes to. -/
inductive TailSequence where
  | found (seq tornBytes : Nat)
  | budgetExhausted
  | failed (err : ReadError)
  deriving DecidableEq, Repr

/--
The loop of `tailSequence`. The window is the file from `start` to its end. Where
the torn tail begins is known once the window holds a newline or the whole file.
-/
def tailSequenceLoop (chunkSize : Nat) (data : Bytes) (start : Nat) : TailSequence :=
  if _h : 0 < start ∧ 0 < chunkSize then
    let chunkStart := start - chunkSize
    let window := data.drop chunkStart
    let tailKnown := newline ∈ window ∨ chunkStart = 0
    let tail := (tornTail newline window).length
    let scanned :=
      if tailKnown then highestSeqInChunk unmarshal (complete newline window) (chunkStart = 0)
      else .ok none
    match scanned with
    | .error e => .failed e
    | .ok (some highest) => .found highest tail
    | .ok none =>
      if chunkStart = 0 then .found 0 tail
      else if window.length ≥ instanceTailBudget then .budgetExhausted
      else tailSequenceLoop chunkSize data chunkStart
  else .found 0 0
termination_by start
decreasing_by omega

def tailSequence (data : Bytes) : TailSequence :=
  tailSequenceLoop unmarshal tailChunkSize data data.length

def sequenceFromTailOrFull (data : Bytes) : Except ReadError (Nat × Nat) :=
  match tailSequence unmarshal data with
  | .found seq tornBytes => .ok (seq, tornBytes)
  | .failed e => .error e
  | .budgetExhausted =>
    match readEvents unmarshal data with
    | .error e => .error e
    | .ok (events, tornBytes) => .ok (highestEventSeq events, tornBytes)

end

/-! ## What a retention pass keeps -/

/-- What a pass reports. -/
structure InstanceEventsCompaction where
  beforeBytes : Nat := 0
  afterBytes : Nat := 0
  kept : Nat := 0
  dropped : Nat := 0
  bytesRead : Nat := 0
  deriving DecidableEq, Repr

structure CompactRecord where
  line : Bytes
  event : Event
  deriving DecidableEq, Repr

def configGenerationAppliedAnnotation : String := "config.generation.applied"

def isConfigGenerationAuthority (ev : Event) : Bool :=
  ev.type = .configReloaded ||
    (ev.type = .runnerAnnotate &&
      ev.runnerValue "kind" = some (.str configGenerationAppliedAnnotation))

def triggerKey (ev : Event) : String :=
  if ev.type = .triggerFired ∧ ev.workflow ≠ "" ∧
      (ev.reason = "" ∨ ev.reason = "scheduled" ∨
        "catch-up ".toList.isPrefixOf ev.reason.toList) then
    ev.gaggle ++ "\x00" ++ ev.workflow
  else ""

def compactWorkerDivergenceKey (ev : Event) : String :=
  if ev.type = .workerConfigDivergence then ev.runnerString "worker" else ""

def clusterCheckKey (ev : Event) : String :=
  if ev.type = .clusterCheckCompleted then ev.runnerString "check" else ""

/-- The latest record of each kind that a restart needs, by its index. -/
structure Checkpoints where
  latestTrigger : GoMap String Nat := ∅
  latestWorkerDivergence : GoMap String Nat := ∅
  /-- With the outcome of the check. -/
  latestClusterCheck : GoMap String (Nat × String) := ∅
  /-- With its number. -/
  latestConfigAuthority : Option (Nat × Nat) := none

namespace Checkpoints

/-- A warning does not replace a failure. -/
def recordClusterCheck (latest : GoMap String (Nat × String)) (ev : Event) (index : Nat) :
    GoMap String (Nat × String) :=
  let check := clusterCheckKey ev
  let outcome := ev.runnerString "outcome"
  if check = "" then latest
  else if outcome = "warn" ∧ (latest.get? check).map Prod.snd = some "fail" then latest
  else latest.put check (index, outcome)

def recordConfigAuthority (latest : Option (Nat × Nat)) (ev : Event) (index : Nat) :
    Option (Nat × Nat) :=
  if isConfigGenerationAuthority ev then
    match latest with
    | none => some (index, ev.seq)
    | some (i, seq) => if seq ≤ ev.seq then some (index, ev.seq) else some (i, seq)
  else latest

def record (cp : Checkpoints) (index : Nat) (ev : Event) : Checkpoints where
  latestTrigger :=
    if triggerKey ev = "" then cp.latestTrigger else cp.latestTrigger.put (triggerKey ev) index
  latestWorkerDivergence := cp.latestWorkerDivergence.put (compactWorkerDivergenceKey ev) index
  latestClusterCheck := recordClusterCheck cp.latestClusterCheck ev index
  latestConfigAuthority := recordConfigAuthority cp.latestConfigAuthority ev index

def recordAll : Checkpoints → Nat → List CompactRecord → Checkpoints
  | cp, _, [] => cp
  | cp, start, r :: rs => recordAll (cp.record start r.event) (start + 1) rs

end Checkpoints

def compactDropsAgedRecord (at_ keepAfter : Int)
    (triggerCheckpoint resultCheckpoint budgetHistory initDone : Bool) : Bool :=
  keepAfter ≠ 0 && at_ < keepAfter && !triggerCheckpoint && !resultCheckpoint && !budgetHistory &&
    !initDone

/-- Whether the pass drops the record with this index. -/
def Checkpoints.drops (cp : Checkpoints) (keepAfter keepRunStartsAfter : Int) (index : Nat)
    (ev : Event) : Bool :=
  let keepTriggerCheckpoint :=
    triggerKey ev ≠ "" && cp.latestTrigger.get? (triggerKey ev) = some index
  let worker := compactWorkerDivergenceKey ev
  let keepWorkerDivergenceCheckpoint :=
    worker ≠ "" && cp.latestWorkerDivergence.get? worker = some index
  let check := clusterCheckKey ev
  let keepClusterCheck :=
    check ≠ "" && (cp.latestClusterCheck.get? check).map Prod.fst = some index
  let keepConfigAuthority := cp.latestConfigAuthority.map Prod.fst = some index
  let keepBudgetHistory :=
    ev.type = .runStarted && (keepRunStartsAfter = 0 || !(ev.time < keepRunStartsAfter))
  compactDropsAgedRecord ev.time keepAfter keepTriggerCheckpoint
    (keepWorkerDivergenceCheckpoint || keepClusterCheck || keepConfigAuthority) keepBudgetHistory
    (ev.type = .initCompleted)

def keptLines (cp : Checkpoints) (keepAfter keepRunStartsAfter : Int) :
    Nat → List CompactRecord → List Bytes
  | _, [] => []
  | start, r :: rs =>
    if cp.drops keepAfter keepRunStartsAfter start r.event then
      keptLines cp keepAfter keepRunStartsAfter (start + 1) rs
    else r.line :: keptLines cp keepAfter keepRunStartsAfter (start + 1) rs

section
variable (unmarshal : Bytes → Option Event)

/-- The records of complete lines. A pass trims white space but not crash fill. -/
def compactRecords : List Bytes → Except ReadError (List CompactRecord)
  | [] => .ok []
  | l :: ls =>
    if trimSpace l = [] then compactRecords ls
    else
      match unmarshal (trimSpace l) with
      | none => .error .corrupt
      | some ev =>
        if ev.schema ≠ eventSchema then .error (.schema ev.schema)
        else
          match compactRecords ls with
          | .error e => .error e
          | .ok records => .ok (⟨l, ev⟩ :: records)

def compactInstanceEventsData (data : Bytes) (keepAfter keepRunStartsAfter : Int) :
    Except ReadError (InstanceEventsCompaction × Bytes) :=
  let result : InstanceEventsCompaction :=
    { beforeBytes := data.length, afterBytes := data.length }
  if newline ∉ data then .ok (result, data)
  else
    match compactRecords unmarshal (lines newline data) with
    | .error e => .error e
    | .ok records =>
      let kept := keptLines (Checkpoints.recordAll {} 0 records) keepAfter keepRunStartsAfter 0
        records
      let result :=
        { result with kept := kept.length, dropped := records.length - kept.length }
      if result.dropped = 0 then .ok (result, data)
      else
        let compacted := frame newline kept ++ tornTail newline data
        .ok ({ result with afterBytes := compacted.length }, compacted)

/-- The state of the loop of `dropTickSkipsBefore`. -/
structure TickSkipScan where
  kept : List Bytes := []
  dropped : Nat := 0
  maxSeq : Nat := 0
  maxLine : Option Bytes := none
  maxDropped : Bool := false
  deriving DecidableEq, Repr

def tickSkipStep (keepAfter : Int) (s : TickSkipScan) (line : Bytes) (ev : Event) : TickSkipScan :=
  let drop := ev.type = .tickSkipped ∧ ev.time < keepAfter
  let s :=
    if s.maxLine = none ∨ s.maxSeq ≤ ev.seq then
      { s with maxSeq := ev.seq, maxLine := some line, maxDropped := drop }
    else s
  if drop then { s with dropped := s.dropped + 1 } else { s with kept := s.kept ++ [line] }

/-- The record with the highest number is kept in any case, at the end. -/
def TickSkipScan.finish (s : TickSkipScan) : TickSkipScan :=
  match s.maxDropped, s.maxLine with
  | true, some line => { s with kept := s.kept ++ [line], dropped := s.dropped - 1 }
  | _, _ => s

def dropTickSkipsBefore (data : Bytes) (keepAfter : Int) :
    Except ReadError (InstanceEventsCompaction × Bytes) :=
  let result : InstanceEventsCompaction :=
    { beforeBytes := data.length, afterBytes := data.length, bytesRead := data.length }
  if newline ∉ data then .ok (result, data)
  else
    match compactRecords unmarshal (lines newline data) with
    | .error e => .error e
    | .ok records =>
      let s := (records.foldl (fun s r => tickSkipStep keepAfter s r.line r.event) {}).finish
      let result := { result with kept := s.kept.length, dropped := s.dropped }
      if s.dropped = 0 then .ok (result, data)
      else
        let compacted := frame newline s.kept ++ tornTail newline data
        .ok ({ result with afterBytes := compacted.length }, compacted)

end

/-! ## Handles -/

/-- A pass that could not bring this generation under budget. -/
structure TickSkipRetry where
  generation : Nat := 0
  atBytes : Nat := 0
  deriving DecidableEq, Repr

/-- An open handle. -/
structure InstanceLog where
  seq : Nat := 0
  closed : Bool := false
  tickSkipRetry : TickSkipRetry := {}
  deriving DecidableEq, Repr

/-- The log's directory: the current generation and its number. -/
structure InstanceDir where
  log : LogFile := {}
  generation : Nat := 0
  deriving DecidableEq, Repr

structure RecoverReport where
  lastSeq : Nat := 0
  tornBytes : Nat := 0
  repaired : Bool := false
  deriving DecidableEq, Repr

section
variable (c : Codec)

def openInstanceLog (io : WriteOutcome) (now : Int) (d : InstanceDir) :
    InstanceDir × Except AppendError (InstanceLog × RecoverReport) :=
  match sequenceFromTailOrFull c.unmarshal d.log.data with
  | .error e => (d, .error (.read e))
  | .ok (highest, tornBytes) =>
    let report : RecoverReport := { lastSeq := highest, tornBytes := tornBytes }
    let log := truncateTornTail d.log tornBytes
    if tornBytes = 0 then ({ d with log := log }, .ok ({ seq := highest }, report))
    else
      match appendEvent c io now log highest (repairedEvent tornBytes) with
      | (log, _, .error e) => ({ d with log := log }, .error e)
      | (log, seq, .ok _) =>
        ({ d with log := log }, .ok ({ seq := seq }, { report with repaired := true }))

/-- `Append`; a torn tail is repaired first, with a write of its own. -/
def InstanceLog.append (repairWrite io : WriteOutcome) (now : Int) (d : InstanceDir)
    (l : InstanceLog)
    (ev : Event) : InstanceLog × InstanceDir × Except AppendError Unit :=
  if l.closed then (l, d, .error .closed)
  else
    match sequenceFromTailOrFull c.unmarshal d.log.data with
    | .error e => (l, d, .error (.read e))
    | .ok (highest, tornBytes) =>
      -- never below what this handle has written
      let seq := if highest < l.seq then l.seq else highest
      let log := truncateTornTail d.log tornBytes
      let repaired : LogFile × Nat × Except AppendError Unit :=
        if tornBytes > 0 then
          match appendEvent c repairWrite now log seq (repairedEvent tornBytes) with
          | (log, seq, r) => (log, seq, r.map (fun _ => ()))
        else (log, seq, .ok ())
      match repaired with
      | (log, seq, .error e) => ({ l with seq := seq }, { d with log := log }, .error e)
      | (log, seq, .ok ()) =>
        match appendEvent c io now log seq ev with
        | (log, seq, r) =>
          ({ l with seq := seq }, { d with log := log }, r.map (fun _ => ()))

end

/-- How the installation of a new generation goes. -/
inductive Install where
  | ok
  /-- It fails before the pointer is moved. -/
  | failed
  /-- The pointer is moved and this handle fails to follow it. -/
  | advanced
  deriving DecidableEq, Repr

def InstanceDir.advance (d : InstanceDir) (compacted : Bytes) : InstanceDir where
  log := { d.log with data := compacted, durable := compacted.length }
  generation := d.generation + 1

def installCompactedGeneration (d : InstanceDir) (compacted : Bytes) (io : Install) :
    InstanceDir × Except AppendError Unit :=
  match io with
  | .ok => (d.advance compacted, .ok ())
  | .failed => (d, .error .write)
  | .advanced => (d.advance compacted, .error .write)

section
variable (unmarshal : Bytes → Option Event)

/-- `Compact` on an open handle. -/
def InstanceLog.compact (io : Install) (keepAfter keepRunStartsAfter : Int) (d : InstanceDir)
    (l : InstanceLog) : InstanceDir × Except AppendError InstanceEventsCompaction :=
  if l.closed then (d, .error .closed)
  else
    match compactInstanceEventsData unmarshal d.log.data keepAfter keepRunStartsAfter with
    | .error e => (d, .error (.read e))
    | .ok (result, compacted) =>
      if result.dropped = 0 then (d, .ok result)
      else
        match installCompactedGeneration d compacted io with
        | (d, .error e) => (d, .error e)
        | (d, .ok ()) => (d, .ok result)

def tickSkipCompactionDue (retry : TickSkipRetry) (generation size : Nat) (maxBytes : Int) : Bool :=
  if maxBytes ≤ 0 ∨ (size : Int) ≤ maxBytes then false
  else
    retry.atBytes = 0 || retry.generation ≠ generation ||
      (retry.atBytes : Int) + maxBytes / 4 ≤ (size : Int)

def InstanceLog.compactTickSkips (io : Install) (maxBytes keepAfter : Int) (d : InstanceDir)
    (l : InstanceLog) : InstanceLog × InstanceDir × Except AppendError InstanceEventsCompaction :=
  if l.closed then (l, d, .error .closed)
  else if !tickSkipCompactionDue l.tickSkipRetry d.generation d.log.data.length maxBytes then
    (l, d, .ok { beforeBytes := d.log.data.length, afterBytes := d.log.data.length })
  else
    match dropTickSkipsBefore unmarshal d.log.data keepAfter with
    | .error e => (l, d, .error (.read e))
    | .ok (result, compacted) =>
      let installed :=
        if result.dropped > 0 then installCompactedGeneration d compacted io else (d, .ok ())
      match installed with
      | (d, .error e) => (l, d, .error e)
      | (d, .ok ()) =>
        let retry : TickSkipRetry :=
          if maxBytes < (result.afterBytes : Int) then ⟨d.generation, result.afterBytes⟩ else {}
        ({ l with tickSkipRetry := retry }, d, .ok result)

def firstRecordReadLimit : Nat := 64 * 1024

/-- Whether the oldest record alone shows that nothing is older than the cutoff. -/
def nothingCanAgeOut (data : Bytes) (keepAfter : Int) : Bool :=
  if keepAfter = 0 then true
  else
    match lines newline (data.take firstRecordReadLimit) with
    | [] => false
    | first :: _ =>
      match unmarshal (trimSpace first) with
      | none => false
      | some ev => ev.schema = eventSchema && !(ev.time < keepAfter)

def compactInstanceEvents (io : Install) (keepAfter keepRunStartsAfter : Int) (dryRun : Bool)
    (d : InstanceDir) : InstanceDir × Except AppendError InstanceEventsCompaction :=
  let size := d.log.data.length
  if nothingCanAgeOut unmarshal d.log.data keepAfter then
    (d, .ok { beforeBytes := size, afterBytes := size,
              bytesRead := if keepAfter = 0 then 0 else min size firstRecordReadLimit })
  else
    match compactInstanceEventsData unmarshal d.log.data keepAfter keepRunStartsAfter with
    | .error e => (d, .error (.read e))
    | .ok (result, compacted) =>
      let result := { result with bytesRead := size }
      if result.dropped = 0 ∨ dryRun then (d, .ok result)
      else
        match installCompactedGeneration d compacted io with
        | (d, .error e) => (d, .error e)
        | (d, .ok ()) => (d, .ok result)

end

/-! ## Records of skips -/

/-- A skip as the log holds it, with a one-digit number and five nanoseconds of age. -/
def skipLine (seq : Nat) : Bytes :=
  asciiBytes "\x7b\"schema\":\"goobers.dev/journal/event/v1\",\"seq\":" ++
    (0x30 + seq).toUInt8 ::
      asciiBytes ",\"type\":\"tick.skipped\",\"time\":\"0001-01-01T00:00:00.000000005Z\"\x7d"

def skipEvent (seq : Nat) : Event :=
  { schema := eventSchema, seq := seq, type := .tickSkipped, time := 5 }

/-- What `json.Unmarshal` makes of those lines. -/
def skipUnmarshal (line : Bytes) : Option Event :=
  ((List.range 10).find? (fun seq => line = skipLine seq)).map skipEvent

/-! ## The log over time -/

/-- The directory and every handle that was opened since the last crash. -/
structure InstanceWorld where
  dir : InstanceDir := {}
  handles : List InstanceLog := []
  deriving DecidableEq, Repr

/-- What can happen to the log; a handle is named by its place. -/
inductive InstanceAction where
  | openLog (io : WriteOutcome) (now : Int)
  | append (handle : Nat) (repairWrite io : WriteOutcome) (now : Int) (ev : Event)
  | compact (handle : Nat) (io : Install) (keepAfter keepRunStartsAfter : Int)
  | compactTickSkips (handle : Nat) (io : Install) (maxBytes keepAfter : Int)
  | compactInstanceEvents (io : Install) (keepAfter keepRunStartsAfter : Int) (dryRun : Bool)
  | close (handle : Nat)
  /-- The machine stops; every handle is gone. -/
  | crash (kept fill : Nat)
  deriving DecidableEq, Repr

def InstanceWorld.step (c : Codec) (w : InstanceWorld) : InstanceAction → InstanceWorld
  | .openLog io now =>
    match openInstanceLog c io now w.dir with
    | (dir, .error _) => { w with dir := dir }
    | (dir, .ok (l, _)) => ⟨dir, w.handles ++ [l]⟩
  | .append handle repairWrite io now ev =>
    match w.handles[handle]? with
    | none => w
    | some l =>
      let (l, dir, _) := l.append c repairWrite io now w.dir ev
      ⟨dir, w.handles.set handle l⟩
  | .compact handle io keepAfter keepRunStartsAfter =>
    match w.handles[handle]? with
    | none => w
    | some l => { w with dir := (l.compact c.unmarshal io keepAfter keepRunStartsAfter w.dir).1 }
  | .compactTickSkips handle io maxBytes keepAfter =>
    match w.handles[handle]? with
    | none => w
    | some l =>
      let (l, dir, _) := l.compactTickSkips c.unmarshal io maxBytes keepAfter w.dir
      ⟨dir, w.handles.set handle l⟩
  | .compactInstanceEvents io keepAfter keepRunStartsAfter dryRun =>
    { w with
      dir := (Journal.compactInstanceEvents c.unmarshal io keepAfter keepRunStartsAfter dryRun
        w.dir).1 }
  | .close handle =>
    match w.handles[handle]? with
    | none => w
    | some l => { w with handles := w.handles.set handle { l with closed := true } }
  | .crash kept fill => { dir := { w.dir with log := w.dir.log.crash kept fill }, handles := [] }

def InstanceWorld.run (c : Codec) (w : InstanceWorld) (actions : List InstanceAction) :
    InstanceWorld :=
  actions.foldl (fun w a => w.step c a) w

end Goobers.Journal
