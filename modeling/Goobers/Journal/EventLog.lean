import Goobers.Journal.Parse
import Goobers.Journal.Transcripts

/-!
# Appending to the event log

`appendEvent` stamps an event, marshals and scrubs it, and writes one line and
one fsync. What can go wrong with the line once it is on its way is the
`WriteOutcome`: the write stops after some bytes, or the fsync fails after all
of them. A line is durable only when its append returned without error.

The file is kept with the length of the prefix that is known to be on stable
storage, and with one ghost field: every line a write was begun for.
-/

namespace Goobers.Journal

open Lib

/--
The text boundary of the journal: `marshalEvent` (the event's own checks, then
`json.Marshal`), the configured scrubber and `json.Unmarshal`.
-/
structure TextLayer where
  marshalEvent : Event → Option Bytes
  scrub : Bytes → Bytes
  unmarshal : Bytes → Option Event

/--
A text boundary that keeps what a reader needs. `redact ev` is the event a reader gets
back for `ev`: scrubbing may change texts inside it, never the sequence number, the
schema or that it is one JSON object on one line.
-/
structure Codec extends TextLayer where
  redact : Event → Event
  /-- A scrubbed line is still one JSON object, without raw newlines. -/
  object : ∀ ev line, marshalEvent ev = some line → IsObjectLine (scrub line)
  /-- A scrubbed line still decodes. -/
  decode : ∀ ev line, marshalEvent ev = some line → unmarshal (scrub line) = some (redact ev)
  redact_seq : ∀ ev, (redact ev).seq = ev.seq
  redact_schema : ∀ ev, (redact ev).schema = ev.schema

instance : Coe Codec TextLayer := ⟨Codec.toTextLayer⟩

/-- What becomes of a write: synced, cut short, or written without its fsync. -/
inductive WriteOutcome where
  | ok
  /-- The write stops after this many bytes. -/
  | stops (n : Nat)
  /-- The whole line is written and the fsync fails. -/
  | syncFails
  deriving DecidableEq, Repr

/-- A write of a line, with its outcome. -/
structure Attempt where
  event : Event
  line : Bytes
  outcome : WriteOutcome
  deriving DecidableEq, Repr

/-- The append returned success. -/
def Attempt.Succeeded (a : Attempt) : Prop := a.outcome = .ok

instance (a : Attempt) : Decidable a.Succeeded := inferInstanceAs (Decidable (a.outcome = .ok))

/-- All of the line reached the file, its newline included. -/
def Attempt.Whole (a : Attempt) : Prop :=
  match a.outcome with
  | .stops n => a.line.length + 1 ≤ n
  | _ => True

/-- The bytes of the log, how many of them are durable, and the writes begun. -/
structure LogFile where
  data : Bytes := []
  /-- The length of the prefix that survives a crash. -/
  durable : Nat := 0
  /-- Ghost: every line a write was begun for, oldest first. -/
  written : List Attempt := []
  deriving DecidableEq, Repr

/-- Why an append, a repair or a recovery does not return success. -/
inductive AppendError where
  | closed
  | blocked
  | rateLimited
  | read (e : ReadError)
  | marshal
  | tooLong
  | write
  | sync
  | transcript (e : TranscriptError)
  deriving DecidableEq, Repr

/-- The stamp `appendEvent` puts on an event, progress report included. -/
def stampEvent (seq : Nat) (now : Int) (ev : Event) : Event :=
  let progress :=
    if ev.type = .agentProgress then
      ev.progress.map (fun p =>
        let occurredAt := if p.occurredAt = 0 then now else p.occurredAt
        { p with
          sequence := seq
          occurredAt := occurredAt
          updatedAt := if p.updatedAt = 0 then occurredAt else p.updatedAt })
    else ev.progress
  { ev with seq := seq, schema := eventSchema, time := now, progress := progress }

@[simp] theorem stampEvent_seq (seq : Nat) (now : Int) (ev : Event) :
    (stampEvent seq now ev).seq = seq := rfl

def LogFile.write (f : LogFile) (a : Attempt) : LogFile :=
  let line := a.line ++ [newline]
  let written := f.written ++ [a]
  match a.outcome with
  | .stops n => { f with data := f.data ++ line.take n, written := written }
  | .syncFails => { f with data := f.data ++ line, written := written }
  | .ok =>
    let data := f.data ++ line
    { data := data, durable := data.length, written := written }

/-- What the append of a line that was begun reports. -/
def writeResult : WriteOutcome → Event → Except AppendError Event
  | .stops _, _ => .error .write
  | .syncFails, _ => .error .sync
  | .ok, stamped => .ok stamped

/--
Marshal, scrub, write and fsync one event line. A refusal before the write gives
the sequence number back; a failed write or fsync keeps it.
-/
def appendEvent (c : TextLayer) (io : WriteOutcome) (now : Int) (f : LogFile) (seq : Nat)
    (ev : Event) : LogFile × Nat × Except AppendError Event :=
  let stamped := stampEvent (seq + 1) now ev
  match c.marshalEvent stamped with
  | none => (f, seq, .error .marshal)
  | some text =>
    let line := c.scrub text
    if line.length + 1 > maxEventBytes then (f, seq, .error .tooLong)
    else (f.write ⟨stamped, line, io⟩, seq + 1, writeResult io stamped)

/-- Cut a torn final region of `tornBytes` off the file. -/
def truncateTornTail (f : LogFile) (tornBytes : Nat) : LogFile :=
  let data := f.data.take (f.data.length - tornBytes)
  { f with data := data, durable := min f.durable data.length }

/-- A crash keeps the durable prefix, `kept` of the bytes after it, and adds NUL fill. -/
def LogFile.crash (f : LogFile) (kept fill : Nat) : LogFile :=
  let data := f.data.take (f.durable + kept) ++ List.replicate fill 0
  { f with data := data, durable := data.length }

/-! ## One spec for an append -/

/-- A line this codec writes: it reads back as the redacted event it was written for. -/
structure Attempt.Sound (c : Codec) (a : Attempt) : Prop where
  marshal : (c.marshalEvent a.event).map c.scrub = some a.line
  object : IsObjectLine a.line
  short : a.line.length + 1 ≤ maxEventBytes
  decode : c.unmarshal a.line = some (c.redact a.event)
  schema : a.event.schema = eventSchema

/-- **Everything `appendEvent` can do**: refuse and change nothing, or begin one write. -/
theorem appendEvent_cases (c : Codec) (io : WriteOutcome) (now : Int) (f : LogFile) (seq : Nat)
    (ev : Event) :
    (∃ e, appendEvent c io now f seq ev = (f, seq, .error e)) ∨
      ∃ a : Attempt, a.Sound c ∧ a.event = stampEvent (seq + 1) now ev ∧ a.outcome = io ∧
        appendEvent c io now f seq ev = (f.write a, seq + 1, writeResult io a.event) := by
  unfold appendEvent
  cases hm : c.marshalEvent (stampEvent (seq + 1) now ev) with
  | none =>
    left
    exact ⟨.marshal, by simp [hm]⟩
  | some text =>
    by_cases hlen : (c.scrub text).length + 1 > maxEventBytes
    · left
      exact ⟨.tooLong, by simp only [hm, if_pos hlen]⟩
    · right
      refine ⟨⟨stampEvent (seq + 1) now ev, c.scrub text, io⟩, ?_, rfl, rfl, ?_⟩
      · exact ⟨by rw [hm]; rfl, c.object _ _ hm, by simpa using hlen, c.decode _ _ hm, rfl⟩
      · simp only [hm, if_neg hlen]

end Goobers.Journal
