import Goobers.Journal.Event

/-!
# Completed transcript captures

A transcript is captured in checkpoints, one blob and one partial `span.recorded` event
each, and is completed by a final `span.recorded` event that names the capture. Only then
are the partial blobs removed. The last step of a recovery closes the window in between:
it collects the completed captures, adopts the partial events of each and removes what
they name. A log whose span events do not fit together makes it fail, and so does a
removal that fails; the recovery then returns no handle.

The blobs are outside the model. What a recovery finds in the directory of each capture
is an input of it, as the outcome of a write is.
-/

namespace Goobers.Journal

/-- Why `recoverCompletedTranscripts` fails. -/
inductive TranscriptError where
  /-- "journal: invalid completed transcript capture" -/
  | invalidCompleted
  /-- "journal: duplicate completed transcript capture" -/
  | duplicateCompleted
  /-- "journal: invalid superseded transcript checkpoint" -/
  | invalidCheckpoint
  /-- The digest of a superseded checkpoint is not `sha256:<hex>`. -/
  | digest
  /-- "journal: superseded checkpoint is outside its capture namespace" -/
  | outsideNamespace
  /-- The partial blobs of a completed capture cannot be removed. -/
  | cleanup
  deriving DecidableEq, Repr

/-- A completed capture, with the number of partial events adopted so far. -/
structure TranscriptCapture where
  id : String
  stage : String
  name : String
  final : Ref
  count : Nat := 0
  deriving DecidableEq, Repr

def maxTranscriptCheckpoints : Nat := 4096

def isLowerHex (ch : Char) : Bool := ch.isDigit || ('a' ≤ ch && ch ≤ 'f')

def isHex (ch : Char) : Bool := isLowerHex ch || ('A' ≤ ch && ch ≤ 'F')

/-- Sixteen bytes as `hex.EncodeToString` writes them. -/
def validTranscriptCaptureID (id : String) : Bool :=
  id.toList.length = 32 && id.toList.all isLowerHex

/-- The hex part of a `sha256:<hex>` digest. -/
def digestHex (digest : String) : Option (List Char) :=
  let algo := "sha256:".toList
  let hexPart := digest.toList.drop algo.length
  if algo.isPrefixOf digest.toList && hexPart.length = 64 && hexPart.all isHex then some hexPart
  else none

/-- Where the blob of a final transcript belongs. -/
def spanPath (digest : String) : Option (List Char) :=
  (digestHex digest).map (fun hex => "spans/sha256/".toList ++ hex.take 2 ++ '/' :: hex.drop 2)

/-- Where the blob of a checkpoint of the capture `id` belongs. -/
def checkpointPath (id : String) (hex : List Char) : List Char :=
  "spans/checkpoints/".toList ++ id.toList ++ '/' :: hex

/-- The first pass: a final event opens the entry of its capture. -/
def completeCapture (completed : List TranscriptCapture) (ev : Event) :
    Except TranscriptError (List TranscriptCapture) :=
  match ev.runnerValue "transcriptCaptureComplete" with
  | some (.str id) =>
    if ev.type ≠ .spanRecorded then .ok completed
    else
      match validTranscriptCaptureID id, ev.ref with
      | true, some ref =>
        if completed.any (fun c => c.id = id) then .error .duplicateCompleted
        else .ok (completed ++ [{ id := id, stage := ev.stage, name := ev.name, final := ref }])
      | _, _ => .error .invalidCompleted
  | _ => .ok completed

def TranscriptCapture.adoptPartialEvent (c : TranscriptCapture) (ev : Event) :
    Except TranscriptError TranscriptCapture :=
  match ev.ref with
  | none => .error .invalidCheckpoint
  | some ref =>
    if ev.type ≠ .spanRecorded ∨ ev.runnerValue "partial" ≠ some (.bool true) ∨
        ev.stage ≠ c.stage ∨ ev.name ≠ c.name ++ ".partial" ∨
        c.count ≥ maxTranscriptCheckpoints then
      .error .invalidCheckpoint
    else
      match digestHex ref.digest with
      | none => .error .digest
      | some hex =>
        if ref.path.toList ≠ checkpointPath c.id hex then .error .outsideNamespace
        else .ok { c with count := c.count + 1 }

/-- The second pass: a partial event of a completed capture is adopted by it. -/
def adoptEvent (completed : List TranscriptCapture) (ev : Event) :
    Except TranscriptError (List TranscriptCapture) :=
  let id := ev.runnerString "transcriptCapture"
  match completed.find? (fun c => c.id = id) with
  | none => .ok completed
  | some capture =>
    (capture.adoptPartialEvent ev).map (fun adopted =>
      completed.map (fun c => if c.id = id then adopted else c))

/--
What a recovery finds of the captures whose directories are still there: whether the final
transcript is available and the partial blobs can be removed.
-/
abbrev Leftovers := List (String × Bool)

/-- The cleanup of a capture succeeds. Without a directory there is nothing left to do. -/
def TranscriptCapture.recoverCleanup (c : TranscriptCapture) (leftovers : Leftovers) : Bool :=
  match leftovers.lookup c.id with
  | none => true
  | some removed => spanPath c.final.digest = some c.final.path.toList && removed

def recoverCompletedTranscripts (leftovers : Leftovers) (events : List Event) :
    Except TranscriptError Unit := do
  let completed ← events.foldlM completeCapture []
  let completed ← events.foldlM adoptEvent completed
  -- the captures come out of a map, so which failure is reported first is open
  if completed.all (fun c => c.recoverCleanup leftovers) then .ok () else .error .cleanup

-- a capture completed twice stops every recovery, and one with a leftover blob until it can go
example :
    let final : Event :=
      { type := .spanRecorded, ref := some ⟨"spans/sha256/ab", "sha256:ab"⟩,
        runner := [("transcriptCaptureComplete", .str "00112233445566778899aabbccddeeff")] }
    recoverCompletedTranscripts [] [final] = .ok () ∧
      recoverCompletedTranscripts [] [final, final] = .error .duplicateCompleted ∧
      recoverCompletedTranscripts [("00112233445566778899aabbccddeeff", false)] [final] =
        .error .cleanup := by
  decide

end Goobers.Journal
