import Goobers.Lib.GoMap
import Goobers.Lib.Trim

/-!
# The finding ledger

Several reviews may judge one head of a pull request. The ledger decides which of their findings
still stand: a finding that a review raised stays outstanding until a later one answers it, with
evidence that it is resolved or a reason to reject it. A review that says nothing about a finding
does not clear it.

The state is the open findings by id. A record's dispositions close, its standing findings and,
unless it is a pass, its own findings open. A committed record carries the whole ledger, so a
replay starts from the newest of them and looks at no other.

The SHA-256 sum of a finding's content is the parameter `sum`; nothing here depends on what it
is. `nil` and empty slices are told apart only in the field that `reflect.DeepEqual` looks at.
-/

namespace Goobers.Findings

open Lib

/-! ## Records -/

inductive Severity where
  | info
  | warning
  | error
  | critical
  | other (name : String)
  deriving DecidableEq, Repr

inductive FindingClass where
  | rebaseNeeded
  | conflict
  | substantive
  | missingTests
  | scopeCreep
  | contractChange
  | crossPRBlocked
  | other (name : String)
  deriving DecidableEq, Repr

inductive LearningClassification where
  | instruction
  | skill
  | workflow
  | gate
  | validation
  | codeDefect
  | other (name : String)
  deriving DecidableEq, Repr

/-- A finding of a verdict. -/
structure Finding where
  id : String := ""
  /-- The instance: the generation of the record that raised it. -/
  ledgerGeneration : Nat := 0
  learningSignature : String := ""
  learningClassification : LearningClassification := .other ""
  evidenceDigest : String := ""
  severity : Severity := .other ""
  message : String := ""
  location : String := ""
  class_ : FindingClass := .other ""
  blockingPRs : Option (List Int) := none
  deriving DecidableEq, Repr

inductive FindingDispositionOutcome where
  | resolved
  | rejected
  | other (name : String)
  deriving DecidableEq, Repr

structure FindingDisposition where
  findingID : String
  findingGeneration : Nat := 0
  outcome : FindingDispositionOutcome
  evidence : String := ""
  reason : String := ""
  deriving DecidableEq, Repr

/-- A complete disposition: a known outcome with the evidence or reason it requires. -/
def FindingDisposition.answers (d : FindingDisposition) : Bool :=
  if trimSpace d.findingID = "" then false
  else
    match d.outcome with
    | .resolved => trimSpace d.evidence ≠ ""
    | .rejected => trimSpace d.reason ≠ ""
    | .other _ => false

inductive VerdictDecision where
  | pass
  | fail
  | needsChanges
  | defer
  | escalate
  | other (name : String)
  deriving DecidableEq, Repr

/-- A record of the ledger. -/
structure Verdict where
  decision : VerdictDecision := .other ""
  findings : List Finding := []
  synthesized : Bool := false
  headSHA : String := ""
  elected : Bool := false
  dispositions : List FindingDisposition := []
  /-- Zero for a record that no publication committed. -/
  ledgerGeneration : Nat := 0
  standingFindings : List Finding := []
  deriving DecidableEq, Repr

/-- The caller's policy which findings block; without one, all do. -/
abbrev Substantive := Option (Finding → Bool)

def allows (substantive : Substantive) (f : Finding) : Bool :=
  match substantive with
  | none => true
  | some policy => policy f

/-! ## Identity -/

def hexDigit (n : Nat) : Char :=
  if n < 10 then Char.ofNat (0x30 + n) else Char.ofNat (0x61 + (n - 10))

def hexEncode (bytes : List UInt8) : String :=
  String.ofList (bytes.flatMap (fun b => [hexDigit (b.toNat / 16), hexDigit (b.toNat % 16)]))

section
variable (sum : Severity → FindingClass → String → String → List UInt8)

/-- The identity a disposition has to name. -/
def findingID (f : Finding) : String :=
  if trimSpace f.id ≠ "" then trimSpace f.id
  else "finding:content:" ++
    hexEncode (sum f.severity f.class_ (trimSpace f.message) (trimSpace f.location))

/-! ## The state -/

/-- The findings open by id, in the order they were raised. -/
structure Ledger where
  order : List String := []
  open_ : GoMap String Finding := ∅

namespace Ledger

def raise (substantive : Substantive) (findings : List Finding) (l : Ledger) : Ledger :=
  findings.foldl (fun l f =>
    if allows substantive f then
      let id := findingID sum f
      { order := if (l.open_.get? id).isSome then l.order else l.order ++ [id]
        open_ := l.open_.put id { f with id := id } }
    else l) l

/-- The dispositions of a record close the instances they name. -/
def close (dispositions : List FindingDisposition) (l : Ledger) : Ledger :=
  dispositions.foldl (fun l d =>
    match l.open_.get? (trimSpace d.findingID) with
    | some f =>
      if d.answers ∧ d.findingGeneration = f.ledgerGeneration then
        { l with open_ := l.open_.del f.id }
      else l
    | none => l) l

def apply (substantive : Substantive) (l : Ledger) (record : Verdict) : Ledger :=
  let l := (l.close record.dispositions).raise sum substantive record.standingFindings
  if record.decision ≠ .pass then l.raise sum substantive record.findings else l

/-- The loop of `findings`; `seen` holds the ids that are already out. -/
def findingsFrom (l : Ledger) : List String → List String → List Finding
  | [], _ => []
  | id :: order, seen =>
    match l.open_.get? id with
    | some f => if id ∈ seen then findingsFrom l order seen
        else f :: findingsFrom l order (id :: seen)
    | none => findingsFrom l order seen

def findings (l : Ledger) : List Finding := l.findingsFrom l.order []

end Ledger

/-- The newest committed snapshot for the head, in whatever order the records arrive. -/
def latestSnapshot (records : List Verdict) (head : String) : Option Verdict :=
  let latest := records.foldl (fun latest record =>
    if head ≠ "" ∧ record.headSHA = head ∧ 0 < record.ledgerGeneration ∧
        latest.ledgerGeneration ≤ record.ledgerGeneration then record
    else latest) ({} : Verdict)
  if 0 < latest.ledgerGeneration then some latest else none

def replay (records : List Verdict) (head : String) (substantive : Substantive) : Ledger :=
  if head = "" then {}
  else
    match latestSnapshot records head with
    | some snapshot => ({} : Ledger).apply sum substantive snapshot
    | none =>
      records.foldl (fun l record =>
        if record.headSHA = head then l.apply sum substantive record else l) {}

def outstanding (records : List Verdict) (head : String) (substantive : Substantive) :
    List Finding :=
  (replay sum records head substantive).findings

/-! ## Folding -/

def answeredIDs (dispositions : List FindingDisposition) : GoMap String Nat :=
  dispositions.foldl (fun answered d =>
    if d.answers then answered.put (trimSpace d.findingID) d.findingGeneration else answered) ∅

/-- One complete disposition per id; a later one of no older generation replaces it in place. -/
def mergeDispositions (base next : List FindingDisposition) : List FindingDisposition :=
  next.foldl (fun out d =>
    if !d.answers then out
    else
      let d := { d with findingID := trimSpace d.findingID }
      match out.findIdx? (fun e => e.findingID = d.findingID) with
      | some i =>
        if (out[i]?.map FindingDisposition.findingGeneration).getD 0 ≤ d.findingGeneration then
          out.set i d
        else out
      | none => out ++ [d]) base

def dispositionsOn (records : List Verdict) (head : String) : List FindingDisposition :=
  records.foldl (fun out record =>
    if record.headSHA = head then mergeDispositions out record.dispositions else out) []

/--
Append the findings whose id is not there yet; a substantive one replaces a same-id finding that
is not. The source keeps the first index of every id in a map beside the list.
-/
def appendMissing (findings extra : List Finding) (substantive : Substantive) : List Finding :=
  extra.foldl (fun out f =>
    match out.findIdx? (fun g => findingID sum g = findingID sum f) with
    | none => out ++ [f]
    | some i =>
      if !(out[i]?.map (allows substantive)).getD false && allows substantive f then out.set i f
      else out) findings

structure FoldResult where
  standing : List String := []
  answered : List String := []
  downgraded : Bool := false
  deriving DecidableEq, Repr

def ownRaised (next : Verdict) (substantive : Substantive) : List String :=
  if next.decision ≠ .pass then (next.findings.filter (allows substantive)).map (findingID sum)
  else []

/-- The record answers the instance. -/
def answersHere (next : Verdict) (f : Finding) : Bool :=
  (answeredIDs next.dispositions).get? f.id = some f.ledgerGeneration

/-- The record raises the finding itself, and not as one that it lists as standing. -/
def raisesAgain (next : Verdict) (substantive : Substantive) (f : Finding) : Bool :=
  f.id ∈ ownRaised sum next substantive && f.id ∉ next.standingFindings.map (findingID sum)

def standingAfter (prior : List Verdict) (next : Verdict) (substantive : Substantive) :
    List Finding :=
  (outstanding sum prior next.headSHA substantive).filter (fun f =>
    !answersHere next f && !raisesAgain sum next substantive f)

/-- `Fold`: make the verdict about to be published carry the ledger of its head. -/
def fold (prior : List Verdict) (next : Verdict) (substantive : Substantive) :
    Verdict × FoldResult :=
  if next.headSHA = "" then (next, {})
  else
    let standing := standingAfter sum prior next substantive
    let answered :=
      (outstanding sum prior next.headSHA substantive).filter (answersHere next)
    let stillOpen := ownRaised sum next substantive ++ standing.map Finding.id
    let dispositions :=
      (mergeDispositions (dispositionsOn prior next.headSHA) next.dispositions).filter
        (fun d => d.findingID ∉ stillOpen)
    let result : FoldResult :=
      { standing := standing.map Finding.id, answered := answered.map Finding.id }
    let folded := { next with standingFindings := standing, dispositions := dispositions }
    if standing ≠ [] ∧ !next.synthesized ∧
        (next.decision = .pass ∨ next.decision = .needsChanges) then
      if next.decision = .pass then
        -- a note under the id of a standing finding does not replace the finding
        let notes := next.findings.filter (fun f => findingID sum f ∉ stillOpen)
        ({ folded with
            findings := appendMissing sum notes standing substantive
            decision := .needsChanges
            elected := false },
          { result with downgraded := true })
      else
        ({ folded with findings := appendMissing sum next.findings standing substantive }, result)
    else (folded, result)

/-! ## Committing -/

/-- The two are one finding but for the instance. -/
def sameFinding (a b : Finding) : Bool :=
  { a with ledgerGeneration := 0 } = { b with ledgerGeneration := 0 }

/-- The instance a candidate's finding gets. -/
def stampFinding (open_ : List Finding) (decision : VerdictDecision) (generation : Nat)
    (substantive : Substantive) (f : Finding) : Finding :=
  let f := { f with ledgerGeneration := 0 }
  if decision = .pass ∨ !allows substantive f then f
  else
    let f := { f with id := findingID sum f, ledgerGeneration := generation }
    match open_.find? (fun previous => previous.id = f.id) with
    | some previous =>
      if sameFinding previous f then { f with ledgerGeneration := previous.ledgerGeneration }
      else f
    | none => f

/-- The candidate as the publication submits it for folding. -/
def stamp (prior : List Verdict) (candidate : Verdict) (generation : Nat)
    (substantive : Substantive) : Verdict :=
  { candidate with
    ledgerGeneration := generation
    standingFindings := []
    findings := candidate.findings.map (stampFinding sum
      (outstanding sum prior candidate.headSHA substantive) candidate.decision generation
      substantive) }

/-- `Commit`: fold a reviewer's candidate at a generation of the publication's own. -/
def commit (prior : List Verdict) (candidate : Verdict) (generation : Nat)
    (substantive : Substantive) : Verdict × FoldResult :=
  fold sum prior (stamp sum prior candidate generation substantive) substantive

end

end Goobers.Findings
