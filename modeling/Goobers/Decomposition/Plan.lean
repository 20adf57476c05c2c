import Mathlib.Data.List.Sort
import Goobers.Lib.Text
import Mathlib.Algebra.GroupWithZero.Nat
import Mathlib.Data.Char
import Mathlib.Data.List.Lex

/-!
# Decomposition plans

A plan splits one parent issue into child issues. Its texts are written by a model, and
`ValidatePlan` is what stands between them and the publisher: it binds the plan to the
selection it was made for and collects every finding about the children.

JSON, SHA-256 and base64 are the fields of an `Encoding`, with what is used of them.
-/

namespace Goobers.Decomposition

open Lib Lib.Strings

structure ParentRef where
  provider : Text
  repository : Text
  id : Text
  observedRevision : Text
  deriving DecidableEq

structure PlanSelection where
  mode : Text
  sourceRunID : Text
  issueSnapshotDigest : Text

/-- One child of a decomposition. -/
structure ChildPlan where
  key : Text
  title : Text
  body : Text
  labels : List Text
  acceptanceCriteria : Text
  validationBoundary : Text
  dependsOn : List Text

structure Plan where
  schemaVersion : Text
  selection : PlanSelection
  parent : ParentRef
  summary : Text
  children : List ChildPlan
  unresolvedDecision : Text
  singleReplacementReason : Text

/-- The fields of `Selection` that a plan is bound to. -/
structure Selection where
  mode : Text
  sourceRunID : Text
  parent : ParentRef
  issueSnapshotDigest : Text

structure LiveParentSnapshot where
  id : Text
  title : Text
  body : Text
  labels : List Text
  state : Text

def hexDigits : Text := text "0123456789abcdef"

def base64Letter (c : Char) : Bool := c.isAlphanum || c = '-' || c = '_'

/-- The encodings the texts go through, with what is used of them. -/
structure Encoding where
  /-- `hex.EncodeToString` of the SHA-256 sum -/
  sha256 : Text → Text
  sha256_ne_nil : ∀ s, sha256 s ≠ []
  sha256_hex : ∀ s, ∀ c ∈ sha256 s, c ∈ hexDigits
  /-- `base64.RawURLEncoding.EncodeToString` -/
  base64 : Text → Text
  base64_injective : Function.Injective base64
  base64_letters : ∀ s, ∀ c ∈ base64 s, base64Letter c = true
  /-- `json.Marshal` of a plan -/
  planJSON : Plan → Text
  /-- `json.Marshal` of what `IssueSnapshotDigest` covers -/
  snapshotJSON : LiveParentSnapshot → Text
  /-- `json.Marshal` of a `CreateWorkItemRequest`: title, body and labels -/
  requestJSON : Text → Text → List Text → Text

section
variable (enc : Encoding)

def sortStrings (ss : List Text) : List Text := ss.insertionSort (fun a b => a ≤ b)

def issueSnapshotDigest (live : LiveParentSnapshot) : Text :=
  text "sha256:" ++ enc.sha256 (enc.snapshotJSON { live with labels := sortStrings live.labels })

def planDigest (plan : Plan) : Text := text "sha256:" ++ enc.sha256 (enc.planJSON plan)

end

/-! ## Findings -/

/-- What `ValidatePlan` finds, with what the texts name. -/
inductive PlanError where
  /-- unsupported or malformed plan schemaVersion -/
  | schemaVersion (version : Text)
  /-- plan selection mode does not match selector artifact mode -/
  | mode (plan selection : Text)
  /-- plan selection sourceRunId does not match selector artifact -/
  | sourceRunID (plan selection : Text)
  /-- plan selection issueSnapshotDigest does not match selector artifact -/
  | snapshotDigest
  /-- plan parent does not match selector artifact parent -/
  | parent (plan selection : ParentRef)
  /-- plan has no children -/
  | noChildren
  /-- plan must propose at least two children unless singleReplacementReason explains one -/
  | tooFewChildren
  /-- a plan with singleReplacementReason set must propose exactly one replacement child -/
  | notOneReplacement
  | emptyKey
  | duplicateKey (key : Text)
  | emptyTitle (key : Text)
  | emptyAcceptanceCriteria (key : Text)
  /-- names no validation boundary -/
  | noValidationBoundary (key : Text)
  /-- body is too short to describe a coherent single-PR change -/
  | bodyTooShort (key : Text)
  /-- identical title and body -/
  | duplicates (key dupKey : Text)
  /-- requests a publisher-owned or non-allowlisted label -/
  | label (key label : Text)
  /-- dependency cycle detected involving -/
  | dependencyCycle (path : List Text)
  deriving DecidableEq

structure ValidationResult where
  valid : Bool
  errors : List PlanError
  /-- parent changed since selection: its id, the observed digest and the live one -/
  conflict : Option (Text × Text × Text)
  unresolvedDecision : Bool
  schemaInvalid : Bool
  deriving DecidableEq

def trimText (s : Text) : Text := trim isSpace s

def byteLength (s : Text) : Nat := (s.map Char.utf8Size).sum

def disallowedChildLabelPrefixes : List Text := [text "goobers:", text "goobers/status:"]

def minChildBodyLength : Nat := 20

def allowedChildLabel (label : Text) : Bool :=
  !disallowedChildLabelPrefixes.any (·.isPrefixOf label) &&
    ((text "area:").isPrefixOf label || (text "type:").isPrefixOf label)

def problemIf (c : Bool) (e : PlanError) : List PlanError := if c then [e] else []

/-- What is found about the children, with the keys and contents of those before. -/
def validateEach (keys : List Text) (seenContent : List (Text × Text)) :
    List ChildPlan → List PlanError
  | [] => []
  | child :: children =>
    let content := trimText child.title ++ '\x00' :: trimText child.body
    let dupKey := if child.key = [] then none else seenContent.lookup content
    let seenContent' :=
      if child.key ≠ [] ∧ dupKey = none then (content, child.key) :: seenContent
      else seenContent
    (if child.key = [] then [.emptyKey]
      else problemIf (child.key ∈ keys) (.duplicateKey child.key)) ++
    problemIf (trimText child.title = []) (.emptyTitle child.key) ++
    problemIf (trimText child.acceptanceCriteria = []) (.emptyAcceptanceCriteria child.key) ++
    problemIf (trimText child.validationBoundary = []) (.noValidationBoundary child.key) ++
    problemIf (byteLength (trimText child.body) < minChildBodyLength)
      (.bodyTooShort child.key) ++
    (match dupKey with
      | some dup => [.duplicates child.key dup]
      | none => []) ++
    (child.labels.filter (fun l => !allowedChildLabel l)).map (.label child.key) ++
    validateEach (child.key :: keys) seenContent' children

def dependencies (children : List ChildPlan) (key : Text) : List Text :=
  (children.filter (fun c => c.key = key)).flatMap ChildPlan.dependsOn

/--
`visit`: the keys that are done after this one, or the path on which it is met again. The
keys on the path are distinct, so as many rounds as there are children are enough.
-/
def visit (children : List ChildPlan) :
    Nat → List Text → List Text → Text → Except (List Text) (List Text)
  | 0, _, done, _ => .ok done
  | fuel + 1, path, done, key =>
    if key ∈ done then .ok done
    else if key ∈ path then .error path
    else do
      let done ← (dependencies children key).foldlM
        (fun done dep =>
          -- a reference to an issue outside the plan closes no cycle
          if children.any (fun c => c.key = dep) then
            visit children fuel (path ++ [key]) done dep
          else .ok done)
        done
      return key :: done

def findDependencyCycles (children : List ChildPlan) : List PlanError :=
  let keys := sortStrings (children.map ChildPlan.key)
  match keys.foldlM (fun done key => visit children (children.length + 1) [] done key) [] with
  | .ok _ => []
  | .error path => [.dependencyCycle path]

def validateChildren (plan : Plan) : List PlanError :=
  if plan.children = [] then [.noChildren]
  else
    (if plan.singleReplacementReason = [] then
      problemIf (plan.children.length < 2) .tooFewChildren
    else problemIf (plan.children.length ≠ 1) .notOneReplacement) ++
    validateEach [] [] plan.children ++ findDependencyCycles plan.children

def validatePlanBinding (plan : Plan) (selection : Selection) : List PlanError :=
  problemIf (plan.selection.mode ≠ selection.mode) (.mode plan.selection.mode selection.mode) ++
  problemIf (plan.selection.sourceRunID ≠ selection.sourceRunID)
    (.sourceRunID plan.selection.sourceRunID selection.sourceRunID) ++
  problemIf (plan.selection.issueSnapshotDigest ≠ selection.issueSnapshotDigest)
    .snapshotDigest ++
  problemIf (plan.parent ≠ selection.parent) (.parent plan.parent selection.parent)

def planSchemaV1 : Text := text "v1"

def validatePlan (enc : Encoding) (plan : Plan) (selection : Selection)
    (live : LiveParentSnapshot) : ValidationResult :=
  if plan.schemaVersion ≠ planSchemaV1 then
    { valid := false, errors := [.schemaVersion plan.schemaVersion], conflict := none,
      unresolvedDecision := false, schemaInvalid := true }
  else
    let errors := validatePlanBinding plan selection ++ validateChildren plan
    let digest := issueSnapshotDigest enc live
    let conflict :=
      if digest ≠ selection.issueSnapshotDigest then
        some (live.id, selection.issueSnapshotDigest, digest)
      else none
    let unresolved : Bool := trimText plan.unresolvedDecision ≠ []
    { valid := errors = [] && conflict = none && !unresolved, errors := errors,
      conflict := conflict, unresolvedDecision := unresolved, schemaInvalid := false }

def Accepted (enc : Encoding) (plan : Plan) (selection : Selection)
    (live : LiveParentSnapshot) : Prop :=
  (validatePlan enc plan selection live).valid = true

end Goobers.Decomposition
