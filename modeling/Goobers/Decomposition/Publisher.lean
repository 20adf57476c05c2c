import Goobers.Decomposition.Provider

/-!
# The publisher

`Publish` takes a plan through a batch of calls: it marks the parent, writes the prepared
record, creates or adopts the children, links them, writes the tracking section, checks
everything, marks the children ready, checks again, and writes the published record. It can
be stopped at each call, and the next attempt starts from what the provider then holds.
-/

namespace Goobers.Decomposition

open Lib hiding lines
open Lib.Strings
open Lib.Attempt (settle throwIf observe wrap each collect)

abbrev ForgeM (α : Type) : Type := Attempt Failure Call Answer α

abbrev ask (c : Call) : ForgeM (Answer c) := Attempt.ask c

def labelReady : Text := text "goobers:ready"

def labelNeedsHuman : Text := text "goobers:needs-human"

def labelTracking : Text := text "tracking"

def statusDecomposing : Text := text "goobers/status:decomposing"

/-! ## Primitives -/

/--
A body under the lease of its target. `held` is the target whose lease the publisher has
already, so that `preacquiredTargetLeaser` passes it over.
-/
def withTargetLease {α : Type} (held id : Text) (body : ForgeM α) : ForgeM α :=
  if id = held then body
  else do
    wrap .acquireTarget (ask (.acquire id))
    let outcome ← observe body
    let _ ← observe (ask (.release id))
    settle outcome

def guardedItem (id expected : Text) : ForgeM Item := do
  throwIf (expected = []) (.revisionRequired id)
  let item ← ask (.getWorkItem id)
  throwIf (item.revision ≠ expected) (.revisionConflict id expected item.revision)
  return item

/-- The one of some bodies with a digest line, if all that were found have it. -/
def exactMatch {α : Type} (key : Text) (one many : String) (matching : α → Bool)
    (candidates : List α) : Except Failure (Option α) :=
  if candidates.any (fun a => !matching a) then
    .error (.markerConflict key ("existing " ++ one ++ " has different content digest"))
  else
    match candidates with
    | [] => .ok none
    | [a] => .ok (some a)
    | _ => .error (.markerConflict key ("marker appears on multiple " ++ many))

section
variable (enc : Encoding)

def findChild (key payload : Text) : ForgeM (Option Item) := do
  let items ← ask (.findWorkItemsByMarker (markerKeyLine enc key))
  settle (exactMatch key "child" "children"
    (fun item => containsLine item.body (digestLine enc payload)) items)

def findComment (id key payload : Text) : ForgeM (Option Text) := do
  let comments ← ask (.listComments id)
  settle (exactMatch key "comment" "comments"
    (fun body => containsLine body (digestLine enc payload))
    (comments.filter (fun body => containsLine body (markerKeyLine enc key))))

/-- Create something under a key, or adopt what has been created under it already. -/
def createOnce {α : Type} (find : ForgeM (Option α)) (guard : ForgeM Unit) (create : ForgeM α) :
    ForgeM α := do
  match ← find with
  | some existing => return existing
  | none =>
    guard
    match ← observe create with
    | .ok a => return a
    | .error createErr =>
      match ← observe find with
      | .error lookupErr => throw (.join createErr lookupErr)
      | .ok (some existing) => return existing
      | .ok none => throw createErr

def createChild (parentID expectedParentRevision digest : Text) (child : ChildPlan) :
    ForgeM Item := do
  let key := childActionKey digest child
  let body := childIssueBody parentID digest child
  let labels := child.labels ++ [labelApproved]
  let payload := enc.requestJSON child.title body labels
  throwIf (parentID = []) .parentRequired
  throwIf (trimText key = []) .keyRequired
  createOnce (findChild enc key payload)
    (do let _ ← guardedItem parentID expectedParentRevision)
    (ask (.createWorkItem child.title (markedBody enc key body payload) labels))

def appendMarkerComment (held id expectedRevision key body : Text) : ForgeM Unit := do
  throwIf (trimText key = []) .keyRequired
  withTargetLease held id do
    let _ ← createOnce (findComment enc id key body)
      (do let _ ← guardedItem id expectedRevision)
      (do
        ask (.createWorkItemComment id (markedBody enc key body body))
        return [])

end

def attachChild (parentID childID parentRevision childRevision : Text) : ForgeM Unit := do
  let children ← ask (.listWorkItemChildren parentID)
  if childID ∈ children then return
  else do
    let parent ← guardedItem parentID parentRevision
    let child ← guardedItem childID childRevision
    ask (.attachWorkItemChild parentID childID parent.revision child.revision)

/-! ## Records -/

/-- What `findBatchRecord` finds in the comments of the parent. -/
inductive FoundRecord where
  | absent
  | conflict
  | record (line : Text) (fields : RecordFields)

/-- The record among some lines, after those that gave `exact`. -/
def scanRecords (kind : BatchRecord) (parentID digest : Text) :
    FoundRecord → List Text → FoundRecord
  | exact, [] => exact
  | exact, line :: rest =>
    if kind.marker.isPrefixOf line then
      match parseBatchRecord line kind, exact with
      | some fields, .absent =>
        if fields.parent = parentID ∧ fields.digest = digest then
          scanRecords kind parentID digest (.record line fields) rest
        else .conflict
      | _, _ => .conflict
    else scanRecords kind parentID digest exact rest

def findBatchRecord (comments : List Text) (kind : BatchRecord) (parentID digest : Text) :
    FoundRecord :=
  scanRecords kind parentID digest .absent (comments.flatMap (fun body => lines (crlf body)))

def parentResumeMarker (parentID digest : Text) : Text :=
  resumeMarkerPrefix ++ text " v1 parent=" ++ parentID ++ text " digest=" ++ digest ++ text " -->"

/-- Whether the body has the resume marker of this batch; `none` if it has another one. -/
def parentResumeState (body parentID digest : Text) : Option Bool :=
  match (lines (crlf body)).filter (resumeMarkerPrefix.isPrefixOf ·) with
  | [] => some false
  | [line] => if line = parentResumeMarker parentID digest then some true else none
  | _ => none

/-! ## Checks -/

def sameStringSet (a b : List Text) : Bool := sortStrings a = sortStrings b

def wantLabels (planned : ChildPlan) (ready : Bool) : List Text :=
  planned.labels ++ [labelApproved] ++ (if ready then [labelReady] else [])

/-- Its labels as they are compared. -/
def seenLabels (labels : List Text) (ready : Bool) : List Text :=
  if ready then labels else labels.filter (· ≠ labelReady)

/-- The id of the child with a key; of two with one key the later counts. -/
def keyID (plan : Plan) (ids : List Text) (key : Text) : Option Text :=
  ((plan.children.map ChildPlan.key).zip ids).reverse.lookup key

def wantBlockers (plan : Plan) (ids : List Text) (planned : ChildPlan) : List Text :=
  planned.dependsOn.map fun dependency =>
    match keyID plan ids dependency with
    | some id => if id = [] then dependency else id
    | none => dependency

section
variable {enc : Encoding} (prov : Provider enc) (plan : Plan) (digest : Text)

def verifyChild (ready : Bool) (planned : ChildPlan) (id : Text) : ForgeM Unit := do
  let item ← ask (.getWorkItem id)
  throwIf (item.title ≠ planned.title ∨
    unmarkedActionBody item.body ≠ childIssueBody plan.parent.id digest planned)
      (.childContent item.id planned.key)
  throwIf (!sameStringSet (seenLabels item.labels ready) (wantLabels planned ready))
    (.childLabels item.id (seenLabels item.labels ready) (wantLabels planned ready))

def verifyLinks (ids : List Text) : ForgeM Unit :=
  if prov.hierarchy then do
    let actual ← ask (.listWorkItemChildren plan.parent.id)
    throwIf (!sameStringSet actual ids) (.childLinks plan.parent.id)
  else return

def verifyBlockers (ids : List Text) (planned : ChildPlan) (id : Text) : ForgeM Unit := do
  let actual ← ask (.listWorkItemBlockers id)
  throwIf (!sameStringSet actual (wantBlockers plan ids planned)) (.childDependencies id)

/-- The tracking section around what the parent's body is now. -/
def trackedParent (current : Text) (ids : List Text) : Except Failure Text :=
  match trackingBody current plan ids with
  | some body => .ok body
  -- there are never more children than the plan has
  | none => .error .outOfRange

def verify (ids : List Text) (ready : Bool) : ForgeM Unit := do
  throwIf (ids.length ≠ plan.children.length) (.childCount ids.length plan.children.length)
  let parent ← ask (.getWorkItem plan.parent.id)
  let wantBody ← settle (trackedParent plan parent.body ids)
  throwIf (parent.body ≠ wantBody) (.trackingBody parent.id)
  each (fun (planned, id) => verifyChild plan digest ready planned id) (plan.children.zip ids)
  verifyLinks prov plan ids
  if prov.dependencies then
    each (fun (planned, id) => verifyBlockers plan ids planned id) (plan.children.zip ids)
  else return

/-! ## The steps of a publication -/

def parentPrepared (parent : Item) : Bool :=
  parent.hasLabel labelTracking && parent.hasLabel statusDecomposing &&
    !parent.hasLabel labelReady && !parent.hasLabel labelNeedsHuman

def ensureResumeMarker (parent : Item) (resuming : Bool) : ForgeM Item :=
  if resuming then return parent
  else ask (.updateWorkItem parent.id parent.revision
    (some (trimText parent.body ++ text "\n\n" ++ parentResumeMarker parent.id digest)) [] [])

def ensureParentPrepared (parent : Item) (resuming : Bool) : ForgeM Item := do
  let parent ← ensureResumeMarker digest parent resuming
  if parentPrepared parent then return parent
  else ask (.updateWorkItem parent.id parent.revision none
    [labelTracking, statusDecomposing] [labelReady, labelNeedsHuman])

/-- Whether the prepared record is there already. -/
def preparedBefore : FoundRecord → Except Failure Bool
  | .absent => .ok false
  | .record line _ =>
    if line = preparedBatchRecord plan digest then .ok true
    else .error (.markerConflict digest "parent has a conflicting prepared batch record")
  | .conflict => .error (.markerConflict digest "parent has a conflicting prepared batch record")

/-- Whether the resume marker is there already. -/
def resumingBefore (parent : Item) : Except Failure Bool :=
  match parentResumeState parent.body parent.id digest with
  | some resuming => .ok resuming
  | none => .error (.markerConflict digest "parent has a conflicting decomposition resume marker")

def prepare (enc : Encoding) (parent : Item) : ForgeM Unit := do
  let comments ← ask (.listComments plan.parent.id)
  let hasRecord ← settle
    (preparedBefore plan digest (findBatchRecord comments .prepared plan.parent.id digest))
  let resuming ← settle (resumingBefore digest parent)
  throwIf (!hasRecord ∧ !resuming ∧ parent.revision ≠ plan.parent.observedRevision)
    (.revisionConflict parent.id plan.parent.observedRevision parent.revision)
  let parent ← ensureParentPrepared digest parent resuming
  appendMarkerComment enc plan.parent.id parent.id parent.revision
    (digest ++ text "/record/prepared") (preparedBatchRecord plan digest)

def createChildren (enc : Encoding) : ForgeM (List Item) :=
  collect (fun child => do
    let parent ← ask (.getWorkItem plan.parent.id)
    createChild enc parent.id parent.revision digest child) plan.children

def attachChildren (ids : List Text) : ForgeM Unit :=
  if prov.hierarchy then
    each (fun id => do
      let parent ← ask (.getWorkItem plan.parent.id)
      let child ← ask (.getWorkItem id)
      attachChild parent.id child.id parent.revision child.revision) ids
  else return

def attachDependency (itemID blockerID : Text) : ForgeM Unit := do
  let item ← ask (.getWorkItem itemID)
  let blocker ← ask (.getWorkItem blockerID)
  let existing ← ask (.listWorkItemBlockers item.id)
  if blockerID ∈ existing then return
  else ask (.attachWorkItemBlocker item.id blockerID item.revision blocker.revision)

def attachDependencies (ids : List Text) : ForgeM Unit :=
  if plan.children.all (fun child => child.dependsOn.isEmpty) then return
  else do
    throwIf (!prov.dependencies) .noDependencies
    each (fun (planned, id) =>
      each (fun dependency => attachDependency id ((keyID plan ids dependency).getD dependency))
        planned.dependsOn) (plan.children.zip ids)

def writeTracking (ids : List Text) : ForgeM Unit := do
  let parent ← ask (.getWorkItem plan.parent.id)
  let body ← settle (trackedParent plan parent.body ids)
  if parent.body = body then return
  else do
    let _ ← ask (.updateWorkItem parent.id parent.revision (some body) [] [])

def markReady (id : Text) : ForgeM Item := do
  let child ← ask (.getWorkItem id)
  if child.hasLabel labelReady then return child
  else ask (.updateWorkItem child.id child.revision none [labelReady] [])

def announce (enc : Encoding) (ids : List Text) : ForgeM Unit := do
  let parent ← ask (.getWorkItem plan.parent.id)
  appendMarkerComment enc plan.parent.id parent.id parent.revision
    (digest ++ text "/comment/parent")
    (text ("Published this decomposition as a verified batch. " ++
      "Children become eligible together at the published-record barrier."))
  each (fun (planned, id) => do
    let child ← ask (.getWorkItem id)
    appendMarkerComment enc plan.parent.id child.id child.revision
      (digest ++ text "/comment/child/" ++ planned.key)
      (text "This issue is child \x60" ++ planned.key ++ text "\x60 in decomposition batch \x60" ++
        digest ++ text "\x60 for #" ++ parent.id ++ text ".")) (plan.children.zip ids)

def commitBatch (enc : Encoding) (runID : Text) (ids : List Text) : ForgeM Unit := do
  let parent ← ask (.getWorkItem plan.parent.id)
  appendMarkerComment enc plan.parent.id parent.id parent.revision
    (digest ++ text "/record/published")
    (publishedBatchRecord parent.id digest ids)
  let parent ← ask (.getWorkItem plan.parent.id)
  let _ ← ask (.updateWorkItem parent.id parent.revision none [] [statusDecomposing])
  ask (.releaseWorkItemClaim parent.id runID .published)

/-- The parent without the label of a decomposition under way. -/
def endDecomposing (parent : Item) : ForgeM Item :=
  if parent.hasLabel statusDecomposing then
    ask (.updateWorkItem parent.id parent.revision none [] [statusDecomposing])
  else return parent

/-- A batch whose published record is there: check it, and end the claim. -/
def resumePublished (runID : Text) (parent : Item) (ids : List Text) : ForgeM (List Item) := do
  let children ← collect (fun id => ask (.getWorkItem id)) ids
  verify prov plan digest (children.map Item.id) true
  let parent ← endDecomposing parent
  ask (.releaseWorkItemClaim parent.id runID .published)
  return children

structure PublishedBatch where
  planDigest : Text
  children : List Item

def publishBatch (runID : Text) : ForgeM PublishedBatch := do
  let parent ← ask (.getWorkItem plan.parent.id)
  let comments ← ask (.listComments plan.parent.id)
  match findBatchRecord comments .published plan.parent.id digest with
  | .conflict => throw (.markerConflict digest "parent has a conflicting published batch record")
  | .record _ fields =>
    let children ← resumePublished prov plan digest runID parent fields.values
    return { planDigest := digest, children := children }
  | .absent =>
    prepare plan digest enc parent
    let children ← createChildren plan digest enc
    let ids := children.map Item.id
    attachChildren prov plan ids
    attachDependencies prov plan ids
    writeTracking plan ids
    verify prov plan digest ids false
    let children ← collect (fun id => markReady id) ids
    verify prov plan digest (children.map Item.id) true
    announce plan digest enc (children.map Item.id)
    commitBatch plan digest enc runID (children.map Item.id)
    return { planDigest := digest, children := children }

def parkParent (runID : Text) : ForgeM Unit := do
  let parent ← ask (.getWorkItem plan.parent.id)
  if parent.hasLabel labelNeedsHuman && parent.hasLabel statusDecomposing &&
      !parent.hasLabel labelReady then
    ask (.releaseWorkItemClaim parent.id runID .parked)
  else do
    let _ ← ask (.updateWorkItem parent.id parent.revision none
      [labelNeedsHuman, statusDecomposing] [labelReady])
    ask (.releaseWorkItemClaim parent.id runID .parked)

end

/-- `Publisher`, without the provider and the leaser. -/
structure Publisher where
  provider : Text
  owner : Text
  project : Text
  name : Text
  runID : Text

def Publisher.repository (p : Publisher) : Text :=
  if p.project = [] then p.owner ++ text "/" ++ p.name
  else p.owner ++ text "/" ++ p.project ++ text "/" ++ p.name

def joinError {α : Type} (outcome : Except Failure α) (e : Failure) : Except Failure α :=
  match outcome with
  | .error first => .error (.join first e)
  | .ok _ => .error e

/-- What is left to do when the publication ended: park the parent after a conflict. -/
def settleConflict (plan : Plan) (runID : Text) (outcome : Except Failure PublishedBatch) :
    ForgeM (Except Failure PublishedBatch) :=
  match outcome with
  | .ok _ => return outcome
  | .error e =>
    if e.isPublicationConflict then do
      match ← observe (parkParent plan runID) with
      | .ok _ => return outcome
      | .error parkErr => return joinError outcome (.park parkErr)
    else return outcome

def publish {enc : Encoding} (prov : Provider enc) (p : Publisher) (plan : Plan) :
    ForgeM PublishedBatch := do
  throwIf (p.name = [] ∨ p.runID = []) .required
  throwIf (plan.parent.provider ≠ p.provider ∨ plan.parent.repository ≠ p.repository)
    (.repository (plan.parent.provider, plan.parent.repository) (p.provider, p.repository))
  wrap .acquire (ask (.acquire plan.parent.id))
  let outcome ← observe (publishBatch prov plan (planDigest enc plan) p.runID)
  let outcome ← settleConflict plan p.runID outcome
  match ← observe (ask (.release plan.parent.id)) with
  | .ok _ => settle outcome
  | .error e => settle (joinError outcome (.release e))

end Goobers.Decomposition
