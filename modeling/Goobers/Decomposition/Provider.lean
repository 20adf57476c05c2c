import Goobers.Lib.Calls
import Goobers.Lib.GoMap
import Goobers.Decomposition.Tracking

/-!
# The provider

The publisher works on the items of an issue tracker through calls. `World` is what the
tracker holds, and `perform` what a call does to it. What the trackers do differently is a
`Provider`: the ids and revisions they hand out, the footer they put under a text, how
they keep labels, and which links they have at all.
-/

namespace Goobers.Decomposition

open Lib Lib.Strings

/-- What is kept of an item. -/
structure Fields where
  title : Text
  body : Text
  labels : List Text
  revision : Text

/-- `WorkItem`, as far as publication reads it. -/
structure Item extends Fields where
  id : Text

def Item.hasLabel (item : Item) (label : Text) : Bool := label ∈ item.labels

/-- The tracker's items, comments and links. -/
structure World where
  items : GoMap Text Fields
  /-- the comments of an item, oldest first -/
  comments : Text → List Text
  /-- the native children of an item -/
  links : Text → List Text
  /-- the items that block an item -/
  blockers : Text → List Text

def World.item? (w : World) (id : Text) : Option Item :=
  (w.items.get? id).map (fun f => { f with id := id })

def appended (table : Text → List Text) (key value : Text) : Text → List Text :=
  fun k => if k = key then table k ++ [value] else table k

/-! ## Calls -/

/-- Why the claim of the parent ends. -/
inductive ReleaseReason where
  /-- completed: decomposition_published -/
  | published
  /-- escalated: decomposition_parked, parent parked for human review -/
  | parked

inductive Call where
  | getWorkItem (id : Text)
  | listComments (id : Text)
  | createWorkItem (title body : Text) (labels : List Text)
  | findWorkItemsByMarker (marker : Text)
  | createWorkItemComment (id body : Text)
  | updateWorkItem (id expectedRevision : Text) (body : Option Text)
      (addLabels removeLabels : List Text)
  | releaseWorkItemClaim (id runID : Text) (reason : ReleaseReason)
  | listWorkItemChildren (id : Text)
  | attachWorkItemChild (parentID childID parentRevision childRevision : Text)
  | listWorkItemBlockers (id : Text)
  | attachWorkItemBlocker (itemID blockerID itemRevision blockerRevision : Text)
  /-- `Leaser.Acquire` -/
  | acquire (itemID : Text)
  /-- the function that `Acquire` returned -/
  | release (itemID : Text)

/-- The answers; of a list of linked items only the ids are read. -/
@[reducible] def Answer : Call → Type
  | .getWorkItem _ => Item
  | .listComments _ => List Text
  | .createWorkItem _ _ _ => Item
  | .findWorkItemsByMarker _ => List Item
  | .updateWorkItem _ _ _ _ _ => Item
  | .listWorkItemChildren _ => List Text
  | .listWorkItemBlockers _ => List Text
  | _ => Unit

inductive Failure where
  /-- an error of the provider or of the leaser -/
  | call
  /-- publisher provider, leaser, repository, and run id are required -/
  | required
  /-- plan parent repository does not match publisher repository -/
  | repository (plan publisher : Text × Text)
  /-- acquire publisher target lease -/
  | acquire (err : Failure)
  /-- release publisher target lease -/
  | release (err : Failure)
  /-- park parent after publication conflict -/
  | park (err : Failure)
  /-- acquire target lease -/
  | acquireTarget (err : Failure)
  /-- `errors.Join` -/
  | join (first second : Failure)
  /-- parent id is required -/
  | parentRequired
  /-- idempotency key is required -/
  | keyRequired
  /-- expected revision is required for a work item -/
  | revisionRequired (id : Text)
  /-- provider does not support declared work item dependencies -/
  | noDependencies
  | markerConflict (key : Text) (reason : String)
  | revisionConflict (id expected actual : Text)
  /-- batch has another number of children -/
  | childCount (have_ want : Nat)
  /-- parent tracking body does not match plan -/
  | trackingBody (parentID : Text)
  /-- child content conflicts with plan key -/
  | childContent (id key : Text)
  /-- child labels do not match -/
  | childLabels (id : Text) (have_ want : List Text)
  /-- parent child links do not match batch -/
  | childLinks (parentID : Text)
  /-- child dependencies do not match plan -/
  | childDependencies (id : Text)
  /-- an index out of range -/
  | outOfRange

/-- `IsPublicationConflict`; `errors.As` looks into wrapped and joined errors. -/
def Failure.isPublicationConflict : Failure → Bool
  | .markerConflict _ _ | .revisionConflict _ _ _ | .childCount _ _ | .trackingBody _
  | .childContent _ _ | .childLabels _ _ _ | .childLinks _ | .childDependencies _ => true
  | .acquire e | .release e | .park e | .acquireTarget e => e.isPublicationConflict
  | .join a b => a.isPublicationConflict || b.isPublicationConflict
  | _ => false

def HasRecordLine (s : Text) : Prop :=
  ∃ l, containsLine s l = true ∧ publishedBatchMarkerPrefix <+: l

/--
A tracker. It may put a footer under what it stores. A marked body that reads back still
does with the footer, and neither the footer nor a note of its own is a record of a batch.
-/
structure Provider (enc : Encoding) where
  /-- a body or comment as it is stored -/
  stamp : Text → Text
  stamp_marked : ∀ key body payload, unmarkedActionBody (markedBody enc key body payload) = body →
    (containsLine (markedBody enc key body payload) (markerKeyLine enc key) = true →
        containsLine (stamp (markedBody enc key body payload)) (markerKeyLine enc key) = true) ∧
      childBatchIdentity (stamp (markedBody enc key body payload)) =
        childBatchIdentity (markedBody enc key body payload) ∧
      unmarkedActionBody (stamp (markedBody enc key body payload)) = body
  stamp_prepared : ∀ key record payload f, parseBatchRecord record .prepared = some f →
    HasRecordLine (stamp (markedBody enc key record payload)) →
      HasRecordLine (markedBody enc key record payload)
  /-- the id of the next item -/
  freshID : World → Text
  freshID_new : ∀ w : World, w.items.get? (freshID w) = none
  /-- the next revision of an item -/
  revise : World → Text → Text
  /-- the labels of a new item -/
  newLabels : List Text → List Text
  /-- the labels of an item after some are added and some removed -/
  changeLabels : List Text → List Text → List Text → List Text
  /-- the comment that ends a claim -/
  releaseNote : Text → ReleaseReason → Text
  releaseNote_plain : ∀ runID reason, ¬ HasRecordLine (releaseNote runID reason)
  labelClaimed : Text
  /-- whether it implements `WorkItemHierarchyProvider` -/
  hierarchy : Bool
  /-- whether it implements `WorkItemDependencyProvider` -/
  dependencies : Bool

section
variable {enc : Encoding} (prov : Provider enc)

def World.revised (w : World) (id : Text) (change : Fields → Fields) : World :=
  match w.items.get? id with
  | some f => { w with items := w.items.put id { change f with revision := prov.revise w id } }
  | none => w

/-- The item, if there is one and its revision is as expected (any will do if it is blank). -/
def World.expected (w : World) (id revision : Text) : Except Failure Fields :=
  match w.items.get? id with
  | none => .error .call
  | some f =>
    if revision ≠ [] ∧ f.revision ≠ revision then
      .error (.revisionConflict id revision f.revision)
    else .ok f

/-- What is there, or an error that there is nothing. -/
def found {α : Type} : Option α → Except Failure α
  | some a => .ok a
  | none => .error .call

/-- A call that writes, if its item and revision are right. -/
def guarded {α : Type} (w : World) (check : Except Failure Fields)
    (result : World → Except Failure α)
    (next : World) : Except Failure α × World :=
  match check with
  | .error e => (.error e, w)
  | .ok _ => (result next, next)

/-- What a call does and answers when nothing disturbs it. -/
def perform (w : World) : (c : Call) → Except Failure (Answer c) × World
  | .getWorkItem id => (found (w.item? id), w)
  | .listComments id => (.ok (w.comments id), w)
  | .createWorkItem title body labels =>
    let id := prov.freshID w
    let fields : Fields := {
      title := title, body := prov.stamp body, labels := prov.newLabels labels
      revision := prov.revise w id }
    (.ok { fields with id := id }, { w with items := w.items.put id fields })
  | .findWorkItemsByMarker marker =>
    (.ok ((w.items.rows.filter (fun row => containsLine row.2.body marker)).map
      (fun row => { row.2 with id := row.1 })), w)
  | .createWorkItemComment id body =>
    guarded w (w.expected id []) (fun _ => .ok ())
      (World.revised prov { w with comments := appended w.comments id (prov.stamp body) } id
        (fun f => f))
  | .updateWorkItem id revision body add remove =>
    guarded w (w.expected id revision) (fun t => found (t.item? id))
      (w.revised prov id (fun f => { f with
        body := body.getD f.body
        labels := prov.changeLabels f.labels add remove }))
  | .releaseWorkItemClaim id runID reason =>
    guarded w (w.expected id []) (fun _ => .ok ())
      (World.revised prov { w with
        comments := appended w.comments id (prov.releaseNote runID reason) } id
        (fun f => { f with labels := prov.changeLabels f.labels [] [prov.labelClaimed] }))
  | .listWorkItemChildren id => (.ok (w.links id), w)
  | .attachWorkItemChild parentID childID parentRevision childRevision =>
    guarded w (do let _ ← w.expected parentID parentRevision; w.expected childID childRevision)
      (fun _ => .ok ())
      (World.revised prov (World.revised prov { w with
        links := appended w.links parentID childID } parentID (fun f => f)) childID (fun f => f))
  | .listWorkItemBlockers id => (.ok (w.blockers id), w)
  | .attachWorkItemBlocker itemID blockerID itemRevision blockerRevision =>
    guarded w (do let _ ← w.expected itemID itemRevision; w.expected blockerID blockerRevision)
      (fun _ => .ok ())
      (World.revised prov (World.revised prov { w with
        blockers := appended w.blockers itemID blockerID } itemID (fun f => f)) blockerID
          (fun f => f))
  | .acquire _ => (.ok (), w)
  | .release _ => (.ok (), w)

end

end Goobers.Decomposition
