import Goobers.Decomposition.Plan

/-!
# Markers

The publisher keeps its state in texts: a prepared and a published record in comments of
the parent, a line in the body of each child, and two lines that make the creation of a
child or comment idempotent. The writers and readers of these texts are modelled here as
they are written: fields between white space, lists between commas, line prefixes.
-/

namespace Goobers.Decomposition

open Lib hiding lines
open Lib.Strings

/-! ## Records of a batch -/

def preparedBatchMarkerPrefix : Text := text "goobers-decomposition-prepared:"

def publishedBatchMarkerPrefix : Text := text "goobers-decomposition-published:"

def childBatchMarkerPrefix : Text := text "goobers-decomposition-child:"

def joinComma (values : List Text) : Text := [','].intercalate values

def preparedBatchRecord (plan : Plan) (digest : Text) : Text :=
  preparedBatchMarkerPrefix ++ text " v1 parent=" ++ plan.parent.id ++ text " digest=" ++ digest ++
    text " keys=" ++ joinComma (plan.children.map ChildPlan.key) ++ text " source=" ++
    plan.selection.sourceRunID

def publishedBatchRecord (parentID digest : Text) (childIDs : List Text) : Text :=
  publishedBatchMarkerPrefix ++ text " v1 parent=" ++ parentID ++ text " digest=" ++ digest ++
    text " children=" ++ joinComma childIDs

def childBatchMarker (parentID digest key : Text) : Text :=
  childBatchMarkerPrefix ++ text " v1 parent=" ++ parentID ++ text " digest=" ++ digest ++
    text " key=" ++ key

/-- The values of `name=value` parts that have these names, in this order. -/
def namedValues : List Text → List Text → Option (List Text)
  | [], [] => some []
  | name :: names, part :: parts =>
    match cut (text "=") part with
    | some (field, value) =>
      if field ≠ name ∨ value = [] then none
      else (namedValues names parts).map (value :: ·)
    | none => none
  | _, _ => none

/-- The kinds of record of a batch: their names after `v1`, and which of them is a list. -/
inductive BatchRecord where
  | prepared
  | published
  deriving DecidableEq

def BatchRecord.marker : BatchRecord → Text
  | .prepared => preparedBatchMarkerPrefix
  | .published => publishedBatchMarkerPrefix

def BatchRecord.names : BatchRecord → List Text
  | .prepared => [text "parent", text "digest", text "keys", text "source"]
  | .published => [text "parent", text "digest", text "children"]

/-- The fields of a record; the source has `keys` or `children` in a map with the others. -/
structure RecordFields where
  parent : Text
  digest : Text
  list : Text
  deriving DecidableEq

def parseBatchRecord (record : Text) (kind : BatchRecord) : Option RecordFields :=
  match fields record with
  | marker :: version :: parts =>
    if marker ≠ kind.marker ∨ version ≠ text "v1" then none
    else
      match namedValues kind.names parts with
      | some (parent :: digest :: list :: _) =>
        let values := list.splitOn ','
        if [] ∈ values ∨ ¬ values.Nodup then none
        else some { parent := parent, digest := digest, list := list }
      | _ => none
  | _ => none

def RecordFields.values (f : RecordFields) : List Text := f.list.splitOn ','

/-- What `ChildBatchIdentity` returns. -/
inductive ChildIdentity where
  /-- no marker -/
  | unmarked
  /-- a marker that is not the only one, or not well formed -/
  | conflict
  | child (parentID digest key : Text)
  deriving DecidableEq

def childBatchIdentity (body : Text) : ChildIdentity :=
  match (lines (crlf body)).filter (childBatchMarkerPrefix.isPrefixOf ·) with
  | [] => .unmarked
  | [line] =>
    match fields line with
    | marker :: version :: parts =>
      if marker ≠ childBatchMarkerPrefix ∨ version ≠ text "v1" then .conflict
      else
        match namedValues [text "parent", text "digest", text "key"] parts with
        | some [parentID, digest, key] => .child parentID digest key
        | _ => .conflict
    | _ => .conflict
  | _ => .conflict

/-! ## Bodies -/

def childText (parentID : Text) (child : ChildPlan) : Text :=
  trimText child.body ++ text "\n\n## Acceptance criteria\n\n" ++
    trimText child.acceptanceCriteria ++ text "\n\n## Validation boundary\n\n" ++
    trimText child.validationBoundary ++ text "\n\nParent: #" ++ parentID

def childIssueBody (parentID digest : Text) (child : ChildPlan) : Text :=
  childText parentID child ++ text "\n\n" ++ childBatchMarker parentID digest child.key

def actionMarkerPrefix : Text := text "<!-- goobers-action:v1 "

def actionDigestPrefix : Text := text "<!-- goobers-action-digest:v1 "

section
variable (enc : Encoding)

def markerKeyLine (key : Text) : Text :=
  actionMarkerPrefix ++ text "key=" ++ enc.base64 key ++ text " -->"

/-- The second marker line, over the content that was asked for. -/
def digestLine (payload : Text) : Text :=
  actionDigestPrefix ++ text "sha256:" ++ enc.sha256 payload ++ text " -->"

/-- `markedBody` of a body that is not empty, under a key that is not blank. -/
def markedBody (key body payload : Text) : Text :=
  body ++ text "\n\n" ++ markerKeyLine enc key ++ text "\n" ++ digestLine enc payload

end

/-- The idempotency key under which a child is created. -/
def childActionKey (digest : Text) (child : ChildPlan) : Text :=
  digest ++ text "/child/" ++ child.key

def labelApproved : Text := text "goobers:approved"

def childMarkedBody (enc : Encoding) (parentID digest : Text) (child : ChildPlan) : Text :=
  let body := childIssueBody parentID digest child
  markedBody enc (childActionKey digest child) body
    (enc.requestJSON child.title body (child.labels ++ [labelApproved]))

def containsLine (body line : Text) : Bool := line ∈ lines (crlf body)

/-! ## Attribution -/

/-- `\s` of a regular expression. -/
def regexpSpace (c : Char) : Bool :=
  c = ' ' || c = '\t' || c = '\n' || c = '\x0c' || c = '\r'

/-- A character of `\w`. -/
def wordChar (c : Char) : Bool := c.isAlphanum || c = '_'

/-- The text behind a fixed beginning. -/
def after (lead s : Text) : Option Text :=
  if lead.isPrefixOf s then some (s.drop lead.length) else none

def skipNewline : Text → Text
  | '\n' :: s => s
  | s => s

/-- The line `Posted by **Goobers**`, if it is there. -/
def skipFooter (s : Text) : Text :=
  match after (text "Posted by **Goobers**") s with
  | some rest => skipNewline (rest.dropWhile (· ≠ '\n'))
  | none => s

/-- `attributionMarkerPattern` at the front of a text: what is left behind the match. -/
def matchAttribution (s : Text) : Option Text := do
  let s ← after (text "<!--") (s.dropWhile (· = '\n'))
  let s ← after (text "goobers:attribution") (s.dropWhile regexpSpace)
  if s.head?.any wordChar then none
  let (_, s) ← cut (text "-->") s
  return skipFooter (skipNewline s)

/-- `operationMarkerPattern` at the front of a text. -/
def matchOperation (s : Text) : Option Text := do
  let s ← after (text "<!-- goobers:operation key=") (s.dropWhile (· = '\n'))
  let s ← after (text " -->") (s.dropWhile base64Letter)
  return skipNewline s

/-- `ReplaceAllString` with a newline. The number bounds the characters that are left. -/
def replaceMatches (find : Text → Option Text) : Nat → Text → Text
  | 0, s => s
  | _ + 1, [] => []
  | n + 1, c :: s =>
    match find (c :: s) with
    | some rest => '\n' :: replaceMatches find n rest
    | none => c :: replaceMatches find n s

def stripAttribution (body : Text) : Text :=
  let body := replaceMatches matchAttribution body.length body
  trimText (replaceMatches matchOperation body.length body)

/-- A line of one of the two markers `CreateChild` appends. -/
def actionLine (line : Text) : Bool :=
  actionMarkerPrefix.isPrefixOf line || actionDigestPrefix.isPrefixOf line

def unmarkedActionBody (body : Text) : Text :=
  trimText (unlines ((lines (stripAttribution (crlf body))).filter (fun l => !actionLine l)))

end Goobers.Decomposition
