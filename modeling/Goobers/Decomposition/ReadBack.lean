import Goobers.Lib.Token
import Goobers.Decomposition.Stamps

/-!
# Markers that read back

What the writers of the markers put into a text is what the readers find in it, if and only
if the texts of the plan do not look like the format themselves. `Readable` collects what
that means: ids and keys that are words, no line that begins like a marker, no `\r\n`,
and nothing that the provider's own stamps would match. `ValidatePlan` asks for none of
it.
-/

namespace Goobers.Decomposition

open Lib hiding lines
open Lib.Strings List

/-! ## Assignments -/

def assignment (name value : Text) : Text := name ++ '=' :: value

theorem cut_assignment {name : Text} (hname : '=' ∉ name) (value : Text) :
    cut (text "=") (assignment name value) = some (name, value) := by
  have hinf : ¬ ['='] <:+: name := fun h => hname (h.subset mem_cons_self)
  have h := cut_append not_mem_nil hinf value
  rwa [append_assoc] at h

/-- A list of assignments reads back, name by name. -/
theorem namedValues_assignments {names values : List Text} (hlen : names.length = values.length)
    (hnames : ∀ n ∈ names, '=' ∉ n) (hvalues : ∀ v ∈ values, v ≠ []) :
    namedValues names (zipWith assignment names values) = some values := by
  induction names generalizing values with
  | nil =>
    cases values with
    | nil => rfl
    | cons v values => cases hlen
  | cons n names ih =>
    cases values with
    | nil => cases hlen
    | cons v values =>
      have hrest := ih (by simpa using hlen) (fun m hm => hnames m (mem_cons_of_mem n hm))
        (fun w hw => hvalues w (mem_cons_of_mem v hw))
      have hv : v ≠ [] := hvalues v mem_cons_self
      rw [zipWith_cons_cons, namedValues, cut_assignment (hnames n mem_cons_self)]
      dsimp only
      rw [if_neg (by simp [hv]), hrest]
      rfl

/-- And only such a list is read. -/
theorem eq_of_namedValues {names parts values : List Text}
    (h : namedValues names parts = some values) :
    parts = zipWith assignment names values ∧ values.length = names.length ∧
      ∀ v ∈ values, v ≠ [] := by
  -- on the names, one assignment at a time
  induction names generalizing parts values with
  | nil =>
    cases parts with
    | nil =>
      cases h
      exact ⟨rfl, rfl, nofun⟩
    | cons part parts => cases h
  | cons name names ih =>
    cases parts with
    | nil => cases h
    | cons part parts =>
      unfold namedValues at h
      cases hcut : cut (text "=") part with
      | none =>
        rw [hcut] at h
        cases h
      | some split =>
        rw [hcut] at h
        dsimp only at h
        split at h
        · cases h
        rename_i hok
        obtain ⟨rest, hrest, rfl⟩ := Option.map_eq_some_iff.mp h
        obtain ⟨hparts, hlen, hne⟩ := ih hrest
        refine ⟨?_, by rw [length_cons, hlen, length_cons],
          forall_mem_cons.mpr ⟨(not_or.mp hok).2, hne⟩⟩
        rw [zipWith_cons_cons, ← hparts, eq_of_cut hcut,
          not_not.mp (not_or.mp hok).1]
        simp [assignment, text]

theorem assignment_injective (name : Text) : Function.Injective (assignment name) := by
  intro v w h
  simpa [assignment] using h

theorem word_of_assignment {name value : Text} (h : Word (assignment name value))
    (hne : value ≠ []) : Word value :=
  ⟨hne, fun c hc => h.2 c (mem_append_right _ (mem_cons_of_mem _ hc))⟩

theorem word_assignment {name value : Text} (hname : ∀ c ∈ name, isSpace c = false)
    (hvalue : Word value) : Word (assignment name value) := by
  exact Word.append hname ⟨cons_ne_nil _ _, forall_mem_cons.mpr ⟨by decide, hvalue.2⟩⟩

/-! ## Words -/

section
variable (enc : Encoding)

theorem isSpace_hexDigits {c : Char} (h : c ∈ hexDigits) : isSpace c = false :=
  (by decide : ∀ c ∈ hexDigits, isSpace c = false) c h

theorem word_sha256 (s : Text) : Word (enc.sha256 s) :=
  ⟨enc.sha256_ne_nil s, fun c hc => isSpace_hexDigits (enc.sha256_hex s c hc)⟩

theorem word_planDigest (plan : Plan) : Word (planDigest enc plan) :=
  Word.append (by decide) (word_sha256 enc _)

end

theorem word_joinComma {keys : List Text} (hne : keys ≠ []) (h : ∀ k ∈ keys, Word k) :
    Word (joinComma keys) := by
  induction keys with
  | nil => exact absurd rfl hne
  | cons k keys ih =>
    have hk := h k mem_cons_self
    cases keys with
    | nil => simpa [joinComma] using hk
    | cons k' keys =>
      have hrest := ih (by simp) (fun x hx => h x (mem_cons_of_mem k hx))
      unfold joinComma at hrest ⊢
      exact Word.append hk.2 ⟨by simp, forall_mem_cons.mpr ⟨by decide, hrest.2⟩⟩

/-- A list between commas is read back if no part of it has a comma. -/
theorem splitOn_joinComma_iff {keys : List Text} (hne : keys ≠ []) :
    (joinComma keys).splitOn ',' = keys ↔ ∀ k ∈ keys, ',' ∉ k := by
  refine ⟨fun h k hk => ?_, fun h => splitOn_intercalate ',' h hne⟩
  rw [← h] at hk
  exact notMem_of_mem_splitOn hk

/-! ## Records -/

/-- The record up to its last field, whose value may have white space behind it. -/
theorem preparedBatchRecord_eq (plan : Plan) (digest : Text) :
    preparedBatchRecord plan digest = [' '].intercalate
      (preparedBatchMarkerPrefix :: text "v1" ::
        zipWith assignment [text "parent", text "digest", text "keys"]
          [plan.parent.id, digest, joinComma (plan.children.map ChildPlan.key)]) ++
      ' ' :: assignment (text "source") plan.selection.sourceRunID := by
  have h1 : text " v1 parent=" = ' ' :: (text "v1" ++ ' ' :: (text "parent" ++ ['='])) := rfl
  have h2 : text " digest=" = ' ' :: (text "digest" ++ ['=']) := rfl
  have h3 : text " keys=" = ' ' :: (text "keys" ++ ['=']) := rfl
  have h4 : text " source=" = ' ' :: (text "source" ++ ['=']) := rfl
  unfold preparedBatchRecord
  rw [h1, h2, h3, h4]
  simp [assignment]

/-- Names of fields, without white space or an equals sign. -/
def PlainNames (names : List Text) : Prop := ∀ n ∈ names, '=' ∉ n ∧ ∀ c ∈ n, isSpace c = false

theorem plainNames_of_all {names : List Text}
    (h : names.all (fun n => n.all (fun c => c != '=' && !isSpace c)) = true) :
    PlainNames names := by
  intro n hn
  have hchars := all_eq_true.mp (all_eq_true.mp h n hn)
  refine ⟨fun hmem => absurd (hchars _ hmem) (by decide), fun c hc => ?_⟩
  have hchar := hchars c hc
  rw [Bool.and_eq_true] at hchar
  simpa using hchar.2

theorem BatchRecord.names_plain (kind : BatchRecord) : PlainNames kind.names :=
  plainNames_of_all (by cases kind <;> decide)

theorem BatchRecord.marker_word (kind : BatchRecord) : Word kind.marker := by
  cases kind
  · exact ⟨by decide, by decide⟩
  · exact ⟨by decide, by decide⟩

theorem fields_record {marker : Text} {names values : List Text} (hmarker : Word marker)
    (hnames : PlainNames names) (hvalues : ∀ v ∈ values, Word v) :
    fields ([' '].intercalate (marker :: text "v1" :: zipWith assignment names values)) =
      marker :: text "v1" :: zipWith assignment names values := by
  refine fields_intercalate (forall_mem_cons.mpr ⟨hmarker, forall_mem_cons.mpr
    ⟨⟨by decide, by decide⟩, fun w hw => ?_⟩⟩)
  rw [← map_uncurry_zip_eq_zipWith, mem_map] at hw
  obtain ⟨⟨n, v⟩, hmem, rfl⟩ := hw
  obtain ⟨hn, hv⟩ := of_mem_zip hmem
  exact word_assignment (hnames n hn).2 (hvalues v hv)

/-- What a record that is read says of its text. -/
theorem fields_of_parseBatchRecord {record : Text} {kind : BatchRecord} {f : RecordFields}
    (h : parseBatchRecord record kind = some f) :
    ∃ rest, fields record = kind.marker :: text "v1" ::
        zipWith assignment kind.names (f.parent :: f.digest :: f.list :: rest) ∧
      rest.length + 3 = kind.names.length ∧ ∀ v ∈ rest, v ≠ [] := by
  unfold parseBatchRecord at h
  split at h
  · rename_i marker version parts hfields
    split at h
    · cases h
    rename_i hok
    obtain ⟨hmarker, hversion⟩ := not_or.mp hok
    split at h
    · rename_i parent digest list rest hnamed
      obtain ⟨hparts, hlen, hne⟩ := eq_of_namedValues hnamed
      dsimp only at h
      split at h
      · cases h
      cases h
      refine ⟨rest, ?_, hlen, fun v hv => hne v (by simp [hv])⟩
      rw [hfields, hparts, not_not.mp hmarker, not_not.mp hversion]
    · cases h
  · cases h

/-! ## Plans -/

/-- Texts of a plan that do not look like the format of the markers. -/
structure Readable (enc : Encoding) (plan : Plan) : Prop where
  parent : Word plan.parent.id
  /-- one word, with or without white space behind it -/
  source : Word (plan.selection.sourceRunID.rdropWhile isSpace)
  keys : ∀ child ∈ plan.children, ∀ c ∈ child.key, isSpace c = false ∧ c ≠ ','
  /-- no line begins like the marker of a child -/
  marker : ∀ child ∈ plan.children, ∀ l ∈ lines (childText plan.parent.id child),
    ¬ childBatchMarkerPrefix <+: l
  /-- no line begins like a marker of an action -/
  action : ∀ child ∈ plan.children, ∀ l ∈ lines (childText plan.parent.id child),
    actionLine l = false
  endings : ∀ child ∈ plan.children, ¬ ['\r', '\n'] <:+: childText plan.parent.id child
  stamps : ∀ child ∈ plan.children,
    Unstamped (childMarkedBody enc plan.parent.id (planDigest enc plan) child)

/-- What an accepted plan has of its own: keys that are there and differ, and bodies. -/
structure Sound (plan : Plan) : Prop where
  children : plan.children ≠ []
  keys : ∀ child ∈ plan.children, child.key ≠ []
  distinct : (plan.children.map ChildPlan.key).Nodup
  bodies : ∀ child ∈ plan.children, trimText child.body ≠ []

theorem problemIf_eq_nil {c : Bool} {e : PlanError} (h : problemIf c e = []) : c = false := by
  unfold problemIf at h
  split at h
  · cases h
  · simpa using ‹¬ c = true›

theorem sound_of_validateEach {keys : List Text} {seen : List (Text × Text)}
    {children : List ChildPlan} (h : validateEach keys seen children = []) :
    (∀ child ∈ children, child.key ≠ [] ∧ child.key ∉ keys ∧ trimText child.body ≠ []) ∧
      (children.map ChildPlan.key).Nodup := by
  -- on the children, with the keys seen before them
  induction children generalizing keys seen with
  | nil => exact ⟨nofun, nodup_nil⟩
  | cons child children ih =>
    unfold validateEach at h
    simp only [append_eq_nil_iff] at h
    obtain ⟨⟨⟨⟨⟨⟨⟨hkey, -⟩, -⟩, -⟩, hbody⟩, -⟩, -⟩, hrest⟩ := h
    obtain ⟨hall, hnodup⟩ := ih hrest
    have hne : child.key ≠ [] := by
      intro heq
      rw [if_pos heq] at hkey
      cases hkey
    rw [if_neg hne] at hkey
    have hnew : child.key ∉ keys := by simpa using problemIf_eq_nil hkey
    have hlong : trimText child.body ≠ [] := by
      intro heq
      rw [heq] at hbody
      exact absurd (problemIf_eq_nil hbody) (by decide)
    refine ⟨fun c hc => ?_, ?_⟩
    · rcases mem_cons.mp hc with rfl | hc
      · exact ⟨hne, hnew, hlong⟩
      · obtain ⟨h1, h2, h3⟩ := hall c hc
        exact ⟨h1, fun hmem => h2 (mem_cons_of_mem _ hmem), h3⟩
    · rw [map_cons, nodup_cons]
      refine ⟨fun hmem => ?_, hnodup⟩
      obtain ⟨c, hc, heq⟩ := mem_map.mp hmem
      exact (hall c hc).2.1 (heq ▸ mem_cons_self)

/-- What `ValidatePlan` makes sure of. -/
theorem Accepted.sound {enc : Encoding} {plan : Plan} {selection : Selection}
    {live : LiveParentSnapshot} (h : Accepted enc plan selection live) : Sound plan := by
  unfold Accepted validatePlan at h
  split at h
  · cases h
  simp only [Bool.and_eq_true, decide_eq_true_eq, append_eq_nil_iff] at h
  have hchildren := h.1.1.2
  unfold validateChildren at hchildren
  split at hchildren
  · cases hchildren
  rename_i hne
  simp only [append_eq_nil_iff] at hchildren
  obtain ⟨hall, hnodup⟩ := sound_of_validateEach hchildren.1.2
  exact ⟨hne, fun c hc => (hall c hc).1, hnodup, fun c hc => (hall c hc).2.2⟩

/-- **The prepared record gives the keys back** if they have no comma and the source is a word. -/
theorem parse_preparedBatchRecord_iff {plan : Plan} {digest : Text} (hsound : Sound plan)
    (hparent : Word plan.parent.id) (hdigest : Word digest)
    (hkeys : ∀ child ∈ plan.children, Word child.key) :
    (∃ f, parseBatchRecord (preparedBatchRecord plan digest) .prepared = some f ∧
        f.values = plan.children.map ChildPlan.key) ↔
      Word (plan.selection.sourceRunID.rdropWhile isSpace) ∧
        ∀ child ∈ plan.children, ',' ∉ child.key := by
  have hne : plan.children.map ChildPlan.key ≠ [] := by simpa using hsound.children
  have hlistWord : Word (joinComma (plan.children.map ChildPlan.key)) :=
    word_joinComma hne (by simpa using hkeys)
  have hsplit := splitOn_joinComma_iff hne
  rw [forall_mem_map] at hsplit
  -- only the last field may hold anything but words
  have hfields : fields (preparedBatchRecord plan digest) =
      preparedBatchMarkerPrefix :: text "v1" :: assignment (text "parent") plan.parent.id ::
        assignment (text "digest") digest ::
        assignment (text "keys") (joinComma (plan.children.map ChildPlan.key)) ::
        fields (assignment (text "source") plan.selection.sourceRunID) := by
    have hmarker : Word preparedBatchMarkerPrefix := BatchRecord.marker_word .prepared
    have hnames : PlainNames [text "parent", text "digest", text "keys"] :=
      plainNames_of_all (by decide)
    rw [preparedBatchRecord_eq, fields_append_space rfl,
      fields_record hmarker hnames (by simp [hparent, hdigest, hlistWord])]
    rfl
  have hsource : ∀ v, fields (assignment (text "source") plan.selection.sourceRunID) =
      [assignment (text "source") v] ↔
        Word (assignment (text "source") v) ∧
          plan.selection.sourceRunID.rdropWhile isSpace = v := by
    intro v
    have hdrop : (assignment (text "source") plan.selection.sourceRunID).rdropWhile isSpace =
        assignment (text "source") (plan.selection.sourceRunID.rdropWhile isSpace) := by
      have hlast : (text "source=").getLast? = some '=' := by decide
      have hend : ∀ c ∈ (text "source=").getLast?, isSpace c = false := by
        intro c hc
        rw [hlast, Option.mem_some_iff] at hc
        subst hc
        decide
      exact rdropWhile_append_of_neg hend _
    rw [fields_eq_singleton_iff (by rintro c ⟨⟩; decide), hdrop,
      (assignment_injective (text "source")).eq_iff]
  constructor
  · rintro ⟨f, hparse, hvalues⟩
    obtain ⟨rest, hrecord, hlen, hne⟩ := fields_of_parseBatchRecord hparse
    obtain ⟨v, rfl⟩ : ∃ v, rest = [v] := length_eq_one_iff.mp (Nat.add_right_cancel hlen)
    rw [hfields] at hrecord
    simp only [BatchRecord.names, zipWith_cons_cons, zipWith_nil_left, cons.injEq,
      (assignment_injective (text "keys")).eq_iff] at hrecord
    obtain ⟨-, -, -, -, heq, hlast⟩ := hrecord
    obtain ⟨hword, hrun⟩ := (hsource v).mp hlast
    refine ⟨hrun ▸ word_of_assignment hword (hne v mem_cons_self), hsplit.mp ?_⟩
    rw [heq]
    exact hvalues
  · rintro ⟨hrun, hcommas⟩
    have hlast := (hsource _).mpr ⟨word_assignment (by decide) hrun, rfl⟩
    have hlist := hsplit.mpr hcommas
    refine ⟨⟨plan.parent.id, digest, joinComma (plan.children.map ChildPlan.key)⟩, ?_, hlist⟩
    have hnamed : namedValues BatchRecord.prepared.names (zipWith assignment
        BatchRecord.prepared.names [plan.parent.id, digest,
          joinComma (plan.children.map ChildPlan.key),
          plan.selection.sourceRunID.rdropWhile isSpace]) = some _ :=
      namedValues_assignments rfl (fun n hn => (BatchRecord.names_plain .prepared n hn).1)
        (by simp [hparent.1, hdigest.1, hlistWord.1, hrun.1])
    have hgood : ¬ ([] ∈ (joinComma (plan.children.map ChildPlan.key)).splitOn ',' ∨
        ¬ ((joinComma (plan.children.map ChildPlan.key)).splitOn ',').Nodup) := by
      rw [hlist, not_or, not_not]
      refine ⟨fun hmem => ?_, hsound.distinct⟩
      obtain ⟨child, hc, hnil⟩ := mem_map.mp hmem
      exact hsound.keys child hc hnil
    unfold parseBatchRecord
    rw [hfields, hlast]
    dsimp only
    rw [if_neg (by simp [BatchRecord.marker])]
    unfold BatchRecord.names at hnamed ⊢
    dsimp only [zipWith_cons_cons, zipWith_nil_left] at hnamed ⊢
    rw [hnamed]
    dsimp only
    rw [if_neg hgood]

/-! ## Children -/

theorem childBatchMarker_eq (parentID digest key : Text) :
    childBatchMarker parentID digest key = [' '].intercalate
      (childBatchMarkerPrefix :: text "v1" ::
        List.zipWith assignment [text "parent", text "digest", text "key"]
          [parentID, digest, key]) := by
  have h1 : text " v1 parent=" = ' ' :: (text "v1" ++ ' ' :: (text "parent" ++ ['='])) := rfl
  have h2 : text " digest=" = ' ' :: (text "digest" ++ ['=']) := rfl
  have h3 : text " key=" = ' ' :: (text "key" ++ ['=']) := rfl
  unfold childBatchMarker
  rw [h1, h2, h3]
  simp [assignment]

section
variable {parentID digest key : Text} (hparent : Word parentID) (hdigest : Word digest)
  (hkey : Word key)
include hparent hdigest hkey

theorem newline_notMem_childBatchMarker : '\n' ∉ childBatchMarker parentID digest key := by
  have h1 : '\n' ∉ childBatchMarkerPrefix := by decide
  have h2 : '\n' ∉ text " v1 parent=" := by decide
  have h3 : '\n' ∉ text " digest=" := by decide
  have h4 : '\n' ∉ text " key=" := by decide
  simp only [childBatchMarker, mem_append, not_or]
  exact ⟨⟨⟨⟨⟨⟨h1, h2⟩, Word.notMem_newline hparent.2⟩, h3⟩, Word.notMem_newline hdigest.2⟩, h4⟩,
    Word.notMem_newline hkey.2⟩

theorem fields_childBatchMarker :
    ∃ parts, fields (childBatchMarker parentID digest key) =
        childBatchMarkerPrefix :: text "v1" :: parts ∧
      namedValues [text "parent", text "digest", text "key"] parts =
        some [parentID, digest, key] := by
  have hplain : PlainNames [text "parent", text "digest", text "key"] :=
    plainNames_of_all (by decide)
  have hvalues : ∀ v ∈ [parentID, digest, key], Word v := by simp [hparent, hdigest, hkey]
  refine ⟨_, ?_, namedValues_assignments rfl (fun n hn => (hplain n hn).1)
    fun v hv => (hvalues v hv).1⟩
  rw [childBatchMarker_eq]
  exact fields_record ⟨by decide, by decide⟩ hplain hvalues

end

/-- An identity is only ever read for an id and a key that are words. -/
theorem words_of_childBatchIdentity {body parentID digest key : Text}
    (h : childBatchIdentity body = .child parentID digest key) : Word parentID ∧ Word key := by
  unfold childBatchIdentity at h
  split at h
  · cases h
  · rename_i line _
    split at h
    · rename_i marker version parts hfields
      split at h
      · cases h
      split at h
      · rename_i p d k hnamed
        cases h
        obtain ⟨hparts, _, hne⟩ := eq_of_namedValues hnamed
        have hword : ∀ name value, assignment name value ∈ parts → value ≠ [] → Word value := by
          intro name value hmem
          have hfield : assignment name value ∈ fields line := by
            rw [hfields]
            exact mem_cons_of_mem _ (mem_cons_of_mem _ hmem)
          exact word_of_assignment (word_of_mem_fields hfield)
        refine ⟨hword (text "parent") _ ?_ (hne _ (by simp)),
          hword (text "key") _ ?_ (hne _ (by simp))⟩
        all_goals
          rw [hparts]
          simp
      · cases h
    · cases h
  · cases h

section
variable {parentID digest : Text} {child : ChildPlan} (hparent : Word parentID)
include hparent

theorem getLast_childText (child : ChildPlan) :
    (childText parentID child).getLast? ≠ some '\r' := by
  unfold childText
  rw [getLast?_append_of_ne_nil _ hparent.1]
  intro hlast
  exact absurd (hparent.2 _ (mem_of_getLast? hlast)) (by decide)

variable (hdigest : Word digest) (hkey : Word child.key)
include hdigest hkey

theorem crlf_childIssueBody :
    crlf (childIssueBody parentID digest child) =
      crlf (childText parentID child) ++ '\n' :: '\n' ::
        childBatchMarker parentID digest child.key := by
  have hmarker := newline_notMem_childBatchMarker hparent hdigest hkey
  unfold childIssueBody
  rw [append_assoc, crlf_append (.inl (getLast_childText hparent child)),
    crlf_append (.inl (by decide)), crlf_of_notMem hmarker]
  rfl

theorem lines_append_childBatchMarker (s : Text) :
    lines (s ++ '\n' :: '\n' :: childBatchMarker parentID digest child.key) =
      lines s ++ [[], childBatchMarker parentID digest child.key] := by
  have hmarker := newline_notMem_childBatchMarker hparent hdigest hkey
  rw [lines_append_newline, ← nil_append ('\n' :: _), lines_append_newline,
    lines_of_notMem hmarker]
  rfl

/-- **A child's body names its parent, digest and key** if no other line of it begins so. -/
theorem childBatchIdentity_childIssueBody_iff :
    childBatchIdentity (childIssueBody parentID digest child) =
        .child parentID digest child.key ↔
      ∀ l ∈ lines (crlf (childText parentID child)), ¬ childBatchMarkerPrefix <+: l := by
  have hmarker : childBatchMarkerPrefix.isPrefixOf
      (childBatchMarker parentID digest child.key) = true := by
    rw [List.isPrefixOf_iff_prefix]
    unfold childBatchMarker
    exact prefix_append _ _
  have hblank : childBatchMarkerPrefix.isPrefixOf ([] : Text) = false := by decide
  unfold childBatchIdentity
  rw [crlf_childIssueBody hparent hdigest hkey, lines_append_childBatchMarker hparent hdigest hkey,
    filter_append, filter_cons_of_neg (by simp [hblank]), filter_cons_of_pos hmarker, filter_nil]
  have hnone : (∀ l ∈ lines (crlf (childText parentID child)), ¬ childBatchMarkerPrefix <+: l) ↔
      (lines (crlf (childText parentID child))).filter (childBatchMarkerPrefix.isPrefixOf ·) =
        [] := by
    simp only [filter_eq_nil_iff, List.isPrefixOf_iff_prefix]
  rw [hnone]
  cases (lines (crlf (childText parentID child))).filter (childBatchMarkerPrefix.isPrefixOf ·) with
  | nil =>
    obtain ⟨parts, hfields, hnamed⟩ := fields_childBatchMarker hparent hdigest hkey
    rw [nil_append]
    dsimp only
    rw [hfields]
    dsimp only
    rw [if_neg (by simp), hnamed]
    simp
  | cons l ls => cases ls <;> simp

end

/-! ## Bodies of children -/

section
variable {enc : Encoding} {key b payload : Text}

/--
**A body comes back from under its markers** if its line endings are normal, nothing in it
matches a stamp and none of its lines is an action line, and only then.
-/
theorem unmarkedActionBody_markedBody_iff (hb : trimText b = b)
    (hcrlf : trimText (crlf b) = crlf b) (hne : b ≠ []) :
    unmarkedActionBody (markedBody enc key b payload) = b ↔
      crlf b = b ∧ Unstamped (markedBody enc key b payload) ∧
        ∀ l ∈ lines b, actionLine l = false := by
  have hlast : b.getLast? ≠ some '\r' := fun h =>
    absurd ((trim_eq_self_iff.mp hb).2 _ h) (by decide)
  have hmarked : crlf (markedBody enc key b payload) =
      crlf b ++ '\n' :: '\n' :: (markerKeyLine enc key ++ '\n' :: digestLine enc payload) := by
    rw [markedBody_eq, crlf_append (.inl hlast),
      crlf_of_notMem_return (not_mem_cons_of_ne_of_not_mem (by decide)
        (carriage_notMem_markers enc key payload))]
  have hun : unmarkedActionBody (markedBody enc key b payload) = trimText (withoutActions
      (stripAttribution (crlf b ++ '\n' :: '\n' ::
        (markerKeyLine enc key ++ '\n' :: digestLine enc payload)))) := by
    unfold unmarkedActionBody
    rw [hmarked]
    rfl
  have hcomments : markerKeyLine enc key ++ '\n' :: digestLine enc payload ≠ [] := by simp
  have htrailer := trailer_markers enc key payload
  have hne' := crlf_ne_nil hne
  rw [hun]
  constructor
  · intro h
    have hcond := (openings_unmarked_iff hcrlf hne' htrailer hcomments).mp
      (by rw [h, openings_crlf])
    rw [unmarked_of_unstamped hcrlf hne' htrailer hcomments hcond.1,
      withoutActions_eq_self hcond.2, hcrlf] at h
    rw [h] at hcond
    refine ⟨h, ?_, hcond.2⟩
    rw [markedBody_eq]
    exact hcond.1
  · rintro ⟨heq, hstamps, hact⟩
    rw [markedBody_eq] at hstamps
    rw [heq, unmarked_of_unstamped hb hne htrailer hcomments hstamps,
      withoutActions_eq_self hact, hb]

end

section
variable {enc : Encoding} {parentID digest : Text} {child : ChildPlan} (hparent : Word parentID)
  (hdigest : Word digest) (hkey : Word child.key) (hbody : trimText child.body ≠ [])
include hparent hdigest hkey hbody

/-- Exactly when the marked body gives the child's text back. -/
theorem unmarkedActionBody_childMarkedBody_iff :
    unmarkedActionBody (childMarkedBody enc parentID digest child) =
        childIssueBody parentID digest child ↔
      ¬ ['\r', '\n'] <:+: childText parentID child ∧
        Unstamped (childMarkedBody enc parentID digest child) ∧
        ∀ l ∈ lines (childText parentID child), actionLine l = false := by
  have heq : childIssueBody parentID digest child = childText parentID child ++ '\n' :: '\n' ::
      childBatchMarker parentID digest child.key := by
    unfold childIssueBody
    rw [append_assoc]
    rfl
  have hends : ∀ (s : Text) (c : Char), (s ++ '\n' :: '\n' ::
      childBatchMarker parentID digest child.key).getLast? = some c → isSpace c = false := by
    intro s c h
    unfold childBatchMarker at h
    rw [append_cons, append_cons, ← append_assoc, getLast?_append_of_ne_nil _ hkey.1] at h
    exact hkey.2 c (mem_of_getLast? h)
  have hhead : ∀ c, (childIssueBody parentID digest child).head? = some c → isSpace c = false := by
    intro c h
    unfold childIssueBody childText at h
    simp only [append_assoc] at h
    rw [head?_append_of_ne_nil _ hbody] at h
    exact (trim_eq_self_iff.mp (trim_trim child.body)).1 c h
  have htrim : trimText (childIssueBody parentID digest child) =
      childIssueBody parentID digest child :=
    trim_eq_self_iff.mpr ⟨hhead, by rw [heq]; exact hends _⟩
  have htrim' : trimText (crlf (childIssueBody parentID digest child)) =
      crlf (childIssueBody parentID digest child) := by
    refine trim_eq_self_iff.mpr ⟨fun c h => hhead c ?_, ?_⟩
    · rwa [head?_crlf (fun h => absurd (hhead _ h) (by decide))] at h
    · rw [crlf_childIssueBody hparent hdigest hkey]
      exact hends _
  have hact : (∀ l ∈ lines (childIssueBody parentID digest child), actionLine l = false) ↔
      ∀ l ∈ lines (childText parentID child), actionLine l = false := by
    -- the marker of the batch begins with a letter
    have hmarker : actionLine (childBatchMarker parentID digest child.key) = false := rfl
    rw [heq, lines_append_childBatchMarker hparent hdigest hkey, forall_mem_append]
    simp [hmarker, show actionLine [] = false from rfl]
  have hcrlf : crlf (childIssueBody parentID digest child) = childIssueBody parentID digest child ↔
      ¬ ['\r', '\n'] <:+: childText parentID child := by
    rw [crlf_childIssueBody hparent hdigest hkey, heq, append_left_inj, crlf_eq_self_iff]
  unfold childMarkedBody
  dsimp only
  rw [unmarkedActionBody_markedBody_iff htrim htrim' (by rw [heq]; simp), hact, hcrlf]

end

/-! ## The markers of a plan -/

/-- What the writers of markers and their readers have to agree on for a plan. -/
structure ReadsBack (enc : Encoding) (plan : Plan) : Prop where
  prepared : ∃ f, parseBatchRecord (preparedBatchRecord plan (planDigest enc plan)) .prepared =
      some f ∧ f.values = plan.children.map ChildPlan.key
  identity : ∀ child ∈ plan.children,
    childBatchIdentity (childIssueBody plan.parent.id (planDigest enc plan) child) =
      .child plan.parent.id (planDigest enc plan) child.key
  unmarked : ∀ child ∈ plan.children,
    unmarkedActionBody (childMarkedBody enc plan.parent.id (planDigest enc plan) child) =
      childIssueBody plan.parent.id (planDigest enc plan) child

/-- Readable plans are those that read back. -/
theorem readable_iff {enc : Encoding} {plan : Plan} (hsound : Sound plan) :
    Readable enc plan ↔ ReadsBack enc plan := by
  have hdigest := word_planDigest enc plan
  -- each condition is one of the three readers giving back what was written
  constructor
  · intro hread
    have hkey : ∀ child ∈ plan.children, Word child.key := fun child hc =>
      ⟨hsound.keys child hc, fun c hmem => (hread.keys child hc c hmem).1⟩
    refine ⟨?_, fun child hc => ?_, fun child hc => ?_⟩
    · refine (parse_preparedBatchRecord_iff hsound hread.parent hdigest hkey).mpr
        ⟨hread.source, fun child hc hmem => ?_⟩
      exact (hread.keys child hc _ hmem).2 rfl
    · rw [childBatchIdentity_childIssueBody_iff hread.parent hdigest (hkey child hc),
        (crlf_eq_self_iff _).mpr (hread.endings child hc)]
      exact hread.marker child hc
    · exact (unmarkedActionBody_childMarkedBody_iff hread.parent hdigest (hkey child hc)
        (hsound.bodies child hc)).mpr
          ⟨hread.endings child hc, hread.stamps child hc, hread.action child hc⟩
  · rintro ⟨hprepared, hidentity, hunmarked⟩
    obtain ⟨first, hfirst⟩ := exists_mem_of_ne_nil _ hsound.children
    have hparent := (words_of_childBatchIdentity (hidentity first hfirst)).1
    have hkey : ∀ child ∈ plan.children, Word child.key := fun child hc =>
      (words_of_childBatchIdentity (hidentity child hc)).2
    obtain ⟨hsource, hcommas⟩ :=
      (parse_preparedBatchRecord_iff hsound hparent hdigest hkey).mp hprepared
    have hbody : ∀ child ∈ plan.children, _ := fun child hc =>
      (unmarkedActionBody_childMarkedBody_iff hparent hdigest (hkey child hc)
        (hsound.bodies child hc)).mp (hunmarked child hc)
    refine ⟨hparent, hsource, fun child hc c hmem => ⟨(hkey child hc).2 c hmem, ?_⟩,
      fun child hc => ?_, fun child hc => (hbody child hc).2.2, fun child hc => (hbody child hc).1,
      fun child hc => (hbody child hc).2.1⟩
    · rintro rfl
      exact hcommas child hc hmem
    · have h := (childBatchIdentity_childIssueBody_iff hparent hdigest (hkey child hc)).mp
        (hidentity child hc)
      rwa [(crlf_eq_self_iff _).mpr (hbody child hc).1] at h

/--
**Markers read back**, of an accepted plan, if and only if its texts do not look like markers: the
prepared record gives the plan's keys, each child's body its parent, digest and key, and the body
without the lines that its creation adds is the body again.
-/
theorem markers_read_back (enc : Encoding) (plan : Plan) (selection : Selection)
    (live : LiveParentSnapshot) (haccepted : Accepted enc plan selection live) :
    ((∃ f, parseBatchRecord (preparedBatchRecord plan (planDigest enc plan)) .prepared = some f ∧
        f.values = plan.children.map ChildPlan.key) ∧
      ∀ child ∈ plan.children,
        childBatchIdentity (childIssueBody plan.parent.id (planDigest enc plan) child) =
            .child plan.parent.id (planDigest enc plan) child.key ∧
          unmarkedActionBody (childMarkedBody enc plan.parent.id (planDigest enc plan) child) =
            childIssueBody plan.parent.id (planDigest enc plan) child) ↔
      Readable enc plan := by
  rw [readable_iff haccepted.sound]
  constructor
  · rintro ⟨hprepared, hchildren⟩
    exact ⟨hprepared, fun child hc => (hchildren child hc).1,
      fun child hc => (hchildren child hc).2⟩
  · rintro ⟨hprepared, hidentity, hunmarked⟩
    exact ⟨hprepared, fun child hc => ⟨hidentity child hc, hunmarked child hc⟩⟩

/-! ## Plans that can be run -/

/-- Numbers in letters. -/
def wordNumeral : Numeral Char where
  base := 16
  mark := '-'
  digit r := Char.ofNat (97 + r)
  value c := if c.toNat < 97 then none else some (c.toNat - 97)
  base_pos := by decide
  value_mark := by decide
  value_digit := by decide

/-- An encoding that spells keys out; a digest is what a text has of hexadecimal digits. -/
def plainEncoding : Encoding where
  sha256 s := '0' :: s.filter (· ∈ hexDigits)
  sha256_ne_nil _ := List.cons_ne_nil _ _
  sha256_hex s := List.forall_mem_cons.mpr
    ⟨by decide, fun _ hc => of_decide_eq_true (List.mem_filter.mp hc).2⟩
  base64 s := wordNumeral.write (s.map Char.toNat)
  base64_injective := by
    intro s t h
    have hread := congrArg (wordNumeral.read 0) h
    dsimp only at hread
    rw [wordNumeral.read_write, wordNumeral.read_write] at hread
    exact List.map_injective_iff.mpr (fun _ _ => Char.toNat_inj.mp) hread
  base64_letters s c hc := by
    rcases wordNumeral.mem_write hc with rfl | ⟨r, hr, rfl⟩
    · decide
    · have hdigit : ∀ r < 16, base64Letter (Char.ofNat (97 + r)) = true := by decide
      exact hdigit r hr
  planJSON plan := (plan.children.map ChildPlan.key).flatten
  snapshotJSON _ := []
  requestJSON title _ _ := title

def samplePlan (children : List ChildPlan) : Plan where
  schemaVersion := planSchemaV1
  selection := ⟨text "escalation", text "run-1", text "sha256:0"⟩
  parent := ⟨text "github", text "o/r", text "7", text "1"⟩
  summary := text "Split by layer."
  children := children
  unresolvedDecision := []
  singleReplacementReason := []

def sampleChild (key body : String) : ChildPlan where
  key := text key
  title := text key
  body := text body
  labels := []
  acceptanceCriteria := text "It works."
  validationBoundary := text "Its tests."
  dependsOn := []

def sampleSelection : Selection where
  mode := text "escalation"
  sourceRunID := text "run-1"
  parent := ⟨text "github", text "o/r", text "7", text "1"⟩
  issueSnapshotDigest := text "sha256:0"

def sampleLive : LiveParentSnapshot := ⟨text "7", [], [], [], []⟩

def layeredPlan : Plan :=
  samplePlan [sampleChild "api" "Serve the data from here.",
    sampleChild "ui" "Show the data over there."]

theorem layeredPlan_accepted : Accepted plainEncoding layeredPlan sampleSelection sampleLive := by
  unfold Accepted
  decide

theorem layeredPlan_readable : Readable plainEncoding layeredPlan := by
  constructor
  · exact ⟨by decide, by decide⟩
  · exact ⟨by decide, by decide⟩
  · decide
  · decide
  · decide
  · decide +kernel
  · exact fun child hc => unstamped_of_tails
      (all_eq_true.mp (by decide +kernel : layeredPlan.children.all (fun child =>
        (childMarkedBody plainEncoding layeredPlan.parent.id (planDigest plainEncoding layeredPlan)
          child).tails.all (fun t => matchAttribution t = none && matchOperation t = none)) = true)
        child hc)

theorem markers_read_back_layeredPlan :
    childBatchIdentity (childIssueBody (text "7") (planDigest plainEncoding layeredPlan)
        (sampleChild "ui" "Show the data over there.")) =
      .child (text "7") (text "sha256:0a") (text "ui") :=
  (((markers_read_back plainEncoding layeredPlan sampleSelection sampleLive
    layeredPlan_accepted).mpr layeredPlan_readable).2 (sampleChild "ui" "Show the data over there.")
      (by simp [layeredPlan, samplePlan])).1

/-- A key of two words, and a body of two lines as some editors end them. -/
def spacedChild : ChildPlan := sampleChild "api server" "Serve the data from here.\r\nAll of it."

def spacedPlan : Plan := samplePlan [spacedChild, sampleChild "ui" "Show the data over there."]

/--
The plan is accepted, but its prepared record is no record, the child's body is read as a
conflict, and without the marker lines it is not the body that was planned.
-/
theorem spacedPlan_not_read_back :
    Accepted plainEncoding spacedPlan sampleSelection sampleLive ∧
      parseBatchRecord (preparedBatchRecord spacedPlan (planDigest plainEncoding spacedPlan))
        .prepared = none ∧
      childBatchIdentity (childIssueBody (text "7") (planDigest plainEncoding spacedPlan)
        spacedChild) = .conflict ∧
      unmarkedActionBody (childMarkedBody plainEncoding (text "7")
          (planDigest plainEncoding spacedPlan) spacedChild) ≠
        childIssueBody (text "7") (planDigest plainEncoding spacedPlan) spacedChild := by
  unfold Accepted
  refine ⟨?_, ?_, ?_, ?_⟩ <;> decide +kernel

end Goobers.Decomposition
