import Goobers.Decomposition.Publisher

/-!
# The batch in the tracker

What it means that a batch is published, and where the bodies in the tracker come from: an
item other than the parent that bears a key line of the batch was created for one of its
children. `Core` says so of all bodies at once, and each call that writes a body keeps it.
-/

namespace Goobers.Decomposition

open Lib hiding lines
open Lib.Strings List World
open Lib.Attempt (settle throwIf observe wrap each collect)

variable {change : Fields → Fields} {body : Text → Option Text} {child : ChildPlan}

/-! ## What the record stands for -/

section
variable {enc : Encoding} (prov : Provider enc) (plan : Plan)

def keyLine (enc : Encoding) (plan : Plan) (child : ChildPlan) : Text :=
  markerKeyLine enc (childActionKey (planDigest enc plan) child)

def IsChild (enc : Encoding) (plan : Plan) (w : World) (child : ChildPlan) (id : Text) : Prop :=
  id ≠ plan.parent.id ∧ ∃ f, w.items.get? id = some f ∧
    childBatchIdentity f.body = .child plan.parent.id (planDigest enc plan) child.key

def Published (enc : Encoding) (plan : Plan) (w : World) : Prop :=
  ∃ body ∈ w.comments plan.parent.id, ∃ l, containsLine body l = true ∧
    publishedBatchMarkerPrefix <+: l ∧ planDigest enc plan <:+: l

def AsPlanned (enc : Encoding) (plan : Plan) (w : World) (ready : Bool) (child : ChildPlan)
    (id : Text) : Prop :=
  ∃ f, w.items.get? id = some f ∧ f.title = child.title ∧
    unmarkedActionBody f.body = childIssueBody plan.parent.id (planDigest enc plan) child ∧
    sameStringSet (seenLabels f.labels ready) (wantLabels child ready) = true

/-- Everything `verify` checks. -/
structure Checked (w : World) (ready : Bool) (ids : List Text) : Prop where
  tracking : ∃ f, w.items.get? plan.parent.id = some f ∧ verifiesBody f.body plan ids
  children : List.Forall₂ (AsPlanned enc plan w ready) plan.children ids
  links : prov.hierarchy = true → sameStringSet (w.links plan.parent.id) ids = true
  blockers : prov.dependencies = true → List.Forall₂ (fun child id =>
    sameStringSet (w.blockers id) (wantBlockers plan ids child) = true) plan.children ids

/-- Nothing of the batch is there yet. -/
structure Fresh (enc : Encoding) (plan : Plan) (w : World) : Prop where
  unmarked : ∀ child ∈ plan.children, ∀ id f, w.items.get? id = some f →
    ¬ keyLine enc plan child <:+: f.body ∧
      childBatchIdentity f.body ≠ .child plan.parent.id (planDigest enc plan) child.key
  unpublished : ¬ Published enc plan w

/-- The states after some attempts, in each of which any run may have published. -/
inductive Attempts (w : World) : World → Prop where
  | start : Attempts w w
  | attempt {t u : World} (p : Publisher) {o : Option (Except Failure PublishedBatch)} :
      Attempts w t → Runs (Does (perform prov)) (publish prov p plan).run t u o → Attempts w u

/-! ## Bodies and details -/

def World.bodyOf (w : World) (id : Text) : Option Text := (w.items.get? id).map Fields.body

def World.detail (w : World) (id : Text) : Option (Text × Text × List Text) :=
  (w.items.get? id).map (fun f => (f.title, f.body, f.labels))

theorem World.bodyOf_of_get {w : World} {id : Text} {f : Fields} (hf : w.items.get? id = some f) :
    w.bodyOf id = some f.body := by
  unfold bodyOf
  rw [hf]
  rfl

theorem World.bodyOf_revised (w : World) (h : ∀ f, (change f).body = f.body) (id : Text) :
    (w.revised prov id change).bodyOf = w.bodyOf := by
  unfold revised
  split
  · rename_i f hf
    funext i
    unfold bodyOf
    rw [GoMap.get?_put]
    split_ifs with hi
    · rw [hi, hf]
      exact congrArg some (h f)
    · rfl
  · rfl

theorem World.detail_revised (w : World) {id i : Text}
    (h : (∀ f, (change f).title = f.title ∧ (change f).body = f.body ∧
      (change f).labels = f.labels) ∨
      i ≠ id) : (w.revised prov id change).detail i = w.detail i := by
  unfold revised
  split
  · rename_i f hf
    unfold detail
    rw [GoMap.get?_put]
    split_ifs with hi
    · rw [hi, hf]
      rcases h with h | h
      · simp [h f]
      · exact absurd hi h
    · rfl
  · rfl

/-- A write that may change the labels of one item, and no other text or link. -/
structure Spares (x : Text) (w t : World) : Prop where
  details : ∀ id, id ≠ x → t.detail id = w.detail id
  bodies : t.bodyOf = w.bodyOf
  links : t.links = w.links
  blockers : t.blockers = w.blockers

namespace Spares

theorem refl (x : Text) (w : World) : Spares x w w := ⟨fun _ _ => rfl, rfl, rfl, rfl⟩

theorem of_revised {x : Text} {w v : World} (id : Text)
    (h : (∀ f, (change f).title = f.title ∧ (change f).body = f.body ∧
      (change f).labels = f.labels) ∨
      (∀ f, (change f).body = f.body) ∧ id = x)
    (hv : v.items = w.items ∧ v.links = w.links ∧ v.blockers = w.blockers) :
    Spares x w (v.revised prov id change) := by
  have hbody : ∀ f, (change f).body = f.body := by
    rcases h with h | h
    · exact fun f => (h f).2.1
    · exact h.1
  have hdetail : v.detail = w.detail := by
    unfold detail
    rw [hv.1]
  have hbodyOf : v.bodyOf = w.bodyOf := by
    unfold bodyOf
    rw [hv.1]
  refine ⟨fun i hi => ?_, ?_, ?_, ?_⟩
  · rw [← hdetail]
    refine v.detail_revised prov ?_
    rcases h with h | h
    · exact .inl h
    · exact .inr (h.2 ▸ hi)
  · rw [← hbodyOf]
    exact v.bodyOf_revised prov hbody id
  · rw [← hv.2.1]
    unfold revised
    split <;> rfl
  · rw [← hv.2.2]
    unfold revised
    split <;> rfl

end Spares

theorem World.comments_revised (w : World) (id : Text) (change : Fields → Fields) :
    (w.revised prov id change).comments = w.comments := by
  unfold revised
  split <;> rfl

/-! ## What a call writes -/

theorem guarded_cases {α : Type} (w : World) (check : Except Failure Fields)
    (result : World → Except Failure α) (next : World) :
    (guarded w check result next).2 = w ∨ (guarded w check result next).2 = next := by
  cases check with
  | error e => exact .inl rfl
  | ok f => exact .inr rfl

theorem perform_comment (w : World) (x id body : Text) :
    let t := (perform prov w (.createWorkItemComment id body)).2
    Spares x w t ∧ (t.comments = w.comments ∨
      t.comments = appended w.comments id (prov.stamp body)) := by
  simp only [perform]
  rcases guarded_cases w _ _ _ with h | h <;> rw [h]
  · exact ⟨.refl x w, .inl rfl⟩
  · refine ⟨.of_revised prov id (.inl fun f => ⟨rfl, rfl, rfl⟩) ⟨rfl, rfl, rfl⟩, .inr ?_⟩
    rw [comments_revised]

theorem perform_relabel (w : World) (id revision : Text) (add remove : List Text) :
    let t := (perform prov w (.updateWorkItem id revision none add remove)).2
    Spares id w t ∧ t.comments = w.comments := by
  simp only [perform]
  rcases guarded_cases w _ _ _ with h | h <;> rw [h]
  · exact ⟨.refl id w, rfl⟩
  · refine ⟨.of_revised prov id (.inr ⟨fun f => rfl, rfl⟩) ⟨rfl, rfl, rfl⟩, ?_⟩
    rw [comments_revised]

theorem perform_release (w : World) (id runID : Text) (reason : ReleaseReason) :
    let t := (perform prov w (.releaseWorkItemClaim id runID reason)).2
    Spares id w t ∧ (t.comments = w.comments ∨
      t.comments = appended w.comments id (prov.releaseNote runID reason)) := by
  simp only [perform]
  rcases guarded_cases w _ _ _ with h | h <;> rw [h]
  · exact ⟨.refl id w, .inl rfl⟩
  · refine ⟨.of_revised prov id (.inr ⟨fun f => rfl, rfl⟩) ⟨rfl, rfl, rfl⟩, .inr ?_⟩
    rw [comments_revised]

/-- A link between two items, which revises both, leaves the texts alone. -/
theorem guarded_link_kept {α : Type} {w linked : World} (hitems : linked.items = w.items)
    (hcomments : linked.comments = w.comments) (check : Except Failure Fields)
    (result : World → Except Failure α) (id other : Text) :
    let t := (guarded w check result (World.revised prov (World.revised prov linked id
      (fun f => f)) other (fun f => f))).2
    t.bodyOf = w.bodyOf ∧ t.comments = w.comments := by
  dsimp only
  rcases guarded_cases w check result _ with h | h <;> rw [h]
  · exact ⟨rfl, rfl⟩
  refine ⟨?_, ?_⟩
  · rw [bodyOf_revised prov _ fun f => rfl, bodyOf_revised prov _ fun f => rfl]
    unfold World.bodyOf
    rw [hitems]
  · rw [comments_revised, comments_revised, hcomments]

theorem perform_attachChild (w : World) (parentID childID r s : Text) :
    let t := (perform prov w (.attachWorkItemChild parentID childID r s)).2
    t.bodyOf = w.bodyOf ∧ t.comments = w.comments := by
  simp only [perform]
  apply guarded_link_kept <;> rfl

theorem perform_attachBlocker (w : World) (itemID blockerID r s : Text) :
    let t := (perform prov w (.attachWorkItemBlocker itemID blockerID r s)).2
    t.bodyOf = w.bodyOf ∧ t.comments = w.comments := by
  simp only [perform]
  apply guarded_link_kept <;> rfl

/-- An update with a body changes that of one item. -/
theorem perform_rewrite (w : World) (id revision body : Text) (add remove : List Text) :
    let t := (perform prov w (.updateWorkItem id revision (some body) add remove)).2
    (t.bodyOf = w.bodyOf ∨ t.bodyOf id = some body ∧ ∀ i, i ≠ id → t.bodyOf i = w.bodyOf i) ∧
      t.comments = w.comments := by
  simp only [perform]
  rcases guarded_cases w _ _ _ with h | h <;> rw [h]
  · exact ⟨.inl rfl, rfl⟩
  refine ⟨?_, comments_revised prov _ _ _⟩
  unfold revised
  split
  · refine .inr ⟨?_, fun i hi => ?_⟩ <;> unfold bodyOf
    · rw [GoMap.get?_put_self]
      rfl
    · rw [GoMap.get?_put_of_ne _ hi]
  · exact .inl rfl

theorem perform_update_id {w : World} {id revision : Text} {body : Option Text}
    {add remove : List Text} {item : Item}
    (h : (perform prov w (.updateWorkItem id revision body add remove)).1 = .ok item) :
    item.id = id := by
  simp only [perform, guarded] at h
  split at h
  · cases h
  unfold item? at h
  cases hf : GoMap.get? _ id with
  | none =>
    rw [hf] at h
    cases h
  | some f =>
    rw [hf] at h
    cases h
    rfl

/-- A new item has a fresh id and the body it was given. -/
theorem perform_create (w : World) (title body : Text) (labels : List Text) :
    let t := (perform prov w (.createWorkItem title body labels)).2
    t.bodyOf (prov.freshID w) = some (prov.stamp body) ∧
      (∀ i, i ≠ prov.freshID w → t.bodyOf i = w.bodyOf i) ∧
      t.comments = w.comments ∧ w.bodyOf (prov.freshID w) = none := by
  refine ⟨?_, fun i hi => ?_, rfl, ?_⟩ <;> unfold bodyOf
  · simp only [perform, GoMap.get?_put_self]
    rfl
  · simp only [perform]
    rw [GoMap.get?_put_of_ne _ hi]
  · rw [prov.freshID_new]
    rfl

end

/-! ## Where bodies come from -/

section
variable {enc : Encoding} (prov : Provider enc) (plan : Plan)

def bornBody (child : ChildPlan) : Text :=
  prov.stamp (childMarkedBody enc plan.parent.id (planDigest enc plan) child)

/-- An item that was created for a child. -/
def Born (body : Text → Option Text) (child : ChildPlan) (id : Text) : Prop :=
  id ≠ plan.parent.id ∧ body id = some (bornBody prov plan child)

def Bears (enc : Encoding) (plan : Plan) (body : Text → Option Text) (child : ChildPlan)
    (id : Text) : Prop :=
  id ≠ plan.parent.id ∧ ∃ b, body id = some b ∧ containsLine b (keyLine enc plan child) = true

/-- What holds of the bodies at every moment. -/
structure Core (body : Text → Option Text) : Prop where
  origin : ∀ child ∈ plan.children, ∀ id b, id ≠ plan.parent.id → body id = some b →
    containsLine b (keyLine enc plan child) = true ∨
      childBatchIdentity b = .child plan.parent.id (planDigest enc plan) child.key →
    ∃ c ∈ plan.children, b = bornBody prov plan c
  single : ∀ child ∈ plan.children, ∀ id i, Born prov plan body child id →
    Born prov plan body child i → id = i
  /-- the parent has a key line in it only once all children are there -/
  quoted : ∀ child ∈ plan.children, ∀ b, body plan.parent.id = some b →
    keyLine enc plan child <:+: b → ∀ c ∈ plan.children, ∃ id, Bears enc plan body c id

variable {prov plan}

theorem infix_of_containsLine {b l : Text} (hl : '\n' ∉ l) (h : containsLine b l = true) :
    l <:+: b :=
  infix_of_infix_crlf hl (infix_of_mem_lines (of_decide_eq_true h))

theorem newline_notMem_keyLine (child : ChildPlan) : '\n' ∉ keyLine enc plan child :=
  newline_notMem_markerKeyLine enc _

section
theorem exists_lines_markedBody (enc : Encoding) (key body payload : Text) :
    ∃ u, crlf (body ++ ['\n']) = u ++ ['\n'] ∧ lines (crlf (markedBody enc key body payload)) =
      lines u ++ [[], markerKeyLine enc key, digestLine enc payload] := by
  obtain ⟨u, hu, _⟩ := exists_crlf_newline body
  refine ⟨u, hu, ?_⟩
  rw [markedBody_eq, append_cons, crlf_append (.inl (by simp)), hu,
    crlf_of_notMem_return (carriage_notMem_markers enc key payload), ← append_cons, lines_markers]

theorem containsLine_markerKeyLine (enc : Encoding) (key body payload : Text) :
    containsLine (markedBody enc key body payload) (markerKeyLine enc key) = true := by
  obtain ⟨u, _, hlines⟩ := exists_lines_markedBody enc key body payload
  unfold containsLine
  rw [hlines]
  simp

theorem childBatchIdentity_markedBody (enc : Encoding) (key payload : Text) {body : Text}
    (hbody : body.getLast? ≠ some '\r') :
    childBatchIdentity (markedBody enc key body payload) = childBatchIdentity body := by
  obtain ⟨u, hu, hlines⟩ := exists_lines_markedBody enc key body payload
  have hcrlf : u = crlf body := by
    rw [crlf_append (.inl hbody)] at hu
    exact (append_cancel_right hu).symm
  have hmarkers : [[], markerKeyLine enc key, digestLine enc payload].filter
      (childBatchMarkerPrefix.isPrefixOf ·) = [] := rfl
  unfold childBatchIdentity
  rw [hlines, hcrlf, filter_append, hmarkers, append_nil]

theorem head_of_published {l : Text} (h : publishedBatchMarkerPrefix <+: l) :
    l.head? = some 'g' := by
  obtain ⟨r, rfl⟩ := h
  rfl

theorem not_published_field {record : Text} {f : RecordFields}
    (h : parseBatchRecord record .prepared = some f) {w : Text} (hw : w ∈ fields record) :
    ¬ publishedBatchMarkerPrefix <+: w := by
  obtain ⟨rest, hfields, hlen, _⟩ := fields_of_parseBatchRecord h
  obtain ⟨source, rfl⟩ : ∃ v, rest = [v] := length_eq_one_iff.mp (Nat.add_right_cancel hlen)
  rw [hfields] at hw
  -- the first letters differ, but for the marker itself
  simp only [BatchRecord.names, zipWith_cons_cons, zipWith_nil_left, mem_cons,
    not_mem_nil, or_false] at hw
  intro hpre
  have hhead := head_of_published hpre
  rcases hw with rfl | rfl | rfl | rfl | rfl | rfl
  · exact absurd hpre (by decide)
  all_goals exact absurd (Option.some.inj hhead) (by decide)

theorem not_hasRecordLine_prepared (enc : Encoding) (key payload : Text) {record : Text}
    {f : RecordFields} (h : parseBatchRecord record .prepared = some f) :
    ¬ HasRecordLine (markedBody enc key record payload) := by
  obtain ⟨u, hu, hlines⟩ := exists_lines_markedBody enc key record payload
  have hfields : fields u = fields record := by
    have hu' := congrArg fields hu
    rw [fields_crlf, fields_append_space rfl, fields_append_space rfl] at hu'
    exact (append_cancel_right hu').symm
  intro ⟨l, hl, hpre⟩
  have hmem : l ∈ lines u ++ [[], markerKeyLine enc key, digestLine enc payload] :=
    hlines ▸ of_decide_eq_true hl
  rcases mem_append.mp hmem with hmem | hmem
  · -- the line would begin with a field of the record
    have hword : Word publishedBatchMarkerPrefix := BatchRecord.marker_word .published
    obtain ⟨w, hw, hpre⟩ := exists_field_of_prefix hword hpre
    have hw : w ∈ fields record := hfields ▸ mem_fields_of_mem_lines hmem hw
    exact not_published_field h hw hpre
  · simp only [mem_cons, not_mem_nil, or_false] at hmem
    rcases hmem with rfl | rfl | rfl
    · exact absurd (prefix_nil.mp hpre) (by decide)
    all_goals exact absurd (Option.some.inj (head_of_published hpre)) (by decide)

variable (hread : ReadsBack enc plan)
include hread

theorem keyLine_notIn_resumeMarker (hc : child ∈ plan.children) :
    ¬ keyLine enc plan child <:+: parentResumeMarker plan.parent.id (planDigest enc plan) := by
  intro h
  have hword : Word (text "goobers-action:v1") := ⟨by decide, by decide⟩
  have hmem : text "goobers-action:v1" ∈
      fields (parentResumeMarker plan.parent.id (planDigest enc plan)) := by
    refine mem_fields_of_infix (a := text "<!--") (b := text "key=" ++
      enc.base64 (childActionKey (planDigest enc plan) child) ++ text " -->") hword ?_
    exact h
  have hwords : parentResumeMarker plan.parent.id (planDigest enc plan) = [' '].intercalate
      [text "<!--", text "goobers-decomposition-resume:", text "v1",
        text "parent=" ++ plan.parent.id, text "digest=" ++ planDigest enc plan, text "-->"] := by
    have h0 : resumeMarkerPrefix = text "<!--" ++ ' ' :: text "goobers-decomposition-resume:" := rfl
    have h1 : text " v1 parent=" = ' ' :: (text "v1" ++ ' ' :: text "parent=") := rfl
    have h2 : text " digest=" = ' ' :: text "digest=" := rfl
    have h3 : text " -->" = ' ' :: text "-->" := rfl
    unfold parentResumeMarker
    rw [h0, h1, h2, h3]
    simp
  have hparent := (words_of_childBatchIdentity (hread.identity child hc)).1.2
  have hlead : ∀ s ∈ [text "<!--", text "goobers-decomposition-resume:", text "v1",
      text "parent=", text "digest=", text "-->"], Word s := by
    unfold Word
    decide
  have hextend : ∀ {a b : Text}, Word a → (∀ c ∈ b, isSpace c = false) → Word (a ++ b) := by
    intro a b ha hb
    exact ⟨fun hnil => ha.1 (append_eq_nil_iff.mp hnil).1, forall_mem_append.mpr ⟨ha.2, hb⟩⟩
  rw [hwords, fields_intercalate] at hmem
  · simp only [mem_cons, not_mem_nil, or_false] at hmem
    rcases hmem with heq | heq | heq | heq | heq | heq
    · cases heq
    · cases heq
    all_goals exact absurd (Option.some.inj (congrArg head? heq)) (by decide)
  · simp only [forall_mem_cons] at hlead ⊢
    obtain ⟨hopen, hname, hversion, hparent', hdigest, hend⟩ := hlead
    exact ⟨hopen, hname, hversion, hextend hparent' hparent,
      hextend hdigest (word_planDigest enc plan).2, hend⟩

/-- What the tracker makes of a child's body still reads back. -/
theorem ReadsBack.stamped (hc : child ∈ plan.children) :
    containsLine (bornBody prov plan child) (keyLine enc plan child) = true ∧
      childBatchIdentity (bornBody prov plan child) =
        .child plan.parent.id (planDigest enc plan) child.key ∧
      unmarkedActionBody (bornBody prov plan child) =
        childIssueBody plan.parent.id (planDigest enc plan) child := by
  have hunmarked := hread.unmarked child hc
  obtain ⟨hline, hidentity, hbody⟩ := prov.stamp_marked _ _ _ hunmarked
  have hlast : (childIssueBody plan.parent.id (planDigest enc plan) child).getLast? ≠
      some '\r' := by
    intro hlast
    rw [← hunmarked] at hlast
    exact absurd ((trim_eq_self_iff.mp (trim_trim _)).2 _ hlast) (by decide)
  refine ⟨hline (containsLine_markerKeyLine enc _ _ _), ?_, hbody⟩
  rw [← hread.identity child hc, ← childBatchIdentity_markedBody enc _ _ hlast]
  exact hidentity

theorem ReadsBack.key_eq {c : ChildPlan} (hchild : child ∈ plan.children) (hc : c ∈ plan.children)
    (h : childBatchIdentity (bornBody prov plan c) =
      .child plan.parent.id (planDigest enc plan) child.key) (hsound : Sound plan) : c = child := by
  rw [(hread.stamped hc).2.1] at h
  have hkey : c.key = child.key := by injection h
  exact inj_on_of_nodup_map hsound.distinct hc hchild hkey

theorem Born.bears {id : Text} (hc : child ∈ plan.children) (h : Born prov plan body child id) :
    Bears enc plan body child id :=
  ⟨h.1, _, h.2, (hread.stamped hc).1⟩

theorem Fresh.core {w : World} (h : Fresh enc plan w) : Core prov plan w.bodyOf := by
  have hplain : ∀ child ∈ plan.children, ∀ id b, w.bodyOf id = some b →
      ¬ keyLine enc plan child <:+: b ∧
        childBatchIdentity b ≠ .child plan.parent.id (planDigest enc plan) child.key := by
    intro child hc id b hb
    obtain ⟨f, hf, rfl⟩ := Option.map_eq_some_iff.mp hb
    exact h.unmarked child hc id f hf
  have hnone : ∀ child ∈ plan.children, ∀ id, ¬ Born prov plan w.bodyOf child id := by
    intro child hc id hborn
    obtain ⟨_, b, hb, hline⟩ := hborn.bears hread hc
    exact (hplain child hc id b hb).1 (infix_of_containsLine (newline_notMem_keyLine child) hline)
  constructor
  · intro child hc id b _ hb hor
    rcases hor with hline | hid
    · exact absurd (infix_of_containsLine (newline_notMem_keyLine child) hline)
        (hplain child hc id b hb).1
    · exact absurd hid (hplain child hc id b hb).2
  · intro child hc id i hborn
    exact absurd hborn (hnone child hc id)
  · intro child hc b hb hquote
    exact absurd hquote (hplain child hc _ b hb).1

variable (hsound : Sound plan)
include hsound

/-- An item that reads as a child of the batch was born as that child. -/
theorem isChild_iff {w : World} (hcore : Core prov plan w.bodyOf) (hc : child ∈ plan.children)
    (id : Text) : IsChild enc plan w child id ↔ Born prov plan w.bodyOf child id := by
  constructor
  · intro ⟨hid, f, hf, hread'⟩
    have hb := bodyOf_of_get hf
    obtain ⟨c, hcmem, hbody⟩ := hcore.origin child hc id _ hid hb (.inr hread')
    have heq : c = child := hread.key_eq hc hcmem (hbody ▸ hread') hsound
    exact ⟨hid, by rw [hb, hbody, heq]⟩
  · intro ⟨hid, hb⟩
    obtain ⟨f, hf, hbody⟩ := Option.map_eq_some_iff.mp hb
    refine ⟨hid, f, hf, ?_⟩
    rw [hbody]
    exact (hread.stamped hc).2.1

/-- Making a child that has no item yet. -/
theorem Core.create {new : Text → Option Text} (h : Core prov plan body)
    (hc : child ∈ plan.children)
    (hnone : ∀ id b, body id = some b → containsLine b (keyLine enc plan child) ≠ true)
    (hparent : body plan.parent.id ≠ none) {id : Text} (hfree : body id = none)
    (hself : new id = some (bornBody prov plan child)) (hother : ∀ i, i ≠ id → new i = body i) :
    Core prov plan new ∧ (∀ c i, Bears enc plan body c i → Bears enc plan new c i) ∧
      Born prov plan new child id := by
  have hid : id ≠ plan.parent.id := by
    intro heq
    exact hparent (heq ▸ hfree)
  have hmono : ∀ c i, Bears enc plan body c i → Bears enc plan new c i := by
    intro c i ⟨hi, b, hb, hline⟩
    refine ⟨hi, b, ?_, hline⟩
    rw [hother i (fun heq => by rw [heq, hfree] at hb; cases hb)]
    exact hb
  refine ⟨⟨?_, ?_, ?_⟩, hmono, hid, hself⟩
  · intro c hcmem i b hi hb hor
    by_cases heq : i = id
    · rw [heq, hself] at hb
      exact ⟨child, hc, (Option.some.inj hb).symm⟩
    · rw [hother i heq] at hb
      exact h.origin c hcmem i b hi hb hor
  · -- the new item is the only one created for the child, and created for no other
    have hback : ∀ c ∈ plan.children, ∀ i, Born prov plan new c i →
        (c = child ∧ i = id) ∨ (c ≠ child ∧ Born prov plan body c i) := by
      intro c hcmem i ⟨hi, hb⟩
      by_cases heq : i = id
      · rw [heq, hself] at hb
        have hidentity : childBatchIdentity (bornBody prov plan child) =
            .child plan.parent.id (planDigest enc plan) child.key := (hread.stamped hc).2.1
        rw [Option.some.inj hb] at hidentity
        exact .inl ⟨hread.key_eq hc hcmem hidentity hsound, heq⟩
      · rw [hother i heq] at hb
        refine .inr ⟨fun hsame => ?_, hi, hb⟩
        rw [hsame] at hb
        exact hnone i _ hb (hread.stamped hc).1
    intro c hcmem i j hborn hborn'
    rcases hback c hcmem i hborn with ⟨hsame, hi⟩ | ⟨hne, hold⟩ <;>
      rcases hback c hcmem j hborn' with ⟨hsame', hj⟩ | ⟨hne', hold'⟩
    · exact hi.trans hj.symm
    · exact absurd hsame hne'
    · exact absurd hsame' hne
    · exact h.single c hcmem i j hold hold'
  · intro c hcmem b hb hquote d hd
    rw [hother _ (Ne.symm hid)] at hb
    obtain ⟨i, hborn⟩ := h.quoted c hcmem b hb hquote d hd
    exact ⟨i, hmono d i hborn⟩

end

/-- A rewrite of the parent's body that brings in no key line of a child still unborn. -/
theorem Core.rewrite {new : Text → Option Text} (h : Core prov plan body) {old text : Text}
    (hold : body plan.parent.id = some old)
    (htext : ∀ child ∈ plan.children, keyLine enc plan child <:+: text →
      keyLine enc plan child <:+: old ∨ ∀ c ∈ plan.children, ∃ id, Bears enc plan body c id)
    (hself : new plan.parent.id = some text) (hother : ∀ i, i ≠ plan.parent.id → new i = body i) :
    Core prov plan new ∧ ∀ c i, Bears enc plan body c i → Bears enc plan new c i := by
  have hkeep : ∀ c i, Bears enc plan body c i → Bears enc plan new c i := by
    intro c i ⟨hi, hb⟩
    exact ⟨hi, by rw [hother i hi]; exact hb⟩
  have hborn : ∀ c i, Born prov plan new c i → Born prov plan body c i := by
    intro c i ⟨hi, hb⟩
    exact ⟨hi, hother i hi ▸ hb⟩
  refine ⟨⟨?_, ?_, ?_⟩, hkeep⟩
  · intro child hc i b hi hb
    rw [hother i hi] at hb
    exact h.origin child hc i b hi hb
  · intro child hc i j hi hj
    exact h.single child hc i j (hborn _ _ hi) (hborn _ _ hj)
  · intro child hc b hb hquote c hcmem
    rw [hself] at hb
    have hquote' : keyLine enc plan child <:+: text := Option.some.inj hb ▸ hquote
    rcases htext child hc hquote' with hquoted | hall
    · obtain ⟨i, hi⟩ := h.quoted child hc old hold hquoted c hcmem
      exact ⟨i, hkeep c i hi⟩
    · obtain ⟨i, hi⟩ := hall c hcmem
      exact ⟨i, hkeep c i hi⟩

end

end Goobers.Decomposition
