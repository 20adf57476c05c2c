import Goobers.Decomposition.Batch

/-!
# The published record is a barrier

Attempts to publish one plan follow each other, and each may be cut at any call. As long as
there is no published record nothing is promised of the children but that there is one of
each at most (`Open`). The last check before the record reads all of them, and after it only
comments, and labels of the parent, are written (`Sealed`). `Ensures` carries these two
through the program, call by call.
-/

namespace Goobers.Decomposition

open Lib hiding lines
open Lib.Strings List Ensures
open Lib.Attempt (settle throwIf observe wrap each collect)

variable {children : List ChildPlan} {ids : List Text} {w t : World} {child : ChildPlan}

/-- `Ensures`, for the calls of one tracker. -/
abbrev Ensured {enc : Encoding} (prov : Provider enc) {α : Type} (I P : World → Prop)
    (program : ForgeM α) (Q : α → World → Prop) : Prop :=
  Ensures (Does (perform prov)) I P program Q

/-- `P` holds throughout the program. -/
abbrev Keeps {enc : Encoding} (prov : Provider enc) {α : Type} (P : World → Prop)
    (program : ForgeM α) : Prop :=
  Ensured prov P P program (fun _ => P)

/-! ## The phases of an attempt -/

section
variable {enc : Encoding} (prov : Provider enc) (plan : Plan)

/-- No published record yet; the items at hand bear the key lines of these children. -/
structure Open (children : List ChildPlan) (ids : List Text) (w : World) : Prop where
  core : Core prov plan w.bodyOf
  unpublished : ¬ Published enc plan w
  parent : w.bodyOf plan.parent.id ≠ none
  bears : List.Forall₂ (Bears enc plan w.bodyOf) children ids

/-- The batch has been checked in full. -/
structure Sealed (ids : List Text) (w : World) : Prop where
  core : Core prov plan w.bodyOf
  born : List.Forall₂ (Born prov plan w.bodyOf) plan.children ids
  checked : Checked prov plan w true ids

/-- What holds wherever an attempt is cut. -/
structure Inv (w : World) : Prop where
  core : Core prov plan w.bodyOf
  barrier : Published enc plan w → ∃ ids, Sealed prov plan ids w

variable {prov plan}

theorem Open.inv (h : Open prov plan children ids w) : Inv prov plan w :=
  ⟨h.core, fun hpub => absurd hpub h.unpublished⟩

theorem Sealed.inv (h : Sealed prov plan ids w) : Inv prov plan w :=
  ⟨h.core, fun _ => ⟨ids, h⟩⟩

/-- Only a comment with a record line can publish. -/
theorem Published.of_comments
    (h : t.comments = w.comments ∨ ∃ id b, t.comments = appended w.comments id b ∧
      (id = plan.parent.id → ¬ HasRecordLine b)) (hpub : Published enc plan t) :
    Published enc plan w := by
  obtain ⟨body, hmem, l, hl, hrec, hdigest⟩ := hpub
  rcases h with h | ⟨id, b, h, hb⟩
  · exact ⟨body, h ▸ hmem, l, hl, hrec, hdigest⟩
  rw [h] at hmem
  unfold appended at hmem
  split_ifs at hmem with hid
  · rcases mem_append.mp hmem with hmem | hmem
    · exact ⟨body, hmem, l, hl, hrec, hdigest⟩
    · rw [mem_singleton.mp hmem] at hl
      exact absurd ⟨l, hl, hrec⟩ (hb hid.symm)
  · exact ⟨body, hmem, l, hl, hrec, hdigest⟩

theorem Open.of_bodies (h : Open prov plan children ids w) (hbodies : t.bodyOf = w.bodyOf)
    (hpub : Published enc plan t → Published enc plan w) : Open prov plan children ids t := by
  refine ⟨?_, fun hp => h.unpublished (hpub hp), ?_, ?_⟩ <;> rw [hbodies]
  · exact h.core
  · exact h.parent
  · exact h.bears

theorem Open.relabel (h : Open prov plan children ids w) (id revision : Text)
    (add remove : List Text) :
    Open prov plan children ids
      (perform prov w (.updateWorkItem id revision none add remove)).2 := by
  obtain ⟨hspares, hcomments⟩ := perform_relabel prov w id revision add remove
  exact h.of_bodies hspares.bodies (fun hpub => hpub.of_comments (.inl hcomments))

theorem Open.rewrite (h : Open prov plan children ids w) {old : Text}
    (hold : w.bodyOf plan.parent.id = some old) (new : Text)
    (hnew : ∀ child ∈ plan.children, keyLine enc plan child <:+: new →
      keyLine enc plan child <:+: old ∨ ∀ c ∈ plan.children, ∃ id, Bears enc plan w.bodyOf c id)
    (revision : Text) (add remove : List Text) : Open prov plan children ids
      (perform prov w (.updateWorkItem plan.parent.id revision (some new) add remove)).2 := by
  obtain ⟨hbodies, hcomments⟩ := perform_rewrite prov w plan.parent.id revision new add remove
  rcases hbodies with hsame | ⟨hself, hother⟩
  · exact h.of_bodies hsame (fun hpub => hpub.of_comments (.inl hcomments))
  obtain ⟨hcore, hkeep⟩ := h.core.rewrite hold hnew hself hother
  refine ⟨hcore, fun hpub => h.unpublished (hpub.of_comments (.inl hcomments)), ?_,
    h.bears.imp hkeep⟩
  rw [hself]
  exact Option.some_ne_none new

theorem AsPlanned.spares {ready : Bool} {id : Text} (h : AsPlanned enc plan w ready child id)
    (hdetail : t.detail id = w.detail id) : AsPlanned enc plan t ready child id := by
  obtain ⟨f, hf, htitle, hbody, hlabels⟩ := h
  have hd : t.detail id = some (f.title, f.body, f.labels) := by
    rw [hdetail]
    unfold World.detail
    rw [hf]
    rfl
  obtain ⟨g, hg, heq⟩ := Option.map_eq_some_iff.mp hd
  obtain ⟨h1, h2, h3⟩ : g.title = f.title ∧ g.body = f.body ∧ g.labels = f.labels := by
    simpa using heq
  exact ⟨g, hg, by rw [h1, htitle], by rw [h2, hbody], by rw [h3]; exact hlabels⟩

/-- What spares the parent's batch leaves it sealed. -/
theorem Sealed.spares (h : Sealed prov plan ids w) (hs : Spares plan.parent.id w t) :
    Sealed prov plan ids t := by
  refine ⟨hs.bodies ▸ h.core, hs.bodies ▸ h.born, ⟨?_, ?_, ?_, ?_⟩⟩
  · obtain ⟨f, hf, hbody⟩ := h.checked.tracking
    have hb : t.bodyOf plan.parent.id = some f.body := by
      rw [hs.bodies]
      exact World.bodyOf_of_get hf
    obtain ⟨g, hg, heq⟩ := Option.map_eq_some_iff.mp hb
    exact ⟨g, hg, heq ▸ hbody⟩
  · -- the children are not the parent, so their labels are as they were
    refine List.Forall₂.mp (fun child id hborn hplanned => ?_) h.born h.checked.children
    exact hplanned.spares (hs.details id hborn.1)
  · rw [hs.links]
    exact h.checked.links
  · rw [hs.blockers]
    exact h.checked.blockers

theorem Inv.spares (h : Inv prov plan w) (hs : Spares plan.parent.id w t)
    (hpub : Published enc plan t → Published enc plan w) : Inv prov plan t := by
  refine ⟨hs.bodies ▸ h.core, fun hp => ?_⟩
  obtain ⟨ids, hsealed⟩ := h.barrier (hpub hp)
  exact ⟨ids, hsealed.spares hs⟩

/-! ## Reading -/

section
variable {I P : World → Prop}

theorem ensures_get (hI : ∀ w, P w → I w) (id : Text) :
    Ensured prov I P (ask (.getWorkItem id))
      (fun item w => P w ∧ item.id = id ∧ w.items.get? id = some item.toFields) := by
  refine (reads (fun _ => rfl) hI).post (fun item w h => ⟨h.1, ?_⟩)
  have hfound : found (w.item? id) = .ok item := h.2
  unfold World.item? at hfound
  cases hf : w.items.get? id with
  | none =>
    rw [hf] at hfound
    cases hfound
  | some f =>
    rw [hf] at hfound
    cases hfound
    exact ⟨rfl, rfl⟩

theorem ensures_verifyChild (ready : Bool) (child : ChildPlan) (id : Text) :
    Ensured prov P P (verifyChild plan (planDigest enc plan) ready child id)
      (fun _ w => P w ∧ AsPlanned enc plan w ready child id) := by
  refine (ensures_get (fun _ h => h) id).bind fun item => ?_
  refine (throwIf fun _ h => h.1).bind fun _ => ?_
  refine (throwIf fun _ h => h.1.1).post fun _ w h => ?_
  obtain ⟨⟨⟨hP, _, hf⟩, hcontent⟩, hlabels⟩ := h
  obtain ⟨htitle, hbody⟩ := not_or.mp hcontent
  exact ⟨hP, item.toFields, hf, not_not.mp htitle, not_not.mp hbody, by simpa using hlabels⟩

theorem ensures_verifyLinks (ids : List Text) :
    Ensured prov P P (verifyLinks prov plan ids)
      (fun _ w => P w ∧ (prov.hierarchy = true →
        sameStringSet (w.links plan.parent.id) ids = true)) := by
  unfold verifyLinks
  split_ifs with hno
  · refine (reads (fun _ => rfl) fun _ h => h).bind fun actual => ?_
    refine (throwIf fun _ h => h.1).post fun _ w h => ⟨h.1.1, fun _ => ?_⟩
    have hactual : w.links plan.parent.id = actual := Except.ok.inj h.1.2
    rw [hactual]
    simpa using h.2
  · exact pure (fun _ h => h) fun w h => ⟨h, fun hyes => absurd hyes hno⟩

theorem ensures_verifyBlockers (ids : List Text) (child : ChildPlan) (id : Text) :
    Ensured prov P P (verifyBlockers plan ids child id)
      (fun _ w => P w ∧ sameStringSet (w.blockers id) (wantBlockers plan ids child) = true) := by
  refine (reads (fun _ => rfl) fun _ h => h).bind fun actual => ?_
  refine (throwIf fun _ h => h.1).post fun _ w h => ⟨h.1.1, ?_⟩
  have hactual : w.blockers id = actual := Except.ok.inj h.1.2
  rw [hactual]
  simpa using h.2

theorem ensures_eachZip {check : ChildPlan × Text → ForgeM Unit}
    {S : World → ChildPlan → Text → Prop} (hlen : ids.length = plan.children.length)
    (hcheck : ∀ (R : World → Prop) child id, Ensured prov R R (check (child, id))
      (fun _ w => R w ∧ S w child id)) :
    Ensured prov P P (each check (plan.children.zip ids))
      (fun _ w => P w ∧ List.Forall₂ (S w) plan.children ids) := by
  have hround : ∀ done pair rest, plan.children.zip ids = done ++ pair :: rest →
      Ensured prov P (fun w => P w ∧ ∀ q ∈ done, S w q.1 q.2) (check pair)
        (fun _ w => P w ∧ ∀ q ∈ done ++ [pair], S w q.1 q.2) := by
    intro done pair rest _
    refine ((hcheck (fun w => P w ∧ ∀ q ∈ done, S w q.1 q.2) pair.1 pair.2).cut
      fun _ h => h.1).post fun _ w h =>
        ⟨h.1.1, forall_mem_append.mpr ⟨h.1.2, forall_mem_singleton.mpr h.2⟩⟩
  refine (each (R := fun done w => P w ∧ ∀ q ∈ done, S w q.1 q.2) (fun _ _ h => h.1)
    hround).weaken (fun w h => ⟨h, nofun⟩) fun _ w h => ⟨h.1, ?_⟩
  exact forall₂_iff_zip.mpr ⟨hlen.symm, fun {a b} hmem => h.2 (a, b) hmem⟩

theorem verifiesBody_of_tracked {body wantBody : Text}
    (h : trackedParent plan body ids = .ok wantBody) (heq : body = wantBody) :
    verifiesBody body plan ids := by
  unfold trackedParent at h
  unfold verifiesBody
  split at h
  · rename_i b hb
    rw [hb, heq, Except.ok.inj h]
  · cases h

/-- `verify` writes nothing, and returns only when every check holds. -/
theorem ensures_verify (ids : List Text) (ready : Bool) :
    Ensured prov P P (verify prov plan (planDigest enc plan) ids ready)
      (fun _ w => P w ∧ Checked prov plan w ready ids) := by
  refine throwIf_bind (fun _ h => h) fun hlen => ?_
  refine (ensures_get (fun _ h => h) plan.parent.id).bind fun parent => ?_
  refine settle_bind (fun _ h => h.1) fun wantBody hwant => ?_
  refine throwIf_bind (fun _ h => h.1) fun hbody => ?_
  have htracking := verifiesBody_of_tracked hwant (not_not.mp hbody)
  refine ((ensures_eachZip (not_not.mp hlen) fun R child id =>
    ensures_verifyChild ready child id).cut fun _ h => h.1).bind fun _ => ?_
  refine ((ensures_verifyLinks ids).cut fun _ h => h.1.1).bind fun _ => ?_
  split_ifs with hno
  · refine ((ensures_eachZip (not_not.mp hlen) fun R child id =>
      ensures_verifyBlockers ids child id).cut fun _ h => h.1.1.1).post fun _ w h => ?_
    obtain ⟨⟨⟨⟨hP, _, hparent⟩, hchildren⟩, hlinks⟩, hblockers⟩ := h
    exact ⟨hP, ⟨_, hparent, htracking⟩, hchildren, hlinks, fun _ => hblockers⟩
  · refine pure (fun _ h => h.1.1.1) fun w h => ?_
    obtain ⟨⟨⟨hP, _, hparent⟩, hchildren⟩, hlinks⟩ := h
    exact ⟨hP, ⟨_, hparent, htracking⟩, hchildren, hlinks, fun hyes => absurd hyes hno⟩

end

/-! ## Primitives -/

section
variable {I P : World → Prop}

theorem ensures_guardedItem (id expected : Text) :
    Keeps prov P (guardedItem id expected) := by
  refine throwIf_bind (fun _ h => h) fun _ => ?_
  refine (ensures_get (fun _ h => h) id).bind fun item => ?_
  refine throwIf_bind (fun _ h => h.1) fun _ => ?_
  exact pure (fun _ h => h.1) fun _ h => h.1

theorem ensures_withTargetLease {α : Type} {Q : α → World → Prop} {body : ForgeM α} (held id : Text)
    (hbody : Ensured prov P P body Q) :
    Ensured prov P P (withTargetLease held id body) Q := by
  unfold withTargetLease
  split
  · exact hbody
  have hacquire : Keeps prov P (wrap .acquireTarget (ask (.acquire id))) :=
    (Ensures.wrap (reads (fun _ => rfl) fun _ h => h)).post fun _ _ h => h.1
  refine hacquire.bind fun _ => ?_
  refine hbody.observe.bind fun outcome => ?_
  have hrelease : Ensured prov (fun w => P w ∧ ∀ a, outcome = .ok a → Q a w)
      (fun w => P w ∧ ∀ a, outcome = .ok a → Q a w) (ask (.release id))
      (fun _ w => P w ∧ ∀ a, outcome = .ok a → Q a w) :=
    (reads (fun _ => rfl) fun _ h => h).post fun _ _ h => h.1
  refine (hrelease.observe.cut fun _ h => h.1).bind fun _ => ?_
  exact (settle fun _ h => h.1.1).post fun a w h => h.1.1.2 a h.2

/--
Creating once: `N` is what a search that found nothing tells. The same `P` holds wherever
it is cut, so that after a lost answer the second search starts like the first.
-/
theorem ensures_createOnce {α : Type} {N : World → Prop} {Q : α → World → Prop}
    {find : ForgeM (Option α)} {guard : ForgeM Unit} {create : ForgeM α}
    (hfind : Ensured prov P P find
      (fun r w => P w ∧ (r = none → N w) ∧ ∀ a, r = some a → Q a w))
    (hguard : Ensured prov P (fun w => P w ∧ N w) guard (fun _ w => P w ∧ N w))
    (hcreate : Ensured prov P (fun w => P w ∧ N w) create Q) :
    Ensured prov P P (createOnce find guard create) Q := by
  refine hfind.bind fun r => ?_
  cases r with
  | some a => exact pure (fun _ h => h.1) fun w h => h.2.2 a rfl
  | none =>
    refine (hguard.weaken (fun w h => ⟨h.1, h.2.1 rfl⟩) fun _ _ h => h).bind fun _ => ?_
    refine hcreate.observe.bind fun outcome => ?_
    cases outcome with
    | ok a => exact pure (fun _ h => h.1) fun w h => h.2 a rfl
    | error createErr =>
      refine (hfind.observe.pre fun _ h => h.1).bind fun again => ?_
      cases again with
      | error lookupErr => exact throw fun _ h => h.1
      | ok r =>
        cases r with
        | some a => exact pure (fun _ h => h.1) fun w h => (h.2 _ rfl).2.2 a rfl
        | none => exact throw fun _ h => h.1

theorem ensures_appendMarkerComment (held id revision key body : Text)
    (hkeep : ∀ w, P w → P (perform prov w (.createWorkItemComment id
      (markedBody enc key body body))).2) :
    Keeps prov P (appendMarkerComment enc held id revision key body) := by
  refine throwIf_bind (fun _ h => h) fun _ => ?_
  refine ensures_withTargetLease held id ?_
  have hfind : Ensured prov P P (findComment enc id key body)
      (fun r w => P w ∧ (r = none → True) ∧ ∀ a, r = some a → P w) := by
    refine (reads (fun _ => rfl) fun _ h => h).bind fun comments => ?_
    exact (settle fun _ h => h.1).post fun _ w h =>
       ⟨h.1.1, fun _ => trivial, fun _ _ => h.1.1⟩
  have hguard : Ensured prov P (fun w => P w ∧ True)
      (do let _ ← guardedItem id revision) (fun _ w => P w ∧ True) := by
    refine ((ensures_guardedItem id revision).pre fun _ h => h.1).bind fun _ => ?_
    exact pure (fun _ h => h) fun _ h => ⟨h, trivial⟩
  have hcreate : Ensured prov P (fun w => P w ∧ True)
      (do
        ask (.createWorkItemComment id (markedBody enc key body body))
        return ([] : Text)) (fun _ => P) := by
    refine (does (fun _ h => h.1) fun w h => ⟨hkeep w h.1, fun _ _ => hkeep w h.1⟩).bind
      fun _ => ?_
    exact kept
  refine (ensures_createOnce hfind hguard hcreate).bind fun _ => ?_
  exact kept

end

/-! ## Creating the children -/

theorem exactMatch_ok {α : Type} {key : Text} {one many : String} {matching : α → Bool}
    {l : List α} {r : Option α} (h : exactMatch key one many matching l = .ok r) :
    l = r.toList := by
  unfold exactMatch at h
  split at h
  · cases h
  · split at h <;> cases h <;> rfl

def Unborne (enc : Encoding) (plan : Plan) (child : ChildPlan) (w : World) : Prop :=
  ∀ id b, w.bodyOf id = some b → containsLine b (keyLine enc plan child) ≠ true

def bearers (enc : Encoding) (plan : Plan) (child : ChildPlan) (w : World) : List Item :=
  (w.items.rows.filter (fun row => containsLine row.2.body (keyLine enc plan child))).map
    (fun row => { row.2 with id := row.1 })

theorem mem_bearers {item : Item} : item ∈ bearers enc plan child w ↔
      w.items.get? item.id = some item.toFields ∧
        containsLine item.body (keyLine enc plan child) = true := by
  unfold bearers
  rw [mem_map]
  constructor
  · rintro ⟨row, hrow, rfl⟩
    obtain ⟨hmem, hline⟩ := mem_filter.mp hrow
    exact ⟨GoMap.mem_rows.mp hmem, hline⟩
  · intro ⟨hget, hline⟩
    exact ⟨(item.id, item.toFields), mem_filter.mpr ⟨GoMap.mem_rows.mpr hget, hline⟩, rfl⟩

theorem exists_mem_bearers {id b : Text} (hb : w.bodyOf id = some b)
    (hline : containsLine b (keyLine enc plan child) = true) :
    ∃ item ∈ bearers enc plan child w, item.id = id := by
  obtain ⟨f, hf, rfl⟩ := Option.map_eq_some_iff.mp hb
  exact ⟨{ f with id := id }, mem_bearers.mpr ⟨hf, hline⟩, rfl⟩

theorem Core.bears_of_unique (h : Core prov plan w.bodyOf) (hc : child ∈ plan.children)
    {item : Item} (honly : bearers enc plan child w = [item]) :
    Bears enc plan w.bodyOf child item.id := by
  have hmem : item ∈ bearers enc plan child w := by
    rw [honly]
    exact mem_singleton_self item
  obtain ⟨hget, hline⟩ := mem_bearers.mp hmem
  have hb : w.bodyOf item.id = some item.body := World.bodyOf_of_get hget
  refine ⟨fun hid => ?_, item.body, hb, hline⟩
  -- the parent has it only if some other item has it too
  rw [hid] at hb
  obtain ⟨i, hi, b, hbi, hlinei⟩ := h.quoted child hc item.body hb
    (infix_of_containsLine (newline_notMem_keyLine child) hline) child hc
  obtain ⟨other, hother, hotherid⟩ := exists_mem_bearers hbi hlinei
  rw [honly] at hother
  rw [mem_singleton.mp hother, hid] at hotherid
  exact hi hotherid.symm

section
variable {done : List ChildPlan} {ids : List Text}

/-- The search finds the one item with the child's key line, or there is none. -/
theorem ensures_findChild (hc : child ∈ plan.children) (payload : Text) :
    Ensured prov (Open prov plan done ids) (Open prov plan done ids)
      (findChild enc (childActionKey (planDigest enc plan) child) payload)
      (fun r w => Open prov plan done ids w ∧ (r = none → Unborne enc plan child w) ∧
        ∀ item, r = some item → Open prov plan done ids w ∧
          Bears enc plan w.bodyOf child item.id) := by
  refine (reads (fun _ => rfl) fun _ h => h).bind fun items => ?_
  refine (settle fun _ h => h.1).post fun r w h => ?_
  obtain ⟨⟨hopen, hitems⟩, hmatch⟩ := h
  have hbearers : bearers enc plan child w = items := Except.ok.inj hitems
  refine ⟨hopen, ?_, ?_⟩
  · rintro rfl id b hb hline
    obtain ⟨item, hitem, _⟩ := exists_mem_bearers hb hline
    rw [hbearers, exactMatch_ok hmatch] at hitem
    cases hitem
  · rintro item rfl
    exact ⟨hopen, hopen.core.bears_of_unique hc (hbearers.trans (exactMatch_ok hmatch))⟩

/-- The parent as it was read, with nothing published. -/
def Holds (prov : Provider enc) (plan : Plan) (done : List ChildPlan) (ids : List Text)
    (parent : Item) (w : World) : Prop :=
  Open prov plan done ids w ∧ parent.id = plan.parent.id ∧
    w.items.get? plan.parent.id = some parent.toFields

variable (hread : ReadsBack enc plan) (hsound : Sound plan)
include hread hsound

/-- A new item bears its own child's key line and no other's. -/
theorem Open.create (h : Open prov plan done ids w) (hc : child ∈ plan.children)
    (hnone : Unborne enc plan child w) (title : Text) (labels : List Text) :
    let t := (perform prov w (.createWorkItem title
      (childMarkedBody enc plan.parent.id (planDigest enc plan) child) labels)).2
    Open prov plan done ids t ∧ Bears enc plan t.bodyOf child (prov.freshID w) := by
  obtain ⟨hself, hother, hcomments, hfree⟩ := perform_create prov w title
    (childMarkedBody enc plan.parent.id (planDigest enc plan) child) labels
  obtain ⟨hcore, hkeep, hborn⟩ := h.core.create hread hsound hc hnone h.parent hfree hself hother
  refine ⟨⟨hcore, fun hpub => h.unpublished (hpub.of_comments (.inl hcomments)), ?_, ?_⟩,
    hborn.bears hread hc⟩
  · have hne : plan.parent.id ≠ prov.freshID w := by
      intro heq
      exact h.parent (heq ▸ hfree)
    rw [hother _ hne]
    exact h.parent
  · exact h.bears.imp hkeep

/-- A child is created only when none was found, so there is never a second. -/
theorem ensures_createChild (hc : child ∈ plan.children) (revision : Text) :
    Ensured prov (Open prov plan done ids) (Open prov plan done ids)
      (createChild enc plan.parent.id revision (planDigest enc plan) child)
      (fun item w => Open prov plan (done ++ [child]) (ids ++ [item.id]) w) := by
  unfold createChild
  refine throwIf_bind (fun _ h => h) fun _ => ?_
  refine throwIf_bind (fun _ h => h) fun _ => ?_
  refine (ensures_createOnce (ensures_findChild hc _) ?_ ?_).post fun item w h => ?_
  · refine (ensures_guardedItem _ revision).cut (fun _ h => h.1) |>.bind fun _ => ?_
    exact pure (fun _ h => h.1) fun _ h => h
  · refine does (fun _ h => h.1) fun w h => ?_
    obtain ⟨hopen, hbears⟩ := h.1.create hread hsound hc h.2 child.title
      (child.labels ++ [labelApproved])
    refine ⟨hopen, fun item hitem => ⟨hopen, ?_⟩⟩
    have hid : item.id = prov.freshID w := congrArg Item.id (Except.ok.inj hitem).symm
    rw [hid]
    exact hbears
  · exact ⟨h.1.core, h.1.unpublished, h.1.parent, rel_append h.1.bears (.cons h.2 .nil)⟩

/-! ## From the marked parent to the checked batch -/

omit hsound in
theorem ensures_ensureResumeMarker (parent : Item) (resuming : Bool) :
    Ensured prov (Open prov plan done ids) (Holds prov plan done ids parent)
      (ensureResumeMarker (planDigest enc plan) parent resuming)
      (fun item w => Open prov plan done ids w ∧ item.id = plan.parent.id) := by
  unfold ensureResumeMarker
  split
  · exact pure (fun _ h => h.1) fun _ h => ⟨h.1, h.2.1⟩
  refine does (fun _ h => h.1) fun w h => ?_
  obtain ⟨hopen, hid, hget⟩ := h
  have hold : w.bodyOf plan.parent.id = some parent.body := World.bodyOf_of_get hget
  -- a key line in the new body was in the old one, as the resume marker has none
  have hquoted : ∀ child ∈ plan.children, keyLine enc plan child <:+: trimText parent.body ++
      text "\n\n" ++ parentResumeMarker plan.parent.id (planDigest enc plan) →
        keyLine enc plan child <:+: parent.body ∨
          ∀ c ∈ plan.children, ∃ id, Bears enc plan w.bodyOf c id := by
    intro child hc hinf
    have hline : '\n' ∉ keyLine enc plan child := newline_notMem_keyLine child
    have hparts : trimText parent.body ++ text "\n\n" ++
        parentResumeMarker plan.parent.id (planDigest enc plan) = trimText parent.body ++
          '\n' :: ([] ++ '\n' :: parentResumeMarker plan.parent.id (planDigest enc plan)) := by
      simp [text]
    rw [hparts] at hinf
    rcases infix_append_newline hline hinf with hinf | hinf
    · exact .inl (hinf.trans (trim_infix_self _))
    rcases infix_append_newline hline hinf with hinf | hinf
    · exact .inl (infix_nil.mp hinf ▸ nil_infix)
    · exact absurd hinf (keyLine_notIn_resumeMarker hread hc)
  have hnew := hopen.rewrite hold _ hquoted parent.revision [] []
  rw [hid]
  exact ⟨hnew, fun item hitem => ⟨hnew, perform_update_id prov hitem⟩⟩

omit hsound in
theorem ensures_ensureParentPrepared (parent : Item) (resuming : Bool) :
    Ensured prov (Open prov plan done ids) (Holds prov plan done ids parent)
      (ensureParentPrepared (planDigest enc plan) parent resuming)
      (fun item w => Open prov plan done ids w ∧ item.id = plan.parent.id) := by
  refine (ensures_ensureResumeMarker hread parent resuming).bind fun item => ?_
  split
  · exact pure (fun _ h => h.1) fun _ h => h
  refine does (fun _ h => h.1) fun w h => ?_
  have hrelabel := h.1.relabel item.id item.revision
    [labelTracking, statusDecomposing] [labelReady, labelNeedsHuman]
  exact ⟨hrelabel, fun _ hitem => ⟨hrelabel, (perform_update_id prov hitem).trans h.2⟩⟩

omit hsound in
theorem ensures_prepare (parent : Item) :
    Ensured prov (Open prov plan done ids) (Holds prov plan done ids parent)
      (prepare plan (planDigest enc plan) enc parent) (fun _ => Open prov plan done ids) := by
  refine (reads (fun _ => rfl) fun _ h => h.1).bind fun comments => ?_
  refine settle_bind (fun _ h => h.1.1) fun _ _ => ?_
  refine settle_bind (fun _ h => h.1.1) fun _ _ => ?_
  refine throwIf_bind (fun _ h => h.1.1) fun _ => ?_
  refine ((ensures_ensureParentPrepared hread parent _).pre fun _ h => h.1).bind fun item => ?_
  refine ((ensures_appendMarkerComment plan.parent.id item.id item.revision _ _ ?_).cut
    fun _ h => h.1).post fun _ _ h => h.1
  intro w h
  obtain ⟨hspares, hcomments⟩ := perform_comment prov w plan.parent.id item.id
    (markedBody enc (planDigest enc plan ++ text "/record/prepared")
      (preparedBatchRecord plan (planDigest enc plan))
      (preparedBatchRecord plan (planDigest enc plan)))
  refine ⟨h.1.of_bodies hspares.bodies fun hpub => ?_, h.2⟩
  -- the prepared record is no published one
  obtain ⟨f, hparse, _⟩ := hread.prepared
  refine hpub.of_comments (hcomments.imp_right fun happ => ⟨_, _, happ, fun _ => ?_⟩)
  exact fun hrec => not_hasRecordLine_prepared enc _ _ hparse
    (prov.stamp_prepared _ _ _ f hparse hrec)

/-- After the loop every child has its item. -/
theorem ensures_createChildren :
    Ensured prov (Inv prov plan) (Open prov plan [] [])
      (createChildren plan (planDigest enc plan) enc)
      (fun items => Open prov plan plan.children (items.map Item.id)) := by
  refine collect (R := fun done items => Open prov plan done (items.map Item.id))
    (fun _ _ _ h => h.inv) fun done child rest items hsplit => ?_
  have hc : child ∈ plan.children := by simp [hsplit]
  refine (ensures_get (fun _ h => h.inv) plan.parent.id).bind fun parent => ?_
  refine assume (fun _ h => h.2.1) fun hid => ?_
  rw [hid]
  refine ((ensures_createChild hread hsound hc parent.revision).cut fun _ h => h.inv).weaken
    (fun _ h => h.1) fun item w h => ?_
  rwa [map_append]

omit hread hsound

theorem ensures_attachChild (parentID childID r s : Text) :
    Keeps prov (Open prov plan done ids) (attachChild parentID childID r s) := by
  refine (reads (fun _ => rfl) fun _ h => h).bind fun children => ?_
  split
  · exact pure (fun _ h => h.1) fun _ h => h.1
  refine ((ensures_guardedItem parentID r).pre fun _ h => h.1).bind fun parent => ?_
  refine (ensures_guardedItem childID s).bind fun child => ?_
  refine does (fun _ h => h) fun w h => ?_
  obtain ⟨hbodies, hcomments⟩ := perform_attachChild prov w parentID childID parent.revision
    child.revision
  have hopen := h.of_bodies hbodies (fun hpub => hpub.of_comments (.inl hcomments))
  exact ⟨hopen, fun _ _ => hopen⟩

theorem ensures_attachChildren :
    Keeps prov (Open prov plan done ids) (attachChildren prov plan ids) := by
  unfold attachChildren
  split
  · refine each (R := fun _ => Open prov plan done ids) (fun _ _ h => h) fun _ id _ _ => ?_
    refine (ensures_get (fun _ h => h) plan.parent.id).bind fun parent => ?_
    refine (ensures_get (fun _ h => h.1) id).bind fun child => ?_
    exact (ensures_attachChild _ _ _ _).pre fun _ h => h.1.1
  · exact kept

theorem ensures_attachDependency (itemID blockerID : Text) :
    Keeps prov (Open prov plan done ids) (attachDependency itemID blockerID) := by
  refine (ensures_get (fun _ h => h) itemID).bind fun item => ?_
  refine (ensures_get (fun _ h => h.1) blockerID).bind fun blocker => ?_
  refine (reads (fun _ => rfl) fun _ h => h.1.1).bind fun existing => ?_
  split
  · exact pure (fun _ h => h.1.1.1) fun _ h => h.1.1.1
  refine does (fun _ h => h.1.1.1) fun w h => ?_
  obtain ⟨hbodies, hcomments⟩ := perform_attachBlocker prov w item.id blockerID item.revision
    blocker.revision
  have hopen := h.1.1.1.of_bodies hbodies (fun hpub => hpub.of_comments (.inl hcomments))
  exact ⟨hopen, fun _ _ => hopen⟩

theorem ensures_attachDependencies :
    Keeps prov (Open prov plan done ids) (attachDependencies prov plan ids) := by
  unfold attachDependencies
  split
  · exact kept
  refine throwIf_bind (fun _ h => h) fun _ => ?_
  refine each (R := fun _ => Open prov plan done ids) (fun _ _ h => h) fun _ pair _ _ => ?_
  exact each (R := fun _ => Open prov plan done ids) (fun _ _ h => h)
    fun _ dependency _ _ => ensures_attachDependency _ _

theorem ensures_writeTracking :
    Keeps prov (Open prov plan plan.children ids) (writeTracking plan ids) := by
  refine (ensures_get (fun _ h => h) plan.parent.id).bind fun parent => ?_
  refine settle_bind (fun _ h => h.1) fun body _ => ?_
  split
  · exact pure (fun _ h => h.1) fun _ h => h.1
  refine assume (fun _ h => h.2.1) fun hid => ?_
  rw [hid]
  refine bind (Q := fun _ => Open prov plan plan.children ids) ?_
    fun _ => kept
  refine does (fun _ h => h.1) fun w h => ?_
  have hold : w.bodyOf plan.parent.id = some parent.body := World.bodyOf_of_get h.2.2
  -- all children are there, so the section may quote what it likes
  have hall : ∀ c ∈ plan.children, ∃ id, Bears enc plan w.bodyOf c id := by
    intro c hc
    obtain ⟨i, hi, rfl⟩ := getElem_of_mem hc
    exact ⟨_, h.1.bears.get hi (h.1.bears.length_eq ▸ hi)⟩
  have hnew := h.1.rewrite hold body (fun _ _ _ => .inr hall) parent.revision [] []
  exact ⟨hnew, fun _ _ => hnew⟩

theorem ensures_markReady (id : Text) :
    Ensured prov (Open prov plan done ids) (Open prov plan done ids) (markReady id)
      (fun item w => Open prov plan done ids w ∧ item.id = id) := by
  refine (ensures_get (fun _ h => h) id).bind fun child => ?_
  split
  · exact pure (fun _ h => h.1) fun _ h => ⟨h.1, h.2.1⟩
  refine does (fun _ h => h.1) fun w h => ?_
  have hrelabel := h.1.relabel child.id child.revision [labelReady] []
  exact ⟨hrelabel, fun _ hitem => ⟨hrelabel, (perform_update_id prov hitem).trans h.2.1⟩⟩

theorem ensures_markAllReady :
    Ensured prov (Open prov plan done ids) (Open prov plan done ids)
      (collect (fun id => markReady id) ids)
      (fun items w => Open prov plan done ids w ∧ items.map Item.id = ids) := by
  refine (collect (R := fun seen items w => Open prov plan done ids w ∧
    items.map Item.id = seen) (fun _ _ _ h => h.1) fun seen id rest items _ => ?_).weaken
      (fun _ h => ⟨h, rfl⟩) fun _ _ h => h
  refine assume (fun _ h => h.2) fun hseen => ?_
  refine (ensures_markReady id).weaken (fun _ h => h.1) fun item w h => ⟨h.1, ?_⟩
  rw [map_append, hseen, map_singleton, h.2]

end

/-! ## From the checked batch to the record -/

section
variable {ids : List Text}

/-- What `verify` has checked with the labels set is sealed. -/
theorem Open.seal (hread : ReadsBack enc plan) (hsound : Sound plan)
    (h : Open prov plan plan.children ids w) (hchecked : Checked prov plan w true ids) :
    Sealed prov plan ids w := by
  refine ⟨h.core, ?_, hchecked⟩
  refine forall₂_iff_zip.mpr ⟨h.bears.length_eq, fun {child id} hmem => ?_⟩
  have hc : child ∈ plan.children := (of_mem_zip hmem).1
  obtain ⟨hid, b, hb, hline⟩ := forall₂_zip h.bears hmem
  obtain ⟨f, hf, _, hbody, _⟩ := forall₂_zip hchecked.children hmem
  have hfb : f.body = b := Option.mem_unique (World.bodyOf_of_get hf) hb
  obtain ⟨c, hcmem, hborn⟩ := h.core.origin child hc id b hid hb (.inl hline)
  -- the checked text tells which child it was
  rw [hfb, hborn, (hread.stamped hcmem).2.2] at hbody
  have hidentity : childBatchIdentity (bornBody prov plan c) =
      .child plan.parent.id (planDigest enc plan) child.key := by
    rw [(hread.stamped hcmem).2.1, ← hread.identity c hcmem, hbody, hread.identity child hc]
  refine ⟨hid, ?_⟩
  rw [hb, hborn, hread.key_eq hc hcmem hidentity hsound]

theorem Sealed.comment (h : Sealed prov plan ids w) (id body : Text) :
    Sealed prov plan ids (perform prov w (.createWorkItemComment id body)).2 :=
  h.spares (perform_comment prov w plan.parent.id id body).1

theorem ensures_announce :
    Keeps prov (Sealed prov plan ids) (announce plan (planDigest enc plan) enc ids) := by
  refine (ensures_get (fun _ h => h) plan.parent.id).bind fun parent => ?_
  refine ((ensures_appendMarkerComment _ _ _ _ _ fun w h => h.comment _ _).pre
    fun _ h => h.1).bind fun _ => ?_
  refine each (R := fun _ => Sealed prov plan ids) (fun _ _ h => h) fun _ pair _ _ => ?_
  refine (ensures_get (fun _ h => h) pair.2).bind fun child => ?_
  exact (ensures_appendMarkerComment _ _ _ _ _ fun w h => h.comment _ _).pre fun _ h => h.1

/-- The record is written last, when the batch is sealed already. -/
theorem ensures_commitBatch (runID : Text) :
    Keeps prov (Sealed prov plan ids) (commitBatch plan (planDigest enc plan) enc runID ids) := by
  refine (ensures_get (fun _ h => h) plan.parent.id).bind fun parent => ?_
  refine ((ensures_appendMarkerComment _ _ _ _ _ fun w h => h.comment _ _).pre
    fun _ h => h.1).bind fun _ => ?_
  refine (ensures_get (fun _ h => h) plan.parent.id).bind fun parent => ?_
  refine assume (fun _ h => h.2.1) fun hid => ?_
  rw [hid]
  refine bind (Q := fun _ => Sealed prov plan ids) ?_ fun _ => ?_
  · refine does (fun _ h => h.1) fun w h => ?_
    have hsealed := h.1.spares (perform_relabel prov w plan.parent.id parent.revision []
      [statusDecomposing]).1
    exact ⟨hsealed, fun _ _ => hsealed⟩
  · refine does (fun _ h => h) fun w h => ?_
    have hsealed := h.spares (perform_release prov w plan.parent.id runID .published).1
    exact ⟨hsealed, fun _ _ => hsealed⟩

end

/-! ## Attempts -/

theorem Inv.relabel (h : Inv prov plan w) (revision : Text) (add remove : List Text) :
    Inv prov plan (perform prov w (.updateWorkItem plan.parent.id revision none add remove)).2 := by
  obtain ⟨hspares, hcomments⟩ := perform_relabel prov w plan.parent.id revision add remove
  exact h.spares hspares (fun hpub => hpub.of_comments (.inl hcomments))

theorem Inv.release (h : Inv prov plan w) (runID : Text) (reason : ReleaseReason) :
    Inv prov plan (perform prov w (.releaseWorkItemClaim plan.parent.id runID reason)).2 := by
  obtain ⟨hspares, hcomments⟩ := perform_release prov w plan.parent.id runID reason
  refine h.spares hspares fun hpub => hpub.of_comments (hcomments.imp_right fun happ =>
    ⟨_, _, happ, fun _ => prov.releaseNote_plain runID reason⟩)

theorem ensures_resumePublished (runID : Text) (parent : Item) (ids : List Text)
    (hid : parent.id = plan.parent.id) :
    Keeps prov (Inv prov plan)
      (resumePublished prov plan (planDigest enc plan) runID parent ids) := by
  have hchildren : Keeps prov (Inv prov plan) (collect (fun id => ask (.getWorkItem id)) ids) :=
    collect (R := fun _ _ => Inv prov plan) (fun _ _ _ h => h) fun _ id _ _ _ =>
      (ensures_get (fun _ h => h) id).post fun _ _ h => h.1
  refine hchildren.bind fun children => ?_
  refine (ensures_verify _ true).bind fun _ => ?_
  have hend : Ensured prov (Inv prov plan) (Inv prov plan) (endDecomposing parent)
      (fun item w => Inv prov plan w ∧ item.id = plan.parent.id) := by
    unfold endDecomposing
    split
    · rw [hid]
      refine does (fun _ h => h) fun w h => ?_
      have hinv := h.relabel parent.revision [] [statusDecomposing]
      exact ⟨hinv, fun _ hitem => ⟨hinv, perform_update_id prov hitem⟩⟩
    · exact pure (fun _ h => h) fun _ h => ⟨h, hid⟩
  refine (hend.pre fun _ h => h.1).bind fun item => ?_
  refine assume (fun _ h => h.2) fun hitem => ?_
  rw [hitem]
  refine bind (Q := fun _ => Inv prov plan) ?_ fun _ =>
    kept
  exact does (fun _ h => h.1) fun w h => ⟨h.1.release _ _, fun _ _ => h.1.release _ _⟩

theorem ensures_parkParent (runID : Text) :
    Keeps prov (Inv prov plan) (parkParent plan runID) := by
  refine (ensures_get (fun _ h => h) plan.parent.id).bind fun parent => ?_
  refine assume (fun _ h => h.2.1) fun hid => ?_
  rw [hid]
  have hrelease : Keeps prov (Inv prov plan)
      (ask (.releaseWorkItemClaim plan.parent.id runID .parked)) :=
    does (fun _ h => h) fun w h => ⟨h.release _ _, fun _ _ => h.release _ _⟩
  split
  · exact hrelease.pre fun _ h => h.1
  · refine bind (Q := fun _ => Inv prov plan) ?_ fun _ => hrelease
    exact does (fun _ h => h.1) fun w h => ⟨h.1.relabel _ _ _, fun _ _ => h.1.relabel _ _ _⟩

theorem scanRecords_absent {kind : BatchRecord} {parentID digest : Text} {ls : List Text} :
    ∀ {exact : FoundRecord}, scanRecords kind parentID digest exact ls = .absent →
      exact = .absent ∧ ∀ l ∈ ls, ¬ kind.marker <+: l := by
  induction ls with
  | nil => exact fun h => ⟨h, nofun⟩
  | cons line rest ih =>
    intro exact h
    unfold scanRecords at h
    split_ifs at h with hline
    · -- a line with the marker is a record or a conflict, and either stays
      split at h
      · split at h
        · exact absurd (ih h).1 nofun
        · cases h
      · cases h
    · obtain ⟨hexact, hrest⟩ := ih h
      exact ⟨hexact, forall_mem_cons.mpr
        ⟨fun hpre => hline (List.isPrefixOf_iff_prefix.mpr hpre), hrest⟩⟩

theorem not_published_of_absent {parentID digest : Text}
    (h : findBatchRecord (w.comments plan.parent.id) .published parentID digest = .absent) :
    ¬ Published enc plan w := by
  intro ⟨body, hbody, l, hl, hrec, _⟩
  refine (scanRecords_absent h).2 l ?_ hrec
  exact mem_flatMap.mpr ⟨body, hbody, of_decide_eq_true hl⟩

section
variable (hread : ReadsBack enc plan) (hsound : Sound plan)
include hread hsound

/-- Whichever of its calls fails or is cut, an attempt keeps the invariant. -/
theorem ensures_publishBatch (runID : Text) :
    Keeps prov (Inv prov plan) (publishBatch prov plan (planDigest enc plan) runID) := by
  refine (ensures_get (fun _ h => h) plan.parent.id).bind fun parent => ?_
  refine assume (fun _ h => h.2.1) fun hid => ?_
  refine (reads (fun _ => rfl) fun _ h => h.1).bind fun comments => ?_
  split
  · exact throw fun _ h => h.1.1
  · refine ((ensures_resumePublished runID parent _ hid).pre fun _ h => h.1.1).bind fun _ => ?_
    exact kept
  rename_i habsent
  -- there is no record, and until the last step there will be none
  have hprepare : Ensured prov (Inv prov plan)
      (fun w => (Inv prov plan w ∧ parent.id = plan.parent.id ∧
        w.items.get? plan.parent.id = some parent.toFields) ∧
          (perform prov w (.listComments plan.parent.id)).1 = .ok comments)
      (prepare plan (planDigest enc plan) enc parent) (fun _ => Open prov plan [] []) := by
    refine ((ensures_prepare hread parent).cut fun _ h => h.inv).pre fun w h => ?_
    obtain ⟨⟨hinv, hpid, hget⟩, hcomments⟩ := h
    have hcom : w.comments plan.parent.id = comments := Except.ok.inj hcomments
    refine ⟨⟨hinv.core, not_published_of_absent (hcom ▸ habsent), ?_, .nil⟩, hpid, hget⟩
    rw [World.bodyOf_of_get hget]
    exact Option.some_ne_none _
  refine hprepare.bind fun _ => ?_
  refine (ensures_createChildren hread hsound).bind fun children => ?_
  refine (ensures_attachChildren.cut fun _ h => h.inv).bind fun _ => ?_
  refine (ensures_attachDependencies.cut fun _ h => h.inv).bind fun _ => ?_
  refine (ensures_writeTracking.cut fun _ h => h.inv).bind fun _ => ?_
  refine ((ensures_verify _ false).cut fun _ h => h.inv).bind fun _ => ?_
  refine ((ensures_markAllReady.cut fun _ h => h.inv).pre fun _ h => h.1).bind
    fun ready => ?_
  refine assume (fun _ h => h.2) fun hready => ?_
  rw [hready]
  refine ((ensures_verify _ true).cut fun _ h => h.1.inv).bind fun _ => ?_
  refine ((ensures_announce.cut fun _ h => h.inv).pre
    fun _ h => h.1.1.seal hread hsound h.2).bind fun _ => ?_
  refine ((ensures_commitBatch runID).cut fun _ h => h.inv).bind fun _ => ?_
  exact pure (fun _ h => h.inv) fun _ h => h.inv

theorem ensures_publish (p : Publisher) :
    Keeps prov (Inv prov plan) (publish prov p plan) := by
  refine throwIf_bind (fun _ h => h) fun _ => ?_
  refine throwIf_bind (fun _ h => h) fun _ => ?_
  have hlease : ∀ c, (∀ w, (perform prov w c).2 = w) → Keeps prov (Inv prov plan) (ask c) :=
    fun c hc => (reads hc fun _ h => h).post fun _ _ h => h.1
  refine (hlease _ fun _ => rfl).wrap.bind fun _ => ?_
  refine (ensures_publishBatch hread hsound p.runID).observe.bind fun outcome => ?_
  have hsettle : Keeps prov (Inv prov plan) (settleConflict plan p.runID outcome) := by
    unfold settleConflict
    split
    · exact kept
    split
    · refine (ensures_parkParent p.runID).observe.bind fun parked => ?_
      split <;> exact pure (fun _ h => h.1) fun _ h => h.1
    · exact kept
  refine (hsettle.pre fun _ h => h.1).bind fun outcome => ?_
  refine (hlease _ fun _ => rfl).observe.bind fun released => ?_
  split <;> exact (settle fun _ h => h.1).post fun _ _ h => h.1.1

theorem Attempts.inv (hfresh : Fresh enc plan w) (h : Attempts prov plan w t) :
    Inv prov plan t := by
  induction h with
  | start => exact ⟨hfresh.core hread, fun hpub => absurd hpub hfresh.unpublished⟩
  | attempt p _ hrun ih => exact (ensures_publish hread hsound p _ _ _ ih hrun).1

end

/--
**The published record is a barrier.** For an accepted plan whose markers read back, at
every moment of any attempts to publish it there is at most one child of each key; and if
the published record is there, there is one of each, with everything `verify` checks.
-/
theorem published_record_is_barrier (enc : Encoding) (prov : Provider enc) (plan : Plan)
    (selection : Selection) (live : LiveParentSnapshot)
    (haccepted : Accepted enc plan selection live) (hread : ReadsBack enc plan) (start w : World)
    (hfresh : Fresh enc plan start) (hrun : Attempts prov plan start w) :
    (∀ child ∈ plan.children, ∀ id i, IsChild enc plan w child id → IsChild enc plan w child i →
        id = i) ∧
      (Published enc plan w → ∃ ids, List.Forall₂ (IsChild enc plan w) plan.children ids ∧
        Checked prov plan w true ids) := by
  have hsound := haccepted.sound
  have hinv := hrun.inv hread hsound hfresh
  have hchild : ∀ child ∈ plan.children, ∀ id,
      IsChild enc plan w child id ↔ Born prov plan w.bodyOf child id :=
    fun child hc id => isChild_iff hread hsound hinv.core hc id
  refine ⟨fun child hc id i hi hj => ?_, fun hpub => ?_⟩
  · exact hinv.core.single child hc id i ((hchild child hc id).mp hi) ((hchild child hc i).mp hj)
  · obtain ⟨ids, hsealed⟩ := hinv.barrier hpub
    refine ⟨ids, ?_, hsealed.checked⟩
    refine forall₂_iff_zip.mpr ⟨hsealed.born.length_eq, fun {child id} hmem => ?_⟩
    exact (hchild child (of_mem_zip hmem).1 id).mpr (forall₂_zip hsealed.born hmem)

end

/-! ## A run -/

/-- A tracker that stores texts as they are given. -/
def plainTracker : Provider plainEncoding where
  stamp s := s
  stamp_marked _ _ _ h := ⟨id, rfl, h⟩
  stamp_prepared _ _ _ _ _ h := h
  freshID w := '8' :: (w.items.rows.map Prod.fst).flatten
  freshID_new w := by
    -- the new id is longer than every other
    cases hget : w.items.get? ('8' :: (w.items.rows.map Prod.fst).flatten) with
    | none => rfl
    | some f =>
      have hmem := List.mem_map_of_mem (f := Prod.fst) (GoMap.mem_rows.mpr hget)
      have hle := (List.sublist_flatten_of_mem hmem).length_le
      rw [List.length_cons] at hle
      omega
  revise w id := 'r' :: ((w.items.get? id).map Fields.revision).getD []
  newLabels labels := labels
  changeLabels labels add remove := labels.filter (· ∉ remove) ++ add.filter (· ∉ labels)
  releaseNote _ _ := text "goobers-claim-release: run=run-1"
  releaseNote_plain := by
    rintro _ _ ⟨l, hl, hpre⟩
    have hlines : lines (crlf (text "goobers-claim-release: run=run-1")) =
        [text "goobers-claim-release: run=run-1"] := by decide
    have hmem := of_decide_eq_true hl
    rw [hlines, List.mem_singleton] at hmem
    rw [hmem] at hpre
    exact absurd hpre (by decide)
  labelClaimed := text "goobers:claimed"
  hierarchy := true
  dependencies := true

def samplePublisher : Publisher := ⟨text "github", text "o", [], text "r", text "run-1"⟩

/-- A tracker with the parent in it. -/
def epicWorld : World where
  items := GoMap.put ∅ (text "7") ⟨text "Epic", text "An epic.", [labelReady], text "1"⟩
  comments _ := []
  links _ := []
  blockers _ := []

/-- What an attempt leaves that is cut when it has created the first child. -/
def interruptedWorld : World :=
  (publish plainTracker samplePublisher layeredPlan).run.execFirst (perform plainTracker) 13
    epicWorld

/-- What the next attempt leaves, which nothing interrupts. -/
def publishedWorld : World :=
  ((publish plainTracker samplePublisher layeredPlan).exec (perform plainTracker)
    interruptedWorld).2

theorem publishedWorld_published : Published plainEncoding layeredPlan publishedWorld := by
  have hrecord : ∃ body ∈ publishedWorld.comments layeredPlan.parent.id,
      containsLine body (publishedBatchRecord layeredPlan.parent.id
        (planDigest plainEncoding layeredPlan) [text "87", text "8877"]) = true := by decide +kernel
  obtain ⟨body, hbody, hline⟩ := hrecord
  exact ⟨body, hbody, _, hline, by decide +kernel, by decide +kernel⟩

theorem epicWorld_fresh : Fresh plainEncoding layeredPlan epicWorld := by
  have hplain : ∀ child ∈ layeredPlan.children,
      ¬ keyLine plainEncoding layeredPlan child <:+: text "An epic." ∧
        childBatchIdentity (text "An epic.") ≠
          .child layeredPlan.parent.id (planDigest plainEncoding layeredPlan) child.key := by
    decide
  refine ⟨fun child hc id f hf => ?_, fun hpub => ?_⟩
  · unfold epicWorld at hf
    rw [GoMap.get?_put] at hf
    split at hf
    · rw [← Option.some.inj hf]
      exact hplain child hc
    · cases hf
  · obtain ⟨body, hbody, _⟩ := hpub
    cases hbody

theorem published_record_is_barrier_layeredPlan :
    Published plainEncoding layeredPlan publishedWorld ∧
      ∃ ids, List.Forall₂ (IsChild plainEncoding layeredPlan publishedWorld)
        layeredPlan.children ids ∧
        Checked plainTracker layeredPlan publishedWorld true ids := by
  have hcut : ∃ o, Runs (Does (perform plainTracker))
      (publish plainTracker samplePublisher layeredPlan).run epicWorld interruptedWorld o :=
    Prog.runs_execFirst (fun _ _ => rfl) 13 _ epicWorld
  obtain ⟨o, hcut⟩ := hcut
  have hrun : Attempts plainTracker layeredPlan epicWorld publishedWorld :=
    .attempt samplePublisher (.attempt samplePublisher .start hcut)
      (Prog.runs_exec (fun _ _ => rfl) _ _)
  exact ⟨publishedWorld_published, (published_record_is_barrier plainEncoding plainTracker
    layeredPlan sampleSelection sampleLive layeredPlan_accepted
    ((readable_iff layeredPlan_accepted.sound).mp layeredPlan_readable) epicWorld publishedWorld
    epicWorld_fresh hrun).2 publishedWorld_published⟩

end Goobers.Decomposition
