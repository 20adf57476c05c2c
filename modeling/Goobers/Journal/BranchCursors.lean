import Mathlib.Data.List.Induction
import Goobers.Journal.Phase

/-!
# The cursors of the open fan-out visit

`reconstructBranchCursors` scans the journal twice: once for the fan-out that is
open, once for the cursors of its branches. The second scan starts at the beginning
of the journal and goes by the fan-out's name, so the branches of an earlier visit
under the same name are in it too.

What the scan holds for one branch is a function of the events alone
(`cursorAt_foldl`). A `branch.started` event sets it afresh, so the scan forgets an
earlier visit exactly on the branches that the open visit has started again.
-/

namespace Goobers.Journal

open List BranchCursor

variable {start : Event} {cursors : List BranchCursor} {openParallel : String} {events : List Event}

def Event.StartsFanOut (e : Event) : Prop := e.type = .parallelStarted ∨ e.type = .mapStarted

instance (e : Event) : Decidable e.StartsFanOut := by
  unfold Event.StartsFanOut
  infer_instance

def Event.StartsBranch (parallel : String) (e : Event) : Prop :=
  e.type = .branchStarted ∧ e.parallel = parallel

instance (parallel : String) (e : Event) : Decidable (e.StartsBranch parallel) := by
  unfold Event.StartsBranch
  infer_instance

def openFanOut (events : List Event) : OpenFanOut := events.foldl OpenFanOut.step {}

def Event.Finishes (start e : Event) : Prop :=
  e.parallel = start.parallel ∧
    ((start.type = .parallelStarted ∧ e.type = .parallelFinished) ∨
      (start.type = .mapStarted ∧ e.type = .mapFinished))

instance (start e : Event) : Decidable (start.Finishes e) := by
  unfold Event.Finishes
  infer_instance

/--
`start` began a visit that is still open after the events of `visit`: no later
fan-out started, and none of the events finishes it. A fan-out has a name.
-/
structure OpenVisit (start : Event) (visit : List Event) : Prop where
  starts : start.StartsFanOut
  named : start.parallel ≠ ""
  last : ∀ e ∈ visit, ¬ e.StartsFanOut
  unfinished : ∀ e ∈ visit, ¬ start.Finishes e

instance (start : Event) (visit : List Event) : Decidable (OpenVisit start visit) :=
  decidable_of_iff
    (start.StartsFanOut ∧ start.parallel ≠ "" ∧ (∀ e ∈ visit, ¬ e.StartsFanOut) ∧
      ∀ e ∈ visit, ¬ start.Finishes e)
    ⟨fun ⟨a, b, c, d⟩ => ⟨a, b, c, d⟩, fun ⟨a, b, c, d⟩ => ⟨a, b, c, d⟩⟩

/-! ## The fan-out that is open -/

def Event.opened (start : Event) : OpenFanOut :=
  ⟨start.parallel, if start.type = .parallelStarted then .parallelFinished else .mapFinished⟩

theorem OpenFanOut.step_of_starts (h : start.StartsFanOut) (o : OpenFanOut) :
    o.step start = start.opened := by
  unfold OpenFanOut.step Event.opened
  rcases h with h | h <;> simp [h]

/-- Until the fan-out ends, no event but another start changes which one is open. -/
theorem Event.opened_step {e : Event} (hs : start.StartsFanOut) (hstart : ¬ e.StartsFanOut)
    (hfinish : ¬ start.Finishes e) : start.opened.step e = start.opened := by
  have hkind : start.type ≠ .parallelStarted → start.type = .mapStarted := by
    intro h
    rcases hs with hp | hm
    · exact absurd hp h
    · exact hm
  unfold OpenFanOut.step
  split
  · rename_i ht
    exact absurd (Or.inl ht) hstart
  · rename_i ht
    exact absurd (Or.inr ht) hstart
  · rename_i ht
    -- A finish of the same construct under the same name would be this visit's.
    refine if_neg ?_
    rintro ⟨hty, hname⟩
    refine hfinish ⟨hname, ?_⟩
    by_cases hpar : start.type = .parallelStarted
    · exact Or.inl ⟨hpar, ht⟩
    · simp [Event.opened, hpar, ht] at hty
  · rename_i ht
    refine if_neg ?_
    rintro ⟨hty, hname⟩
    refine hfinish ⟨hname, ?_⟩
    by_cases hpar : start.type = .parallelStarted
    · simp [Event.opened, hpar, ht] at hty
    · exact Or.inr ⟨hkind hpar, ht⟩
  · rfl

theorem OpenVisit.foldl_step {visit : List Event} (h : OpenVisit start visit) :
    visit.foldl OpenFanOut.step start.opened = start.opened := by
  induction visit with
  | nil => rfl
  | cons e visit ih =>
    rw [foldl_cons, Event.opened_step h.starts (h.last e (by simp))
      (h.unfinished e (by simp))]
    exact ih ⟨h.starts, h.named, fun e he => h.last e (by simp [he]),
      fun e he => h.unfinished e (by simp [he])⟩

theorem OpenVisit.openFanOut_eq {visit : List Event} (h : OpenVisit start visit)
    (earlier : List Event) : openFanOut (earlier ++ start :: visit) = start.opened := by
  unfold openFanOut
  rw [foldl_append, foldl_cons, OpenFanOut.step_of_starts h.starts, h.foldl_step]

/-! ## What the scan holds for one branch -/

def cursorAt (cursors : List BranchCursor) (branch : Int) : Option BranchCursor :=
  cursors.find? (fun c => c.branch = branch)

def startedCursor (e : Event) : BranchCursor :=
  { branch := e.branch, name := e.branchName, parallel := e.parallel,
    itemIdentity := e.mapItemIdentity, itemDigest := e.mapItemDigest,
    machineState := e.stage, status := "" }

def advanceCursor (e : Event) (c : BranchCursor) : BranchCursor :=
  if c.status ≠ "" then c
  else if e.stage ≠ "" then { c with machineState := e.stage }
  else if e.gate ≠ "" then { c with machineState := e.gate }
  else c

@[simp] theorem advanceCursor_branch (e : Event) (c : BranchCursor) :
    (advanceCursor e c).branch = c.branch := by
  unfold advanceCursor
  split
  · rfl
  split
  · rfl
  · split <;> rfl

def branchStep (openParallel : String) (cursor : Option BranchCursor) (e : Event) :
    Option BranchCursor :=
  if e.parallel ≠ openParallel ∧ e.branch = 0 then cursor
  else
    match e.type with
    | .branchStarted => if e.parallel ≠ openParallel then cursor else some (startedCursor e)
    | .branchFinished =>
      if e.parallel ≠ openParallel then cursor
      else cursor.map (fun c => { c with status := e.branchStatus, machineState := "" })
    | .stageStarted | .gateEvaluated => cursor.map (advanceCursor e)
    | _ => cursor

theorem cursorAt_updateCursor {branch id : Int} {f : BranchCursor → BranchCursor}
    (hf : ∀ c, c.branch = branch → (f c).branch = branch) :
    cursorAt (updateCursor cursors branch f) id =
      if branch = id then (cursorAt cursors id).map f else cursorAt cursors id := by
  induction cursors with
  | nil => simp [cursorAt, updateCursor]
  | cons c cursors ih =>
    have hfc := hf c
    unfold cursorAt updateCursor at ih ⊢
    simp only [map_cons, find?_cons]
    by_cases hc : c.branch = branch
    · by_cases hid : branch = id
      · simp [hc, hid, hfc hc]
      · simp only [hc, if_true, hfc hc, hid] at ih ⊢
        exact ih
    · by_cases hcid : c.branch = id
      · have hid : branch ≠ id := fun h => hc (hcid.trans h.symm)
        rw [if_neg hc, if_neg hid, decide_eq_true hcid]
      · simp only [hc, if_false, hcid]
        exact ih

theorem cursorAt_append_singleton {c : BranchCursor} {id : Int}
    (h : cursorAt cursors c.branch = none) :
    cursorAt (cursors ++ [c]) id = if c.branch = id then some c else cursorAt cursors id := by
  unfold cursorAt at h ⊢
  by_cases hid : c.branch = id
  · subst hid
    simp [h]
  · simp [hid]

theorem cursorAt_eq_none_iff {id : Int} :
    cursorAt cursors id = none ↔ ∀ c ∈ cursors, c.branch ≠ id := by
  simp [cursorAt]

theorem cursorAt_start (cursors : List BranchCursor) (e : Event) (id : Int) :
    cursorAt
        (if cursors.any (fun c => c.branch = e.branch) then
          updateCursor cursors e.branch (fun _ => startedCursor e)
        else cursors ++ [startedCursor e]) id =
      if e.branch = id then some (startedCursor e) else cursorAt cursors id := by
  split
  · rename_i hany
    have hset : ∀ c : BranchCursor, c.branch = e.branch → (startedCursor e).branch = e.branch :=
      fun _ _ => rfl
    rw [cursorAt_updateCursor hset]
    by_cases hid : e.branch = id
    · obtain ⟨c, hc⟩ : ∃ c, cursorAt cursors id = some c := by
        simp only [any_eq_true, decide_eq_true_eq] at hany
        obtain ⟨c, hc, hbranch⟩ := hany
        rw [← Option.ne_none_iff_exists', ne_eq, cursorAt_eq_none_iff]
        exact fun hall => hall c hc (hbranch.trans hid)
      rw [if_pos hid, if_pos hid, hc]
      rfl
    · rw [if_neg hid, if_neg hid]
  · rename_i hany
    have hnone : cursorAt cursors (startedCursor e).branch = none := by
      refine cursorAt_eq_none_iff.mpr (fun c hc hb => hany ?_)
      exact any_eq_true.mpr ⟨c, hc, decide_eq_true hb⟩
    exact cursorAt_append_singleton hnone

/-- **One event of the scan, seen from one branch**: only its own events change its cursor. -/
theorem cursorAt_cursorStep (openParallel : String) (cursors : List BranchCursor) (e : Event)
    (id : Int) :
    cursorAt (cursorStep openParallel cursors e) id =
      if e.branch = id then branchStep openParallel (cursorAt cursors id) e
      else cursorAt cursors id := by
  unfold cursorStep branchStep
  by_cases hskip : e.parallel ≠ openParallel ∧ e.branch = 0
  · rw [if_pos hskip, if_pos hskip, ite_self]
  rw [if_neg hskip, if_neg hskip]
  cases ht : e.type
  case branchStarted =>
    by_cases hname : e.parallel ≠ openParallel
    · simp [if_pos hname]
    · simp only [if_neg hname]
      exact cursorAt_start cursors e id
  case branchFinished =>
    by_cases hname : e.parallel ≠ openParallel
    · simp [if_pos hname]
    · simp only [if_neg hname]
      exact cursorAt_updateCursor (fun _ h => h)
  case stageStarted =>
    exact cursorAt_updateCursor (fun c h => (advanceCursor_branch e c).trans h)
  case gateEvaluated =>
    exact cursorAt_updateCursor (fun c h => (advanceCursor_branch e c).trans h)
  all_goals simp

/-- What a branch's cursor becomes depends on the events of that branch alone. -/
theorem cursorAt_foldl (openParallel : String) (cursors : List BranchCursor) (events : List Event)
    (id : Int) :
    cursorAt (events.foldl (cursorStep openParallel) cursors) id =
      (events.filter (fun e => e.branch = id)).foldl (branchStep openParallel)
        (cursorAt cursors id) := by
  induction events generalizing cursors with
  | nil => rfl
  | cons e events ih =>
    rw [foldl_cons, ih, cursorAt_cursorStep]
    by_cases hid : e.branch = id
    · simp [hid]
    · simp [hid]

/-! ## Forgetting what came before -/

theorem branchStep_of_starts {e : Event} (h : e.StartsBranch openParallel)
    (cursor : Option BranchCursor) : branchStep openParallel cursor e = some (startedCursor e) := by
  unfold branchStep
  simp [h.1, h.2]

theorem isSome_branchStep {e : Event} {cursor : Option BranchCursor} :
    (branchStep openParallel cursor e).isSome ↔
      cursor.isSome ∨ e.StartsBranch openParallel := by
  by_cases hs : e.StartsBranch openParallel
  · simp [branchStep_of_starts hs, hs]
  simp only [hs, or_false]
  unfold branchStep
  split
  · rfl
  split
  · rename_i ht
    simp [show e.parallel ≠ openParallel from fun h => hs ⟨ht, h⟩]
  · split <;> simp
  · simp
  · simp
  · rfl

theorem isSome_foldl_branchStep {cursor : Option BranchCursor} :
    (events.foldl (branchStep openParallel) cursor).isSome ↔
      cursor.isSome ∨ ∃ e ∈ events, e.StartsBranch openParallel := by
  induction events generalizing cursor with
  | nil => simp
  | cons e events ih =>
    rw [foldl_cons, ih, isSome_branchStep]
    simp [or_assoc]

/-- Past a `branch.started` event it no longer matters what the scan held before. -/
theorem foldl_branchStep_eq {e : Event} (he : e ∈ events) (hs : e.StartsBranch openParallel)
    (c c' : Option BranchCursor) :
    events.foldl (branchStep openParallel) c = events.foldl (branchStep openParallel) c' := by
  obtain ⟨before, after, rfl⟩ := append_of_mem he
  simp [branchStep_of_starts hs]

/-! ## One cursor for each branch -/

theorem map_branch_updateCursor {branch : Int} {f : BranchCursor → BranchCursor}
    (hf : ∀ c, c.branch = branch → (f c).branch = branch) :
    (updateCursor cursors branch f).map BranchCursor.branch =
      cursors.map BranchCursor.branch := by
  unfold updateCursor
  rw [map_map]
  refine map_congr_left (fun c _ => ?_)
  by_cases hc : c.branch = branch
  · simp [hc, hf c hc]
  · simp [hc]

/-- No branch gets two cursors. -/
theorem nodup_cursorStep (h : (cursors.map branch).Nodup) (e : Event) :
    ((cursorStep openParallel cursors e).map branch).Nodup := by
  have hupdate : ∀ f : BranchCursor → BranchCursor,
      (∀ c, c.branch = e.branch → (f c).branch = e.branch) →
        ((updateCursor cursors e.branch f).map branch).Nodup := by
    intro f hf
    rw [map_branch_updateCursor hf]
    exact h
  unfold cursorStep
  split
  · exact h
  cases e.type
  case branchStarted =>
    dsimp only
    split
    · exact h
    split_ifs with hany
    · exact hupdate _ (fun _ _ => rfl)
    rw [map_append, nodup_append]
    refine ⟨h, by simp, ?_⟩
    intro branch hbranch branch' hbranch' heq
    obtain ⟨c, hc, rfl⟩ := mem_map.mp hbranch
    simp only [map_cons, map_nil, mem_singleton] at hbranch'
    exact hany (any_eq_true.mpr ⟨c, hc, decide_eq_true (heq.trans hbranch')⟩)
  case branchFinished =>
    dsimp only
    split
    · exact h
    · exact hupdate _ (fun _ hc => hc)
  case stageStarted => exact hupdate _ (fun c hc => (advanceCursor_branch e c).trans hc)
  case gateEvaluated => exact hupdate _ (fun c hc => (advanceCursor_branch e c).trans hc)
  all_goals exact h

def scanCursors (openParallel : String) (events : List Event) : List BranchCursor :=
  events.foldl (cursorStep openParallel) []

theorem nodup_scanCursors (openParallel : String) (events : List Event) :
    ((scanCursors openParallel events).map branch).Nodup := by
  have hfold : ∀ cursors : List BranchCursor, (cursors.map branch).Nodup →
      ((events.foldl (cursorStep openParallel) cursors).map branch).Nodup := by
    induction events with
    | nil => exact fun _ h => h
    | cons e events ih => exact fun cursors h => ih _ (nodup_cursorStep h e)
  exact hfold [] (by simp)

theorem mem_iff_cursorAt (h : (cursors.map branch).Nodup) {c : BranchCursor} :
    c ∈ cursors ↔ cursorAt cursors c.branch = some c := by
  constructor
  · intro hc
    induction cursors with
    | nil => simp at hc
    | cons d cursors ih =>
      rw [map_cons, nodup_cons] at h
      rcases mem_cons.mp hc with rfl | hmem
      · simp [cursorAt]
      have hne : d.branch ≠ c.branch := fun heq =>
        h.1 (heq ▸ mem_map_of_mem hmem)
      have := ih h.2 hmem
      simpa [cursorAt, hne] using this
  · exact fun hc => mem_of_find?_eq_some hc

def sortCursors (cursors : List BranchCursor) : List BranchCursor :=
  cursors.insertionSort (fun a b => a.branch ≤ b.branch)

theorem eq_of_branch_eq (h : (cursors.map branch).Nodup) {c d : BranchCursor}
    (hc : c ∈ cursors) (hd : d ∈ cursors) (hbranch : c.branch = d.branch) : c = d := by
  have hcat := (mem_iff_cursorAt h).mp hc
  have hdat := (mem_iff_cursorAt h).mp hd
  rw [hbranch, hdat] at hcat
  exact (Option.some.inj hcat).symm

/-- Two scans end with the same cursors if and only if they hold the same for every branch. -/
theorem sortCursors_eq_iff {cursors' : List BranchCursor}
    (h : (cursors.map branch).Nodup) (h' : (cursors'.map branch).Nodup) :
    sortCursors cursors = sortCursors cursors' ↔
      ∀ id, cursorAt cursors id = cursorAt cursors' id := by
  have hsort : ∀ cs : List BranchCursor, (sortCursors cs).Perm cs :=
    fun cs => perm_insertionSort _ cs
  constructor
  · intro heq id
    have hperm : cursors.Perm cursors' :=
      ((hsort cursors).symm.trans (heq ▸ List.Perm.refl _)).trans (hsort cursors')
    have hone : ∀ c, cursorAt cursors id = some c ↔ cursorAt cursors' id = some c := by
      intro c
      by_cases hid : c.branch = id
      · rw [← hid, ← mem_iff_cursorAt h, ← mem_iff_cursorAt h', hperm.mem_iff]
      have hno : ∀ cs : List BranchCursor, cursorAt cs id ≠ some c := by
        intro cs hcs
        exact hid (by simpa using find?_some hcs)
      simp [hno]
    exact Option.ext hone
  · intro heq
    have hmem : ∀ c, c ∈ cursors ↔ c ∈ cursors' := by
      intro c
      rw [mem_iff_cursorAt h, mem_iff_cursorAt h', heq]
    have hperm : cursors.Perm cursors' :=
      (perm_ext_iff_of_nodup h.of_map h'.of_map).mpr hmem
    refine List.Perm.eq_of_pairwise ?_ (pairwise_insertionSort _ cursors)
      (pairwise_insertionSort _ cursors')
      (((hsort cursors).trans hperm).trans (hsort cursors').symm)
    intro c d hc hd hcd hdc
    exact eq_of_branch_eq h ((hsort cursors).mem_iff.mp hc)
      (hperm.mem_iff.mpr ((hsort cursors').mem_iff.mp hd)) (le_antisymm hcd hdc)

theorem sortCursors_eq_nil : sortCursors cursors = [] ↔ cursors = [] := by
  have hlength : (sortCursors cursors).length = cursors.length :=
    (perm_insertionSort _ cursors).length_eq
  rw [← length_eq_zero_iff, hlength, length_eq_zero_iff]

/-! ## The whole reconstruction -/

/-- In an open visit the cursors are those of the branches of its fan-out. -/
theorem OpenVisit.reconstructBranchCursors_eq {visit : List Event} (h : OpenVisit start visit)
    (earlier : List Event) : reconstructBranchCursors (earlier ++ start :: visit) =
      if sortCursors (scanCursors start.parallel (earlier ++ start :: visit)) = [] then none
      else some (sortCursors (scanCursors start.parallel (earlier ++ start :: visit))) := by
  have hopen :
      ((earlier ++ start :: visit).foldl OpenFanOut.step {}).parallel = start.parallel := by
    have := h.openFanOut_eq earlier
    unfold openFanOut at this
    rw [this]
    rfl
  unfold reconstructBranchCursors
  simp only [hopen, if_neg h.named, sortCursors_eq_nil]
  rfl

theorem cursorAt_scanCursors_append (openParallel : String) (earlier later : List Event)
    (id : Int) :
    cursorAt (scanCursors openParallel (earlier ++ later)) id =
      (later.filter (fun e => e.branch = id)).foldl (branchStep openParallel)
        (cursorAt (scanCursors openParallel earlier) id) := by
  unfold scanCursors
  rw [foldl_append, cursorAt_foldl]

theorem isSome_cursorAt_scanCursors {id : Int} :
    (cursorAt (scanCursors openParallel events) id).isSome ↔
      ∃ e ∈ events, e.StartsBranch openParallel ∧ e.branch = id := by
  unfold scanCursors
  rw [cursorAt_foldl, isSome_foldl_branchStep]
  simp only [cursorAt, find?_nil, Option.isSome_none, Bool.false_eq_true, false_or,
    mem_filter, decide_eq_true_eq]
  constructor
  · rintro ⟨e, ⟨he, hid⟩, hs⟩
    exact ⟨e, he, hs, hid⟩
  · rintro ⟨e, he, hs, hid⟩
    exact ⟨e, ⟨he, hid⟩, hs⟩

/--
**Recovery looks at the open visit alone exactly when it has started every branch again**
that an earlier visit under the same name had started.
-/
theorem reconstructBranchCursors_openVisit {start : Event} {visit : List Event}
    (h : OpenVisit start visit) (earlier : List Event) :
    reconstructBranchCursors (earlier ++ start :: visit) =
        reconstructBranchCursors (start :: visit) ↔
      ∀ e ∈ earlier, e.StartsBranch start.parallel →
        ∃ e' ∈ visit, e'.StartsBranch start.parallel ∧ e'.branch = e.branch := by
  have hstart : ¬ start.StartsBranch start.parallel := by
    rintro ⟨hty, -⟩
    rcases h.starts with hs | hs <;> rw [hs] at hty <;> cases hty
  have hsuffix := h.reconstructBranchCursors_eq []
  rw [nil_append] at hsuffix
  have hscans : reconstructBranchCursors (earlier ++ start :: visit) =
        reconstructBranchCursors (start :: visit) ↔
      ∀ id, cursorAt (scanCursors start.parallel (earlier ++ start :: visit)) id =
        cursorAt (scanCursors start.parallel (start :: visit)) id := by
    rw [h.reconstructBranchCursors_eq, hsuffix,
      ← sortCursors_eq_iff (nodup_scanCursors _ _) (nodup_scanCursors _ _)]
    constructor
    · intro heq
      split at heq <;> split at heq
      · rename_i h1 h2
        rw [h1, h2]
      · cases heq
      · cases heq
      · exact Option.some.inj heq
    · intro heq
      rw [heq]
  rw [hscans]
  constructor
  · intro heq e he hs
    -- The branch has a cursor in the scan of the whole journal, so in the visit's own scan too.
    have hfull :
        (cursorAt (scanCursors start.parallel (earlier ++ start :: visit)) e.branch).isSome :=
      isSome_cursorAt_scanCursors.mpr ⟨e, mem_append_left _ he, hs, rfl⟩
    rw [heq, isSome_cursorAt_scanCursors] at hfull
    obtain ⟨e', he', hs', hbranch⟩ := hfull
    rcases mem_cons.mp he' with rfl | hvisit
    · exact absurd hs' hstart
    · exact ⟨e', hvisit, hs', hbranch⟩
  · intro hagain id
    rw [cursorAt_scanCursors_append]
    have hown := cursorAt_scanCursors_append start.parallel [] (start :: visit) id
    rw [nil_append] at hown
    rw [hown]
    cases hbefore : cursorAt (scanCursors start.parallel earlier) id with
    | none => rfl
    | some c =>
      have hsome : (cursorAt (scanCursors start.parallel earlier) id).isSome := by
        rw [hbefore]
        rfl
      obtain ⟨e, he, hs, rfl⟩ := isSome_cursorAt_scanCursors.mp hsome
      obtain ⟨e', he', hs', hbranch⟩ := hagain e he hs
      refine foldl_branchStep_eq (e := e') ?_ hs' _ _
      rw [mem_filter]
      exact ⟨mem_cons_of_mem _ he', decide_eq_true hbranch⟩

def checksVisit : List Event :=
  [{ type := .branchStarted, parallel := "checks", branch := 1, branchName := "lint",
     stage := "run-lint" },
   { type := .branchStarted, parallel := "checks", branch := 2, branchName := "test",
     stage := "run-test" },
   { type := .branchFinished, parallel := "checks", branch := 1, branchStatus := "success" }]

def firstChecks : List Event :=
  { type := .parallelStarted, parallel := "checks" } :: checksVisit ++
    [{ type := .branchFinished, parallel := "checks", branch := 2, branchStatus := "success" },
     { type := .parallelFinished, parallel := "checks" }]

def checksStarted : Event := { type := .parallelStarted, parallel := "checks" }

theorem secondChecks_forget_first :
    reconstructBranchCursors (firstChecks ++ checksStarted :: checksVisit) =
      reconstructBranchCursors (checksStarted :: checksVisit) :=
  (reconstructBranchCursors_openVisit (by decide) firstChecks).mpr (by decide)

/--
A repass that stopped after the first branch of the second visit: the journal's cursors
hold `test` as settled, from the first visit.
-/
theorem restarted_checks_keep_first_visit :
    OpenVisit checksStarted (checksVisit.take 1) ∧
      reconstructBranchCursors (firstChecks ++ checksStarted :: checksVisit.take 1) ≠
        reconstructBranchCursors (checksStarted :: checksVisit.take 1) := by
  decide

/--
**What the cursors of an open visit are.** There is one for each branch that was started under
the name of the fan-out, in the order of the branches, and it is what that branch's own events
make of it one after the other, wherever those of other branches stand in between.
-/
theorem reconstructBranchCursors_exact {start : Event} {visit : List Event}
    (h : OpenVisit start visit) (earlier : List Event) :
    let events := earlier ++ start :: visit
    let cursors := (reconstructBranchCursors events).getD []
    cursors.Pairwise (fun c d => c.branch < d.branch) ∧
    (∀ c, c ∈ cursors ↔ (events.filter (fun e => e.branch = c.branch)).foldl
      (branchStep start.parallel) none = some c) ∧
    ∀ id, (∃ c ∈ cursors, c.branch = id) ↔
      ∃ e ∈ events, e.StartsBranch start.parallel ∧ e.branch = id := by
  intro events cursors
  have hcursors : cursors = sortCursors (scanCursors start.parallel events) := by
    show (reconstructBranchCursors events).getD [] = _
    rw [h.reconstructBranchCursors_eq]
    split_ifs with hnil
    · exact hnil.symm
    · rfl
  have hperm : (sortCursors (scanCursors start.parallel events)).Perm _ := perm_insertionSort _ _
  have hnodup := nodup_scanCursors start.parallel events
  rw [hcursors]
  refine ⟨?_, fun c => ?_, fun id => ?_⟩
  · have hne := pairwise_map.mp ((hperm.map branch).nodup_iff.mpr hnodup)
    exact ((pairwise_insertionSort _ _).and hne).imp fun hcd => lt_of_le_of_ne hcd.1 hcd.2
  · rw [hperm.mem_iff, mem_iff_cursorAt hnodup, scanCursors, cursorAt_foldl]
    rfl
  · rw [← isSome_cursorAt_scanCursors, Option.isSome_iff_ne_none, ne_eq, cursorAt_eq_none_iff]
    simp only [not_forall, not_not, exists_prop, hperm.mem_iff]

/-- After the second visit has started `lint` alone, `test` has its cursor of the first. -/
theorem restarted_checks_cursors : ∃ c ∈ (reconstructBranchCursors
    (firstChecks ++ checksStarted :: checksVisit.take 1)).getD [], c.branch = 2 :=
  ((reconstructBranchCursors_exact (by decide) firstChecks).2.2 2).mpr (by decide)

/-! ## The interleaving of the branches -/

/--
A reordering that every branch agrees with: the events of the root and of the branch
come in the same order in both.
-/
def SameOrder (events events' : List Event) : Prop :=
  ∀ id, events.filter (fun e => e.branch = 0 ∨ e.branch = id) =
    events'.filter (fun e => e.branch = 0 ∨ e.branch = id)

def Event.OfFanOut (e : Event) : Prop :=
  e.StartsFanOut ∨ e.type = .parallelFinished ∨ e.type = .mapFinished

def FanOutsOnRoot (events : List Event) : Prop := ∀ e ∈ events, e.OfFanOut → e.branch = 0

theorem SameOrder.mem_iff {events' : List Event} (h : SameOrder events events') {e : Event} :
    e ∈ events ↔ e ∈ events' := by
  have hown : ∀ es : List Event,
      e ∈ es.filter (fun x => x.branch = 0 ∨ x.branch = e.branch) ↔ e ∈ es := by
    simp
  rw [← hown events, h e.branch, hown events']

theorem SameOrder.filter_branch {events' : List Event} (h : SameOrder events events') (id : Int) :
    events.filter (fun e => e.branch = id) = events'.filter (fun e => e.branch = id) := by
  have hown : ∀ es : List Event, es.filter (fun e => e.branch = id) =
      (es.filter (fun e => e.branch = 0 ∨ e.branch = id)).filter (fun e => e.branch = id) := by
    intro es
    rw [filter_filter]
    congr 1
    funext e
    by_cases hid : e.branch = id <;> simp [hid]
  rw [hown events, h id, ← hown events']

theorem openFanOut_filter (h : FanOutsOnRoot events) :
    openFanOut (events.filter (fun e => e.branch = 0)) = openFanOut events := by
  have hfold : ∀ o : OpenFanOut, (events.filter (fun e => e.branch = 0)).foldl OpenFanOut.step o =
      events.foldl OpenFanOut.step o := by
    induction events with
    | nil => exact fun _ => rfl
    | cons e events ih =>
      intro o
      have hrest := ih fun x hx => h x (mem_cons_of_mem _ hx)
      by_cases hroot : e.branch = 0
      · simp [hroot, hrest]
      · have hother : ¬ e.OfFanOut := fun hf => hroot (h e mem_cons_self hf)
        have hstep : o.step e = o := by
          unfold Event.OfFanOut Event.StartsFanOut at hother
          unfold OpenFanOut.step
          split <;> simp_all
        rw [filter_cons_of_neg (by simp [hroot]), hrest, foldl_cons, hstep]
  exact hfold {}

/--
**The interleaving of the branches does not matter.** Where fan-outs are started and
finished on the root branch, a reordering that every branch agrees with has the same
cursors.
-/
theorem reconstructBranchCursors_sameOrder {events events' : List Event}
    (hroot : FanOutsOnRoot events) (h : SameOrder events events') :
    reconstructBranchCursors events = reconstructBranchCursors events' := by
  have hroot' : FanOutsOnRoot events' := fun e he => hroot e (h.mem_iff.mpr he)
  have hopen : openFanOut events = openFanOut events' := by
    rw [← openFanOut_filter hroot, h.filter_branch 0, openFanOut_filter hroot']
  have hscan : sortCursors (scanCursors (openFanOut events').parallel events) =
      sortCursors (scanCursors (openFanOut events').parallel events') := by
    refine (sortCursors_eq_iff (nodup_scanCursors _ _) (nodup_scanCursors _ _)).mpr fun id => ?_
    unfold scanCursors
    rw [cursorAt_foldl, cursorAt_foldl, h.filter_branch id]
  have hshape : ∀ es : List Event, reconstructBranchCursors es =
      if (openFanOut es).parallel = "" then none
      else if sortCursors (scanCursors (openFanOut es).parallel es) = [] then none
      else some (sortCursors (scanCursors (openFanOut es).parallel es)) := by
    intro es
    simp only [sortCursors_eq_nil]
    rfl
  rw [hshape, hshape, hopen, hscan]

theorem checksVisit_either_order :
    reconstructBranchCursors (checksStarted :: checksVisit.take 2) =
      reconstructBranchCursors (checksStarted :: (checksVisit.take 2).reverse) := by
  refine reconstructBranchCursors_sameOrder ?_ fun id => ?_
  · unfold FanOutsOnRoot Event.OfFanOut
    decide
  · by_cases h1 : id = 1
    · subst h1
      decide
    · simp [checksVisit, filter_cons, Ne.symm h1]

theorem branch_fanOut_order_matters :
    let start : Event := { type := .parallelStarted, parallel := "checks", branch := 1 }
    let finish : Event := { type := .parallelFinished, parallel := "checks", branch := 2 }
    let lint : Event := { type := .branchStarted, parallel := "checks", branch := 3 }
    SameOrder [start, finish, lint] [finish, start, lint] ∧
      reconstructBranchCursors [start, finish, lint] ≠
        reconstructBranchCursors [finish, start, lint] := by
  intro start finish lint
  refine ⟨fun id => ?_, by decide⟩
  by_cases h1 : id = 1
  · subst h1
    decide
  · simp [start, filter_cons, Ne.symm h1]

end Goobers.Journal
