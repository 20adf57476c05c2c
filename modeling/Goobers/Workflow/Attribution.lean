import Goobers.Workflow.Bodies

/-!
# Is every state of a run on one branch only?

The events of a parallel branch are told from those of the run around it by the state they
are about. That needs two things: no two branches share a state, and the walk of the run
itself, which steps over the branches of a parallel to its join, stays out of all of them.

The first is checked. The second is not: a body is only compared with the join, the failure
route and the name of its own parallel, so any other transition from outside may lead into
it, and then to an `@join` with no branch to end.
-/

namespace Goobers.Workflow

open Lib List

variable {state target : String}

/-! ## The root walk -/

section
variable (d : Definition)

/-- The targets of a state for the run itself, which leaves branches and items to their fan-out. -/
def rootTargets (state : String) : List String :=
  match d.task state with
  | some t => [t.next]
  | none =>
    match d.gate state with
    | some g => g.targets
    | none =>
      match d.parallel state with
      | some p => p.join :: failureTargets p.onFailure
      | none =>
        match d.map state with
        | some f => f.join :: failureTargets f.onFailure
        | none => []

def RootStep (state target : String) : Prop :=
  target ∈ rootTargets d state ∧ ¬ (IsStage d state ∧ target = targetJoin)

def RootVisits (state : String) : Prop := Relation.ReflTransGen (RootStep d) d.start state

/-- Branch attribution is total and unambiguous. -/
structure Attributed : Prop where
  disjoint : (allBranches d).Pairwise (fun x y =>
    ∀ state, state ∈ branchBody d x.2.start → state ∉ branchBody d y.2.start)
  rootOutside : ∀ state, RootVisits d state → ¬ InBody d state
  noRootJoin : ∀ state, RootVisits d state → ¬ AtJoin d state

/-- A transition that is declared; `@join` is a state only where a fan-out has it for its join. -/
def Leads (state target : String) : Prop :=
  target ∈ d.outgoing state ∧
    (target = targetJoin → ¬ IsStage d state ∧ target ∈ rootTargets d state)

structure BranchesClosed : Prop where
  start : ¬ InBody d d.start
  entries : ∀ state, Relation.ReflTransGen (Leads d) d.start state → ¬ InBody d state →
    ∀ target ∈ rootTargets d state, ¬ InBody d target
  /-- Where there is nothing to join, nothing ends at `@join`. -/
  stray : d.parallels = [] → d.maps = [] →
    ∀ state, Relation.ReflTransGen (Leads d) d.start state → ¬ AtJoin d state

end

variable {d : Definition}

theorem outgoing_of_rootTargets (h : target ∈ rootTargets d state) : target ∈ d.outgoing state := by
  unfold rootTargets at h
  unfold Definition.outgoing
  cases ht : d.task state with
  | some t => rw [ht] at h; exact h
  | none =>
    rw [ht] at h
    cases hg : d.gate state with
    | some g => rw [hg] at h; exact h
    | none =>
      rw [hg] at h
      cases hp : d.parallel state with
      | some p =>
        rw [hp] at h
        show target ∈ p.targets
        unfold Parallel.targets
        rw [append_assoc]
        exact mem_append_right _ h
      | none =>
        rw [hp] at h
        cases hf : d.map state with
        | some f =>
          rw [hf] at h
          exact mem_cons_of_mem _ h
        | none => rw [hf] at h; cases h

theorem rootTargets_of_stage (h : IsStage d state) : rootTargets d state = d.outgoing state := by
  unfold rootTargets Definition.outgoing
  cases ht : d.task state with
  | some t => rfl
  | none =>
    cases hg : d.gate state with
    | some g => rfl
    | none => exact absurd h (not_stage_iff.mpr ⟨ht, hg⟩)

theorem rootTargets_map (h : structuralProblems d = []) {f : Map} (hf : d.map state = some f) :
    rootTargets d state = f.join :: failureTargets f.onFailure := by
  obtain ⟨ht, hg, hp, hfound⟩ := map_lookup h (mem_of_map hf)
  rw [name_of_map hf] at ht hg hp hfound
  unfold rootTargets
  rw [ht, hg, hp, hfound]

theorem leads_of_rootStep (h : RootStep d state target) : Leads d state target := by
  refine ⟨outgoing_of_rootTargets h.1, fun hjoin => ⟨fun hstage => ?_, h.1⟩⟩
  exact h.2 ⟨hstage, hjoin⟩

/-! ## States that cannot be reserved names -/

theorem not_terminal_of_has (h : Accepted d) (hs : d.has state = true) :
    isTerminal state = false := by
  have hreach := reachable_of_reachabilityProblems h.reachability (mem_stateNames_of_has hs)
  exact (mem_walk_iff.mp hreach).1

/-- A stage inside a branch leads to its end, to the join or to another state inside. -/
theorem target_of_stage (h : Accepted d) (hstage : IsStage d state)
    (ht : target ∈ d.outgoing state) :
    isTerminal target = true ∨ target = targetJoin ∨ Inside d target := by
  -- the structural checks have found no target that is not defined
  have hdecl : isStateName target = true → d.has target = true := by
    intro hname
    have hs := h.structural
    unfold structuralProblems at hs
    simp only [append_eq_nil_iff] at hs
    unfold Definition.outgoing at ht
    cases htask : d.task state with
    | some t =>
      rw [htask] at ht
      rw [mem_singleton.mp ht] at hname ⊢
      have hone := flatMap_eq_nil_iff.mp hs.1.2 t (mem_of_task htask).1
      unfold taskProblems at hone
      simp only [append_eq_nil_iff] at hone
      simpa [hname] using hone.1.1.1
    | none =>
      cases hgate : d.gate state with
      | none => exact absurd hstage (not_stage_iff.mpr ⟨htask, hgate⟩)
      | some g =>
        rw [htask, hgate] at ht
        obtain ⟨outcome, hout, hget⟩ := mem_filterMap.mp ht
        have hone := flatMap_eq_nil_iff.mp hs.2 g (mem_of_gate hgate).1
        obtain ⟨_, hall⟩ := append_eq_nil_iff.mp hone
        have hthis := flatMap_eq_nil_iff.mp hall outcome hout
        simp only [hget, Option.getD_some, hname] at hthis
        simpa using hthis
  by_cases hterm : isTerminal target = true
  · exact .inl hterm
  by_cases hjoin : target = targetJoin
  · exact .inr (.inl hjoin)
  have hbranch : isReservedBranchTarget target = false := by
    unfold isReservedBranchTarget
    simpa using hjoin
  have hname : isStateName target = true := by
    unfold isStateName
    simp [hterm, hbranch]
  unfold isTerminal at hterm
  simp only [Bool.or_eq_true, decide_eq_true_eq, not_or, Bool.not_eq_true] at hterm
  refine .inr (.inr ⟨hterm.1, ?_, hdecl hname⟩)
  unfold isReservedAnyTarget
  rw [hterm.2, hbranch]
  rfl

/-! ## Mapped tasks -/

theorem mapped_checks (h : Accepted d) {f : Map} (hf : f ∈ d.maps) :
    ((mapOwnership d).get? f.task).getD "" = f.name ∧ (branchOwnership d).get? f.task = none ∧
      mapTaskEntrySources d f = [] ∧
      ∃ t, d.task f.task = some t ∧ (t.next = targetJoin ∨ isReservedTarget t.next = true) := by
  have hdecl : (FanOut.map f).Declared d := hf
  have hmaps := (fanOut_checks h.parallel hdecl.not_empty).1
  have hone := flatMap_eq_nil_iff.mp hmaps f hf
  simp only [append_eq_nil_iff] at hone
  have htask := hone.1.2
  unfold mapTaskProblems at htask
  cases ht : d.task f.task with
  | none =>
    rw [ht] at htask
    dsimp only at htask
    split at htask <;> cases htask
  | some t =>
    rw [ht] at htask
    have hname := (mem_of_task ht).2
    simp only [append_eq_nil_iff, map_eq_nil_iff, hname] at htask
    obtain ⟨⟨⟨⟨⟨⟨howner, hbranch⟩, hsources⟩, hnext⟩, _⟩, _⟩, _⟩ := htask
    refine ⟨by simpa using howner, ?_, hsources, t, rfl, ?_⟩
    · split at hbranch
      · cases hbranch
      · assumption
    · simpa [or_iff_not_imp_left] using hnext

theorem entry_of_mapped (h : Accepted d) {f : Map} (hf : f ∈ d.maps) (source : String)
    (hsource : f.task ∈ (if source = f.name then (d.outgoing source).drop 1
      else d.outgoing source)) : False := by
  have hsources := (mapped_checks h hf).2.2.1
  have hnil : source ∉ mapTaskEntrySources d f := by
    rw [hsources]
    exact not_mem_nil
  unfold mapTaskEntrySources at hnil
  simp only [mem_sortStrings, mem_append, not_or] at hnil
  have hout : f.task ∈ d.outgoing source := by
    split at hsource
    · exact mem_of_mem_drop hsource
    · exact hsource
  exact hnil.2 (mem_filter.mpr
    ⟨mem_stateNames_of_has (has_of_outgoing hout), decide_eq_true hsource⟩)

/-- The task of a map is only entered by its map. -/
theorem not_rootVisits_mapped (h : Accepted d) {f : Map} (hf : f ∈ d.maps) :
    ¬ RootVisits d f.task := by
  intro hvisit
  rcases Relation.ReflTransGen.cases_tail hvisit with hstart | ⟨s, _, hstep⟩
  · have hsources := (mapped_checks h hf).2.2.1
    unfold mapTaskEntrySources at hsources
    rw [if_pos hstart.symm, sortStrings_eq_nil_iff] at hsources
    cases hsources
  · refine entry_of_mapped h hf s ?_
    split
    · -- the first target of a map is the fan-out itself, and the root walk has the others
      rename_i hs
      obtain ⟨htask, hgate, hpar, hmap⟩ := map_lookup h.structural hf
      have hroot := hstep.1
      rw [hs] at hroot ⊢
      rw [rootTargets_map h.structural hmap] at hroot
      unfold Definition.outgoing
      rw [htask, hgate, hpar, hmap]
      exact hroot
    · exact outgoing_of_rootTargets hstep.1

/-! ## Who visits a state -/

theorem fanOut_entry (hstage : ¬ IsStage d state) (hout : target ∈ d.outgoing state)
    (hroot : target ∉ rootTargets d state) :
    (∃ x ∈ allBranches d, x.2.start = target) ∨ ∃ f ∈ d.maps, f.task = target := by
  obtain ⟨htask, hgate⟩ := not_stage_iff.mp hstage
  unfold rootTargets at hroot
  unfold Definition.outgoing at hout
  rw [htask, hgate] at hroot hout
  cases hp : d.parallel state with
  | some p =>
    rw [hp] at hroot hout
    change target ∈ p.branches.map Branch.start ++ [p.join] ++ failureTargets p.onFailure at hout
    rw [append_assoc] at hout
    rcases mem_append.mp hout with hstart | hrest
    · obtain ⟨b, hb, rfl⟩ := mem_map.mp hstart
      exact .inl ⟨(p, b), mem_allBranches.mpr ⟨mem_of_parallel hp, hb⟩, rfl⟩
    · exact absurd hrest hroot
  | none =>
    rw [hp] at hroot hout
    cases hf : d.map state with
    | none => rw [hf] at hout; cases hout
    | some f =>
      rw [hf] at hroot hout
      rcases mem_cons.mp hout with rfl | hrest
      · exact .inr ⟨f, mem_of_map hf, rfl⟩
      · exact absurd hrest hroot

theorem start_mem_branchBody (h : Accepted d) {x : Parallel × Branch} (hx : x ∈ allBranches d)
    (hne : x.2.start ≠ targetJoin) : x.2.start ∈ branchBody d x.2.start := by
  obtain ⟨hp, hb⟩ := mem_allBranches.mp hx
  obtain ⟨hstart, hhas⟩ := (branches_declared h hp).2 x.2 hb
  have hterm := not_terminal_of_has h hhas
  unfold isTerminal at hterm
  rw [Bool.or_eq_false_iff] at hterm
  refine mem_branchBody_iff.mpr ⟨⟨hstart, ?_, hhas⟩, .refl⟩
  unfold isReservedAnyTarget isReservedBranchTarget
  rw [hterm.2]
  simpa using hne

/-- Every state on a path from the start is of the root walk, of a branch or of a map. -/
theorem visited_of_leads (h : Accepted d) (hpath : Relation.ReflTransGen (Leads d) d.start state) :
    RootVisits d state ∨ InBody d state ∨ (∃ f ∈ d.maps, f.task = state) ∨
      isTerminal state = true := by
  induction hpath with
  | refl => exact .inl .refl
  | @tail s t _ hleads ih =>
    obtain ⟨hout, hjoin⟩ := hleads
    rcases ih with hroot | ⟨x, hx, hbody⟩ | ⟨f, hf, rfl⟩ | hterm
    · -- the root walk goes on itself, or a fan-out hands the target to a branch or a map
      by_cases hstage : IsStage d s
      · have hne : t ≠ targetJoin := fun heq => (hjoin heq).1 hstage
        have hin : t ∈ rootTargets d s := by rw [rootTargets_of_stage hstage]; exact hout
        exact .inl (hroot.tail ⟨hin, fun hand => hne hand.2⟩)
      · by_cases hin : t ∈ rootTargets d s
        · exact .inl (hroot.tail ⟨hin, fun hand => hstage hand.1⟩)
        · rcases fanOut_entry hstage hout hin with ⟨x, hx, rfl⟩ | hmapped
          · have hne : x.2.start ≠ targetJoin := fun heq => hin (hjoin heq).2
            exact .inr (.inl ⟨x, hx, start_mem_branchBody h hx hne⟩)
          · exact .inr (.inr (.inl hmapped))
    · -- a branch stays in its body until it ends
      have hstage := stage_of_inBody h ⟨x, hx, hbody⟩
      have hne : t ≠ targetJoin := fun heq => (hjoin heq).1 hstage
      rcases target_of_stage h hstage hout with hterm | heq | hinside
      · exact .inr (.inr (.inr hterm))
      · exact absurd heq hne
      · exact .inr (.inl ⟨x, hx, mem_branchBody_of_outgoing hbody hout hinside⟩)
    · -- a mapped task goes to `@join`, which is no state here, or to the end
      obtain ⟨_, _, _, task, htask, hnext⟩ := mapped_checks h hf
      have hstage : IsStage d f.task := .inl (by rw [htask]; rfl)
      have hne : t ≠ targetJoin := fun heq => (hjoin heq).1 hstage
      unfold Definition.outgoing at hout
      rw [htask] at hout
      rw [mem_singleton.mp hout] at hne ⊢
      refine .inr (.inr (.inr ?_))
      unfold isTerminal
      rw [hnext.resolve_left hne, Bool.or_true]
    · have hnot := not_terminal_of_has h (has_of_outgoing hout)
      rw [hterm] at hnot
      cases hnot

/-! ## The result -/

theorem outside_of_closed (hclosed : BranchesClosed d) (hvisit : RootVisits d state) :
    Relation.ReflTransGen (Leads d) d.start state ∧ ¬ InBody d state := by
  induction hvisit with
  | refl => exact ⟨.refl, hclosed.start⟩
  | tail _ hstep ih =>
    exact ⟨ih.1.tail (leads_of_rootStep hstep), hclosed.entries _ ih.1 ih.2 _ hstep.1⟩

/--
The states of an accepted workflow belong to one branch each, and the root walk stays out of
them, exactly if no transition leads into a branch body from outside.
-/
theorem attributed_iff {other : OtherProblems} {m : Definition} (hok : compile other d = .ok m) :
    Attributed m ↔ BranchesClosed m := by
  obtain ⟨rfl, h⟩ := accepted_of_compile hok
  constructor
  · intro hattr
    refine ⟨hattr.rootOutside _ .refl, ?_, ?_⟩
    · intro s hs hnot t ht hbody
      have hinside : Inside m t := by
        obtain ⟨x, _, hx⟩ := hbody
        exact (mem_branchBody_iff.mp hx).1
      -- of those who can visit a state outside the bodies, only the root walk gets to `t`
      rcases visited_of_leads h hs with hroot | hin | ⟨f, hf, rfl⟩ | hterm
      · have hne : t ≠ targetJoin := by
          rintro rfl
          cases hinside.2.1
        exact hattr.rootOutside t (hroot.tail ⟨ht, fun hand => hne hand.2⟩) hbody
      · exact hnot hin
      · obtain ⟨_, _, _, task, htask, hnext⟩ := mapped_checks h hf
        unfold rootTargets at ht
        rw [htask] at ht
        rw [mem_singleton.mp ht] at hinside
        have hres := hinside.2.1
        unfold isReservedAnyTarget at hres
        rw [Bool.or_eq_false_iff] at hres
        rcases hnext with hjoin | hreserved
        · rw [hjoin] at hres
          cases hres.2
        · rw [hreserved] at hres
          cases hres.1
      · have hhas := not_terminal_of_has h (has_of_outgoing (outgoing_of_rootTargets ht))
        rw [hterm] at hhas
        cases hhas
    · intro hp hm s hs hjoin
      rcases visited_of_leads h hs with hroot | ⟨x, hx, _⟩ | ⟨f, hf, _⟩ | hterm
      · exact hattr.noRootJoin s hroot hjoin
      · have hmem := (mem_allBranches.mp hx).1
        rw [hp] at hmem
        cases hmem
      · rw [hm] at hf
        cases hf
      · have hhas := not_terminal_of_has h (has_of_outgoing hjoin.2)
        rw [hterm] at hhas
        cases hhas
  · intro hclosed
    refine ⟨bodies_disjoint h, fun s hs => (outside_of_closed hclosed hs).2, ?_⟩
    intro s hs hjoin
    obtain ⟨hleads, hnot⟩ := outside_of_closed hclosed hs
    -- with a fan-out in the workflow the check finds an owner for every `@join`
    by_cases hfan : m.parallels = [] ∧ m.maps = []
    · exact hclosed.stray hfan.1 hfan.2 s hleads hjoin
    · obtain ⟨f, hdecl, howns⟩ := owner_of_atJoin (fanOut_checks h.parallel hfan).2.2 hjoin
      cases f with
      | parallel p =>
        obtain ⟨b, hb, hbody⟩ := howns
        exact hnot ⟨(p, b), mem_allBranches.mpr ⟨hdecl, hb⟩, hbody⟩
      | map f =>
        rw [← howns] at hs
        exact not_rootVisits_mapped h hdecl hs

theorem qualitySprint_attributed :
    compile {} (qualitySprint "") = .ok (qualitySprint "") ∧ Attributed (qualitySprint "") := by
  have hok : compile {} (qualitySprint "") = .ok (qualitySprint "") :=
    compile_eq_ok (by decide +kernel)
  have hentries : ∀ state ∈ (qualitySprint "").stateNames,
      ∀ target ∈ rootTargets (qualitySprint "") state, ¬ InBody (qualitySprint "") target := by
    decide +kernel
  refine ⟨hok, (attributed_iff hok).mpr ⟨by decide +kernel, ?_, ?_⟩⟩
  · intro state _ _ target ht
    have hhas := has_of_outgoing (outgoing_of_rootTargets ht)
    exact hentries state (mem_stateNames_of_has hhas) target ht
  · intro hp
    cases hp

/-- A collation that asks for one of the reviews again leads the root walk into its branch. -/
theorem qualitySprint_root_in_branch :
    compile {} (qualitySprint "review-security") = .ok (qualitySprint "review-security") ∧
      RootVisits (qualitySprint "review-security") "review-security" ∧
      InBody (qualitySprint "review-security") "review-security" ∧
      AtJoin (qualitySprint "review-security") "review-security" := by
  have hstep : ∀ s t, t ∈ rootTargets (qualitySprint "review-security") s → t ≠ targetJoin →
      RootStep (qualitySprint "review-security") s t :=
    fun s t ht hne => ⟨ht, fun hand => hne hand.2⟩
  have hfan := hstep "churn" "fan" (by decide) (by decide)
  have hcollate := hstep "fan" "collate" (by decide) (by decide)
  have hreview := hstep "collate" "review-security" (by decide +kernel) (by decide)
  refine ⟨compile_eq_ok (by decide +kernel), ?_, by decide +kernel, by decide +kernel,
    by decide⟩
  exact ((Relation.ReflTransGen.refl.tail hfan).tail hcollate).tail hreview

end Goobers.Workflow
