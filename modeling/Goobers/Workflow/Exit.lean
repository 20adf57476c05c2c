import Goobers.Workflow.Compile

/-!
# Does every state of an accepted workflow have a way out?

The check takes `@join` for an exit, on the ground that the join's own exit is looked
at for itself. But the join's exit may in turn be an `@join`, that of a branch it leads
back into, and so every state of a loop through a fan-out can pass without the run ever
getting to a terminal target. And without any fan-out an `@join` is not looked at again.

The states that do finish are told by the `@join`s: a workflow that was accepted is free
of such loops exactly if no group of fan-outs has all the exits of its joins inside the
group, and no `@join` without a fan-out is the only way out.
-/

namespace Goobers.Workflow

open Lib List

variable {state name : String}

/-! ## Moves -/

/-- A parallel or a map. -/
inductive FanOut where
  | parallel (p : Parallel)
  | map (f : Map)

namespace FanOut

def join : FanOut → String
  | .parallel p => p.join
  | .map f => f.join

def Declared (d : Definition) : FanOut → Prop
  | .parallel p => p ∈ d.parallels
  | .map f => f ∈ d.maps

def Owns (d : Definition) (f : FanOut) (state : String) : Prop :=
  f.Declared d ∧
    match f with
    | .parallel p => ∃ b ∈ p.branches, state ∈ branchBody d b.start
    | .map f => f.task = state

end FanOut

section
variable (d : Definition)

/-- A task or a gate, whose targets may be `@join`; those of a fan-out are states. -/
def IsStage (state : String) : Prop :=
  (d.task state).isSome = true ∨ (d.gate state).isSome = true

/-- The state ends a branch. -/
def AtJoin (state : String) : Prop := IsStage d state ∧ targetJoin ∈ d.outgoing state

/-- A transition to a declared target. -/
def Goes (state target : String) : Prop :=
  target ∈ d.outgoing state ∧ ¬ (IsStage d state ∧ target = targetJoin)

/-- A transition of the run: `@join` moves to the join of the fan-out that owns the state. -/
inductive Step : String → String → Prop
  | goes {state target : String} (h : Goes d state target) : Step state target
  | join {state : String} {f : FanOut} (h : AtJoin d state) (howns : f.Owns d state) :
      Step state f.join

/-- Some path from the state ends the run. -/
def Finishes (state : String) : Prop :=
  ∃ target, Relation.ReflTransGen (Step d) state target ∧ isTerminal target = true

/--
A group of fan-outs with no way out: by declared transitions alone, their joins reach
no terminal target, and no `@join` but those of the group.
-/
structure ExitFree (group : FanOut → Prop) : Prop where
  nonempty : ∃ f, group f
  declared : ∀ f, group f → f.Declared d
  terminal : ∀ f, group f → ∀ state, Relation.ReflTransGen (Goes d) f.join state →
    isTerminal state = false
  joins : ∀ f, group f → ∀ state, Relation.ReflTransGen (Goes d) f.join state →
    AtJoin d state → ∀ owner : FanOut, owner.Owns d state → group owner

instance (state : String) : Decidable (IsStage d state) :=
  inferInstanceAs (Decidable (_ ∨ _))

instance (state target : String) : Decidable (Goes d state target) :=
  inferInstanceAs (Decidable (_ ∧ _))

structure JoinsLeadOut : Prop where
  /-- Without a fan-out to join, the state has another way out. -/
  unowned : d.parallels = [] → d.maps = [] → ∀ state ∈ d.stateNames, AtJoin d state →
    ∃ target, Relation.ReflTransGen (Goes d) state target ∧ isTerminal target = true
  groups : ∀ group, ¬ ExitFree d group

end

variable {d : Definition}

theorem Finishes.of_step {target : String} (hstep : Step d state target) (h : Finishes d target) :
    Finishes d state := by
  obtain ⟨last, hpath, hlast⟩ := h
  exact ⟨last, Relation.ReflTransGen.head hstep hpath, hlast⟩

theorem Finishes.of_terminal (h : isTerminal state = true) : Finishes d state :=
  ⟨state, Relation.ReflTransGen.refl, h⟩

theorem FanOut.Declared.not_empty {f : FanOut} (h : f.Declared d) :
    ¬ (d.parallels = [] ∧ d.maps = []) := by
  rintro ⟨hp, hm⟩
  cases f with
  | parallel p =>
    rw [FanOut.Declared, hp] at h
    cases h
  | map f =>
    rw [FanOut.Declared, hm] at h
    cases h

/-! ## Lookups -/

theorem mem_of_task {t : Task} (h : d.task name = some t) : t ∈ d.tasks ∧ t.name = name := by
  have hname := find?_some h
  exact ⟨mem_reverse.mp (mem_of_find?_eq_some h), by simpa using hname⟩

theorem mem_of_gate {g : Gate} (h : d.gate name = some g) : g ∈ d.gates ∧ g.name = name := by
  have hname := find?_some h
  exact ⟨mem_reverse.mp (mem_of_find?_eq_some h), by simpa using hname⟩

theorem mem_of_parallel {p : Parallel} (h : d.parallel name = some p) : p ∈ d.parallels :=
  mem_reverse.mp (mem_of_find?_eq_some h)

theorem mem_of_map {f : Map} (h : d.map name = some f) : f ∈ d.maps :=
  mem_reverse.mp (mem_of_find?_eq_some h)

theorem name_of_map {f : Map} (h : d.map state = some f) : f.name = state := by
  have hname := find?_some h
  exact of_decide_eq_true hname

theorem not_stage_iff : ¬ IsStage d state ↔ d.task state = none ∧ d.gate state = none := by
  unfold IsStage
  rw [not_or, Bool.not_eq_true, Bool.not_eq_true, Option.isSome_eq_false_iff,
    Option.isSome_eq_false_iff, Option.isNone_iff_eq_none, Option.isNone_iff_eq_none]

theorem mem_stateNames_of_has (h : d.has name = true) : name ∈ d.stateNames := by
  have hfind : ∀ {α : Type} (l : List α) (key : α → String),
      (l.reverse.find? (fun a => key a = name)).isSome = true → name ∈ l.map key := by
    intro α l key hsome
    obtain ⟨a, ha, hname⟩ := find?_isSome.mp hsome
    exact mem_map.mpr ⟨a, mem_reverse.mp ha, by simpa using hname⟩
  unfold Definition.has at h
  unfold Definition.stateNames
  simp only [Bool.or_eq_true] at h
  simp only [mem_append]
  rcases h with ((htask | hgate) | hparallel) | hmap
  · exact .inl (.inl (.inl (hfind d.tasks Task.name htask)))
  · exact .inl (.inl (.inr (hfind d.gates Gate.name hgate)))
  · exact .inl (.inr (hfind d.parallels Parallel.name hparallel))
  · exact .inr (hfind d.maps Map.name hmap)

theorem fanOut_of_outgoing {target : String} (hstage : ¬ IsStage d state)
    (h : target ∈ d.outgoing state) : ∃ f : FanOut, f.Declared d ∧ f.join ∈ d.outgoing state := by
  obtain ⟨htask, hgate⟩ := not_stage_iff.mp hstage
  unfold Definition.outgoing at h ⊢
  rw [htask, hgate] at h ⊢
  cases hp : d.parallel state with
  | some p =>
    refine ⟨.parallel p, mem_of_parallel hp, ?_⟩
    show p.join ∈ p.targets
    unfold Parallel.targets
    simp
  | none =>
    rw [hp] at h
    cases hf : d.map state with
    | some f =>
      refine ⟨.map f, mem_of_map hf, ?_⟩
      show f.join ∈ f.targets
      unfold Map.targets
      simp
    | none =>
      rw [hf] at h
      cases h

/-! ## Owners -/

theorem branch_of_branchOwnership {ref : BranchRef}
    (h : (branchOwnership d).get? state = some ref) :
    ∃ p ∈ d.parallels, ∃ b ∈ p.branches, state ∈ branchBody d b.start ∧
      ref = ⟨p.name, b.name⟩ := by
  have hrow := GoMap.row_of_get?_foldl_putNew h
  obtain ⟨p, hp, hrow⟩ := mem_flatMap.mp hrow
  obtain ⟨b, hb, hrow⟩ := mem_flatMap.mp hrow
  obtain ⟨s, hs, heq⟩ := mem_map.mp hrow
  injection heq with hstate href
  subst hstate
  exact ⟨p, hp, b, hb, hs, href.symm⟩

theorem owns_of_branchOwnership {ref : BranchRef} (h : (branchOwnership d).get? state = some ref) :
    ∃ f : FanOut, f.Owns d state := by
  obtain ⟨p, hp, b, hb, hs, _⟩ := branch_of_branchOwnership h
  exact ⟨.parallel p, hp, b, hb, hs⟩

theorem owns_of_mapOwnership (h : (mapOwnership d).get? state = some name) :
    ∃ f : FanOut, f.Owns d state := by
  have hstep : ∀ (m : GoMap String String) (f : Map) (k v : String),
      (if (m.get? f.task).isNone ∧ f.task ≠ "" then m.put f.task f.name else m).get? k = some v →
        m.get? k = some v ∨ f.task = k := by
    intro m f k v hget
    split at hget
    · rw [GoMap.get?_put] at hget
      split_ifs at hget with hk
      · exact .inr hk.symm
      · exact .inl hget
    · exact .inl hget
  rcases GoMap.get?_foldl_cases hstep h with hempty | ⟨f, hf, htask⟩
  · cases hempty
  · exact ⟨.map f, hf, htask⟩

/-- A state that goes to a join is in the body of some fan-out. -/
theorem owner_of_atJoin (h : strayJoinProblems d (branchOwnership d) = [])
    (hjoin : AtJoin d state) :
    ∃ f : FanOut, f.Owns d state := by
  obtain ⟨hstage, htarget⟩ := hjoin
  obtain ⟨htasks, hgates⟩ := append_eq_nil_iff.mp h
  unfold Definition.outgoing at htarget
  cases ht : d.task state with
  | some t =>
    rw [ht] at htarget
    obtain ⟨hmem, rfl⟩ := mem_of_task ht
    have hnext : isReservedBranchTarget t.next = true := by
      rw [mem_singleton] at htarget
      rw [← htarget]
      rfl
    have hnil := flatMap_eq_nil_iff.mp htasks t hmem
    rw [hnext] at hnil
    -- a join target of a task outside of every body would have been reported
    cases hmapped : (mapOwnership d).get? t.name with
    | some name => exact owns_of_mapOwnership hmapped
    | none =>
      cases howner : (branchOwnership d).get? t.name with
      | some ref => exact owns_of_branchOwnership howner
      | none =>
        rw [hmapped, howner] at hnil
        cases hnil
  | none =>
    rw [ht] at htarget
    cases hg : d.gate state with
    | none =>
      exact absurd hstage (not_stage_iff.mpr ⟨ht, hg⟩)
    | some g =>
      rw [hg] at htarget
      obtain ⟨hmem, rfl⟩ := mem_of_gate hg
      obtain ⟨outcome, houtcome, hget⟩ := mem_filterMap.mp htarget
      have hnil := flatMap_eq_nil_iff.mp
        (flatMap_eq_nil_iff.mp hgates g hmem) outcome houtcome
      rw [hget] at hnil
      cases howner : (branchOwnership d).get? g.name with
      | some ref => exact owns_of_branchOwnership howner
      | none =>
        rw [howner] at hnil
        cases hnil

/-! ## States that do not finish -/

theorem fanOut_checks (h : parallelProblems d = [])
    (hfan : ¬ (d.parallels = [] ∧ d.maps = [])) :
    mapProblems d (branchOwnership d) = [] ∧ joinEntryProblems d = [] ∧
      strayJoinProblems d (branchOwnership d) = [] := by
  unfold parallelProblems at h
  rw [if_neg (by simpa using hfan)] at h
  have hnil := sortStrings_eq_nil_iff.mp h
  simp only [append_eq_nil_iff] at hnil
  exact ⟨hnil.1.1.1.2, hnil.1.1.2, hnil.1.2⟩

theorem join_mem_stateNames (h : Accepted d) {f : FanOut} (hf : f.Declared d)
    (hjoin : f.join ≠ "") : f.join ∈ d.stateNames := by
  refine mem_stateNames_of_has ?_
  obtain ⟨hmaps, hentry, -⟩ := fanOut_checks h.parallel hf.not_empty
  cases f with
  | parallel p =>
    change p.join ≠ "" at hjoin
    show d.has p.join = true
    unfold joinEntryProblems at hentry
    rw [if_neg] at hentry
    · simp only [append_eq_nil_iff] at hentry
      have hnil := flatMap_eq_nil_iff.mp hentry.1.1.1 p hf
      rw [if_neg hjoin, append_eq_nil_iff] at hnil
      simpa using hnil.1
    · rw [Bool.and_eq_true, all_eq_true]
      rintro ⟨hall, -⟩
      exact hjoin (by simpa using hall p hf)
  | map f =>
    change f.join ≠ "" at hjoin
    show d.has f.join = true
    have hnil := flatMap_eq_nil_iff.mp hmaps f hf
    unfold mapShapeProblems mapJoinProblems at hnil
    simp only [append_eq_nil_iff] at hnil
    have hnil := hnil.1.1.1.1.2
    rw [if_neg hjoin] at hnil
    by_contra hhas
    rw [if_pos (by simpa using hhas)] at hnil
    cases hnil

/-- Where a state cannot finish, some join cannot finish either. -/
theorem stuck_join_of_stuck (h : Accepted d) (hstate : state ∈ d.stateNames)
    (hstuck : ¬ Finishes d state) : (∃ f : FanOut, f.Declared d ∧ ¬ Finishes d f.join) ∨
      (d.parallels = [] ∧ d.maps = [] ∧ ∃ s ∈ d.stateNames, AtJoin d s ∧ ¬ Finishes d s) := by
  have hexit := exits_of_reachabilityProblems h.reachability hstate
  refine saturate_induction
    (P := fun s => ¬ Finishes d s → (∃ f : FanOut, f.Declared d ∧ ¬ Finishes d f.join) ∨
      (d.parallels = [] ∧ d.maps = [] ∧ ∃ s ∈ d.stateNames, AtJoin d s ∧ ¬ Finishes d s))
    ?_ (by simp) state hexit hstuck
  intro known s hs hknown hrule hstuck
  obtain ⟨t, ht, hexits⟩ := any_eq_true.mp hrule
  by_cases hjoin : t = targetJoin
  · subst hjoin
    by_cases hstage : IsStage d s
    · by_cases hfan : d.parallels = [] ∧ d.maps = []
      · exact .inr ⟨hfan.1, hfan.2, s, hs, ⟨hstage, ht⟩, hstuck⟩
      · obtain ⟨f, hf⟩ := owner_of_atJoin (fanOut_checks h.parallel hfan).2.2 ⟨hstage, ht⟩
        exact .inl ⟨f, hf.1, fun hfin => hstuck (hfin.of_step (.join ⟨hstage, ht⟩ hf))⟩
    · obtain ⟨f, hf, hout⟩ := fanOut_of_outgoing hstage ht
      have hgoes : Goes d s f.join := ⟨hout, fun hand => hstage hand.1⟩
      exact .inl ⟨f, hf, fun hfin => hstuck (hfin.of_step (.goes hgoes))⟩
  · have hgoes : Goes d s t := ⟨ht, fun hand => hjoin hand.2⟩
    have hstuck' : ¬ Finishes d t := fun hfin => hstuck (hfin.of_step (.goes hgoes))
    have hnot : isTerminal t = false := by
      rw [Bool.eq_false_iff]
      exact fun hterm => hstuck' (.of_terminal hterm)
    have hin : t ∈ known := by
      simpa [hnot, isReservedBranchTarget, hjoin] using hexits
    exact hknown t hin hstuck'

theorem exitFree_of_stuck {f : FanOut} (hf : f.Declared d) (hstuck : ¬ Finishes d f.join) :
    ExitFree d (fun g => g.Declared d ∧ ¬ Finishes d g.join) := by
  have hreach : ∀ g : FanOut, ¬ Finishes d g.join → ∀ state,
      Relation.ReflTransGen (Goes d) g.join state → ¬ Finishes d state := by
    intro g hg state hpath hfin
    obtain ⟨last, htail, hlast⟩ := hfin
    have hsteps := Relation.ReflTransGen.mono (fun _ _ => Step.goes) _ _ hpath
    exact hg ⟨last, hsteps.trans htail, hlast⟩
  refine ⟨⟨f, hf, hstuck⟩, fun g hg => hg.1, ?_, ?_⟩
  · intro g hg state hpath
    rw [Bool.eq_false_iff]
    exact fun hterm => hreach g hg.2 state hpath (.of_terminal hterm)
  · intro g hg state hpath hjoin owner howner
    refine ⟨howner.1, fun hfin => ?_⟩
    exact hreach g hg.2 state hpath (hfin.of_step (.join hjoin howner))

/-- A group of fan-outs without an exit keeps every one of its joins from finishing. -/
theorem ExitFree.not_finishes {group : FanOut → Prop} (h : ExitFree d group) {f : FanOut}
    (hf : group f) : ¬ Finishes d f.join := by
  rintro ⟨last, hpath, hlast⟩
  -- every state of the path is behind some join of the group
  have hinv : ∃ g, group g ∧ Relation.ReflTransGen (Goes d) g.join last := by
    clear hlast
    induction hpath with
    | refl => exact ⟨f, hf, .refl⟩
    | tail _ hstep ih =>
      obtain ⟨g, hg, hreach⟩ := ih
      cases hstep with
      | goes hgoes => exact ⟨g, hg, hreach.tail hgoes⟩
      | join hjoin howns => exact ⟨_, h.joins g hg _ hreach hjoin _ howns, .refl⟩
  obtain ⟨g, hg, hreach⟩ := hinv
  rw [h.terminal g hg last hreach] at hlast
  cases hlast

theorem goes_of_step (hp : d.parallels = []) (hm : d.maps = []) {target : String}
    (h : Step d state target) : Goes d state target := by
  cases h with
  | goes hgoes => exact hgoes
  | join _ howns => exact absurd ⟨hp, hm⟩ howns.1.not_empty

/--
Every state of an accepted workflow has a way out of the run exactly if every `@join` has one.
-/
theorem states_finish_iff {other : OtherProblems} {d m : Definition}
    (h : compile other d = .ok m) :
    (∀ state ∈ m.stateNames, Finishes m state) ↔ JoinsLeadOut m := by
  obtain ⟨rfl, haccepted⟩ := accepted_of_compile h
  constructor
  · intro hall
    refine ⟨fun hp hm state hstate _ => ?_, fun group hfree => ?_⟩
    · obtain ⟨last, hpath, hlast⟩ := hall state hstate
      exact ⟨last, Relation.ReflTransGen.mono (fun _ _ => goes_of_step hp hm) _ _ hpath, hlast⟩
    · obtain ⟨f, hf⟩ := hfree.nonempty
      have hjoin : f.join ≠ "" := by
        intro hempty
        have hterm := hfree.terminal f hf f.join .refl
        rw [hempty] at hterm
        cases hterm
      have hmem := join_mem_stateNames haccepted (hfree.declared f hf) hjoin
      exact hfree.not_finishes hf (hall f.join hmem)
  · intro hout state hstate
    by_contra hstuck
    rcases stuck_join_of_stuck haccepted hstate hstuck with
      ⟨f, hf, hjoin⟩ | ⟨hp, hm, s, hs, hjoin, hstray⟩
    · exact hout.groups _ (exitFree_of_stuck hf hjoin)
    · obtain ⟨last, hpath, hlast⟩ := hout.unowned hp hm s hs hjoin
      exact hstray ⟨last, Relation.ReflTransGen.mono (fun _ _ => Step.goes) _ _ hpath, hlast⟩

/-! ## A fan-out with a join that goes on -/

def trueTask (name next : String) : Task :=
  { name, next, run := some { command := some ["true"], workspace := .scratch } }

def reviewFan : Parallel :=
  { name := "fan", failurePolicy := .continueOnError, join := "collate",
    branches :=
      [ { name := "security", start := "review-security" },
        { name := "perf", start := "review-perf" } ] }

/-- Two reviews side by side and the collation of what they find, which goes on to `next`. -/
def qualitySprint (next : String) : Definition :=
  { name := "quality-sprint"
    start := "churn"
    tasks :=
      [ trueTask "churn" "fan", trueTask "review-security" targetJoin,
        trueTask "review-perf" targetJoin, trueTask "collate" next ]
    parallels := [reviewFan] }

theorem compile_eq_ok {other : OtherProblems} (h : compileProblems other d = []) :
    compile other d = .ok d := by
  unfold compile
  rw [h]

/-- If the collation ends the run, then every `@join` has its way out. -/
theorem qualitySprint_joinsLeadOut :
    compile {} (qualitySprint "") = .ok (qualitySprint "") ∧ JoinsLeadOut (qualitySprint "") := by
  have hok : compile {} (qualitySprint "") = .ok (qualitySprint "") :=
    compile_eq_ok (by decide +kernel)
  refine ⟨hok, (states_finish_iff hok).mp ?_⟩
  have hend : Goes (qualitySprint "") "collate" "" := by decide
  have hskip : Goes (qualitySprint "") "fan" "collate" := by decide
  have hfan : Goes (qualitySprint "") "churn" "fan" := by decide
  have hcollate : Finishes (qualitySprint "") "collate" := .of_step (.goes hend) (.of_terminal rfl)
  have hreview : ∀ b ∈ reviewFan.branches, Finishes (qualitySprint "") b.start := by
    intro b hb
    have hjoin : ∀ b ∈ reviewFan.branches, IsStage (qualitySprint "") b.start ∧
        targetJoin ∈ (qualitySprint "").outgoing b.start := by decide
    have hbody : ∀ b ∈ reviewFan.branches, b.start ∈ branchBody (qualitySprint "") b.start := by
      decide +kernel
    have howns : (FanOut.parallel reviewFan).Owns (qualitySprint "") b.start :=
      ⟨mem_singleton.mpr rfl, b, hb, hbody b hb⟩
    exact .of_step (.join (hjoin b hb) howns) hcollate
  intro state hstate
  have hstate : state ∈ ["churn", "review-security", "review-perf", "collate", "fan"] := hstate
  simp only [mem_cons, not_mem_nil, or_false] at hstate
  rcases hstate with rfl | rfl | rfl | rfl | rfl
  · exact .of_step (.goes hfan) (.of_step (.goes hskip) hcollate)
  · exact hreview { name := "security", start := "review-security" } (by decide)
  · exact hreview { name := "perf", start := "review-perf" } (by decide)
  · exact hcollate
  · exact .of_step (.goes hskip) hcollate

/-- If it starts the reviews again, the workflow is accepted, and no state of it finishes. -/
theorem qualitySprint_never_finishes :
    compile {} (qualitySprint "fan") = .ok (qualitySprint "fan") ∧
      ∀ state ∈ (qualitySprint "fan").stateNames, ¬ Finishes (qualitySprint "fan") state := by
  refine ⟨compile_eq_ok (by decide +kernel), ?_⟩
  rintro state hstate ⟨last, hpath, hlast⟩
  -- whatever the run does, it is in a state of the workflow
  have hgoes : ∀ state ∈ (qualitySprint "fan").stateNames,
      ∀ target ∈ (qualitySprint "fan").outgoing state, Goes (qualitySprint "fan") state target →
        target ∈ (qualitySprint "fan").stateNames := by decide
  have hmem : last ∈ (qualitySprint "fan").stateNames := by
    clear hlast
    induction hpath with
    | refl => exact hstate
    | tail _ hstep ih =>
      cases hstep with
      | goes h => exact hgoes _ ih _ h.1 h
      | @join f _ howns =>
        have hf := howns.1
        cases f with
        | parallel p =>
          rw [mem_singleton.mp hf]
          decide
        | map f => cases hf
  have hnot : ∀ state ∈ (qualitySprint "fan").stateNames, isTerminal state = false := by decide
  rw [hnot last hmem] at hlast
  cases hlast

end Goobers.Workflow
