import Goobers.Workflow.Attribution

/-!
# Can a branch complete the run?

A branch of a parallel is over at `@join`, `@abort` or `@escalate`; the empty target, which
completes the run, is not for a branch to take. The check is the fixed point of "can reach
one of the three". So a task that goes to the empty target is refused, having no other way
on, but a gate is let through if any one of its branches has an exit.
-/

namespace Goobers.Workflow

open Lib

variable {target state : String} {x : Parallel × Branch}

/-! ## The walk of a branch -/

inductive StageResult where
  /-- No work, blocked, or failed with no gate to judge it: the branch is over. -/
  | ends
  /-- The task's next target is up. -/
  | goesOn
  /-- The gate decided. -/
  | outcome (name : String)
  deriving DecidableEq, Repr

section
variable (d : Definition)

def branchTarget (state : String) : StageResult → Option String
  | .ends => none
  | .goesOn => (d.task state).map Task.next
  | .outcome name =>
    match d.task state with
    | some _ => none
    | none => (d.gate state).bind (fun g => g.branches.get? name)

def branchWalk : String → List StageResult → List String
  | _, [] => []
  | state, r :: rest =>
    match branchTarget d state r with
    | none => []
    | some target =>
      target ::
        (if target = terminalComplete || isReservedAnyTarget target then []
        else branchWalk target rest)

/-- The branch is at a task or a gate and goes on to the next state. -/
def PassStep (state target : String) : Prop :=
  IsStage d state ∧ target ∈ d.outgoing state ∧
    (target = terminalComplete || isReservedAnyTarget target) = false

def Passes (start state : String) : Prop := Relation.ReflTransGen (PassStep d) start state

structure BranchesEnd : Prop where
  gates : ∀ x ∈ allBranches d, ∀ state ∈ branchBody d x.2.start, ∀ g,
    d.gate state = some g → terminalComplete ∉ g.targets
  /-- The body of a branch that starts at a state called `@join` is empty and goes unchecked. -/
  starts : ∀ x ∈ allBranches d, x.2.start = targetJoin → ∀ state, Passes d targetJoin state →
    IsStage d state → terminalComplete ∉ d.outgoing state

end

variable {d : Definition}

theorem mem_gate_targets {g : Gate} :
    target ∈ g.targets ↔ ∃ outcome, g.branches.get? outcome = some target := by
  unfold Gate.targets sortedKeys
  simp only [List.mem_filterMap, mem_sortStrings, List.mem_map]
  constructor
  · rintro ⟨outcome, _, hget⟩
    exact ⟨outcome, hget⟩
  · rintro ⟨outcome, hget⟩
    exact ⟨outcome, ⟨(outcome, target), GoMap.mem_rows.mpr hget, rfl⟩, hget⟩

/-- Each outgoing edge of a stage is taken for some result, and no other. -/
theorem exists_branchTarget_iff : (∃ r, branchTarget d state r = some target) ↔
      IsStage d state ∧ target ∈ d.outgoing state := by
  unfold IsStage Definition.outgoing
  -- a task goes on, a gate goes by its outcome, and anything else is no stage
  cases ht : d.task state with
  | some t =>
    constructor
    · rintro ⟨r, hr⟩
      cases r with
      | ends => cases hr
      | goesOn =>
        rw [branchTarget, ht] at hr
        cases hr
        exact ⟨.inl rfl, by simp⟩
      | outcome name => rw [branchTarget, ht] at hr; cases hr
    · rintro ⟨_, htarget⟩
      refine ⟨.goesOn, ?_⟩
      rw [branchTarget, ht, List.mem_singleton.mp htarget]
      rfl
  | none =>
    cases hg : d.gate state with
    | none =>
      constructor
      · rintro ⟨r, hr⟩
        cases r with
        | ends => cases hr
        | goesOn => rw [branchTarget, ht] at hr; cases hr
        | outcome name => rw [branchTarget, ht, hg] at hr; cases hr
      · rintro ⟨hstage, _⟩
        simp at hstage
    | some g =>
      rw [mem_gate_targets]
      constructor
      · rintro ⟨r, hr⟩
        cases r with
        | ends => cases hr
        | goesOn => rw [branchTarget, ht] at hr; cases hr
        | outcome name =>
          rw [branchTarget, ht, hg] at hr
          exact ⟨.inr rfl, name, hr⟩
      · rintro ⟨_, name, hget⟩
        refine ⟨.outcome name, ?_⟩
        rw [branchTarget, ht, hg]
        exact hget

theorem branchWalk_cons {r : StageResult} {rest : List StageResult}
    (h : branchTarget d state r = some target) : branchWalk d state (r :: rest) = target ::
      (if target = terminalComplete || isReservedAnyTarget target then []
      else branchWalk d target rest) := by
  rw [branchWalk, h]

/-- **What a branch can take**: the targets of the states it can get to. -/
theorem exists_mem_branchWalk_iff {start : String} :
    (∃ results, target ∈ branchWalk d start results) ↔
      ∃ state, Passes d start state ∧ IsStage d state ∧ target ∈ d.outgoing state := by
  constructor
  · rintro ⟨results, hmem⟩
    induction results generalizing start with
    | nil => cases hmem
    | cons r rest ih =>
      cases hr : branchTarget d start r with
      | none => rw [branchWalk, hr] at hmem; cases hmem
      | some first =>
        obtain ⟨hstage, hout⟩ := exists_branchTarget_iff.mp ⟨r, hr⟩
        rw [branchWalk_cons hr] at hmem
        rcases List.mem_cons.mp hmem with rfl | hmem
        · exact ⟨start, .refl, hstage, hout⟩
        · split_ifs at hmem with hopen
          · cases hmem
          · obtain ⟨state, hpass, hlast⟩ := ih hmem
            have hstep : PassStep d start first := ⟨hstage, hout, by simpa using hopen⟩
            exact ⟨state, hpass.head hstep, hlast⟩
  · -- one result for every step of the path, and one for the target
    rintro ⟨state, hpass, hstage, hout⟩
    induction hpass using Relation.ReflTransGen.head_induction_on with
    | refl =>
      obtain ⟨r, hr⟩ := exists_branchTarget_iff.mpr ⟨hstage, hout⟩
      exact ⟨[r], by rw [branchWalk_cons hr]; exact List.mem_cons_self⟩
    | head hstep _ ih =>
      obtain ⟨results, hmem⟩ := ih
      obtain ⟨hs, ho, hopen⟩ := hstep
      obtain ⟨r, hr⟩ := exists_branchTarget_iff.mpr ⟨hs, ho⟩
      refine ⟨r :: results, ?_⟩
      rw [branchWalk_cons hr, if_neg (by simpa using hopen)]
      exact List.mem_cons_of_mem _ hmem

/-! ## Walks and bodies -/

/-- A walk through a branch stays in its body. -/
theorem mem_branchBody_of_passes (h : Accepted d) (hx : x ∈ allBranches d)
    (hne : x.2.start ≠ targetJoin) (hpass : Passes d x.2.start state) :
    state ∈ branchBody d x.2.start := by
  induction hpass with
  | refl => exact start_mem_branchBody h hx hne
  | tail _ hstep ih =>
    obtain ⟨hstage, hout, hopen⟩ := hstep
    rw [Bool.or_eq_false_iff] at hopen
    refine mem_branchBody_of_outgoing ih hout ?_
    rcases target_of_stage h hstage hout with hterm | hjoin | hin
    · unfold isTerminal at hterm
      unfold isReservedAnyTarget at hopen
      rw [Bool.or_eq_false_iff] at hopen
      simp [hopen.1, hopen.2.1] at hterm
    · rw [hjoin] at hopen
      cases hopen.2
    · exact hin

theorem passes_of_mem_branchBody (h : Accepted d) (hx : x ∈ allBranches d)
    (hs : state ∈ branchBody d x.2.start) : Passes d x.2.start state := by
  obtain ⟨hin, hpath⟩ := mem_branchBody_iff.mp hs
  clear hs
  -- all states of the path are inside: the last by `hin`, the others by the edges that leave them
  induction hpath with
  | refl => exact .refl
  | @tail a b hpath hedge ih =>
    have ha : a ∈ branchBody d x.2.start := mem_branchBody_iff.mpr ⟨hedge.1, hpath⟩
    have hstage := stage_of_inBody h ⟨x, hx, ha⟩
    refine (ih hedge.1).tail ⟨hstage, hedge.2, ?_⟩
    simp [hin.1, hin.2.1]

theorem next_ne_complete (h : Accepted d) (hx : x ∈ allBranches d)
    (hs : state ∈ branchBody d x.2.start) {t : Task} (ht : d.task state = some t) :
    t.next ≠ terminalComplete := by
  obtain ⟨hp, hb⟩ := mem_allBranches.mp hx
  have hexit := (member_checks h hp hb hs).2
  have hrule := saturate_induction
    (P := fun s => ∃ exits : List String, (d.outgoing s).any (fun t =>
      isReservedBranchTarget t || isReservedTarget t ||
        (t ∈ branchBody d x.2.start && t ∈ exits)) = true)
    (fun exits s _ _ hr => ⟨exits, hr⟩) (by simp) state hexit
  obtain ⟨exits, hrule⟩ := hrule
  intro hnext
  have hout : d.outgoing state = [terminalComplete] := by
    unfold Definition.outgoing
    rw [ht]
    simp [hnext]
  have hnot : terminalComplete ∉ branchBody d x.2.start := fun hmem =>
    (mem_branchBody_iff.mp hmem).1.1 rfl
  rw [hout, List.any_cons, List.any_nil, decide_eq_false hnot] at hrule
  cases hrule

/--
No branch of an accepted workflow takes the empty target, whatever its stages return,
exactly if none of its gates has a branch that does.
-/
theorem branch_never_completes_iff {other : OtherProblems} {m : Definition}
    (hok : compile other d = .ok m) :
    (∀ x ∈ allBranches m, ∀ results, terminalComplete ∉ branchWalk m x.2.start results) ↔
      BranchesEnd m := by
  obtain ⟨rfl, h⟩ := accepted_of_compile hok
  constructor
  · intro hnever
    refine ⟨?_, ?_⟩
    · intro x hx state hs g hg hmem
      have htask := h.task_none hg
      have hout : terminalComplete ∈ m.outgoing state := by
        unfold Definition.outgoing
        rw [htask, hg]
        exact hmem
      obtain ⟨results, hres⟩ := exists_mem_branchWalk_iff.mpr
        ⟨state, passes_of_mem_branchBody h hx hs, .inr (by rw [hg]; rfl), hout⟩
      exact hnever x hx results hres
    · intro x hx hstart state hpass hstage hout
      rw [← hstart] at hpass
      obtain ⟨results, hres⟩ := exists_mem_branchWalk_iff.mpr ⟨state, hpass, hstage, hout⟩
      exact hnever x hx results hres
  · intro hends x hx results hmem
    obtain ⟨state, hpass, hstage, hout⟩ := exists_mem_branchWalk_iff.mp ⟨results, hmem⟩
    -- a branch that starts at `@join` has an empty body, so nothing of it was checked
    by_cases hstart : x.2.start = targetJoin
    · rw [hstart] at hpass
      exact hends.starts x hx hstart state hpass hstage hout
    · have hbody := mem_branchBody_of_passes h hx hstart hpass
      unfold Definition.outgoing at hout
      cases ht : m.task state with
      | some t =>
        rw [ht] at hout
        exact next_ne_complete h hx hbody ht (List.mem_singleton.mp hout).symm
      | none =>
        cases hg : m.gate state with
        | none => exact absurd hstage (not_stage_iff.mpr ⟨ht, hg⟩)
        | some g =>
          rw [ht, hg] at hout
          exact hends.gates x hx state hbody g hg hout

/-! ## A gate in a branch -/

/-- The sprint with a gate after its security review, which ends the branch or goes to `fail`. -/
def gatedSprint (fail : String) : Definition :=
  { qualitySprint "" with
    tasks :=
      [ trueTask "churn" "fan", trueTask "review-security" "verdict",
        trueTask "review-perf" targetJoin, trueTask "collate" "" ]
    gates :=
      [ { name := "verdict"
          branches := ((∅ : GoMap String String).put "pass" targetJoin).put "fail" fail } ] }

/-- A gate that asks for the review again keeps the branch going. -/
theorem gatedSprint_repass :
    compile {} (gatedSprint "review-security") = .ok (gatedSprint "review-security") ∧
      ∀ x ∈ allBranches (gatedSprint "review-security"), ∀ results,
        terminalComplete ∉ branchWalk (gatedSprint "review-security") x.2.start results := by
  have hok : compile {} (gatedSprint "review-security") = .ok (gatedSprint "review-security") :=
    compile_eq_ok (by decide +kernel)
  refine ⟨hok, (branch_never_completes_iff hok).mpr ⟨?_, ?_⟩⟩
  · have hgates : ∀ g ∈ (gatedSprint "review-security").gates, terminalComplete ∉ g.targets := by
      decide
    intro x _ state _ g hg
    exact hgates g (mem_of_gate hg).1
  · have hstarts : ∀ x ∈ allBranches (gatedSprint "review-security"),
        x.2.start ≠ targetJoin := by decide
    intro x hx hstart
    exact absurd hstart (hstarts x hx)

theorem gatedSprint_completes :
    compile {} (gatedSprint "") = .ok (gatedSprint "") ∧
      terminalComplete ∈ branchWalk (gatedSprint "") "review-security"
        [.goesOn, .outcome "fail"] :=
  ⟨compile_eq_ok (by decide +kernel), by decide +kernel⟩

end Goobers.Workflow
