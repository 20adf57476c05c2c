import Goobers.Lib.Dataflow
import Goobers.Workflow.Attribution

/-!
# Repository handoff

A producer is a task that advances the run branch. A task that runs on the branch has
to declare the producers that may be the last one before it on some path, and no others,
so the check computes for every state the producers that reach it: those from which a
path leads to the state that passes no other producer.

The paths are those of the run. Besides the declared transitions there is the way from
the end of a branch to the join of its fan-out, and, as a branch may fail anywhere, from
every state of a branch to the fan-out's `onFailure`. The check has the latter for the
branches of parallels only. What it computes are producers that reach the state all the
same, and it has all of them where no mapped task that can fail over to a state has a
producer in it.
-/

namespace Goobers.Workflow

open Lib GoMap

variable {state target p : String} {reaching : List (String × String)} {producers : List String}

/-! ## Producers and consumers -/

/-- The task runs on the writable worktree; the workspace of its run goes before its own. -/
def writesRepoWorkspace (t : Task) : Bool :=
  let workspace : WorkspaceMode :=
    match t.run with
    | some run => if run.workspace ≠ .unset then run.workspace else t.workspace
    | none => t.workspace
  workspace = .unset || workspace = .repo

def refAdvancingBuiltins : List String := ["rebase-pr", "update-behind-pr"]

def isRepoProducer (t : Task) : Bool :=
  if t.commitsRepo then true
  else if t.type = .agentic then writesRepoWorkspace t
  else
    match t.run.bind DeterministicRun.command with
    | some (executable :: builtin :: _) =>
      executable = "goobers" && builtin ∈ refAdvancingBuiltins
    | _ => false

def isRepoConsumer (t : Task) : Bool := writesRepoWorkspace t

/-! ## Reaching producers -/

section
variable (d : Definition)

def repoProducers : List String := (d.tasks.filter isRepoProducer).map Task.name

/-- The states that end a branch of a fan-out or its mapped task, each with the join. -/
def joinRows : List (String × String) :=
  d.parallels.flatMap (fun p => p.branches.flatMap (fun b =>
    (joinTerminalStates d b.start).map (fun s => (s, p.join)))) ++
  d.maps.flatMap (fun f => (joinTerminalStates d f.task).map (fun s => (s, f.join)))

def graphJoinTargets : GoMap String String :=
  (joinRows d).foldl (fun targets row => targets.put row.1 row.2) ∅

def graphTarget (source target : String) (joinTargets : GoMap String String) : String :=
  if target = targetJoin then (joinTargets.get? source).getD target else target

def failureStates : GoMap String String :=
  d.parallels.foldl (fun byParallel p =>
    if p.onFailure ≠ "" && isStateName p.onFailure then byParallel.put p.name p.onFailure
    else byParallel) ∅

def branchFailureTargets : GoMap String String :=
  (branchOwnership d).collect (fun _ ref => (failureStates d).get? ref.parallel)

/-- The declared states that what a state passes on flows to. -/
def handoffTargets (joinTargets failureTargets : GoMap String String) (state : String) :
    List String :=
  let targets := (d.outgoing state).map (fun target => graphTarget state target joinTargets)
  (targets ++ (failureTargets.get? state).toList).filter (fun target =>
    isStateName target && target ∈ d.stateNames)

/-- Each state with a producer that reaches it, and the producers; `none` on a broken graph. -/
def reachingProducers : Option (List (String × String) × List String) :=
  if structuralProblems d ≠ [] then none
  else
    let producers := repoProducers d
    let next := handoffTargets d (graphJoinTargets d) (branchFailureTargets d)
    some (Dataflow.reaching (fun s => s ∈ producers) next d.stateNames, producers)

end

/-- The producers a state has to declare: those that reach it, without itself. -/
def requiredCoverage (name : String) (reaching : List (String × String)) : List String :=
  (reaching.filter (fun row => row.1 = name && row.2 ≠ name)).map Prod.snd

/-! ## The check -/

def quotedList (names : List String) : String := ", ".intercalate (names.map quote)

def repoFromHint (names : List String) : String :=
  match names with
  | [name] => name
  | _ => "[" ++ ", ".intercalate names ++ "]"

section
variable (d : Definition)

/-- The check of one declared producer. -/
def repoFromEntryProblems (t : Task) (producers required : List String) (entry : String) :
    List String :=
  let place := "task " ++ quote t.name ++ " repoFrom "
  if entry = "" then [place ++ "contains an empty stage name"]
  else if entry = t.name then
    [place ++ "names the stage itself; its own prior attempts are attempt semantics, never a " ++
      "handoff edge — remove " ++
      quote entry ++ " from the list"]
  else if entry ∉ d.tasks.map Task.name then
    [place ++ "names " ++ quote entry ++ ", which is not a defined task (WF022)"]
  else if entry ∉ producers then
    [place ++ "names " ++ quote entry ++
      ", which never advances the run branch (not an agentic repo stage, a ref-advancing " ++
        "builtin, or a commitsRepo stage) — a dead entry (WF022)"]
  else
    problemIf (entry ∉ required)
      (place ++ "names " ++ quote entry ++ ", but no forward path reaches " ++ quote t.name ++
        " with " ++ quote entry ++ " as its last producer — a dead entry (WF022)")

def taskHandoffProblems (reaching : List (String × String)) (producers : List String)
    (t : Task) : List String :=
  if !isRepoConsumer t then
    problemIf (!t.repoFrom.isEmpty)
      ("task " ++ quote t.name ++ " declares repoFrom but does not run on the writable repo " ++
        "workspace, so there is no repo state to hand off; remove repoFrom or make the stage " ++
      "workspace: repo")
  else
    let required := sortStrings (requiredCoverage t.name reaching)
    if !required.isEmpty && t.repoFrom.isEmpty then
      ["task " ++ quote t.name ++ " runs on the repo workspace after producer(s) " ++
        quotedList required ++
        " but declares no repoFrom — the silent repo chain is inexpressible in DSL 3.0 (WF022, " ++
          "dsl-3.0.md §4): declare repoFrom: " ++
        repoFromHint required ++ ", or take the stage off the repo workspace"]
    else
      required.flatMap (fun producer =>
        problemIf (producer ∉ t.repoFrom)
          ("task " ++ quote t.name ++ " repoFrom " ++ quotedList t.repoFrom ++
            " does not cover producer " ++ quote producer ++
            ", which can be the last stage to advance the run branch before " ++ quote t.name ++
            " on some path; on that path the declared fetch would silently discard " ++
            quote producer ++ "'s commits — declare repoFrom: " ++ repoFromHint required ++
            " (WF022)")) ++
      t.repoFrom.flatMap (repoFromEntryProblems d t producers required)

def gateHandoffProblems (reaching : List (String × String)) (g : Gate) : List String :=
  if g.evaluator ≠ .agentic || g.agenticWorkspace ≠ some .repoReadOnly then []
  else
    let required := sortStrings (requiredCoverage g.name reaching)
    problemIf (!required.isEmpty)
      ("gate " ++ quote g.name ++ " uses agentic.workspace: repo-readonly after producer(s) " ++
        quotedList required ++
        "; agentic gates inherit the subject's repo state, but repo-readonly checks out the " ++
          "pinned base and would review the wrong tree — use workspace: repo to review the " ++
        "subject's commits, or take the gate off the repo path")

def repoHandoffProblems : List String :=
  match reachingProducers d with
  | none => []
  | some (reaching, producers) =>
    d.tasks.flatMap (taskHandoffProblems d reaching producers) ++
      d.gates.flatMap (gateHandoffProblems reaching)

end

/-! ## The paths of the run -/

namespace FanOut

def onFailure : FanOut → String
  | .parallel p => p.onFailure
  | .map f => f.onFailure

def name : FanOut → String
  | .parallel p => p.name
  | .map f => f.name

def targets : FanOut → List String
  | .parallel p => p.targets
  | .map f => f.targets

def Holds (d : Definition) (f : FanOut) (state : String) : Prop :=
  f.Declared d ∧
    match f with
    | .parallel p => ∃ b ∈ p.branches, state ∈ branchBody d b.start
    | .map f => state ∈ branchBody d f.task

end FanOut

section
variable (d : Definition)

/-- Where the run may go from a state: on, from the end of a branch to the join, or out of a
branch to where the fan-out fails over. -/
inductive HandoffMove : String → String → Prop
  | goes {state target : String} (h : target ∈ d.outgoing state) (hne : target ≠ targetJoin) :
      HandoffMove state target
  | join {state : String} {f : FanOut} (h : targetJoin ∈ d.outgoing state)
      (hin : f.Holds d state) : HandoffMove state f.join
  | failure {state : String} {f : FanOut} (hin : f.Holds d state) : HandoffMove state f.onFailure

/-- The run may go from the one state to the other. -/
def Hands (state target : String) : Prop :=
  HandoffMove d state target ∧ isStateName target = true ∧ target ∈ d.stateNames

/-- A path leads from the producer to the state with no other producer strictly between. -/
def LastProducer (p state : String) : Prop :=
  p ∈ repoProducers d ∧ ∃ mid : List String,
    (p :: (mid ++ [state])).IsChain (Hands d) ∧ ∀ x ∈ mid, x ∈ repoProducers d → x = p

def FanOutsAgree : Prop :=
  ∀ (f g : FanOut) (state : String), f.Holds d state → g.Holds d state →
    f.join = g.join ∧ f.onFailure = g.onFailure

/-- A mapped task that can fail over to a state has no producer in it, and is entered by its map
only. -/
def MapsHandNothing : Prop :=
  ∀ f ∈ d.maps, isStateName f.onFailure = true → f.onFailure ∈ d.stateNames →
    ∀ state ∈ branchBody d f.task, state ∉ repoProducers d ∧
      ∀ source, Hands d source state → source ∈ branchBody d f.task ∨ source = f.name

end

variable {d : Definition}

/-! ## The edges of the check -/

/-- The rows of the join table: the states of a body that go on to its join. -/
theorem mem_joinRows {join : String} : (state, join) ∈ joinRows d ↔
    ∃ f : FanOut, f.Holds d state ∧ targetJoin ∈ d.outgoing state ∧ f.join = join := by
  have hrow : ∀ start target : String,
      (state, join) ∈ (joinTerminalStates d start).map (fun s => (s, target)) ↔
        state ∈ branchBody d start ∧ targetJoin ∈ d.outgoing state ∧ target = join := by
    intro start target
    unfold joinTerminalStates
    simp only [List.mem_map, List.mem_filter, decide_eq_true_eq, Prod.mk.injEq]
    constructor
    · rintro ⟨s, ⟨hs, hout⟩, rfl, rfl⟩
      exact ⟨hs, hout, rfl⟩
    · rintro ⟨hs, hout, rfl⟩
      exact ⟨state, ⟨hs, hout⟩, rfl, rfl⟩
  unfold joinRows
  simp only [List.mem_append, List.mem_flatMap, hrow]
  constructor
  · rintro (⟨p, hp, b, hb, hs, hout, rfl⟩ | ⟨f, hf, hs, hout, rfl⟩)
    · exact ⟨.parallel p, ⟨hp, b, hb, hs⟩, hout, rfl⟩
    · exact ⟨.map f, ⟨hf, hs⟩, hout, rfl⟩
  · rintro ⟨f | f, hin, hout, rfl⟩
    · obtain ⟨hp, b, hb, hs⟩ := hin
      exact .inl ⟨f, hp, b, hb, hs, hout, rfl⟩
    · exact .inr ⟨f, hin.1, hin.2, hout, rfl⟩

theorem row_of_graphJoinTargets {join : String} (h : (graphJoinTargets d).get? state = some join) :
    (state, join) ∈ joinRows d := by
  have hstep : ∀ (m : GoMap String String) (row : String × String) (k v : String),
      (m.put row.1 row.2).get? k = some v → m.get? k = some v ∨ row = (k, v) := by
    intro m row k v hget
    rw [get?_put] at hget
    split_ifs at hget with hk
    · exact .inr (by rw [hk, ← Option.some.inj hget])
    · exact .inl hget
  rcases get?_foldl_cases hstep h with hempty | ⟨row, hrow, rfl⟩
  · cases hempty
  · exact hrow

theorem graphJoinTargets_isSome {join : String} (h : (state, join) ∈ joinRows d) :
    ((graphJoinTargets d).get? state).isSome = true := by
  refine isSome_get?_foldl (fun m row hm => isSome_get?_put hm)
    (.inr ⟨_, h, fun m => ?_⟩)
  rw [get?_put_self]
  rfl

theorem graphTarget_join (hagree : FanOutsAgree d) {f : FanOut} (hin : f.Holds d state)
    (hout : targetJoin ∈ d.outgoing state) :
    graphTarget state targetJoin (graphJoinTargets d) = f.join := by
  have hrow : (state, f.join) ∈ joinRows d := mem_joinRows.mpr ⟨f, hin, hout, rfl⟩
  obtain ⟨join, hget⟩ := Option.isSome_iff_exists.mp (graphJoinTargets_isSome hrow)
  obtain ⟨g, hin', _, rfl⟩ := mem_joinRows.mp (row_of_graphJoinTargets hget)
  unfold graphTarget
  rw [hget]
  exact (hagree g f state hin' hin).1

theorem ne_empty_of_isStateName (h : isStateName target = true) : target ≠ "" := by
  rintro rfl
  cases h

theorem parallel_of_failureStates {name : String} (h : (failureStates d).get? name = some target) :
    ∃ p ∈ d.parallels, p.name = name ∧ p.onFailure = target := by
  have hstep : ∀ (m : GoMap String String) (p : Parallel) (k v : String),
      (if p.onFailure ≠ "" && isStateName p.onFailure then m.put p.name p.onFailure
        else m).get? k = some v →
      m.get? k = some v ∨ (p.name = k ∧ p.onFailure = v) := by
    intro m p k v hget
    split at hget
    · rw [get?_put] at hget
      split_ifs at hget with hk
      · exact .inr ⟨hk.symm, Option.some.inj hget⟩
      · exact .inl hget
    · exact .inl hget
  rcases get?_foldl_cases hstep h with hempty | hp
  · cases hempty
  · exact hp

theorem failureStates_isSome {p : Parallel} (hp : p ∈ d.parallels)
    (hstate : isStateName p.onFailure = true) :
    ((failureStates d).get? p.name).isSome = true := by
  have hput : (p.onFailure ≠ "" && isStateName p.onFailure) = true := by
    rw [hstate, Bool.and_true, decide_eq_true_iff]
    exact ne_empty_of_isStateName hstate
  refine isSome_get?_foldl (fun m q hm => ?_) (.inr ⟨p, hp, fun m => ?_⟩)
  · split
    · exact isSome_get?_put hm
    · exact hm
  · rw [if_pos hput, get?_put_self]
    rfl

theorem branchFailureTargets_isSome {p : Parallel} (hin : (FanOut.parallel p).Holds d state)
    (hall : ∀ q, (FanOut.parallel q).Holds d state → isStateName q.onFailure = true) :
    ((branchFailureTargets d).get? state).isSome = true := by
  obtain ⟨hp, b, hb, hs⟩ := hin
  have hx : ((p, b) : Parallel × Branch) ∈ allBranches d := mem_allBranches.mpr ⟨hp, hb⟩
  obtain ⟨ref, howner⟩ := Option.isSome_iff_exists.mp (branchOwnership_isSome hx hs)
  obtain ⟨q, hq, c, hc, hs', rfl⟩ := branch_of_branchOwnership howner
  unfold branchFailureTargets
  rw [get?_collect, howner]
  exact failureStates_isSome hq (hall q ⟨hq, c, hc, hs'⟩)

/-- The edges along which the check passes producers on. -/
abbrev CheckEdge (d : Definition) : String → String → Prop :=
  Dataflow.Edge (handoffTargets d (graphJoinTargets d) (branchFailureTargets d)) d.stateNames

theorem mem_handoffTargets {joinTargets failureTargets : GoMap String String} :
    target ∈ handoffTargets d joinTargets failureTargets state ↔
      ((∃ t ∈ d.outgoing state, graphTarget state t joinTargets = target) ∨
        failureTargets.get? state = some target) ∧
      isStateName target = true ∧ target ∈ d.stateNames := by
  unfold handoffTargets
  simp only [List.mem_filter, List.mem_append, List.mem_map, Option.mem_toList,
    Bool.and_eq_true, decide_eq_true_eq]

theorem FanOut.Holds.mem_stateNames {f : FanOut} (h : f.Holds d state) : state ∈ d.stateNames := by
  cases f with
  | parallel p =>
    obtain ⟨_, b, _, hs⟩ := h
    exact mem_stateNames_of_has (mem_branchBody_iff.mp hs).1.2.2
  | map f => exact mem_stateNames_of_has (mem_branchBody_iff.mp h.2).1.2.2

section structural

variable (h : structuralProblems d = [])
include h

theorem parallel_eq_of_name {p q : Parallel} (hp : p ∈ d.parallels) (hq : q ∈ d.parallels)
    (hname : p.name = q.name) : p = q := by
  have hfound := (parallel_lookup h hp).2.2
  rw [hname, (parallel_lookup h hq).2.2] at hfound
  exact (Option.some.inj hfound).symm

theorem holds_of_branchFailureTargets (hget : (branchFailureTargets d).get? state = some target) :
    ∃ p, (FanOut.parallel p).Holds d state ∧ p.onFailure = target := by
  unfold branchFailureTargets at hget
  rw [get?_collect, Option.bind_eq_some_iff] at hget
  obtain ⟨ref, howner, hfail⟩ := hget
  obtain ⟨p, hp, b, hb, hs, rfl⟩ := branch_of_branchOwnership howner
  obtain ⟨q, hq, hname, htarget⟩ := parallel_of_failureStates hfail
  obtain rfl := parallel_eq_of_name h hq hp hname
  exact ⟨q, ⟨hq, b, hb, hs⟩, htarget⟩

theorem hands_of_checkEdge (hedge : CheckEdge d state target) : Hands d state target := by
  obtain ⟨hfrom, hstate, hmem⟩ := mem_handoffTargets.mp hedge.2
  refine ⟨?_, hstate, hmem⟩
  rcases hfrom with ⟨t, ht, rfl⟩ | hfail
  · unfold graphTarget at hstate ⊢
    split_ifs with hjoin
    · cases hget : (graphJoinTargets d).get? state with
      | some join =>
        obtain ⟨f, hin, hout, rfl⟩ := mem_joinRows.mp (row_of_graphJoinTargets hget)
        exact .join hout hin
      | none =>
        -- without a fan-out to join, `@join` is no state
        rw [hget, hjoin] at hstate
        cases hstate
    · exact .goes ht hjoin
  · obtain ⟨p, hin, rfl⟩ := holds_of_branchFailureTargets h hfail
    exact .failure hin

/-- The check's graph has every edge of the run but the failure edges of maps. -/
theorem checkEdge_of_hands (hagree : FanOutsAgree d) (hhands : Hands d state target) :
    CheckEdge d state target ∨
      ∃ f ∈ d.maps, state ∈ branchBody d f.task ∧ f.onFailure = target := by
  obtain ⟨hmove, hstate, hmem⟩ := hhands
  cases hmove with
  | goes hout hne =>
    refine .inl ⟨mem_stateNames_of_has (has_of_outgoing hout),
      mem_handoffTargets.mpr ⟨.inl ?_, hstate, hmem⟩⟩
    exact ⟨target, hout, if_neg hne⟩
  | @join f hout hin =>
    exact .inl ⟨hin.mem_stateNames, mem_handoffTargets.mpr
      ⟨.inl ⟨targetJoin, hout, graphTarget_join hagree hin hout⟩, hstate, hmem⟩⟩
  | @failure f hin =>
    cases f with
    | map f => exact .inr ⟨f, hin.1, hin.2, rfl⟩
    | parallel p =>
      have hsame : ∀ q, (FanOut.parallel q).Holds d state → q.onFailure = p.onFailure :=
        fun q hq => (hagree _ _ state hq hin).2
      have hsome := branchFailureTargets_isSome hin fun q hq => by
        rw [hsame q hq]
        exact hstate
      obtain ⟨target, hget⟩ := Option.isSome_iff_exists.mp hsome
      obtain ⟨q, hq, rfl⟩ := holds_of_branchFailureTargets h hget
      rw [hsame q hq] at hget
      exact .inl ⟨hin.mem_stateNames, mem_handoffTargets.mpr ⟨.inr hget, hstate, hmem⟩⟩

/-! ## Failing maps -/

omit h in
theorem notMem_repoProducers {name : String} (hnone : d.task name = none) :
    name ∉ repoProducers d := by
  intro hp
  obtain ⟨t, ht, hname⟩ := List.mem_map.mp hp
  have hnot := List.find?_eq_none.mp hnone t (List.mem_reverse.mpr (List.mem_filter.mp ht).1)
  exact hnot (decide_eq_true hname)

theorem outgoing_fanOut {f : FanOut} (hf : f.Declared d) : d.outgoing f.name = f.targets := by
  unfold Definition.outgoing
  cases f with
  | parallel p =>
    obtain ⟨ht, hg, hp⟩ := parallel_lookup h hf
    simp [FanOut.name, ht, hg, hp, FanOut.targets]
  | map f =>
    obtain ⟨ht, hg, hp, hm⟩ := map_lookup h hf
    simp [FanOut.name, ht, hg, hp, hm, FanOut.targets]

theorem reaches_map {f : Map} (hf : f ∈ d.maps)
    (hbody : ∀ state ∈ branchBody d f.task, state ∉ repoProducers d ∧
      ∀ source, Hands d source state → source ∈ branchBody d f.task ∨ source = f.name)
    (hreach : Dataflow.Reaches (fun s => s ∈ repoProducers d) (CheckEdge d) p state)
    (hs : state ∈ branchBody d f.task) :
    Dataflow.Reaches (fun s => s ∈ repoProducers d) (CheckEdge d) p f.name := by
  induction hreach with
  | first hdef hedge =>
    have hp := of_decide_eq_true hdef
    rcases (hbody _ hs).2 _ (hands_of_checkEdge h hedge) with hin | rfl
    · exact absurd hp (hbody _ hin).1
    · exact absurd hp (notMem_repoProducers (map_lookup h hf).1)
  | on hsource _ hedge ih =>
    rcases (hbody _ hs).2 _ (hands_of_checkEdge h hedge) with hin | rfl
    · exact ih hin
    · exact hsource

/-- The map itself has an edge to where it fails over. -/
theorem reaches_onFailure {f : Map} (hf : f ∈ d.maps) (hstate : isStateName f.onFailure = true)
    (hmem : f.onFailure ∈ d.stateNames)
    (hmap : Dataflow.Reaches (fun s => s ∈ repoProducers d) (CheckEdge d) p f.name) :
    Dataflow.Reaches (fun s => s ∈ repoProducers d) (CheckEdge d) p f.onFailure := by
  have hto : f.onFailure ∈ d.outgoing f.name := by
    rw [show d.outgoing f.name = f.targets from outgoing_fanOut h (f := .map f) hf]
    exact List.mem_append_right _ (mem_failureTargets (ne_empty_of_isStateName hstate))
  have hne : f.onFailure ≠ targetJoin := by
    intro heq
    rw [heq] at hstate
    cases hstate
  have hedge : CheckEdge d f.name f.onFailure :=
    ⟨mem_stateNames_of_has (has_of_outgoing hto),
      mem_handoffTargets.mpr ⟨.inl ⟨_, hto, if_neg hne⟩, hstate, hmem⟩⟩
  exact .on hmap (decide_eq_false (notMem_repoProducers (map_lookup h hf).1)) hedge

theorem reaches_check (hagree : FanOutsAgree d) (hmaps : MapsHandNothing d)
    (hreach : Dataflow.Reaches (fun s => s ∈ repoProducers d) (Hands d) p state) :
    Dataflow.Reaches (fun s => s ∈ repoProducers d) (CheckEdge d) p state := by
  induction hreach with
  | first hdef hhands =>
    rcases checkEdge_of_hands h hagree hhands with hedge | ⟨f, hf, hs, rfl⟩
    · exact .first hdef hedge
    · exact absurd (of_decide_eq_true hdef) (hmaps f hf hhands.2.1 hhands.2.2 p hs).1
  | @on s t _ hdef hhands ih =>
    rcases checkEdge_of_hands h hagree hhands with hedge | ⟨f, hf, hs, rfl⟩
    · exact .on ih hdef hedge
    · exact reaches_onFailure h hf hhands.2.1 hhands.2.2
        (reaches_map h hf (hmaps f hf hhands.2.1 hhands.2.2) ih hs)

end structural

theorem lastProducer_iff : LastProducer d p state ↔
    Dataflow.Reaches (fun s => s ∈ repoProducers d) (Hands d) p state := by
  rw [Dataflow.reaches_iff_path]
  unfold LastProducer
  simp

theorem reachingProducers_eq_some (h : structuralProblems d = []) :
    ∃ reaching, reachingProducers d = some (reaching, repoProducers d) := by
  unfold reachingProducers
  rw [if_neg (not_not_intro h)]
  exact ⟨_, rfl⟩

theorem reaches_of_reachingProducers (hsome : reachingProducers d = some (reaching, producers)) :
    structuralProblems d = [] ∧ ∀ p state, (state, p) ∈ reaching ↔
      Dataflow.Reaches (fun s => s ∈ repoProducers d) (CheckEdge d) p state := by
  unfold reachingProducers at hsome
  split at hsome
  · cases hsome
  · rename_i hok
    cases hsome
    exact ⟨not_not.mp hok, fun p state => Dataflow.mem_reaching_iff⟩

theorem lastProducer_of_reachingProducers (hsome : reachingProducers d = some (reaching, producers))
    (hmem : (state, p) ∈ reaching) : LastProducer d p state := by
  obtain ⟨h, hiff⟩ := reaches_of_reachingProducers hsome
  exact lastProducer_iff.mpr (((hiff p state).mp hmem).mono fun _ _ => hands_of_checkEdge h)

theorem mem_reaching_iff_lastProducer (hagree : FanOutsAgree d) (hmaps : MapsHandNothing d)
    (hsome : reachingProducers d = some (reaching, producers)) :
    (state, p) ∈ reaching ↔ LastProducer d p state := by
  refine ⟨lastProducer_of_reachingProducers hsome, fun hlast => ?_⟩
  obtain ⟨h, hiff⟩ := reaches_of_reachingProducers hsome
  exact (hiff p state).mpr (reaches_check h hagree hmaps (lastProducer_iff.mp hlast))

end Goobers.Workflow
