import Goobers.Workflow.RepoHandoff

/-!
# Is the declared handoff the real one?

In an accepted workflow no state is in two fan-outs, and a mapped task is one task that
only its map enters. So what the check computes is exact if no mapped task that can fail
over to a state is a producer, and then what a task declares is what it can find on the
run branch.

A mapped task that is one hands its commits to the failure route without the check
noticing: the task there may declare nothing, and is refused if it declares the producer.
-/

namespace Goobers.Workflow

open Lib List

variable {d : Definition}

/-! ## Accepted workflows -/

section accepted

variable (h : Accepted d)
include h

theorem eq_task_of_mapped {f : Map} (hf : f ∈ d.maps) {state : String}
    (hs : state ∈ branchBody d f.task) : state = f.task := by
  obtain ⟨-, -, -, t, ht, hnext⟩ := mapped_checks h hf
  obtain ⟨hin, hpath⟩ := mem_branchBody_iff.mp hs
  have hout : ∀ target, target ∈ d.outgoing f.task → isReservedAnyTarget target = true := by
    intro target htarget
    unfold Definition.outgoing at htarget
    rw [ht] at htarget
    rw [mem_singleton.mp htarget]
    unfold isReservedAnyTarget isReservedBranchTarget
    rcases hnext with hjoin | hreserved
    · simp [hjoin]
    · simp [hreserved]
  rcases Relation.ReflTransGen.cases_head hpath with heq | ⟨x, hedge, hrest⟩
  · exact heq.symm
  · -- the only way on is a reserved target, and nothing is behind it
    have hx := hout x hedge.2
    rcases Relation.ReflTransGen.cases_head hrest with rfl | ⟨y, hedge', _⟩
    · rw [hin.2.1] at hx
      cases hx
    · rw [hedge'.1.2.1] at hx
      cases hx

/-- A state is in the body of one fan-out only. -/
theorem fanOut_eq_of_holds {f g : FanOut} {state : String} (hf : f.Holds d state)
    (hg : g.Holds d state) : f = g := by
  have hbranch : ∀ p, (FanOut.parallel p).Holds d state →
      ∃ b, (branchOwnership d).get? state = some ⟨p.name, b⟩ := by
    rintro p ⟨hp, b, hb, hs⟩
    have hx : ((p, b) : Parallel × Branch) ∈ allBranches d := mem_allBranches.mpr ⟨hp, hb⟩
    exact ⟨b.name, branchOwnership_eq h hx hs⟩
  have hmap : ∀ m, (FanOut.map m).Holds d state → (branchOwnership d).get? state = none ∧
      ((mapOwnership d).get? state).getD "" = m.name := by
    rintro m ⟨hm, hs⟩
    rw [eq_task_of_mapped h hm hs]
    exact ⟨(mapped_checks h hm).2.1, (mapped_checks h hm).1⟩
  cases f with
  | parallel p =>
    obtain ⟨b, howner⟩ := hbranch p hf
    cases g with
    | parallel q =>
      obtain ⟨c, howner'⟩ := hbranch q hg
      rw [howner] at howner'
      injection howner' with href
      injection href with hname
      rw [parallel_eq_of_name h.structural hf.1 hg.1 hname]
    | map g =>
      rw [(hmap g hg).1] at howner
      cases howner
  | map f =>
    cases g with
    | parallel q =>
      obtain ⟨c, howner⟩ := hbranch q hg
      rw [(hmap f hf).1] at howner
      cases howner
    | map g =>
      have hname : f.name = g.name := (hmap f hf).2.symm.trans (hmap g hg).2
      have hfound := (map_lookup h.structural hf.1).2.2.2
      rw [hname, (map_lookup h.structural hg.1).2.2.2] at hfound
      rw [Option.some.inj hfound]

theorem fanOutsAgree_of_accepted : FanOutsAgree d := by
  intro f g state hf hg
  rw [fanOut_eq_of_holds h hf hg]
  exact ⟨rfl, rfl⟩

theorem mapped_not_route {f : Map} (hf : f ∈ d.maps) {g : FanOut} (hg : g.Declared d)
    (hroute : g.join = f.task ∨ g.onFailure = f.task) : False := by
  obtain ⟨-, -, -, t, ht, -⟩ := mapped_checks h hf
  have hhas : d.has f.task = true := by
    unfold Definition.has
    rw [ht]
    rfl
  have hne : f.task ≠ "" := by
    have hterm := not_terminal_of_has h hhas
    rintro hempty
    rw [hempty] at hterm
    cases hterm
  have hmem : f.task ∈ g.join :: failureTargets g.onFailure := by
    rcases hroute with hjoin | hfail
    · rw [hjoin]
      exact mem_cons_self
    · rw [hfail]
      exact mem_cons_of_mem _ (mem_failureTargets hne)
  refine entry_of_mapped h hf g.name ?_
  rw [outgoing_fanOut h.structural hg]
  cases g with
  | parallel p =>
    have hname : (FanOut.parallel p).name ≠ f.name := by
      intro heq
      change p.name = f.name at heq
      have hnone := (map_lookup h.structural hf).2.2.1
      rw [← heq, (parallel_lookup h.structural hg).2.2] at hnone
      cases hnone
    rw [if_neg hname]
    show f.task ∈ p.branches.map Branch.start ++ [p.join] ++ failureTargets p.onFailure
    rw [append_assoc]
    exact mem_append_right _ hmem
  | map g =>
    split
    · exact hmem
    · exact mem_cons_of_mem _ hmem

theorem eq_map_of_hands {f : Map} (hf : f ∈ d.maps) {source : String}
    (hhands : Hands d source f.task) : source = f.name := by
  obtain ⟨hmove, -, -⟩ := hhands
  by_contra hne
  generalize hto : f.task = target at hmove
  cases hmove with
  | goes hout _ =>
    refine entry_of_mapped h hf source ?_
    rw [if_neg hne, hto]
    exact hout
  | join _ hin => exact mapped_not_route h hf hin.1 (.inl hto.symm)
  | failure hin => exact mapped_not_route h hf hin.1 (.inr hto.symm)

/-- A mapped task that is no producer hands nothing to where its map fails over. -/
theorem entered_by_map {f : Map} (hf : f ∈ d.maps) (hclear : f.task ∉ repoProducers d) :
    ∀ state ∈ branchBody d f.task, state ∉ repoProducers d ∧
      ∀ source, Hands d source state → source ∈ branchBody d f.task ∨ source = f.name := by
  intro state hs
  obtain rfl := eq_task_of_mapped h hf hs
  exact ⟨hclear, fun source hhands => .inr (eq_map_of_hands h hf hhands)⟩

theorem mapsHandNothing_of_accepted
    (hclear : ∀ f ∈ d.maps, isStateName f.onFailure = true → f.task ∉ repoProducers d) :
    MapsHandNothing d :=
  fun f hf hstate _ => entered_by_map h hf (hclear f hf hstate)

end accepted

/-! ## Coverage -/

theorem mem_requiredCoverage {name p : String} {reaching : List (String × String)} :
    p ∈ requiredCoverage name reaching ↔ (name, p) ∈ reaching ∧ p ≠ name := by
  unfold requiredCoverage
  simp only [mem_map, mem_filter, Bool.and_eq_true, decide_eq_true_eq]
  constructor
  · rintro ⟨⟨s, q⟩, ⟨hrow, rfl, hne⟩, rfl⟩
    exact ⟨hrow, hne⟩
  · rintro ⟨hrow, hne⟩
    exact ⟨(name, p), ⟨hrow, rfl, hne⟩, rfl⟩

theorem required_of_repoFromEntryProblems {t : Task} {producers required : List String}
    {entry : String} (h : repoFromEntryProblems d t producers required entry = []) :
    entry ∈ required := by
  unfold repoFromEntryProblems at h
  split at h
  · cases h
  split at h
  · cases h
  split at h
  · cases h
  split at h
  · cases h
  · simpa using h

/-- The declared sources are the producers that reach the task, and no others. -/
theorem mem_repoFrom_iff {t : Task} {reaching : List (String × String)} {producers : List String}
    (h : taskHandoffProblems d reaching producers t = []) (hconsumer : isRepoConsumer t = true)
    {p : String} : p ∈ t.repoFrom ↔ (t.name, p) ∈ reaching ∧ p ≠ t.name := by
  unfold taskHandoffProblems at h
  rw [hconsumer, Bool.not_true, if_neg Bool.false_ne_true] at h
  dsimp only at h
  split at h
  · cases h
  · obtain ⟨hcovers, hentries⟩ := append_eq_nil_iff.mp h
    rw [← mem_requiredCoverage, ← mem_sortStrings (l := requiredCoverage _ _)]
    constructor
    · intro hp
      exact required_of_repoFromEntryProblems (flatMap_eq_nil_iff.mp hentries p hp)
    · intro hp
      have hone := flatMap_eq_nil_iff.mp hcovers p hp
      simpa using hone

/--
**What a task on the run branch declares is what can be the last producer before it**, in every
accepted workflow that has passed the check of the handoffs, unless a mapped task that can fail
over to a state is a producer.
-/
theorem repoFrom_exact (h : Accepted d) (hcheck : repoHandoffProblems d = [])
    (hclear : ∀ f ∈ d.maps, isStateName f.onFailure = true → f.task ∉ repoProducers d) {t : Task}
    (ht : t ∈ d.tasks) (hconsumer : isRepoConsumer t = true) (p : String) :
    p ∈ t.repoFrom ↔ LastProducer d p t.name ∧ p ≠ t.name := by
  obtain ⟨reaching, hsome⟩ := reachingProducers_eq_some h.structural
  unfold repoHandoffProblems at hcheck
  rw [hsome] at hcheck
  have htask := flatMap_eq_nil_iff.mp (append_eq_nil_iff.mp hcheck).1 t ht
  rw [mem_repoFrom_iff htask hconsumer, mem_reaching_iff_lastProducer
    (fanOutsAgree_of_accepted h) (mapsHandNothing_of_accepted h hclear) hsome]

def updateTask (name next : String) : Task :=
  { name, next
    run := some { command := some ["goobers", "update-behind-pr"], workspace := .scratch } }

def repoTask (name next : String) (repoFrom : List String) : Task :=
  { name, next, repoFrom, run := some { command := some ["make", name] } }

/-- The pull request is updated beside a review, then the reports are collated and linted one by
one; a failed branch or item is cleaned up after. -/
def branchUpdate : Definition :=
  { name := "branch-update", dslVersion := "3.1", start := "fan"
    tasks :=
      [updateTask "update-pr" targetJoin, trueTask "review-perf" targetJoin,
       repoTask "collate" "each" ["update-pr"], trueTask "lint" targetJoin,
       repoTask "publish" "" ["update-pr"], repoTask "cleanup" targetEscalate ["update-pr"]]
    parallels :=
      [{ name := "fan", failurePolicy := .failFast, join := "collate", onFailure := "cleanup"
         branches :=
           [{ name := "advance", start := "update-pr" },
            { name := "perf", start := "review-perf" }] }]
    maps :=
      [{ name := "each", task := "lint", join := "publish", failurePolicy := .failFast,
         onFailure := "cleanup" }] }

theorem branchUpdate_publish_declares :
    LastProducer branchUpdate "update-pr" "publish" ∧
      ¬ LastProducer branchUpdate "collate" "publish" := by
  have hok : compile {} branchUpdate = .ok branchUpdate := compile_eq_ok (by decide +kernel)
  have hmem : repoTask "publish" "" ["update-pr"] ∈ branchUpdate.tasks := by simp [branchUpdate]
  have hexact := repoFrom_exact (accepted_of_compile hok).2 (by decide +kernel) (by decide) hmem rfl
  refine ⟨((hexact "update-pr").mp mem_cons_self).1, fun hlast => ?_⟩
  have hdeclared := (hexact "collate").mpr ⟨hlast, by decide⟩
  simp [repoTask] at hdeclared

end Goobers.Workflow
