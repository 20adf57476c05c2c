import Goobers.Workflow.Attribution

/-!
# Dominance

A qualified input wants its producer on every path to the consumer, a branch-qualified one on
every path of the branch to `@join`. Both checks search the graph with the producer taken out.
Here a path is a walk along transitions, as long as it likes, and the searches are compared with
all of them.
-/

namespace Goobers.Workflow

open Lib List

def precedesOnEveryPath (d : Definition) (producer consumer : String) : Bool :=
  d.start = producer ||
    consumer ∉ walk d.stateNames d.outgoing
      (fun s => s = producer || s = "" || isTerminal s || !d.has s) [] [d.start]

/-- A walk along transitions, with all it visits. -/
inductive Walk (d : Definition) : String → List String → String → Prop where
  | stop (state : String) : Walk d state [state] state
  | step {state next target : String} {path : List String} (h : next ∈ d.outgoing state)
      (rest : Walk d next path target) : Walk d state (state :: path) target

def Around (d : Definition) (producer state target : String) : Prop :=
  state ≠ producer ∧ target ∈ d.outgoing state

variable {d : Definition} {producer state target : String}

theorem Walk.start_mem {path : List String} (h : Walk d state path target) : state ∈ path := by
  cases h with
  | stop => exact mem_cons_self
  | step h rest => exact mem_cons_self

theorem Walk.around {path : List String} (h : Walk d state path target)
    (hnot : producer ∉ path) :
    target ≠ producer ∧ Relation.ReflTransGen (Around d producer) state target := by
  induction h with
  | stop state =>
    rw [mem_singleton] at hnot
    exact ⟨Ne.symm hnot, .refl⟩
  | step h rest ih =>
    rw [mem_cons, not_or] at hnot
    obtain ⟨hne, hrest⟩ := ih hnot.2
    exact ⟨hne, hrest.head ⟨Ne.symm hnot.1, h⟩⟩

theorem exists_walk (hne : target ≠ producer)
    (h : Relation.ReflTransGen (Around d producer) state target) :
    ∃ path, Walk d state path target ∧ producer ∉ path := by
  induction h using Relation.ReflTransGen.head_induction_on with
  | refl => exact ⟨[target], .stop target, by simpa using hne.symm⟩
  | head hstep _ ih =>
    obtain ⟨path, hwalk, hnot⟩ := ih
    refine ⟨_ :: path, .step hstep.2 hwalk, ?_⟩
    rw [mem_cons, not_or]
    exact ⟨hstep.1.symm, hnot⟩

theorem forall_walk_iff : (∀ path, Walk d state path target → producer ∈ path) ↔
      ¬ (target ≠ producer ∧ Relation.ReflTransGen (Around d producer) state target) := by
  constructor
  · rintro h ⟨hne, hreach⟩
    obtain ⟨path, hwalk, hnot⟩ := exists_walk hne hreach
    exact hnot (h path hwalk)
  · intro h path hwalk
    by_contra hnot
    exact h (hwalk.around hnot)

/-- The search decides whether the producer is on every path to the state. -/
theorem precedesOnEveryPath_iff (h : Accepted d) (hstate : d.has state = true) :
    precedesOnEveryPath d producer state = true ↔
      ∀ path, Walk d d.start path state → producer ∈ path := by
  have hgo : ∀ s, d.has s = true →
      ((s = producer || s = "" || isTerminal s || !d.has s) = false ↔ s ≠ producer) := by
    intro s hs
    have hterminal := not_terminal_of_has h hs
    have hempty : s ≠ "" := by
      rintro rfl
      cases hterminal
    simp [hs, hterminal, hempty]
  have hedge : Leaves d.stateNames d.outgoing
      (fun s => s = producer || s = "" || isTerminal s || !d.has s) = Around d producer := by
    funext a b
    refine propext ⟨fun ⟨hstop, _, hout⟩ => ⟨(hgo a (has_of_outgoing hout)).mp hstop, hout⟩,
      fun ⟨hne, hout⟩ => ?_⟩
    have hhas := has_of_outgoing hout
    exact ⟨(hgo a hhas).mpr hne, mem_stateNames_of_has hhas, hout⟩
  unfold precedesOnEveryPath
  rw [Bool.or_eq_true, decide_eq_true_eq, decide_eq_true_eq, mem_walk_iff, hgo state hstate, hedge,
    forall_walk_iff]
  simp only [mem_singleton, exists_eq_left]
  constructor
  · rintro (rfl | hnot) hreach
    · exact forall_walk_iff.mp (fun _ hwalk => hwalk.start_mem) hreach
    · exact hnot hreach
  · exact .inr

theorem searches_of_around (h : Accepted d)
    (hreach : Relation.ReflTransGen (Around d producer) state targetJoin) :
    Relation.ReflTransGen (Searches d.stateNames d.outgoing (fun s => s = producer)
      (fun s => s = terminalComplete || isReservedAnyTarget s || !d.has s)) state targetJoin := by
  induction hreach using Relation.ReflTransGen.head_induction_on with
  | refl => exact .refl
  | @head a b hstep _ ih =>
    by_cases hjoin : a = targetJoin
    · rw [hjoin]
    · have hhas := has_of_outgoing hstep.2
      have hterminal := not_terminal_of_has h hhas
      unfold isTerminal at hterminal
      rw [Bool.or_eq_false_iff] at hterminal
      refine ih.head ⟨by simpa using hstep.1, ?_, mem_stateNames_of_has hhas, hstep.2⟩
      simp only [isReservedAnyTarget, isReservedBranchTarget, hterminal.1, hterminal.2, hhas, hjoin]
      rfl

/-- And inside a branch, on every path to the join. -/
theorem precedesBranchJoinOnEveryPath_iff (h : Accepted d) :
    precedesBranchJoinOnEveryPath d state producer = true ↔
      ∀ path, Walk d state path targetJoin → producer ∈ path := by
  unfold precedesBranchJoinOnEveryPath
  rw [Bool.or_eq_true, decide_eq_true_eq, Bool.not_eq_true', forall_walk_iff]
  constructor
  · rintro (rfl | hfinds) ⟨hne, hreach⟩
    · exact forall_walk_iff.mp (fun _ hwalk => hwalk.start_mem) ⟨hne, hreach⟩
    · have := not_hit_of_walkFinds hfinds (mem_singleton_self state) (searches_of_around h hreach)
        (by simpa using hne)
      simp at this
  · intro hnot
    right
    by_contra hfinds
    rw [Bool.not_eq_false] at hfinds
    obtain ⟨s, hs, t, hpath, hskip, hhit⟩ := hit_of_walkFinds hfinds
    rw [mem_singleton] at hs
    rw [decide_eq_true_eq] at hhit
    subst hs hhit
    refine hnot ⟨by simpa using hskip, Relation.ReflTransGen.mono (fun a b hstep => ?_) _ _ hpath⟩
    exact ⟨by simpa using hstep.1, hstep.2.2.2⟩

/-- **Both checks are dominance.** In every compiled machine, a producer precedes a consumer on
every path exactly if every walk from the start to the consumer visits the producer, and it
precedes the join of a branch exactly if every walk from the branch's start to `@join` does. -/
theorem precedes_iff_on_every_walk {other : OtherProblems} {m : Definition}
    (hok : compile other d = .ok m) :
    (∀ producer consumer, m.has consumer = true →
      (precedesOnEveryPath m producer consumer = true ↔
        ∀ path, Walk m m.start path consumer → producer ∈ path)) ∧
    ∀ start producer, precedesBranchJoinOnEveryPath m start producer = true ↔
      ∀ path, Walk m start path targetJoin → producer ∈ path := by
  obtain ⟨rfl, h⟩ := accepted_of_compile hok
  exact ⟨fun producer consumer hc => precedesOnEveryPath_iff h hc,
    fun start producer => precedesBranchJoinOnEveryPath_iff h⟩

theorem qualitySprint_dominance :
    compile {} (qualitySprint "") = .ok (qualitySprint "") ∧
      (∀ path, Walk (qualitySprint "") "churn" path "collate" → "fan" ∈ path) ∧
      (¬ ∀ path, Walk (qualitySprint "") "churn" path "collate" → "review-perf" ∈ path) ∧
      ¬ ∀ path, Walk (qualitySprint "") "review-perf" path targetJoin → "collate" ∈ path := by
  have hok : compile {} (qualitySprint "") = .ok (qualitySprint "") :=
    compile_eq_ok (by decide +kernel)
  obtain ⟨hpath, hjoin⟩ := precedes_iff_on_every_walk hok
  exact ⟨hok, (hpath "fan" "collate" (by decide)).mp (by decide +kernel),
    mt (hpath "review-perf" "collate" (by decide)).mpr (by decide +kernel),
    mt (hjoin "review-perf" "collate").mpr (by decide +kernel)⟩

end Goobers.Workflow
