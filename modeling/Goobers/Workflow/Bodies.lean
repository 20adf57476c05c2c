import Goobers.Workflow.Exit

/-!
# Branch bodies

The body of a branch is what can be reached from its start without going through one of
the reserved targets. This module says so, and gathers what the checks of an accepted
workflow say about bodies: each state of one is owned by the branch whose body it is in,
it is a task or a gate, and it can reach an exit of the branch.
-/

namespace Goobers.Workflow

open Lib List

variable {x : Parallel × Branch} {state : String} {p : Parallel}

section
variable (d : Definition)

def Inside (state : String) : Prop :=
  state ≠ terminalComplete ∧ isReservedAnyTarget state = false ∧ d.has state = true

/-- A transition from a state of a branch. -/
def BodyEdge (state target : String) : Prop := Inside d state ∧ target ∈ d.outgoing state

def allBranches : List (Parallel × Branch) :=
  d.parallels.flatMap (fun p => p.branches.map (fun b => (p, b)))

def InBody (state : String) : Prop :=
  ∃ x ∈ allBranches d, state ∈ branchBody d x.2.start

instance (state : String) : Decidable (Inside d state) :=
  inferInstanceAs (Decidable (_ ∧ _ ∧ _))

instance (state : String) : Decidable (InBody d state) :=
  inferInstanceAs (Decidable (∃ x ∈ _, _))

end

variable {d : Definition}

theorem mem_allBranches : x ∈ allBranches d ↔ x.1 ∈ d.parallels ∧ x.2 ∈ x.1.branches := by
  unfold allBranches
  simp only [mem_flatMap, mem_map]
  constructor
  · rintro ⟨p, hp, b, hb, rfl⟩
    exact ⟨hp, hb⟩
  · rintro ⟨hp, hb⟩
    exact ⟨x.1, hp, x.2, hb, rfl⟩

/-! ## Membership -/

theorem inside_iff :
    (state = terminalComplete || isReservedAnyTarget state || !d.has state) = false ↔
      Inside d state := by
  unfold Inside
  simp [and_assoc]

/-- The body is what the branch's start reaches without leaving the branch. -/
theorem mem_branchBody_iff {start : String} : state ∈ branchBody d start ↔
      Inside d state ∧ Relation.ReflTransGen (BodyEdge d) start state := by
  have hedge : ∀ a b, Leaves d.stateNames d.outgoing
      (fun s => s = terminalComplete || isReservedAnyTarget s || !d.has s) a b ↔
        BodyEdge d a b := by
    intro a b
    unfold Leaves BodyEdge
    rw [inside_iff]
    constructor
    · exact fun ⟨hin, _, hout⟩ => ⟨hin, hout⟩
    · exact fun ⟨hin, hout⟩ => ⟨hin, mem_stateNames_of_has hin.2.2, hout⟩
  unfold branchBody
  rw [mem_sortStrings, mem_walk_iff, inside_iff]
  constructor
  · rintro ⟨hin, s, hs, hpath⟩
    rw [mem_singleton] at hs
    subst hs
    exact ⟨hin, Relation.ReflTransGen.mono (fun a b h => (hedge a b).mp h) _ _ hpath⟩
  · rintro ⟨hin, hpath⟩
    exact ⟨hin, start, by simp,
      Relation.ReflTransGen.mono (fun a b h => (hedge a b).mpr h) _ _ hpath⟩

theorem mem_branchBody_of_outgoing {start target : String} (hs : state ∈ branchBody d start)
    (ht : target ∈ d.outgoing state) (hin : Inside d target) : target ∈ branchBody d start := by
  rw [mem_branchBody_iff] at hs ⊢
  exact ⟨hin, hs.2.tail ⟨hs.1, ht⟩⟩

theorem has_of_outgoing {target : String} (h : target ∈ d.outgoing state) : d.has state = true := by
  unfold Definition.has
  unfold Definition.outgoing at h
  cases ht : d.task state with
  | some t => simp
  | none =>
    cases hg : d.gate state with
    | some g => simp
    | none =>
      cases hp : d.parallel state with
      | some p => simp
      | none =>
        cases hf : d.map state with
        | some f => simp
        | none => rw [ht, hg, hp, hf] at h; cases h

/-! ## Declarations -/

theorem duplicateProblems_eq_nil {text : String → String} {seen names : List String}
    (h : duplicateProblems text seen names = []) :
    names.Nodup ∧ ∀ name ∈ names, name ∉ seen := by
  induction names generalizing seen with
  | nil => exact ⟨nodup_nil, by simp⟩
  | cons name rest ih =>
    rw [duplicateProblems, append_eq_nil_iff] at h
    obtain ⟨hnew, hrest⟩ := h
    obtain ⟨hnodup, hseen⟩ := ih hrest
    refine ⟨nodup_cons.mpr ⟨fun hmem => hseen name hmem (by simp), hnodup⟩, ?_⟩
    exact forall_mem_cons.mpr ⟨fun hx => by simp [hx] at hnew,
      fun x hx hxseen => hseen x hx (mem_cons_of_mem name hxseen)⟩

theorem nodup_stateNames (h : structuralProblems d = []) : d.stateNames.Nodup := by
  unfold structuralProblems at h
  simp only [append_eq_nil_iff] at h
  exact (duplicateProblems_eq_nil h.1.1.1).1

theorem Accepted.nodup (h : Accepted d) : d.stateNames.Nodup := nodup_stateNames h.structural

theorem Accepted.task_none (h : Accepted d) {g : Gate} (hg : d.gate state = some g) :
    d.task state = none := by
  cases ht : d.task state with
  | none => rfl
  | some t =>
    have hnodup := h.nodup
    have hfront := (nodup_append.mp (nodup_append.mp hnodup).1).1
    obtain ⟨htask, htname⟩ := mem_of_task ht
    obtain ⟨hgate, hgname⟩ := mem_of_gate hg
    exact absurd (htname.trans hgname.symm)
      ((nodup_append.mp hfront).2.2 _ (mem_map.mpr ⟨t, htask, rfl⟩) _
        (mem_map.mpr ⟨g, hgate, rfl⟩))

theorem branchDeclarationProblems_eq_nil {seen : List String} {branches : List Branch}
    (h : branchDeclarationProblems d p seen branches = []) : (branches.map Branch.name).Nodup ∧
      ∀ b ∈ branches, b.name ∉ seen ∧ b.start ≠ "" ∧ d.has b.start = true := by
  induction branches generalizing seen with
  | nil => exact ⟨nodup_nil, by simp⟩
  | cons b rest ih =>
    rw [branchDeclarationProblems] at h
    by_cases hname : b.name = ""
    · rw [if_pos hname] at h
      cases h
    rw [if_neg hname, append_eq_nil_iff, append_eq_nil_iff] at h
    obtain ⟨⟨hnew, hstart⟩, hrest⟩ := h
    obtain ⟨hnodup, hall⟩ := ih hrest
    have hb : b.start ≠ "" ∧ d.has b.start = true := by
      by_cases hempty : b.start = ""
      · rw [if_pos hempty] at hstart
        cases hstart
      · rw [if_neg hempty] at hstart
        exact ⟨hempty, by simpa using hstart⟩
    constructor
    · rw [map_cons, nodup_cons]
      refine ⟨fun hmem => ?_, hnodup⟩
      obtain ⟨b', hb', heq⟩ := mem_map.mp hmem
      exact (hall b' hb').1 (by rw [heq]; simp)
    · intro x hx
      rcases mem_cons.mp hx with rfl | hx
      · exact ⟨by simpa using hnew, hb⟩
      · obtain ⟨hfresh, hdecl⟩ := hall x hx
        exact ⟨fun hmem => hfresh (mem_cons_of_mem b.name hmem), hdecl⟩

theorem parallel_checks (h : Accepted d) (hp : p ∈ d.parallels) :
    parallelShapeProblems d p = [] ∧ parallelBodyProblems d p (branchOwnership d) = [] := by
  have hpar := h.parallel
  have hne : ¬ (d.parallels.isEmpty && d.maps.isEmpty) = true := by
    intro hnil
    rw [Bool.and_eq_true, List.isEmpty_iff] at hnil
    rw [hnil.1] at hp
    cases hp
  unfold parallelProblems at hpar
  rw [if_neg hne] at hpar
  have hnil := sortStrings_eq_nil_iff.mp hpar
  simp only [append_eq_nil_iff] at hnil
  have hone := flatMap_eq_nil_iff.mp hnil.1.1.1.1 p hp
  simp only [append_eq_nil_iff] at hone
  exact hone.1

theorem branches_declared (h : Accepted d) (hp : p ∈ d.parallels) :
    (p.branches.map Branch.name).Nodup ∧
      ∀ b ∈ p.branches, b.start ≠ "" ∧ d.has b.start = true := by
  have hshape := (parallel_checks h hp).1
  unfold parallelShapeProblems at hshape
  simp only [append_eq_nil_iff] at hshape
  obtain ⟨hnodup, hall⟩ := branchDeclarationProblems_eq_nil hshape.1.1.1.1.2
  exact ⟨hnodup, fun b hb => (hall b hb).2⟩

theorem find?_reverse_of_nodup {α : Type} {l : List α} {key : α → String}
    (hnodup : (l.map key).Nodup) {a : α} (ha : a ∈ l) {q : α → Bool}
    (hq : ∀ x, q x = true → key x = key a) (hqa : q a = true) :
    l.reverse.find? q = some a := by
  obtain ⟨x, hx⟩ : ∃ x, l.reverse.find? q = some x := by
    rw [← Option.isSome_iff_exists, find?_isSome]
    exact ⟨a, mem_reverse.mpr ha, hqa⟩
  have hmem := mem_reverse.mp (mem_of_find?_eq_some hx)
  have hkey := hq x (find?_some hx)
  rw [hx, inj_on_of_nodup_map hnodup hmem ha hkey]

theorem find?_reverse_eq_none {α : Type} {l : List α} {key : α → String} {name : String}
    (hnot : name ∉ l.map key) : l.reverse.find? (fun a => key a = name) = none := by
  rw [find?_eq_none]
  intro a ha hkey
  exact hnot (mem_map.mpr ⟨a, mem_reverse.mp ha, of_decide_eq_true hkey⟩)

theorem parallel_lookup (h : structuralProblems d = []) (hp : p ∈ d.parallels) :
    d.task p.name = none ∧ d.gate p.name = none ∧ d.parallel p.name = some p := by
  have hnodup := nodup_stateNames h
  obtain ⟨_, hparallels, hdisj⟩ := nodup_append.mp (nodup_append.mp hnodup).1
  have hnot : p.name ∉ d.tasks.map Task.name ++ d.gates.map Gate.name :=
    fun hmem => hdisj _ hmem _ (mem_map_of_mem hp) rfl
  rw [mem_append, not_or] at hnot
  refine ⟨find?_reverse_eq_none hnot.1, find?_reverse_eq_none hnot.2, ?_⟩
  exact find?_reverse_of_nodup hparallels hp (fun x hx => of_decide_eq_true hx) (decide_eq_true rfl)

theorem map_lookup (h : structuralProblems d = []) {f : Map} (hf : f ∈ d.maps) :
    d.task f.name = none ∧ d.gate f.name = none ∧ d.parallel f.name = none ∧
      d.map f.name = some f := by
  have hnodup := nodup_stateNames h
  obtain ⟨_, hmaps, hdisj⟩ := nodup_append.mp hnodup
  have hnot : f.name ∉ d.tasks.map Task.name ++ d.gates.map Gate.name ++
      d.parallels.map Parallel.name :=
    fun hmem => hdisj _ hmem _ (mem_map_of_mem hf) rfl
  rw [mem_append, mem_append, not_or, not_or] at hnot
  refine ⟨find?_reverse_eq_none hnot.1.1, find?_reverse_eq_none hnot.1.2,
    find?_reverse_eq_none hnot.2, ?_⟩
  exact find?_reverse_of_nodup hmaps hf (fun x hx => of_decide_eq_true hx) (decide_eq_true rfl)

theorem branchBodies_eq (h : Accepted d) (hp : p ∈ d.parallels) {b : Branch} (hb : b ∈ p.branches) :
    branchBodies d p b.name = branchBody d b.start := by
  obtain ⟨hnodup, hall⟩ := branches_declared h hp
  obtain ⟨hstart, hhas⟩ := hall b hb
  have hfind : p.branches.reverse.find?
      (fun x => x.name = b.name && x.start ≠ "" && d.has x.start) = some b := by
    refine find?_reverse_of_nodup hnodup hb (fun x hx => ?_) ?_
    · simp only [Bool.and_eq_true, decide_eq_true_eq] at hx
      exact hx.1.1
    · simp [hstart, hhas]
  unfold branchBodies
  rw [hfind]

/-! ## Owners -/

theorem member_checks (h : Accepted d) (hp : p ∈ d.parallels) {b : Branch} (hb : b ∈ p.branches)
    (hs : state ∈ branchBody d b.start) :
    branchMemberProblems d p (branchOwnership d) b state = [] ∧
      state ∈ branchExitSet d (branchBody d b.start) := by
  have hbody := (parallel_checks h hp).2
  obtain ⟨hmembers, hexits⟩ := append_eq_nil_iff.mp hbody
  have hm := flatMap_eq_nil_iff.mp hmembers b hb
  have he := flatMap_eq_nil_iff.mp hexits b hb
  rw [branchBodies_eq h hp hb] at hm he
  refine ⟨flatMap_eq_nil_iff.mp hm state hs, ?_⟩
  have hexit := flatMap_eq_nil_iff.mp he state hs
  simpa using hexit

theorem stage_of_inBody (h : Accepted d) (hs : InBody d state) : IsStage d state := by
  obtain ⟨⟨p, b⟩, hx, hs⟩ := hs
  obtain ⟨hp, hb⟩ := mem_allBranches.mp hx
  have hm := (member_checks h hp hb hs).1
  unfold branchMemberProblems at hm
  simp only [append_eq_nil_iff, problemIf_eq_nil_iff] at hm
  obtain ⟨⟨⟨⟨_, _⟩, hpar⟩, hmap⟩, _⟩ := hm
  have hhas := (mem_branchBody_iff.mp hs).1.2.2
  unfold Definition.has at hhas
  rw [hpar, hmap, Bool.or_false, Bool.or_false, Bool.or_eq_true] at hhas
  exact hhas

theorem branchOwnership_isSome (hx : x ∈ allBranches d) (hs : state ∈ branchBody d x.2.start) :
    ((branchOwnership d).get? state).isSome = true := by
  obtain ⟨hp, hb⟩ := mem_allBranches.mp hx
  refine GoMap.isSome_get?_foldl_putNew (.inr ⟨⟨x.1.name, x.2.name⟩, ?_⟩)
  exact mem_flatMap.mpr
    ⟨x.1, hp, mem_flatMap.mpr ⟨x.2, hb, mem_map.mpr ⟨state, hs, rfl⟩⟩⟩

theorem branchOwnership_eq (h : Accepted d) (hx : x ∈ allBranches d)
    (hs : state ∈ branchBody d x.2.start) :
    (branchOwnership d).get? state = some ⟨x.1.name, x.2.name⟩ := by
  obtain ⟨hp, hb⟩ := mem_allBranches.mp hx
  -- the state has some owner, and the check compares that one with the branch
  obtain ⟨ref, href⟩ := Option.isSome_iff_exists.mp (branchOwnership_isSome hx hs)
  have hm := (member_checks h hp hb hs).1
  unfold branchMemberProblems at hm
  simp only [append_eq_nil_iff, href, problemIf_eq_nil_iff] at hm
  have hsame := hm.1.1.1.1.1.1
  rw [Bool.or_eq_false_iff, decide_eq_false_iff_not, decide_eq_false_iff_not, not_not,
    not_not] at hsame
  rw [href, ← hsame.1, ← hsame.2]

/-- Branches are told apart by the names of the parallel and the branch. -/
theorem allBranches_nodup (h : Accepted d) :
    ((allBranches d).map (fun x => (x.1.name, x.2.name))).Nodup := by
  have hnames : (d.parallels.map Parallel.name).Nodup := by
    have hnodup := h.nodup
    exact ((nodup_append.mp (nodup_append.mp hnodup).1).2).1
  unfold allBranches
  rw [map_flatMap]
  refine nodup_flatMap.mpr ⟨fun p hp => ?_, ?_⟩
  · rw [map_map]
    have hb := (branches_declared h hp).1
    have hinj : Function.Injective (fun n : String => (p.name, n)) :=
      fun _ _ he => (Prod.mk.inj he).2
    have hmap := hb.map hinj
    rwa [map_map] at hmap
  · refine (pairwise_map.mp hnames).imp (fun {p q} hne => ?_)
    intro x hxp hxq
    simp only [mem_map] at hxp hxq
    obtain ⟨_, ⟨b, _, rfl⟩, rfl⟩ := hxp
    obtain ⟨_, ⟨c, _, rfl⟩, heq⟩ := hxq
    exact hne (Prod.mk.inj heq).1.symm

theorem bodies_disjoint (h : Accepted d) :
    (allBranches d).Pairwise (fun x y =>
      ∀ state, state ∈ branchBody d x.2.start → state ∉ branchBody d y.2.start) := by
  refine (pairwise_map.mp (allBranches_nodup h)).imp_of_mem ?_
  intro x y hx hy hne state hsx hsy
  have hown := branchOwnership_eq h hx hsx
  rw [branchOwnership_eq h hy hsy] at hown
  have href := Option.some.inj hown
  injection href with hp hb
  exact hne (by rw [hp, hb])

end Goobers.Workflow
