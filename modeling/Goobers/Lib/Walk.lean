import Mathlib.Algebra.BigOperators.Group.List.Basic
import Mathlib.Algebra.Order.BigOperators.Group.List
import Mathlib.Algebra.Order.Group.Nat
import Mathlib.Logic.Relation
import Mathlib.Algebra.GroupWithZero.Nat

/-!
# Worklists and fixed points over finite graphs

Two loops that graph analyses are written with. `walk` takes nodes off a stack, skips
those it stops at or has seen, and pushes the successors of the others. `saturate`
goes over a list of nodes again and again and adds those a rule admits, until a pass
adds none.

Both end because only finitely many nodes have successors or can be added; those are
`names`, and what is left to be done for those still unseen is the measure.
-/

namespace Goobers.Lib

open List

variable {α : Type} [DecidableEq α]

variable {seen names stack : List α} {s : α}

def unseen (cost : α → Nat) (names seen : List α) : Nat :=
  ((names.filter (fun s => s ∉ seen)).map cost).sum

theorem filter_unseen_sublist (names : List α) {seen' : List α} (hsub : seen ⊆ seen') :
    names.filter (fun s => s ∉ seen') <+ names.filter (fun s => s ∉ seen) :=
  monotone_filter_right names fun s hs => by
    simp only [decide_eq_true_eq] at hs ⊢
    exact fun h => hs (hsub h)

theorem unseen_le (cost : α → Nat) (names : List α) {seen' : List α} (hsub : seen ⊆ seen') :
    unseen cost names seen' ≤ unseen cost names seen :=
  ((filter_unseen_sublist names hsub).map cost).sum_le_sum fun _ _ => Nat.zero_le _

theorem unseen_add_le (cost : α → Nat) {seen' : List α} (hsub : seen ⊆ seen') (hs : s ∈ names)
    (hnew : s ∉ seen) (hin : s ∈ seen') :
    unseen cost names seen' + cost s ≤ unseen cost names seen := by
  have hrest := (filter_unseen_sublist names hsub).erase s
  rw [erase_of_not_mem (by simp [hin])] at hrest
  have hle := (hrest.map cost).sum_le_sum fun _ _ => Nat.zero_le _
  have hsum := sum_map_erase cost (show s ∈ names.filter (fun s => s ∉ seen) by simp [hs, hnew])
  unfold unseen
  omega

/-- A node of a walk costs as much as it puts on the stack. -/
def pushes (next : α → List α) (s : α) : Nat := (next s).length

theorem visit_lt (next : α → List α) (hs : s ∈ names) (hnew : s ∉ seen) :
    unseen (pushes next) names (s :: seen) + ((next s).reverse ++ stack).length
      < unseen (pushes next) names seen + (s :: stack).length := by
  have h := unseen_add_le (pushes next) (subset_cons_self s seen) hs hnew (by simp)
  unfold pushes at h ⊢
  rw [length_append, length_reverse, length_cons]
  omega

theorem drop_lt (next : α → List α) : unseen (pushes next) names (s :: seen) + stack.length
      < unseen (pushes next) names seen + (s :: stack).length := by
  have h := unseen_le (pushes next) names (subset_cons_self s seen)
  rw [length_cons]
  omega

/--
The nodes a depth-first walk visits, last first. The head of the stack is its top. A
node outside `names` is visited too, but has no successors.
-/
def walk (names : List α) (next : α → List α) (stop : α → Bool) (seen : List α) :
    List α → List α
  | [] => seen
  | s :: stack =>
    if stop s = true ∨ s ∈ seen then walk names next stop seen stack
    else if s ∈ names then walk names next stop (s :: seen) ((next s).reverse ++ stack)
    else walk names next stop (s :: seen) stack
termination_by stack => unseen (pushes next) names seen + stack.length
decreasing_by
  · exact Nat.lt_succ_self _
  · rename_i hseen hname
    exact visit_lt next hname (not_or.mp hseen).2
  · exact drop_lt next

/-! ## What a walk visits -/

section Visits
variable {names : List α} {next : α → List α} {stop : α → Bool}

/-- A walk goes on from a node it does not stop at to the successors of it. -/
def Leaves (names : List α) (next : α → List α) (stop : α → Bool) (s t : α) : Prop :=
  stop s = false ∧ s ∈ names ∧ t ∈ next s

/-- The nodes the walk puts on the stack for a node it visits. -/
def onward (names : List α) (next : α → List α) (s : α) : List α :=
  if s ∈ names then next s else []

theorem mem_onward {t : α} : t ∈ onward names next s ↔ s ∈ names ∧ t ∈ next s := by
  unfold onward
  split <;> simp_all

theorem walk_visit (h : ¬ (stop s = true ∨ s ∈ seen)) (stack : List α) :
    walk names next stop seen (s :: stack) =
      walk names next stop (s :: seen) ((onward names next s).reverse ++ stack) := by
  rw [walk, if_neg h]
  unfold onward
  split <;> rfl

/-- A walk ends, passes over a node or visits it. -/
@[elab_as_elim]
theorem walk_elim (names : List α) (next : α → List α) (stop : α → Bool)
    {motive : List α → List α → Prop} (seen stack : List α) (done : ∀ seen, motive seen [])
    (skip : ∀ seen s stack, stop s = true ∨ s ∈ seen → motive seen stack → motive seen (s :: stack))
    (visit : ∀ seen s stack, ¬ (stop s = true ∨ s ∈ seen) →
      motive (s :: seen) ((onward names next s).reverse ++ stack) → motive seen (s :: stack)) :
    motive seen stack := by
  unfold onward at visit
  induction seen, stack using walk.induct names next stop with
  | case1 seen => exact done seen
  | case2 seen s stack h ih => exact skip seen s stack h ih
  | case3 seen s stack h hname ih => exact visit seen s stack h (by rwa [if_pos hname])
  | case4 seen s stack h hname ih => exact visit seen s stack h (by rwa [if_neg hname])

/-- What is seen or on the stack is visited, and so is what comes after it, if that holds of the
nodes seen before. -/
theorem walk_covers (seen stack : List α)
    (hseen : ∀ s ∈ seen, ∀ t ∈ onward names next s, stop t = false → t ∈ seen ∨ t ∈ stack) :
    seen ⊆ walk names next stop seen stack ∧
      (∀ s ∈ stack, stop s = false → s ∈ walk names next stop seen stack) ∧
      ∀ s ∈ walk names next stop seen stack, ∀ t ∈ onward names next s, stop t = false →
        t ∈ walk names next stop seen stack := by
  -- along the walk: what is on the stack is skipped or visited
  induction seen, stack using walk_elim names next stop with
  | done seen =>
    rw [walk]
    exact ⟨fun _ h => h, nofun, fun s hs t ht hstop =>
      (hseen s hs t ht hstop).resolve_right not_mem_nil⟩
  | skip seen s stack h ih =>
    have hs : stop s = false → s ∈ seen := fun hstop => h.resolve_left (by simp [hstop])
    rw [walk, if_pos h]
    obtain ⟨hsub, hstack, hclosed⟩ := ih fun a ha b hb hstop => by
      rcases hseen a ha b hb hstop with hb | hb
      · exact .inl hb
      · rcases mem_cons.mp hb with rfl | hb
        · exact .inl (hs hstop)
        · exact .inr hb
    exact ⟨hsub, forall_mem_cons.mpr ⟨fun hstop => hsub (hs hstop), hstack⟩, hclosed⟩
  | visit seen s stack h ih =>
    rw [walk_visit h]
    obtain ⟨hsub, hstack, hclosed⟩ := ih <| forall_mem_cons.mpr
      ⟨fun b hb _ => .inr (mem_append_left _ (mem_reverse.mpr hb)), fun a ha b hb hstop => by
        rcases hseen a ha b hb hstop with hb | hb
        · exact .inl (mem_cons_of_mem s hb)
        · rcases mem_cons.mp hb with rfl | hb
          · exact .inl mem_cons_self
          · exact .inr (mem_append_right _ hb)⟩
    exact ⟨fun x hx => hsub (mem_cons_of_mem s hx), forall_mem_cons.mpr
      ⟨fun _ => hsub mem_cons_self, fun x hx => hstack x (mem_append_right _ hx)⟩, hclosed⟩

theorem reached_of_walk {x : α} (h : x ∈ walk names next stop seen stack) :
    x ∈ seen ∨ stop x = false ∧
      ∃ s ∈ stack, Relation.ReflTransGen (Leaves names next stop) s x := by
  induction seen, stack using walk_elim names next stop with
  | done seen => rw [walk] at h; exact .inl h
  | skip seen s stack hs ih =>
    rw [walk, if_pos hs] at h
    rcases ih h with h | ⟨hx, r, hr, hpath⟩
    · exact .inl h
    · exact .inr ⟨hx, r, mem_cons_of_mem s hr, hpath⟩
  | visit seen s stack hs ih =>
    rw [walk_visit hs] at h
    have hstop : stop s = false := by simpa using (not_or.mp hs).1
    rcases ih h with h | ⟨hx, r, hr, hpath⟩
    · rcases mem_cons.mp h with rfl | h
      · exact .inr ⟨hstop, x, by simp, .refl⟩
      · exact .inl h
    · rcases mem_append.mp hr with hr | hr
      · exact .inr ⟨hx, s, by simp, hpath.head ⟨hstop, mem_onward.mp (mem_reverse.mp hr)⟩⟩
      · exact .inr ⟨hx, r, mem_cons_of_mem s hr, hpath⟩

/-- **A walk visits what can be reached from its stack** without going on from a stopping node. -/
theorem mem_walk_iff {x : α} : x ∈ walk names next stop [] stack ↔
      stop x = false ∧ ∃ s ∈ stack, Relation.ReflTransGen (Leaves names next stop) s x := by
  constructor
  · intro h
    exact (reached_of_walk h).resolve_left (by simp)
  · rintro ⟨hx, s, hs, hpath⟩
    obtain ⟨-, hstack, hclosed⟩ := @walk_covers α _ names next stop [] stack nofun
    have hall : ∀ y, Relation.ReflTransGen (Leaves names next stop) s y → stop y = false →
        y ∈ walk names next stop [] stack := by
      intro y hy
      induction hy with
      | refl => exact hstack s hs
      | tail _ hleaves ih => exact hclosed _ (ih hleaves.1) _ (mem_onward.mpr hleaves.2)
    exact hall x hpath hx

end Visits

/--
A walk that ends as soon as it takes a node with `hit` off the stack, and tells
whether it did. Nodes with `skip` are passed over before that test.
-/
def walkFinds (names : List α) (next : α → List α) (skip hit stop : α → Bool)
    (seen : List α) : List α → Bool
  | [] => false
  | s :: stack =>
    if skip s = true ∨ s ∈ seen then walkFinds names next skip hit stop seen stack
    else if hit s = true then true
    else if stop s = true then walkFinds names next skip hit stop seen stack
    else if s ∈ names then
      walkFinds names next skip hit stop (s :: seen) ((next s).reverse ++ stack)
    else walkFinds names next skip hit stop (s :: seen) stack
termination_by stack => unseen (pushes next) names seen + stack.length
decreasing_by
  · exact Nat.lt_succ_self _
  · exact Nat.lt_succ_self _
  · rename_i hseen _ _ hname
    exact visit_lt next hname (not_or.mp hseen).2
  · exact drop_lt next

section Finds
variable {names : List α} {next : α → List α} {skip hit stop : α → Bool}

/-- The search has nothing to do with the node: it is passed over, or it is no hit and was seen. -/
def Done (skip hit stop : α → Bool) (seen : List α) (s : α) : Prop :=
  skip s = false → hit s = false ∧ (stop s = false → s ∈ seen)

/-- The search is done with the nodes of the stack, and with what comes after those it saw. -/
def AllDone (names : List α) (next : α → List α) (skip hit stop : α → Bool)
    (seen stack : List α) : Prop :=
  ∃ seen', seen ⊆ seen' ∧ (∀ s ∈ stack, Done skip hit stop seen' s) ∧
    ∀ s ∈ seen', s ∈ seen ∨ ∀ t ∈ onward names next s, Done skip hit stop seen' t

theorem AllDone.cons (h : AllDone names next skip hit stop seen stack)
    (hs : ∀ seen', seen ⊆ seen' → Done skip hit stop seen' s) :
    AllDone names next skip hit stop seen (s :: stack) := by
  obtain ⟨seen', hsub, hstack, hnext⟩ := h
  exact ⟨seen', hsub, forall_mem_cons.mpr ⟨hs seen' hsub, hstack⟩, hnext⟩

theorem AllDone.visit
    (h : AllDone names next skip hit stop (s :: seen) ((onward names next s).reverse ++ stack))
    (hhit : hit s = false) : AllDone names next skip hit stop seen (s :: stack) := by
  obtain ⟨seen', hsub, hstack, hnext⟩ := h
  have hmem : s ∈ seen' := hsub mem_cons_self
  refine ⟨seen', fun x hx => hsub (mem_cons_of_mem s hx), forall_mem_cons.mpr
    ⟨fun _ => ⟨hhit, fun _ => hmem⟩, fun x hx => hstack x (mem_append_right _ hx)⟩, fun x hx => ?_⟩
  rcases hnext x hx with hseen | hdone
  · rcases mem_cons.mp hseen with rfl | hseen
    · exact .inr fun t ht => hstack t (mem_append_left _ (mem_reverse.mpr ht))
    · exact .inl hseen
  · exact .inr hdone

theorem allDone_of_walkFinds (h : walkFinds names next skip hit stop seen stack = false)
    (hseen : ∀ s ∈ seen, hit s = false) : AllDone names next skip hit stop seen stack := by
  induction seen, stack using walkFinds.induct names next skip hit stop with
  | case1 seen => exact ⟨seen, fun _ h => h, nofun, fun s hs => .inl hs⟩
  | case2 seen s stack hskip ih =>
    rw [walkFinds, if_pos hskip] at h
    refine (ih h hseen).cons fun seen' hsub hs => ?_
    have hmem : s ∈ seen := hskip.resolve_left (by rw [hs]; exact Bool.false_ne_true)
    exact ⟨hseen s hmem, fun _ => hsub hmem⟩
  | case3 seen s stack hskip hhit =>
    rw [walkFinds, if_neg hskip, if_pos hhit] at h
    cases h
  | case4 seen s stack hskip hhit hstop ih =>
    rw [walkFinds, if_neg hskip, if_neg hhit, if_pos hstop] at h
    refine (ih h hseen).cons fun _ _ _ => ⟨Bool.not_eq_true _ ▸ hhit, fun hs => ?_⟩
    rw [hs] at hstop
    cases hstop
  | case5 seen s stack hskip hhit hstop hname ih =>
    rw [walkFinds, if_neg hskip, if_neg hhit, if_neg hstop, if_pos hname] at h
    have hhit' : hit s = false := by simpa using hhit
    refine AllDone.visit ?_ hhit'
    rw [onward, if_pos hname]
    exact ih h (forall_mem_cons.mpr ⟨hhit', hseen⟩)
  | case6 seen s stack hskip hhit hstop hname ih =>
    rw [walkFinds, if_neg hskip, if_neg hhit, if_neg hstop, if_neg hname] at h
    have hhit' : hit s = false := by simpa using hhit
    refine AllDone.visit ?_ hhit'
    rw [onward, if_neg hname]
    exact ih h (forall_mem_cons.mpr ⟨hhit', hseen⟩)

/-- A search goes on from a node it neither passes over nor stops at. -/
def Searches (names : List α) (next : α → List α) (skip stop : α → Bool) (s t : α) : Prop :=
  skip s = false ∧ stop s = false ∧ s ∈ names ∧ t ∈ next s

/-- **A search that finds nothing has no hit to find**: it gets to none from its stack. -/
theorem not_hit_of_walkFinds (h : walkFinds names next skip hit stop [] stack = false) {t : α}
    (hs : s ∈ stack) (hpath : Relation.ReflTransGen (Searches names next skip stop) s t)
    (ht : skip t = false) : hit t = false := by
  obtain ⟨seen, -, hstack, hnext⟩ := allDone_of_walkFinds h (by simp)
  have hdone : ∀ u, Relation.ReflTransGen (Searches names next skip stop) s u →
      Done skip hit stop seen u := by
    intro u hu
    induction hu with
    | refl => exact hstack s hs
    | tail _ hstep ih =>
      obtain ⟨hskip, hstop, hname, hb⟩ := hstep
      exact (hnext _ ((ih hskip).2 hstop)).resolve_left (by simp) _ (mem_onward.mpr ⟨hname, hb⟩)
  exact (hdone t hpath ht).1

theorem hit_of_walkFinds (h : walkFinds names next skip hit stop seen stack = true) :
    ∃ s ∈ stack, ∃ t, Relation.ReflTransGen (Searches names next skip stop) s t ∧
      skip t = false ∧ hit t = true := by
  induction seen, stack using walkFinds.induct names next skip hit stop with
  | case1 seen => rw [walkFinds] at h; cases h
  | case2 seen s stack hskip ih =>
    rw [walkFinds, if_pos hskip] at h
    obtain ⟨r, hr, hfound⟩ := ih h
    exact ⟨r, mem_cons_of_mem s hr, hfound⟩
  | case3 seen s stack hskip hhit =>
    exact ⟨s, by simp, s, .refl, by simpa using (not_or.mp hskip).1, hhit⟩
  | case4 seen s stack hskip hhit hstop ih =>
    rw [walkFinds, if_neg hskip, if_neg hhit, if_pos hstop] at h
    obtain ⟨r, hr, hfound⟩ := ih h
    exact ⟨r, mem_cons_of_mem s hr, hfound⟩
  | case5 seen s stack hskip hhit hstop hname ih =>
    rw [walkFinds, if_neg hskip, if_neg hhit, if_neg hstop, if_pos hname] at h
    obtain ⟨r, hr, t, hpath, hfound⟩ := ih h
    rcases mem_append.mp hr with hr | hr
    · have hstep : Searches names next skip stop s r :=
        ⟨by simpa using (not_or.mp hskip).1, by simpa using hstop, hname, mem_reverse.mp hr⟩
      exact ⟨s, by simp, t, hpath.head hstep, hfound⟩
    · exact ⟨r, mem_cons_of_mem s hr, t, hpath, hfound⟩
  | case6 seen s stack hskip hhit hstop hname ih =>
    rw [walkFinds, if_neg hskip, if_neg hhit, if_neg hstop, if_neg hname] at h
    obtain ⟨r, hr, hfound⟩ := ih h
    exact ⟨r, mem_cons_of_mem s hr, hfound⟩

end Finds

/-! ## Fixed points -/

/-- One pass: a node that the rule admits is there for the nodes after it. -/
def saturatePass (rule : List α → α → Bool) (names acc : List α) : List α :=
  names.foldl (fun acc s => if s ∉ acc ∧ rule acc s = true then s :: acc else acc) acc

theorem subset_saturatePass (rule : List α → α → Bool) (names acc : List α) :
    acc ⊆ saturatePass rule names acc := by
  unfold saturatePass
  induction names generalizing acc with
  | nil => exact fun _ h => h
  | cons s names ih =>
    rw [foldl_cons]
    split
    · exact fun x hx => ih _ (mem_cons_of_mem s hx)
    · exact ih acc

theorem mem_of_saturatePass {rule : List α → α → Bool} {acc : List α}
    (h : s ∈ saturatePass rule names acc) : s ∈ acc ∨ s ∈ names := by
  unfold saturatePass at h
  induction names generalizing acc with
  | nil => exact .inl h
  | cons n names ih =>
    rw [foldl_cons] at h
    rcases ih h with h | h
    · split at h
      · rcases mem_cons.mp h with rfl | h
        · exact .inr (by simp)
        · exact .inl h
      · exact .inl h
    · exact .inr (mem_cons_of_mem n h)

/-- Passes until one adds nothing. -/
def saturate (rule : List α → α → Bool) (names acc : List α) : List α :=
  let acc' := saturatePass rule names acc
  if acc'.all (fun s => s ∈ acc) then acc else saturate rule names acc'
termination_by unseen (fun _ => 1) names acc
decreasing_by
  rename_i hall
  rw [List.all_eq_true] at hall
  obtain ⟨s, hs, hnew⟩ : ∃ s ∈ saturatePass rule names acc, s ∉ acc := by
    simpa only [decide_eq_true_eq, not_forall, exists_prop] using hall
  exact unseen_add_le (fun _ => 1) (subset_saturatePass rule names acc)
    ((mem_of_saturatePass hs).resolve_left hnew) hnew hs

/-- **All that a fixed point holds has what the rule passes on.** -/
theorem saturate_induction {rule : List α → α → Bool} {acc : List α} {P : α → Prop}
    (hrule : ∀ acc s, s ∈ names → (∀ x ∈ acc, P x) → rule acc s = true → P s)
    (hacc : ∀ x ∈ acc, P x) : ∀ x ∈ saturate rule names acc, P x := by
  have hpass : ∀ (rest acc : List α), rest ⊆ names → (∀ x ∈ acc, P x) →
      ∀ x ∈ saturatePass rule rest acc, P x := by
    intro rest
    induction rest with
    | nil => exact fun acc _ h => h
    | cons s rest ih =>
      intro acc hsub h
      have hrest : rest ⊆ names := fun x hx => hsub (mem_cons_of_mem s hx)
      show ∀ x ∈ saturatePass rule rest _, P x
      dsimp only
      split_ifs with hadd
      · exact ih _ hrest (forall_mem_cons.mpr ⟨hrule acc _ (hsub (by simp)) h hadd.2, h⟩)
      · exact ih acc hrest h
  induction acc using saturate.induct rule names with
  | case1 acc acc' hall =>
    rw [saturate, if_pos hall]
    exact hacc
  | case2 acc acc' hall ih =>
    rw [saturate, if_neg hall]
    exact ih (hpass names acc (fun _ h => h) hacc)

end Goobers.Lib
