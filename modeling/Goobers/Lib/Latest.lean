import Mathlib.Data.List.Basic
import Mathlib.Data.List.Induction
import Mathlib.Tactic.SplitIfs

/-!
# What a fold leaves in one place

A fold that builds a large state is often asked for one part of it. Where each step
either rewrites that part or leaves it alone, the part is a fold over the steps that
rewrite it (`foldl_view`). If a rewrite does not look at the old value, only the last
of them counts, and a sublist with the same last element leaves the same value.
Where a rewrite counts, and some steps clear the count, it is the number of counted steps
since the last of these (`sinceLast`).
-/

namespace Goobers.Lib

variable {α β σ τ : Type}

/-- **A part of a folded state is folded from the steps that touch it.** -/
theorem foldl_view (step : σ → α → σ) (view : σ → τ) (touches : α → Bool) (rewrite : τ → α → τ)
    (hstep : ∀ s x, view (step s x) = if touches x then rewrite (view s) x else view s)
    (l : List α) (s : σ) :
    view (l.foldl step s) = (l.filter touches).foldl rewrite (view s) := by
  induction l generalizing s with
  | nil => rfl
  | cons x l ih =>
    rw [List.foldl_cons, ih, hstep, List.filter_cons]
    split <;> rfl

theorem foldl_overwrite (value : α → β) (l : List α) (b : β) :
    l.foldl (fun _ x => value x) b = (l.getLast?.map value).getD b := by
  rcases List.eq_nil_or_concat l with rfl | ⟨l, x, rfl⟩
  · rfl
  · simp

theorem getLast?_filter_of_last {l : List α} {p : α → Bool}
    (h : ∀ x, l.getLast? = some x → p x = true) : (l.filter p).getLast? = l.getLast? := by
  rcases List.eq_nil_or_concat l with rfl | ⟨l, x, rfl⟩
  · rfl
  · have hx : p x = true := h x (by simp)
    simp [List.filter_append, hx]

theorem getLast?_filter_eq_some {l : List α} {p : α → Bool} {x : α} (h : l.getLast? = some x)
    (hx : p x = true) : (l.filter p).getLast? = some x := by
  rw [getLast?_filter_of_last, h]
  intro y hy
  rwa [← Option.some.inj (h.symm.trans hy)]

theorem foldl_place_cases {κ ν : Type} [DecidableEq κ] {step : σ → α → σ} (view : σ → κ → ν)
    (place : α → κ) (value : α → ν)
    (hstep : ∀ s x k, view (step s x) k = if k = place x then value x else view s k)
    (l : List α) (s : σ) (k : κ) :
    (view (l.foldl step s) k = view s k ∧ ∀ x ∈ l, place x ≠ k) ∨
      ∃ x ∈ l, place x = k ∧ view (l.foldl step s) k = value x := by
  induction l generalizing s with
  | nil => exact .inl ⟨rfl, nofun⟩
  | cons y l ih =>
    rcases ih (step s y) with ⟨hview, hother⟩ | ⟨x, hx, hwrote⟩
    · rw [hstep] at hview
      split_ifs at hview with hk
      · exact .inr ⟨y, List.mem_cons_self, hk.symm, hview⟩
      · exact .inl ⟨hview, List.forall_mem_cons.mpr ⟨Ne.symm hk, hother⟩⟩
    · exact .inr ⟨x, List.mem_cons_of_mem _ hx, hwrote⟩

def sinceLast (stops : α → Bool) (l : List α) : List α :=
  (l.reverse.takeWhile (fun a => !stops a)).reverse

theorem sinceLast_concat (stops : α → Bool) (l : List α) (a : α) :
    sinceLast stops (l ++ [a]) = if stops a then [] else sinceLast stops l ++ [a] := by
  unfold sinceLast
  rw [List.reverse_concat, List.takeWhile_cons]
  cases stops a <;> simp

theorem count_eq_sinceLast (count : List α → Nat) {clears counts : α → Bool} (hnil : count [] = 0)
    (hstep : ∀ l a, count (l ++ [a]) =
      if clears a then 0 else if counts a then count l + 1 else count l) (l : List α) :
    count l = (sinceLast clears l).countP counts := by
  induction l using List.reverseRecOn with
  | nil => exact hnil
  | append_singleton l a ih =>
    rw [hstep, sinceLast_concat, ih]
    cases hclear : clears a with
    | true => rfl
    | false => cases hcount : counts a <;> simp [hcount]

end Goobers.Lib
