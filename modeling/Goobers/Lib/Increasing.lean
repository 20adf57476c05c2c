import Mathlib.Data.List.Induction
import Mathlib.Data.List.DropRight

/-!
# Increasing numbers in a list

The elements of a list carry numbers that increase. The last number is then the
highest, what is above a bound is a tail of the list, and a sublist that keeps the last
element has the same last number.
-/

namespace Goobers.Lib

open List

variable {α : Type} {f : α → Nat} {l m : List α}

def Increasing (f : α → Nat) (l : List α) : Prop := l.Pairwise (fun a b => f a < f b)

/-- The number of the last element; `0` if there is none. -/
def lastValue (f : α → Nat) (l : List α) : Nat := (l.getLast?.map f).getD 0

@[simp] theorem lastValue_nil : lastValue f [] = 0 := rfl

@[simp] theorem lastValue_concat (l : List α) (a : α) : lastValue f (l ++ [a]) = f a := by
  simp [lastValue]

theorem Increasing.append_iff :
    Increasing f (l ++ m) ↔ Increasing f l ∧ Increasing f m ∧ ∀ a ∈ l, ∀ b ∈ m, f a < f b :=
  pairwise_append

theorem Increasing.filter (h : Increasing f l) (p : α → Bool) : Increasing f (l.filter p) :=
  List.Pairwise.filter p h

theorem Increasing.le_lastValue (h : Increasing f l) : ∀ a ∈ l, f a ≤ lastValue f l := by
  induction l using reverseRecOn with
  | nil => simp
  | append_singleton l last _ =>
    intro a ha
    rw [lastValue_concat]
    rcases mem_append.mp ha with hinit | hlast
    · exact Nat.le_of_lt ((Increasing.append_iff.mp h).2.2 a hinit last (by simp))
    · rw [mem_singleton.mp hlast]

theorem lastValue_le {n : Nat} (h : ∀ a ∈ l, f a ≤ n) : lastValue f l ≤ n := by
  induction l using reverseRecOn with
  | nil => simp
  | append_singleton l last _ =>
    rw [lastValue_concat]
    exact h last (by simp)

theorem Increasing.lastValue_le_append (h : Increasing f (l ++ m)) :
    lastValue f l ≤ lastValue f (l ++ m) :=
  lastValue_le fun a ha => h.le_lastValue a (mem_append_left m ha)

theorem Increasing.lastValue_lt (h : Increasing f (l ++ m)) (hpos : ∀ a ∈ m, 0 < f a) :
    ∀ a ∈ m, lastValue f l < f a := by
  intro a ha
  induction l using reverseRecOn with
  | nil => exact hpos a ha
  | append_singleton l last _ =>
    rw [lastValue_concat]
    exact (Increasing.append_iff.mp h).2.2 last (by simp) a ha

theorem Increasing.lastValue_of_sublist (h : Increasing f l) (hsub : m.Sublist l)
    (hlast : ∀ last, l.getLast? = some last → last ∈ m) : lastValue f m = lastValue f l := by
  apply Nat.le_antisymm
  · exact lastValue_le fun a ha => h.le_lastValue a (hsub.subset ha)
  · have hm : Increasing f m := List.Pairwise.sublist hsub h
    induction l using reverseRecOn with
    | nil => simp
    | append_singleton l last _ =>
      rw [lastValue_concat]
      exact hm.le_lastValue last (hlast last (by simp))

theorem Increasing.foldl_max (h : Increasing f l) (n : Nat) :
    l.foldl (fun n a => if n < f a then f a else n) n = max n (lastValue f l) := by
  induction l using reverseRecOn with
  | nil => simp
  | append_singleton l last ih =>
    have hl := (Increasing.append_iff.mp h).1
    have hle : lastValue f l ≤ f last := by
      have := h.lastValue_le_append
      rwa [lastValue_concat] at this
    rw [foldl_append, ih hl, lastValue_concat, foldl_cons, foldl_nil]
    split <;> omega

theorem Increasing.rtakeWhile_eq (h : Increasing f l) (n : Nat) :
    l.rtakeWhile (fun a => decide (n < f a)) = l.filter (fun a => decide (n < f a)) := by
  induction l using reverseRecOn with
  | nil => rfl
  | append_singleton l last ih =>
    obtain ⟨hl, -, hbelow⟩ := Increasing.append_iff.mp h
    by_cases hlast : n < f last
    · rw [rtakeWhile_concat_pos _ _ _ (by simpa using hlast), ih hl]
      simp [hlast]
    · rw [rtakeWhile_concat_neg _ _ _ (by simpa using hlast), eq_comm,
        filter_eq_nil_iff]
      intro a ha
      rcases mem_append.mp ha with hinit | hlast'
      · have := hbelow a hinit last (by simp)
        simp only [decide_eq_true_eq]
        omega
      · rw [mem_singleton.mp hlast']
        simpa using hlast

end Goobers.Lib
