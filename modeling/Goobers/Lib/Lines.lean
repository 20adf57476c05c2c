import Mathlib.Data.List.DropRight
import Mathlib.Data.List.Infix

/-!
# Separator-framed logs

A log is a list of symbols in which every record ends with a separator. The
records that ended are the *lines*; whatever follows the last separator is the
*torn tail* of a write that did not finish.

Every list splits in exactly one way into framed lines and a torn tail
(`frame_lines_append_tornTail`, `lines_frame_append`), so a reader and a writer
that agree on the separator agree on what a cut at an arbitrary place leaves
behind. `lines_append` says what happens when a log is read in two pieces, and
`lines_prefix` that a cut only takes lines from its end.
-/

namespace Goobers.Lib

open List

variable {α : Type}

/-- Lines written out, each with its separator. -/
def frame (sep : α) (ls : List (List α)) : List α := (ls.map (fun l => l ++ [sep])).flatten

@[simp] theorem frame_nil (sep : α) : frame sep [] = [] := rfl

@[simp] theorem frame_cons (sep : α) (l : List α) (ls : List (List α)) :
    frame sep (l :: ls) = l ++ sep :: frame sep ls := by
  simp [frame]

@[simp] theorem frame_append (sep : α) (ls ms : List (List α)) :
    frame sep (ls ++ ms) = frame sep ls ++ frame sep ms := by
  simp [frame]

variable [DecidableEq α] (sep : α)

/-- Everything up to and including the last separator. -/
def complete (data : List α) : List α := data.rdropWhile (fun x => decide (x ≠ sep))

/-- Everything after the last separator. -/
def tornTail (data : List α) : List α := data.rtakeWhile (fun x => decide (x ≠ sep))

/-- The contents of the lines that ended, oldest first. -/
def lines : List α → List (List α)
  | [] => []
  | x :: xs =>
    if x = sep then [] :: lines xs
    else
      match lines xs with
      | [] => []
      | l :: ls => (x :: l) :: ls

@[simp] theorem lines_nil : lines sep ([] : List α) = [] := rfl

@[simp] theorem lines_sep_cons (xs : List α) : lines sep (sep :: xs) = [] :: lines sep xs := by
  simp [lines]

theorem complete_append_tornTail (data : List α) :
    complete sep data ++ tornTail sep data = data := by
  unfold complete tornTail rdropWhile rtakeWhile
  rw [← reverse_append, takeWhile_append_dropWhile, reverse_reverse]

theorem sep_notMem_tornTail (data : List α) : sep ∉ tornTail sep data := by
  intro h
  have := mem_rtakeWhile_imp h
  simp at this

/-! ## Reading what was framed -/

theorem lines_line_append {l : List α} (hl : sep ∉ l) (rest : List α) :
    lines sep (l ++ sep :: rest) = l :: lines sep rest := by
  induction l with
  | nil => simp
  | cons x l ih =>
    have hx : x ≠ sep := fun h => hl (by simp [h])
    have hrest : sep ∉ l := fun h => hl (by simp [h])
    simp [lines, hx, ih hrest]

theorem lines_eq_nil {t : List α} (ht : sep ∉ t) : lines sep t = [] := by
  induction t with
  | nil => rfl
  | cons x t ih =>
    have hx : x ≠ sep := fun h => ht (by simp [h])
    have hrest : sep ∉ t := fun h => ht (by simp [h])
    simp [lines, hx, ih hrest]

/-- **Reading back.** Framed lines followed by a torn tail read as those lines. -/
theorem lines_frame_append {ls : List (List α)} {t : List α}
    (hls : ∀ l ∈ ls, sep ∉ l) (ht : sep ∉ t) : lines sep (frame sep ls ++ t) = ls := by
  induction ls with
  | nil => simpa using lines_eq_nil sep ht
  | cons l ls ih =>
    have hl : sep ∉ l := hls l (by simp)
    have hrest := ih (fun m hm => hls m (by simp [hm]))
    rw [frame_cons, append_assoc, cons_append, lines_line_append sep hl, hrest]

theorem tornTail_of_notMem {t : List α} (ht : sep ∉ t) : tornTail sep t = t := by
  unfold tornTail
  rw [rtakeWhile_eq_self_iff]
  intro x hx
  simp only [decide_eq_true_eq]
  exact fun hxs => ht (hxs ▸ hx)

theorem tornTail_append_sep {t : List α} (ht : sep ∉ t) (d : List α) :
    tornTail sep (d ++ sep :: t) = t := by
  unfold tornTail rtakeWhile
  rw [reverse_append, reverse_cons, append_assoc, takeWhile_append_of_pos]
  · simp
  · intro x hx
    simp only [decide_eq_true_eq]
    exact fun h => ht (by simpa [h] using hx)

theorem tornTail_frame_append {t : List α} (ls : List (List α)) (ht : sep ∉ t) :
    tornTail sep (frame sep ls ++ t) = t := by
  rcases eq_nil_or_concat ls with rfl | ⟨ms, l, rfl⟩
  · simpa using tornTail_of_notMem sep ht
  · have h : frame sep (ms ++ [l]) ++ t = (frame sep ms ++ l) ++ sep :: t := by simp
    rw [concat_eq_append, h, tornTail_append_sep sep ht]

theorem complete_frame_append {t : List α} (ls : List (List α)) (ht : sep ∉ t) :
    complete sep (frame sep ls ++ t) = frame sep ls := by
  have h := complete_append_tornTail sep (frame sep ls ++ t)
  rw [tornTail_frame_append sep ls ht] at h
  exact append_cancel_right h

/-! ## Every list is framed lines and a torn tail -/

theorem sep_notMem_of_mem_lines {data l : List α} (h : l ∈ lines sep data) : sep ∉ l := by
  induction data generalizing l with
  | nil => simp at h
  | cons x xs ih =>
    unfold lines at h
    split_ifs at h with hx
    · rcases mem_cons.mp h with rfl | h
      · simp
      · exact ih h
    · cases hls : lines sep xs with
      | nil => rw [hls] at h; simp at h
      | cons m ms =>
        rw [hls] at h ih
        rcases mem_cons.mp h with rfl | h
        · have hm := ih (l := m) (by simp)
          simp [hm, Ne.symm hx]
        · exact ih (by simp [h])

theorem exists_frame_append (data : List α) :
    ∃ t, sep ∉ t ∧ frame sep (lines sep data) ++ t = data := by
  induction data with
  | nil => exact ⟨[], by simp, rfl⟩
  | cons x xs ih =>
    obtain ⟨t, ht, hxs⟩ := ih
    by_cases hx : x = sep
    · subst hx
      exact ⟨t, ht, by simp [hxs]⟩
    · cases hls : lines sep xs with
      | nil =>
        refine ⟨x :: t, by simp [ht, Ne.symm hx], ?_⟩
        simp only [lines, hx, if_false, hls, frame_nil, nil_append] at hxs ⊢
        rw [hxs]
      | cons m ms =>
        refine ⟨t, ht, ?_⟩
        simp only [lines, hx, if_false, hls, frame_cons, cons_append] at hxs ⊢
        rw [hxs]

theorem complete_eq_frame_lines (data : List α) :
    complete sep data = frame sep (lines sep data) := by
  obtain ⟨t, ht, h⟩ := exists_frame_append sep data
  rw [← complete_frame_append sep (lines sep data) ht, h]

theorem frame_lines_append_tornTail (data : List α) :
    frame sep (lines sep data) ++ tornTail sep data = data := by
  rw [← complete_eq_frame_lines, complete_append_tornTail]

theorem lines_complete (data : List α) : lines sep (complete sep data) = lines sep data := by
  have hmem : ∀ l ∈ lines sep data, sep ∉ l := fun l hl => sep_notMem_of_mem_lines sep hl
  have hnil : sep ∉ ([] : List α) := by simp
  have h := lines_frame_append sep hmem hnil
  rwa [append_nil, ← complete_eq_frame_lines] at h

/-! ## Reading in pieces -/

theorem lines_append (p s : List α) :
    lines sep (p ++ s) = lines sep p ++
      (match lines sep s with
        | [] => []
        | l :: ls => (tornTail sep p ++ l) :: ls) := by
  have hp := frame_lines_append_tornTail sep p
  have hs := frame_lines_append_tornTail sep s
  have hmem : ∀ l ∈ lines sep p, sep ∉ l := fun l hl => sep_notMem_of_mem_lines sep hl
  cases hls : lines sep s with
  | nil =>
    rw [hls, frame_nil] at hs
    have hns : sep ∉ s := hs ▸ sep_notMem_tornTail sep s
    have ht : sep ∉ tornTail sep p ++ s := by
      simp [sep_notMem_tornTail sep p, hns]
    conv_lhs => rw [← hp, append_assoc]
    rw [lines_frame_append sep hmem ht, append_nil]
  | cons l ls =>
    have hl : ∀ m ∈ l :: ls, sep ∉ m := fun m hm => sep_notMem_of_mem_lines sep (hls ▸ hm)
    have key : p ++ s = frame sep (lines sep p ++ (tornTail sep p ++ l) :: ls)
        ++ tornTail sep s := by
      conv_lhs => rw [← hp, ← hs, hls]
      simp
    rw [key, lines_frame_append sep _ (sep_notMem_tornTail sep s)]
    intro m hm
    rcases mem_append.mp hm with hm | hm
    · exact hmem m hm
    · rcases mem_cons.mp hm with rfl | hm
      · simp [sep_notMem_tornTail sep p, hl l (by simp)]
      · exact hl m (by simp [hm])

theorem lines_append_of_notMem {t : List α} (ht : sep ∉ t) (d : List α) :
    lines sep (d ++ t) = lines sep d := by
  rw [lines_append, lines_eq_nil sep ht, append_nil]

theorem lines_prefix {p d : List α} (h : p <+: d) : lines sep p <+: lines sep d := by
  obtain ⟨s, rfl⟩ := h
  rw [lines_append]
  exact prefix_append _ _

theorem tornTail_append (p s : List α) :
    tornTail sep (p ++ s) = if sep ∈ s then tornTail sep s else tornTail sep p ++ s := by
  split_ifs with h
  · have hs := frame_lines_append_tornTail sep s
    rcases eq_nil_or_concat (lines sep s) with hls | ⟨ms, l, hls⟩
    · rw [hls, frame_nil, nil_append] at hs
      exact absurd (hs.symm ▸ h) (sep_notMem_tornTail sep s)
    · have hshape : p ++ s = (p ++ (frame sep ms ++ l)) ++ sep :: tornTail sep s := by
        conv_lhs => rw [← hs, hls]
        simp
      rw [hshape, tornTail_append_sep sep (sep_notMem_tornTail sep s)]
  · have hp := complete_append_tornTail sep p
    have ht : sep ∉ tornTail sep p ++ s := by simp [sep_notMem_tornTail sep p, h]
    conv_lhs => rw [← hp, append_assoc, complete_eq_frame_lines]
    rw [tornTail_frame_append sep _ ht]

theorem tornTail_append_eq (p s : List α) :
    tornTail sep (p ++ s) = tornTail sep (tornTail sep p ++ s) := by
  rw [tornTail_append, tornTail_append, tornTail_of_notMem sep (sep_notMem_tornTail sep p)]

theorem lines_append_eq (p s : List α) :
    lines sep (p ++ s) = lines sep p ++ lines sep (tornTail sep p ++ s) := by
  have ht := sep_notMem_tornTail sep p
  rw [lines_append, lines_append sep (tornTail sep p) s, lines_eq_nil sep ht,
    tornTail_of_notMem sep ht, nil_append]

theorem tail_lines_suffix (p s : List α) : (lines sep s).tail <:+ (lines sep (p ++ s)).tail := by
  rw [lines_append]
  cases hs : lines sep s with
  | nil => simp
  | cons l ls =>
    cases hp : lines sep p with
    | nil => simp
    | cons m ms => exact ⟨ms ++ [tornTail sep p ++ l], by simp⟩

theorem window_lines_suffix (data : List α) (m : Nat) :
    (lines sep (data.drop m)).tail <:+ lines sep data := by
  have h := tail_lines_suffix sep (data.take m) (data.drop m)
  rw [take_append_drop] at h
  exact h.trans (tail_suffix _)

theorem lines_tail_dropWhile {data : List α} (h : sep ∈ data) :
    lines sep (data.dropWhile (fun x => decide (x ≠ sep))).tail = (lines sep data).tail ∧
      tornTail sep (data.dropWhile (fun x => decide (x ≠ sep))).tail = tornTail sep data := by
  obtain ⟨l, rest, rfl, hl⟩ := eq_append_cons_of_mem h
  have hdrop : (l ++ sep :: rest).dropWhile (fun x => decide (x ≠ sep)) = sep :: rest := by
    rw [dropWhile_append_of_pos]
    · simp
    · intro x hx
      simpa using ne_of_mem_of_not_mem hx hl
  rw [hdrop, lines_line_append sep hl, tail_cons]
  refine ⟨rfl, ?_⟩
  rw [tornTail_append]
  by_cases hrest : sep ∈ rest
  · rw [if_pos (mem_cons_of_mem _ hrest), ← singleton_append, tornTail_append,
      if_pos hrest]
  · rw [if_pos mem_cons_self, tornTail_of_notMem sep hrest, ← nil_append (sep :: rest),
      tornTail_append_sep sep hrest]

theorem tornTail_drop {data : List α} {m : Nat} (h : sep ∈ data.drop m) :
    tornTail sep (data.drop m) = tornTail sep data := by
  have hsplit := tornTail_append sep (data.take m) (data.drop m)
  rw [take_append_drop, if_pos h] at hsplit
  exact hsplit.symm

end Goobers.Lib
