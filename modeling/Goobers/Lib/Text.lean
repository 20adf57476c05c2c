import Mathlib.Data.List.Infix
import Goobers.Lib.Trim
import Goobers.Lib.Lines

/-!
# Texts of lines, fields and markers

The functions of Go's `strings` package that ad-hoc text formats are made of, on lists of
characters: lines, white-space separated fields, a cut at the first separator, the first
occurrence of a marker, and line endings brought to one form. The lemmas say how each of
them goes over a concatenation, and that a pattern within one line cannot arise from
taking lines out or from changing line endings.
-/

namespace Goobers.Lib.Strings

open List

abbrev Text := List Char

variable {s pat a : Text}

/-- A text that is written out. -/
def text (s : String) : Text := s.toList

instance lawfulBEqText : LawfulBEq Text := inferInstance

-- Without it a text is decided by going through all characters there are.
instance (priority := 2000) {p : Char → Prop} [DecidablePred p] (s : Text) :
    Decidable (∀ c ∈ s, p c) := decidableBAll p s

/-! ## Lines -/

def lines (s : Text) : List Text := s.splitOn '\n'

/-- `strings.Join(ls, "\n")`. -/
def unlines (ls : List Text) : Text := ['\n'].intercalate ls

theorem unlines_lines (s : Text) : unlines (lines s) = s := intercalate_splitOn '\n'

theorem lines_append_newline (a b : Text) : lines (a ++ '\n' :: b) = lines a ++ lines b :=
  splitOn_append_cons_self a b

theorem lines_of_notMem (h : '\n' ∉ s) : lines s = [s] :=
  splitOn_eq_singleton h

@[simp] theorem unlines_singleton (l : Text) : unlines [l] = l := by
  simp [unlines]

theorem unlines_append {x y : List Text} (hx : x ≠ []) (hy : y ≠ []) :
    unlines (x ++ y) = unlines x ++ '\n' :: unlines y := by
  induction x with
  | nil => exact absurd rfl hx
  | cons l x ih =>
    cases x with
    | nil =>
      obtain ⟨m, y, rfl⟩ := exists_cons_of_ne_nil hy
      simp [unlines]
    | cons l' x =>
      have hrest := ih (by simp)
      simp only [unlines, cons_append, intercalate_cons_cons] at hrest ⊢
      rw [hrest]
      simp

theorem unlines_cons (l : Text) {y : List Text} (hy : y ≠ []) :
    unlines (l :: y) = l ++ '\n' :: unlines y := by
  have h := unlines_append (cons_ne_nil l []) hy
  rwa [unlines_singleton] at h

theorem infix_of_mem_lines {l : Text} (h : l ∈ lines s) : l <:+: s := by
  obtain ⟨x, y, hsplit⟩ := append_of_mem h
  have hs := unlines_lines s
  rw [hsplit] at hs
  rw [← hs]
  by_cases hx : x = []
  · subst hx
    by_cases hy : y = []
    · subst hy
      simp
    · rw [nil_append, ← singleton_append, unlines_append (by simp) hy]
      exact ⟨[], '\n' :: unlines y, by simp⟩
  · rw [unlines_append hx (by simp)]
    by_cases hy : y = []
    · subst hy
      exact ⟨unlines x ++ ['\n'], [], by simp⟩
    · rw [← singleton_append (l := y), unlines_append (by simp) hy]
      exact ⟨unlines x ++ ['\n'], '\n' :: unlines y, by simp⟩

/-! ## Patterns within a line -/

theorem prefix_append_newline_iff {b : Text} (hpat : '\n' ∉ pat) :
    pat <+: a ++ '\n' :: b ↔ pat <+: a := by
  refine ⟨fun h => ?_, fun h => h.trans (prefix_append _ _)⟩
  rcases prefix_or_prefix_of_prefix h (prefix_append a _) with h' | ⟨u, rfl⟩
  · exact h'
  · cases u with
    | nil => rw [append_nil]
    | cons c u =>
      rw [prefix_append_right_inj] at h
      have hc : c = '\n' := (cons_prefix_cons.mp h).1
      exact absurd (mem_append_right a (hc ▸ mem_cons_self)) hpat

theorem infix_append_newline {b : Text} (hpat : '\n' ∉ pat) (h : pat <:+: a ++ '\n' :: b) :
    pat <:+: a ∨ pat <:+: b := by
  rcases infix_append_iff.mp h with h | h | ⟨u, v, rfl, hu, hv⟩
  · exact .inl h
  · rcases infix_cons_iff.mp h with h | h
    · cases pat with
      | nil => exact .inl (List.nil_infix)
      | cons c pat =>
        have hc : c = '\n' := (cons_prefix_cons.mp h).1
        exact absurd (hc ▸ mem_cons_self) hpat
    · exact .inr h
  · cases v with
    | nil =>
      rw [append_nil]
      exact .inl hu.isInfix
    | cons c v =>
      have hc : c = '\n' := (cons_prefix_cons.mp hv).1
      exact absurd (mem_append_right u (hc ▸ mem_cons_self)) hpat

theorem infix_unlines (hpat : '\n' ∉ pat) {ls : List Text} (hls : ls ≠ [])
    (h : pat <:+: unlines ls) :
    ∃ l ∈ ls, pat <:+: l := by
  induction ls with
  | nil => exact absurd rfl hls
  | cons l ls ih =>
    by_cases hnil : ls = []
    · subst hnil
      exact ⟨l, mem_cons_self, by simpa using h⟩
    · rw [← singleton_append, unlines_append (by simp) hnil, unlines_singleton] at h
      rcases infix_append_newline hpat h with h | h
      · exact ⟨l, mem_cons_self, h⟩
      · obtain ⟨m, hm, hinf⟩ := ih hnil h
        exact ⟨m, mem_cons_of_mem l hm, hinf⟩

/-! ## Line endings -/

/-- `strings.ReplaceAll(s, "\r\n", "\n")`. -/
def crlf : Text → Text
  | [] => []
  | [c] => [c]
  | c :: d :: rest => if c = '\r' ∧ d = '\n' then '\n' :: crlf rest else c :: crlf (d :: rest)

theorem length_crlf_le (s : Text) : (crlf s).length ≤ s.length := by
  induction s using crlf.induct with
  | case1 => simp [crlf]
  | case2 => simp [crlf]
  | case3 c d rest h ih => rw [crlf, if_pos h]; simp only [length_cons]; omega
  | case4 c d rest h ih =>
    rw [crlf, if_neg h]
    simp only [length_cons] at ih ⊢
    omega

theorem crlf_eq_self_iff (s : Text) : crlf s = s ↔ ¬ ['\r', '\n'] <:+: s := by
  induction s using crlf.induct with
  | case1 => simp [crlf]
  | case2 c =>
    simp only [crlf, true_iff]
    intro h
    have := h.length_le
    simp at this
  | case3 c d rest h ih =>
    obtain ⟨rfl, rfl⟩ := h
    have hlen := length_crlf_le rest
    have hne : crlf ('\r' :: '\n' :: rest) ≠ '\r' :: '\n' :: rest := by
      intro heq
      rw [crlf, if_pos ⟨rfl, rfl⟩] at heq
      have := congrArg length heq
      simp only [length_cons] at this
      omega
    exact iff_of_false hne (not_not.mpr ⟨[], rest, rfl⟩)
  | case4 c d rest h ih =>
    rw [crlf, if_neg h, cons_inj_right, ih, infix_cons_iff (a := c)]
    refine not_congr ⟨.inr, fun hor => hor.resolve_left fun hpre => h ?_⟩
    obtain ⟨hc, hrest⟩ := cons_prefix_cons.mp hpre
    exact ⟨hc.symm, (cons_prefix_cons.mp hrest).1.symm⟩

theorem crlf_ne_nil (h : s ≠ []) : crlf s ≠ [] := by
  fun_cases crlf s with
  | case1 => exact absurd rfl h
  | case2 | case3 | case4 => exact cons_ne_nil _ _

theorem head?_crlf (h : s.head? ≠ some '\r') : (crlf s).head? = s.head? := by
  fun_cases crlf s with
  | case3 c d rest hcd => exact absurd (congrArg some hcd.1) h
  | case1 | case2 | case4 => rfl

theorem crlf_of_notMem (h : '\n' ∉ s) : crlf s = s :=
  (crlf_eq_self_iff s).mpr fun hinf => h (hinf.subset (by simp))

theorem crlf_of_notMem_return (h : '\r' ∉ s) : crlf s = s :=
  (crlf_eq_self_iff s).mpr fun hinf => h (hinf.subset (by simp))

theorem crlf_append {b : Text} (h : a.getLast? ≠ some '\r' ∨ b.head? ≠ some '\n') :
    crlf (a ++ b) = crlf a ++ crlf b := by
  induction a using crlf.induct with
  | case1 => rfl
  | case2 c =>
    cases b with
    | nil => simp [crlf]
    | cons d b =>
      have hc : ¬ (c = '\r' ∧ d = '\n') := by
        rintro ⟨rfl, rfl⟩
        simp at h
      have hstep : crlf (c :: d :: b) = c :: crlf (d :: b) := by
        conv_lhs => rw [crlf, if_neg hc]
      exact hstep
  | case3 c d rest hcd ih =>
    have hrest : rest.getLast? ≠ some '\r' ∨ b.head? ≠ some '\n' := by
      refine h.imp_left fun hlast heq => hlast ?_
      cases rest with
      | nil => cases heq
      | cons x rest => simpa using heq
    rw [cons_append, cons_append, crlf, crlf, if_pos hcd, if_pos hcd, ih hrest]
    rfl
  | case4 c d rest hcd ih =>
    have hrest : (d :: rest).getLast? ≠ some '\r' ∨ b.head? ≠ some '\n' := by
      refine h.imp_left fun hlast heq => hlast ?_
      simpa using heq
    rw [cons_append, cons_append, crlf, crlf, if_neg hcd, if_neg hcd,
      ← cons_append, ih hrest]
    rfl

theorem prefix_of_prefix_crlf (hpat : '\n' ∉ pat) (h : pat <+: crlf s) : pat <+: s := by
  induction s using crlf.induct generalizing pat with
  | case1 => exact h
  | case2 c => exact h
  | case3 c d rest hcd ih =>
    rw [crlf, if_pos hcd] at h
    cases pat with
    | nil => exact nil_prefix
    | cons x pat =>
      have hx : x = '\n' := (cons_prefix_cons.mp h).1
      exact absurd (hx ▸ mem_cons_self) hpat
  | case4 c d rest hcd ih =>
    rw [crlf, if_neg hcd] at h
    cases pat with
    | nil => exact nil_prefix
    | cons x pat =>
      obtain ⟨hx, hrest⟩ := cons_prefix_cons.mp h
      exact cons_prefix_cons.mpr
        ⟨hx, ih (fun hmem => hpat (mem_cons_of_mem x hmem)) hrest⟩

theorem infix_of_infix_crlf (hpat : '\n' ∉ pat) (h : pat <:+: crlf s) : pat <:+: s := by
  induction s using crlf.induct with
  | case1 => exact h
  | case2 c => exact h
  | case3 c d rest hcd ih =>
    rw [crlf, if_pos hcd] at h
    rcases infix_cons_iff.mp h with h | h
    · cases pat with
      | nil => exact nil_infix
      | cons x pat =>
        have hx : x = '\n' := (cons_prefix_cons.mp h).1
        exact absurd (hx ▸ mem_cons_self) hpat
    · exact (ih h).trans ⟨[c, d], [], by simp⟩
  | case4 c d rest hcd ih =>
    have hpre : pat <+: crlf (c :: d :: rest) → pat <+: c :: d :: rest :=
      prefix_of_prefix_crlf hpat
    rw [crlf, if_neg hcd] at h hpre
    rcases infix_cons_iff.mp h with h | h
    · exact (hpre h).isInfix
    · exact infix_cons_iff.mpr (.inr (ih h))

/-! ## Markers -/

/-- `strings.Cut`: what is before and after the first occurrence of the pattern. -/
def cut (pat : Text) : Text → Option (Text × Text)
  | [] => if pat = [] then some ([], []) else none
  | c :: s =>
    if pat.isPrefixOf (c :: s) then some ([], (c :: s).drop pat.length)
    else (cut pat s).map (fun (a, b) => (c :: a, b))

theorem eq_of_cut {b : Text} (h : cut pat s = some (a, b)) : s = a ++ pat ++ b := by
  induction s generalizing a with
  | nil =>
    unfold cut at h
    split at h
    · rename_i hpat
      cases h
      simp [hpat]
    · exact absurd h nofun
  | cons c s ih =>
    unfold cut at h
    split_ifs at h with hpre
    · cases h
      obtain ⟨t, ht⟩ := isPrefixOf_iff_prefix.mp hpre
      rw [← ht, drop_left, nil_append]
    · obtain ⟨⟨a', b'⟩, hcut, heq⟩ := Option.map_eq_some_iff.mp h
      cases heq
      rw [ih hcut]
      rfl

theorem not_infix_of_cut {b : Text} (hpat : pat ≠ []) (h : cut pat s = some (a, b)) :
    ¬ pat <:+: a := by
  induction s generalizing a with
  | nil => rw [cut, if_neg hpat] at h; exact absurd h nofun
  | cons c s ih =>
    have hs := eq_of_cut h
    unfold cut at h
    split_ifs at h with hpre
    · cases h
      exact fun hinf => hpat (infix_nil.mp hinf)
    · obtain ⟨⟨a', b'⟩, hcut, heq⟩ := Option.map_eq_some_iff.mp h
      cases heq
      intro hinf
      rcases infix_cons_iff.mp hinf with hinf | hinf
      · -- an occurrence at the front would have been taken
        refine hpre (List.isPrefixOf_iff_prefix.mpr (hinf.trans ?_))
        rw [hs, append_assoc]
        exact prefix_append _ _
      · exact ih hcut hinf

theorem not_infix_of_cut_none (hpat : pat ≠ []) (h : cut pat s = none) : ¬ pat <:+: s := by
  induction s with
  | nil => exact fun hinf => hpat (infix_nil.mp hinf)
  | cons c s ih =>
    rw [cut] at h
    split_ifs at h with hpre
    rw [Option.map_eq_none_iff] at h
    intro hinf
    rcases infix_cons_iff.mp hinf with hinf | hinf
    · exact hpre (List.isPrefixOf_iff_prefix.mpr hinf)
    · exact ih h hinf

/-- A pattern within a line is cut out of the first line that has it. -/
theorem cut_append_newline (hpat : '\n' ∉ pat) (hne : pat ≠ []) (a b : Text) :
    cut pat (a ++ '\n' :: b) = match cut pat a with
      | some (x, y) => some (x, y ++ '\n' :: b)
      | none => (cut pat b).map (fun (x, y) => (a ++ '\n' :: x, y)) := by
  induction a with
  | nil =>
    have hno : ¬ pat <+: '\n' :: b := fun h =>
      hne (prefix_nil.mp ((prefix_append_newline_iff (a := []) hpat).mp h))
    have hnil : cut pat [] = none := by rw [cut, if_neg hne]
    rw [hnil, nil_append, cut, if_neg (by simpa using hno)]
    rfl
  | cons c a ih =>
    by_cases h : pat <+: c :: a
    · have h' : pat <+: c :: (a ++ '\n' :: b) := h.trans (prefix_append (c :: a) _)
      have hcut : cut pat (c :: a) = some ([], (c :: a).drop pat.length) := by
        rw [cut, if_pos (by simpa using h)]
      rw [hcut, cons_append, cut, if_pos (by simpa using h')]
      dsimp only
      rw [← cons_append, drop_append_of_le_length h.length_le]
    · have h' := mt (prefix_append_newline_iff (a := c :: a) (b := b) hpat).mp h
      have hcut : cut pat (c :: a) = (cut pat a).map (fun (x, y) => (c :: x, y)) := by
        rw [cut, if_neg (by simpa using h)]
      rw [cons_append] at h' ⊢
      rw [hcut, cut, if_neg (by simpa using h'), ih]
      cases cut pat a with
      | none => cases cut pat b <;> rfl
      | some xy => rfl

/--
A pattern whose first character does not occur again in it cannot begin before a copy of
it and reach into it, so that the copy is the first occurrence if none lies before it.
-/
theorem cut_append {x : Char} {rest : Text} (hx : x ∉ rest) (ha : ¬ x :: rest <:+: a) (b : Text) :
    cut (x :: rest) (a ++ (x :: rest) ++ b) = some (a, b) := by
  induction a with
  | nil =>
    rw [nil_append, cons_append, cut]
    simp
  | cons c a ih =>
    have hno : ¬ (x :: rest).isPrefixOf (c :: (a ++ (x :: rest) ++ b)) = true := by
      intro hpre
      have hpre := isPrefixOf_iff_prefix.mp hpre
      by_cases hlen : (x :: rest).length ≤ (c :: a).length
      · -- it would lie in front of the copy
        refine ha (List.IsPrefix.isInfix ?_)
        refine prefix_of_prefix_length_le hpre ?_ hlen
        rw [append_assoc]
        exact prefix_append (c :: a) _
      · -- it would have the first character again
        obtain ⟨t, ht⟩ := hpre
        have hget : ((x :: rest) ++ t)[(c :: a).length]? = some x := by
          rw [ht, append_assoc, ← cons_append]
          simp
        rw [getElem?_append_left (by omega), length_cons] at hget
        exact hx (mem_of_getElem? hget)
    rw [cons_append, cons_append, cut, if_neg hno,
      ih (fun hinf => ha (infix_cons_iff.mpr (.inr hinf)))]
    rfl

/--
A text that marks a place on a line of another: it has no line ending of its own, and its
first character does not occur in it again, so that two copies do not overlap.
-/
structure Marker (m : Text) : Prop where
  nonempty : m ≠ []
  once : ∀ c ∈ m.head?, c ∉ m.tail
  newline : '\n' ∉ m
  carriage : '\r' ∉ m

theorem Marker.not_infix_nil {m : Text} (h : Marker m) : ¬ m <:+: [] :=
  fun hinf => h.nonempty (infix_nil.mp hinf)

theorem Marker.lines {m : Text} (h : Marker m) : lines m = [m] := lines_of_notMem h.newline

theorem Marker.crlf {m : Text} (h : Marker m) : crlf m = m := crlf_of_notMem h.newline

theorem Marker.getLast_ne {m : Text} (h : Marker m) : m.getLast? ≠ some '\r' :=
  fun hlast => h.carriage (mem_of_getLast? hlast)

theorem Marker.cut_append {m : Text} (h : Marker m) (ha : ¬ m <:+: a) (b : Text) :
    cut m (a ++ m ++ b) = some (a, b) := by
  cases m with
  | nil => exact absurd rfl h.nonempty
  | cons x rest => exact Strings.cut_append (h.once x rfl) ha b

/-! ## Lines that are a marker -/

/-- How many lines of the text are the given one. -/
def lineCount (m s : Text) : Nat := (lines s).count m

theorem lineCount_append_newline (m a b : Text) :
    lineCount m (a ++ '\n' :: b) = lineCount m a + lineCount m b := by
  unfold lineCount
  rw [lines_append_newline, count_append]

/-- The line behind the last line ending, and the text before it. -/
theorem eq_or_append_newline (s : Text) :
    '\n' ∉ s ∨ ∃ a l, s = a ++ '\n' :: l ∧ '\n' ∉ l := by
  induction s with
  | nil => exact .inl (by simp)
  | cons c s ih =>
    rcases ih with hs | ⟨a, l, rfl, hl⟩
    · by_cases hc : c = '\n'
      · exact .inr ⟨[], s, by rw [hc]; rfl, hs⟩
      · exact .inl (by simp [Ne.symm hc, hs])
    · exact .inr ⟨c :: a, l, rfl, hl⟩

section
variable {m : Text} (hm : Marker m)
include hm

theorem lineCount_nil : lineCount m [] = 0 := by
  unfold lineCount
  rw [lines_of_notMem (by simp), count_eq_zero]
  simpa using hm.nonempty

theorem lineCount_self : lineCount m m = 1 := by
  unfold lineCount
  rw [hm.lines, count_cons_self, count_nil]

theorem lineCount_concat_le {c : Char} (hc : isSpace c = true)
    (hlast : ∀ x ∈ m.getLast?, isSpace x = false) (s : Text) :
    lineCount m (s ++ [c]) ≤ lineCount m s := by
  by_cases hn : c = '\n'
  · rw [hn, lineCount_append_newline, lineCount_nil hm]
    exact Nat.le_refl _
  · -- the last line ends with white space, which the marker does not
    have hline : ∀ l : Text, '\n' ∉ l → lineCount m (l ++ [c]) = 0 := by
      intro l hl
      unfold lineCount
      rw [lines_of_notMem (by simp [hl, Ne.symm hn]), count_eq_zero, mem_singleton]
      rintro rfl
      rw [hlast c (by simp)] at hc
      cases hc
    rcases eq_or_append_newline s with hs | ⟨a, l, rfl, hl⟩
    · rw [hline s hs]
      exact Nat.zero_le _
    · rw [append_assoc, cons_append, lineCount_append_newline, lineCount_append_newline, hline l hl]
      omega

theorem lineCount_cons_le {c : Char} (hc : isSpace c = true)
    (hhead : ∀ x ∈ m.head?, isSpace x = false) (s : Text) :
    lineCount m (c :: s) ≤ lineCount m s := by
  by_cases hn : c = '\n'
  · have h := lineCount_append_newline m [] s
    rw [nil_append, lineCount_nil hm] at h
    rw [hn, h]
    omega
  · have hline : ∀ l : Text, '\n' ∉ l → lineCount m (c :: l) = 0 := by
      intro l hl
      unfold lineCount
      rw [lines_of_notMem (by simp [hl, Ne.symm hn]), count_eq_zero, mem_singleton]
      rintro rfl
      rw [hhead c rfl] at hc
      cases hc
    by_cases hs : '\n' ∈ s
    · obtain ⟨l, b, rfl, hl⟩ := eq_append_cons_of_mem hs
      rw [← cons_append, lineCount_append_newline, lineCount_append_newline, hline l hl]
      omega
    · rw [hline s hs]
      exact Nat.zero_le _

theorem lineCount_rdropWhile (hlast : ∀ x ∈ m.getLast?, isSpace x = false) (s : Text) :
    lineCount m s ≤ lineCount m (s.rdropWhile isSpace) := by
  induction s using reverseRecOn with
  | nil => exact Nat.le_refl _
  | append_singleton s c ih =>
    by_cases hc : isSpace c = true
    · rw [rdropWhile_concat_pos _ _ _ hc]
      exact Nat.le_trans (lineCount_concat_le hm hc hlast s) ih
    · rw [rdropWhile_concat_neg _ _ _ hc]

/-- Trimming takes no line away that is a marker. -/
theorem lineCount_trim (hhead : ∀ x ∈ m.head?, isSpace x = false)
    (hlast : ∀ x ∈ m.getLast?, isSpace x = false) (s : Text) :
    lineCount m s ≤ lineCount m (trim isSpace s) := by
  refine Nat.le_trans ?_ (lineCount_rdropWhile hm hlast (s.dropWhile isSpace))
  induction s with
  | nil => exact Nat.le_refl _
  | cons c s ih =>
    by_cases hc : isSpace c = true
    · rw [dropWhile_cons_of_pos hc]
      exact Nat.le_trans (lineCount_cons_le hm hc hhead s) ih
    · rw [dropWhile_cons_of_neg hc]

/-- Nor does bringing the line endings to one form. -/
theorem lineCount_crlf (hlast : ∀ x ∈ m.getLast?, isSpace x = false) (s : Text) :
    lineCount m s ≤ lineCount m (crlf s) := by
  suffices h : ∀ u : Text, lineCount m (u ++ s) ≤ lineCount m (u ++ crlf s) from h []
  induction s using crlf.induct with
  | case1 => exact fun u => Nat.le_refl _
  | case2 => exact fun u => Nat.le_refl _
  | case3 c d rest h ih =>
    obtain ⟨rfl, rfl⟩ := h
    intro u
    have hcons : u ++ '\r' :: '\n' :: rest = (u ++ ['\r']) ++ '\n' :: rest := by simp
    have hend := lineCount_concat_le hm (c := '\r') (by decide) hlast u
    have hrest := ih []
    rw [crlf, if_pos ⟨rfl, rfl⟩, hcons, lineCount_append_newline, lineCount_append_newline]
    simp only [nil_append] at hrest
    omega
  | case4 c d rest h ih =>
    intro u
    rw [crlf, if_neg h, append_cons, append_cons u c (crlf _)]
    exact ih (u ++ [c])

end

/-- The lines of a text that is put together from lines are these. -/
theorem lines_unlines {ls : List Text} (hls : ls ≠ []) (h : ∀ l ∈ ls, '\n' ∉ l) :
    lines (unlines ls) = ls := by
  induction ls with
  | nil => exact absurd rfl hls
  | cons l ls ih =>
    have hl : lines l = [l] := lines_of_notMem (h l mem_cons_self)
    by_cases hnil : ls = []
    · rw [hnil, unlines_singleton, hl]
    · rw [unlines_cons l hnil, lines_append_newline, hl,
        ih hnil (fun x hx => h x (mem_cons_of_mem l hx))]
      rfl

/-- No part of a split has what the split is made at. -/
theorem not_of_mem_splitOnP {α : Type*} {p : α → Bool} {l part : List α}
    (h : part ∈ l.splitOnP p) : ∀ a ∈ part, p a = false := by
  induction l generalizing part with
  | nil => simp_all
  | cons d l ih =>
    rw [splitOnP_cons_eq_if_modifyHead] at h
    split_ifs at h with hd
    · rcases mem_cons.mp h with rfl | h
      · simp
      · exact ih h
    · obtain ⟨m, ms, hms⟩ := exists_cons_of_ne_nil (splitOnP_ne_nil p l)
      rw [hms] at h ih
      rcases mem_cons.mp h with rfl | h
      · exact forall_mem_cons.mpr ⟨by simpa using hd, ih mem_cons_self⟩
      · exact ih (mem_cons_of_mem _ h)

theorem notMem_of_mem_splitOn {c : Char} {part : Text} (h : part ∈ s.splitOn c) : c ∉ part := by
  intro hc
  simpa using not_of_mem_splitOnP h c hc

theorem newline_notMem_of_mem_lines {l : Text} (h : l ∈ lines s) : '\n' ∉ l :=
  notMem_of_mem_splitOn h

/-! ## Fields -/

/-- `strings.Fields`. -/
def fields (s : Text) : List Text := (s.splitOnP isSpace).filter (· ≠ [])

theorem fields_append_space {c : Char} (hc : isSpace c = true) (a b : Text) :
    fields (a ++ c :: b) = fields a ++ fields b := by
  unfold fields
  rw [splitOnP_append_cons a b hc, filter_append]

theorem fields_of_word {w : Text} (hne : w ≠ []) (h : ∀ c ∈ w, isSpace c = false) :
    fields w = [w] := by
  unfold fields
  rw [splitOnP_eq_singleton h]
  simp [hne]

/-- A text that is a field by itself. -/
def Word (w : Text) : Prop := w ≠ [] ∧ ∀ c ∈ w, isSpace c = false

theorem Word.append {u v : Text} (hu : ∀ c ∈ u, isSpace c = false) (hv : Word v) :
    Word (u ++ v) := by
  exact ⟨fun h => hv.1 (append_eq_nil_iff.mp h).2, forall_mem_append.mpr ⟨hu, hv.2⟩⟩

theorem Word.notMem_newline {w : Text} (h : ∀ c ∈ w, isSpace c = false) : '\n' ∉ w := by
  intro hmem
  exact absurd (h _ hmem) (by decide)

theorem word_of_mem_fields {w : Text} (h : w ∈ fields s) : Word w := by
  obtain ⟨hmem, hne⟩ := mem_filter.mp h
  exact ⟨by simpa using hne, not_of_mem_splitOnP hmem⟩

theorem mem_fields_of_infix {w b : Text} (hw : Word w) (h : a ++ ' ' :: w ++ ' ' :: b <:+: s) :
    w ∈ fields s := by
  obtain ⟨x, y, rfl⟩ := h
  have hsplit : x ++ (a ++ ' ' :: w ++ ' ' :: b) ++ y =
      (x ++ a) ++ ' ' :: (w ++ ' ' :: (b ++ y)) := by
    simp
  rw [hsplit, fields_append_space rfl, fields_append_space rfl, fields_of_word hw.1 hw.2]
  simp

theorem fields_unlines (ls : List Text) : fields (unlines ls) = ls.flatMap fields := by
  induction ls with
  | nil => rfl
  | cons l ls ih =>
    by_cases hls : ls = []
    · rw [hls]
      simp
    · rw [unlines_cons _ hls, fields_append_space rfl, ih, flatMap_cons]

theorem mem_fields_of_mem_lines {l w : Text} (hl : l ∈ lines s) (hw : w ∈ fields l) :
    w ∈ fields s := by
  rw [← unlines_lines s, fields_unlines]
  exact mem_flatMap.mpr ⟨l, hl, hw⟩

theorem fields_crlf (s : Text) : fields (crlf s) = fields s := by
  -- the first part is the same, so that a character in front of it changes nothing
  have hparts : ∃ h t u, (crlf s).splitOnP isSpace = h :: t ∧ s.splitOnP isSpace = h :: u ∧
      t.filter (· ≠ []) = u.filter (· ≠ []) := by
    induction s using crlf.induct with
    | case1 => exact ⟨[], [], [], rfl, rfl, rfl⟩
    | case2 c =>
      obtain ⟨h, t, ht⟩ := exists_cons_of_ne_nil (splitOnP_ne_nil isSpace [c])
      exact ⟨h, t, t, ht, ht, rfl⟩
    | case3 c d rest hcd ih =>
      obtain ⟨h, t, u, ht, hu, htu⟩ := ih
      obtain ⟨rfl, rfl⟩ := hcd
      refine ⟨[], h :: t, [] :: h :: u, ?_, ?_, ?_⟩
      · rw [crlf, if_pos ⟨rfl, rfl⟩, splitOnP_cons_eq_if_modifyHead, if_pos (by decide), ht]
      · rw [splitOnP_cons_eq_if_modifyHead, if_pos (by decide),
          splitOnP_cons_eq_if_modifyHead, if_pos (by decide), hu]
      · simp only [filter_cons, htu]
        rfl
    | case4 c d rest hcd ih =>
      obtain ⟨h, t, u, ht, hu, htu⟩ := ih
      rw [crlf, if_neg hcd, splitOnP_cons_eq_if_modifyHead, ht,
        splitOnP_cons_eq_if_modifyHead c, hu]
      split
      · exact ⟨[], h :: t, h :: u, rfl, rfl, by simp only [filter_cons, htu]⟩
      · exact ⟨c :: h, t, u, rfl, rfl, htu⟩
  obtain ⟨h, t, u, ht, hu, htu⟩ := hparts
  unfold fields
  rw [ht, hu, filter_cons, filter_cons, htu]

theorem exists_field_of_prefix {p : Text} (hp : Word p) (h : p <+: s) :
    ∃ w ∈ fields s, p <+: w := by
  obtain ⟨r, rfl⟩ := h
  have hhead : ∀ q : Text, (∀ c ∈ q, isSpace c = false) →
      ∃ m ms, (q ++ r).splitOnP isSpace = (q ++ m) :: ms := by
    intro q hq
    induction q with
    | nil => exact exists_cons_of_ne_nil (splitOnP_ne_nil isSpace r)
    | cons c q ih =>
      obtain ⟨m, ms, hsplit⟩ := ih (fun d hd => hq d (mem_cons_of_mem c hd))
      have hc : ¬ isSpace c = true := by simp [hq c mem_cons_self]
      refine ⟨m, ms, ?_⟩
      rw [cons_append, splitOnP_cons_eq_if_modifyHead, if_neg hc, hsplit]
      rfl
  obtain ⟨m, ms, hsplit⟩ := hhead p hp.2
  refine ⟨p ++ m, ?_, prefix_append p m⟩
  unfold fields
  rw [hsplit]
  refine mem_filter.mpr ⟨mem_cons_self, ?_⟩
  simp [hp.1]

theorem fields_eq_nil_iff : fields s = [] ↔ ∀ c ∈ s, isSpace c = true := by
  induction s with
  | nil => exact ⟨nofun, fun _ => rfl⟩
  | cons c s ih =>
    rw [forall_mem_cons]
    cases hc : isSpace c with
    | true =>
      have hrest : fields (c :: s) = fields s := fields_append_space hc [] s
      simpa [hrest] using ih
    | false =>
      obtain ⟨w, hw, _⟩ := exists_field_of_prefix (p := [c]) (s := c :: s)
        ⟨by simp, by simpa using hc⟩ (by simp)
      simp [ne_nil_of_mem hw]

theorem fields_append_spaces {y : Text} (hy : ∀ c ∈ y, isSpace c = true) (a : Text) :
    fields (a ++ y) = fields a := by
  cases y with
  | nil => rw [append_nil]
  | cons c y =>
    obtain ⟨hc, hy⟩ := forall_mem_cons.mp hy
    rw [fields_append_space hc, fields_eq_nil_iff.mpr hy, append_nil]

/-- A text that begins with its only field is that field, with white space behind it. -/
theorem fields_eq_singleton_iff {w : Text} (hs : ∀ c ∈ s.head?, isSpace c = false) :
    fields s = [w] ↔ Word w ∧ s.rdropWhile isSpace = w := by
  constructor
  · intro h
    have hw : Word w := word_of_mem_fields (h ▸ mem_cons_self)
    refine ⟨hw, ?_⟩
    have hword : ∀ c ∈ s.takeWhile (!isSpace ·), isSpace c = false := by
      intro c hc
      simpa using mem_takeWhile_imp hc
    have hsplit := takeWhile_append_dropWhile (p := (!isSpace ·)) (l := s)
    have hstop := head?_dropWhile_not (!isSpace ·) s
    generalize s.takeWhile (!isSpace ·) = u at *
    have hend : u.rdropWhile isSpace = u := by
      rw [rdropWhile_eq_self_iff]
      intro hne
      simp [hword _ (getLast_mem hne)]
    -- behind the first word there is nothing, or white space to the end
    cases hr : s.dropWhile (!isSpace ·) with
    | nil =>
      rw [hr, append_nil] at hsplit
      subst hsplit
      have hne : u ≠ [] := by
        rintro rfl
        cases h
      rw [fields_of_word hne hword] at h
      injection h with h
      rw [← h, hend]
    | cons c r =>
      rw [hr] at hsplit hstop
      have hc : isSpace c = true := by simpa using hstop
      subst hsplit
      have hne : u ≠ [] := by
        rintro rfl
        exact absurd (hs c rfl) (by simp [hc])
      rw [fields_append_space hc, fields_of_word hne hword] at h
      injection h with hu hrest
      have hspaces : ∀ d ∈ c :: r, isSpace d = true :=
        forall_mem_cons.mpr ⟨hc, fields_eq_nil_iff.mp hrest⟩
      rw [← hu, rdropWhile_append_of_pos hspaces, hend]
  · rintro ⟨hw, h⟩
    have hsplit : s.rdropWhile isSpace ++ s.rtakeWhile isSpace = s := rdropWhile_append_rtakeWhile
    rw [← hsplit, fields_append_spaces (fun c hc => mem_rtakeWhile_imp hc), h,
      fields_of_word hw.1 hw.2]

theorem fields_intercalate {ws : List Text} (h : ∀ w ∈ ws, Word w) :
    fields ([' '].intercalate ws) = ws := by
  induction ws with
  | nil => rfl
  | cons w ws ih =>
    have hw := h w mem_cons_self
    cases ws with
    | nil => simpa [intercalate] using fields_of_word hw.1 hw.2
    | cons v ws =>
      rw [intercalate_cons_cons, append_assoc, singleton_append,
        fields_append_space (by decide), fields_of_word hw.1 hw.2,
        ih (fun x hx => h x (mem_cons_of_mem w hx))]
      rfl

end Goobers.Lib.Strings
