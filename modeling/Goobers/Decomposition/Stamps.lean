import Goobers.Decomposition.Markers

/-!
# What the stripping of stamps takes

`unmarkedActionBody` takes the provider's stamps and the action lines out of a body. Every match of
a stamp and every action line takes a `<` with it. The comments that `CreateChild` has appended
stand at the end, each on a line of its own, and are taken out in any case: by a match that runs on
into them, or as action lines. So a body that comes back with as many `<` as it had before the
comments has lost nothing else.
-/

namespace Goobers.Decomposition

open Lib hiding lines
open Lib.Strings List

/-! ## Stamps -/

/-- No match of a stamp of the provider begins anywhere in the text. -/
def Unstamped (s : Text) : Prop :=
  ∀ t, t <:+ s → matchAttribution t = none ∧ matchOperation t = none

theorem unstamped_of_tails {s : Text}
    (h : s.tails.all (fun t => matchAttribution t = none && matchOperation t = none) = true) :
    Unstamped s := by
  intro t ht
  simpa using all_eq_true.mp h t ((mem_tails t s).mpr ht)

theorem replaceMatches_eq_self {find : Text → Option Text} {s : Text}
    (h : ∀ t, t <:+ s → find t = none) (n : Nat) : replaceMatches find n s = s := by
  induction n generalizing s with
  | zero => rfl
  | succ n ih =>
    cases s with
    | nil => rfl
    | cons c s =>
      rw [replaceMatches, h _ suffix_rfl]
      rw [ih fun t ht => h t (ht.trans (suffix_cons c s))]

theorem Unstamped.stripAttribution {s : Text} (h : Unstamped s) :
    stripAttribution s = trimText s := by
  unfold Decomposition.stripAttribution
  dsimp only
  rw [replaceMatches_eq_self (fun t ht => (h t ht).1),
    replaceMatches_eq_self (fun t ht => (h t ht).2)]

/-! ## Openings -/

/-- The number of `<` in a text, each of which may open a comment. -/
def openings (s : Text) : Nat := s.count '<'

@[simp] theorem openings_append (a b : Text) : openings (a ++ b) = openings a + openings b :=
  count_append

@[simp] theorem openings_nil : openings [] = 0 := rfl

theorem openings_cons (c : Char) (s : Text) : openings (c :: s) = openings [c] + openings s :=
  openings_append [c] s

@[simp] theorem openings_newline (s : Text) : openings ('\n' :: s) = openings s :=
  (openings_cons '\n' s).trans (Nat.zero_add _)

theorem openings_le {a b : Text} (h : a <+ b) : openings a ≤ openings b := h.count_le '<'

theorem openings_crlf (s : Text) : openings (crlf s) = openings s := by
  induction s using crlf.induct with
  | case1 => rfl
  | case2 c => rfl
  | case3 c d rest hcd ih =>
    obtain ⟨rfl, rfl⟩ := hcd
    rw [crlf, if_pos ⟨rfl, rfl⟩, openings_newline, ih, openings_cons, openings_newline]
    exact (Nat.zero_add _).symm
  | case4 c d rest hcd ih =>
    rw [crlf, if_neg hcd, openings_cons, ih, ← openings_cons]

theorem openings_unlines (ls : List Text) : openings (unlines ls) = (ls.map openings).sum := by
  induction ls with
  | nil => rfl
  | cons l ls ih =>
    by_cases hls : ls = []
    · simp [hls]
    · rw [unlines_cons l hls, openings_append, openings_newline, ih, map_cons, sum_cons]

/-! ## Comments at the end -/

theorem eq_of_after {lead s r : Text} (h : after lead s = some r) : s = lead ++ r := by
  unfold after at h
  split at h
  · rename_i hpre
    obtain ⟨t, rfl⟩ := isPrefixOf_iff_prefix.mp hpre
    injection h with h
    rw [← h, drop_left]
  · cases h

theorem after_append_newline {lead a b : Text} (hlead : '\n' ∉ lead) :
    after lead (a ++ '\n' :: b) = (after lead a).map (· ++ '\n' :: b) := by
  unfold after
  by_cases h : lead <+: a
  · have h' : lead <+: a ++ '\n' :: b := h.trans (prefix_append _ _)
    rw [if_pos (by simpa using h'), if_pos (by simpa using h), Option.map_some,
      drop_append_of_le_length h.length_le]
  · have h' := mt (prefix_append_newline_iff hlead (b := b)).mp h
    rw [if_neg (by simpa using h'), if_neg (by simpa using h), Option.map_none]

/-- A comment, on a line of its own, of the kind that `unmarkedActionBody` takes out. -/
structure ActionComment (l : Text) : Prop where
  action : actionLine l = true
  newline : '\n' ∉ l
  opens : openings l = 1
  closes : l.count '>' = 1
  ends : text "-->" <:+ l

/-- Lines of such comments. -/
inductive Trailer : Text → Prop where
  | nil : Trailer []
  | last {l : Text} : ActionComment l → Trailer l
  | cons {l f : Text} : ActionComment l → Trailer f → f ≠ [] → Trailer (l ++ '\n' :: f)

theorem ActionComment.lead {l : Text} (h : ActionComment l) :
    text "<!-- goobers-action" <+: l := by
  have hline := h.action
  unfold actionLine at hline
  rw [Bool.or_eq_true, isPrefixOf_iff_prefix, isPrefixOf_iff_prefix] at hline
  rcases hline with hline | hline
  · exact IsPrefix.trans (by decide) hline
  · exact IsPrefix.trans (by decide) hline

theorem ActionComment.cut {l : Text} (h : ActionComment l) :
    ∃ a, cut (text "-->") l = some (a, []) := by
  cases hcut : Strings.cut (text "-->") l with
  | none => exact absurd h.ends.isInfix (not_infix_of_cut_none (by decide) hcut)
  | some ab =>
    obtain ⟨a, b⟩ := ab
    refine ⟨a, ?_⟩
    -- the only `>` of the comment is its last character
    have hl := eq_of_cut hcut
    have hcloses := h.closes
    have hone : (text "-->").count '>' = 1 := by decide
    rw [hl, count_append, count_append, hone] at hcloses
    have hb : '>' ∉ b := count_eq_zero.mp (by omega)
    cases b with
    | nil => rfl
    | cons c b =>
      obtain ⟨u, hu⟩ := h.ends
      have hlast : l.getLast? = some '>' := by
        rw [← hu]
        exact getLast?_append_of_ne_nil u (by decide)
      rw [hl, getLast?_append_of_ne_nil _ (by simp)] at hlast
      exact absurd (mem_of_getLast? hlast) hb

theorem Trailer.lead {f : Text} (h : Trailer f) :
    f = [] ∨ text "<!-- goobers-action" <+: f := by
  cases h with
  | nil => exact .inl rfl
  | last hl => exact .inr hl.lead
  | cons hl _ _ => exact .inr (hl.lead.trans (prefix_append _ _))

theorem Trailer.cut {f a b : Text} (h : Trailer f) (hcut : cut (text "-->") f = some (a, b)) :
    b = [] ∨ ∃ f', b = '\n' :: f' ∧ Trailer f' := by
  cases h with
  | nil => cases hcut
  | last hl =>
    obtain ⟨a', ha⟩ := hl.cut
    rw [ha] at hcut
    cases hcut
    exact .inl rfl
  | @cons l f hl hf _ =>
    obtain ⟨a', ha⟩ := hl.cut
    rw [cut_append_newline (by decide) (by decide), ha] at hcut
    cases hcut
    exact .inr ⟨f, rfl, hf⟩

theorem not_match_of_lead {s : Text} (h : text "<!-- goobers-action" <+: s) :
    matchAttribution s = none ∧ matchOperation s = none := by
  obtain ⟨r, rfl⟩ := h
  exact ⟨rfl, rfl⟩

theorem suffix_of_suffix_append {c : Char} {t x y : Text} (hx : c ∉ x) (h : c :: t <:+ x ++ y) :
    c :: t <:+ y := by
  induction x with
  | nil => exact h
  | cons d x ih =>
    rw [mem_cons, not_or] at hx
    rcases suffix_cons_iff.mp h with heq | h
    · injection heq with heq
      exact absurd heq hx.1
    · exact ih hx.2 h

/-- A comment opens at its front only. -/
theorem ActionComment.opened {l t y : Text} (h : ActionComment l) (ht : '<' :: t <:+ l ++ y) :
    text "<!-- goobers-action" <+: '<' :: t ∨ '<' :: t <:+ y := by
  obtain ⟨r, rfl⟩ := h.lead
  have hopens := h.opens
  have hone : openings (text "<!-- goobers-action") = 1 := by decide
  rw [openings_append, hone] at hopens
  have hr : '<' ∉ r := count_eq_zero.mp (by unfold openings at hopens; omega)
  have htail : '<' ∉ text "!-- goobers-action" ++ r := by
    rw [mem_append, not_or]
    exact ⟨by decide, hr⟩
  have hlead : text "<!-- goobers-action" = '<' :: text "!-- goobers-action" := by decide
  rw [hlead, cons_append, cons_append] at ht
  rcases suffix_cons_iff.mp ht with heq | ht
  · rw [heq, hlead, append_assoc, ← cons_append]
    exact .inl (prefix_append _ _)
  · exact .inr (suffix_of_suffix_append htail ht)

/-- Every `<` in the trailer opens an action comment. -/
theorem Trailer.opened {f t : Text} (h : Trailer f) (ht : '<' :: t <:+ f) :
    text "<!-- goobers-action" <+: '<' :: t := by
  induction h with
  | nil => cases suffix_nil.mp ht
  | last hl =>
    rcases hl.opened (y := []) (by rwa [append_nil]) with h | h
    · exact h
    · cases suffix_nil.mp h
  | cons hl _ _ ih =>
    rcases hl.opened ht with h | h
    · exact h
    · exact ih (suffix_of_suffix_append (x := ['\n']) (by decide) h)

/-- **No stamp begins in the comments.** -/
theorem Trailer.unstamped {f : Text} (h : Trailer f) : Unstamped f := by
  intro t ht
  have hdrop : t.dropWhile (· = '\n') <:+ f := (dropWhile_suffix _).trans ht
  have hagain : (t.dropWhile (· = '\n')).dropWhile (· = '\n') = t.dropWhile (· = '\n') :=
    dropWhile_idempotent _ _
  -- a match asks only for what is behind the newlines, and that begins with a `<`
  by_cases hopen : text "<!--" <+: t.dropWhile (· = '\n')
  · obtain ⟨r, hr⟩ := hopen
    have hlead := h.opened (t := text "!--" ++ r) (by rw [← hr] at hdrop; exact hdrop)
    have hnone := not_match_of_lead hlead
    have hsame : '<' :: (text "!--" ++ r) = t.dropWhile (· = '\n') := hr
    rw [hsame] at hnone
    unfold matchAttribution matchOperation at hnone ⊢
    rwa [hagain] at hnone
  · have hnone : ∀ lead, text "<!--" <+: lead → after lead (t.dropWhile (· = '\n')) = none := by
      intro lead hpre
      unfold after
      rw [if_neg (by simpa using fun h => hopen (hpre.trans h))]
    unfold matchAttribution matchOperation
    rw [hnone _ prefix_rfl, hnone _ (by decide)]
    exact ⟨rfl, rfl⟩

/-! ## Matches in front of the comments -/

/-- What is left of a text in front of comments, after a newline: fewer openings, and comments. -/
def Leaves (p rest : Text) : Prop :=
  ∃ q f, Trailer f ∧ '\n' :: rest = q ++ '\n' :: f ∧ openings q < openings p

theorem dropWhile_append_newline {g : Char → Bool} (hg : g '\n' = false) (a b : Text) :
    (a ++ '\n' :: b).dropWhile g = a.dropWhile g ++ '\n' :: b := by
  rw [dropWhile_append]
  split
  · rename_i hempty
    rw [isEmpty_iff.mp hempty, dropWhile_cons_of_neg (by simp [hg]), nil_append]
  · rfl

theorem skipNewline_append (p f : Text) :
    ∃ q, '\n' :: skipNewline (p ++ '\n' :: f) = q ++ '\n' :: f ∧ openings q = openings p := by
  cases p with
  | nil => exact ⟨[], rfl, rfl⟩
  | cons c p =>
    by_cases hc : c = '\n'
    · subst hc
      exact ⟨'\n' :: p, rfl, rfl⟩
    · refine ⟨'\n' :: c :: p, ?_, openings_newline _⟩
      rw [cons_append, skipNewline]
      · rfl
      · intro s hs
        injection hs with hs
        exact hc hs

theorem skipFooter_append {s q f : Text} (hf : Trailer f) (hs : '\n' :: s = q ++ '\n' :: f) :
    ∃ q', '\n' :: skipFooter s = q' ++ '\n' :: f ∧ openings q' ≤ openings q := by
  cases q with
  | nil =>
    injection hs with _ hs
    have hnone : after (text "Posted by **Goobers**") f = none := by
      rcases hf.lead with rfl | ⟨r, rfl⟩
      · rfl
      · rfl
    refine ⟨[], ?_, le_rfl⟩
    unfold skipFooter
    rw [hs, hnone]
    rfl
  | cons c p =>
    rw [cons_append] at hs
    injection hs with hc hs
    subst hc hs
    unfold skipFooter
    rw [after_append_newline (by decide)]
    cases hafter : after (text "Posted by **Goobers**") p with
    | none => exact ⟨'\n' :: p, rfl, le_rfl⟩
    | some r =>
      have hp := eq_of_after hafter
      have hstop := dropWhile_append_newline (g := (· ≠ '\n')) (by decide) r f
      obtain ⟨q', hq, hle⟩ := skipNewline_append (r.dropWhile (· ≠ '\n')) f
      refine ⟨q', ?_, ?_⟩
      · rw [← hq, ← hstop]
        rfl
      · rw [hle, openings_newline, hp, openings_append]
        exact (openings_le (dropWhile_sublist _)).trans (Nat.le_add_left _ _)

/-- White space that is skipped ends in front of the comments, or it is all there was. -/
theorem after_dropWhile {lead p f r : Text} {g : Char → Bool} (hg : g '\n' = true)
    (hlead : '\n' ∉ lead) (hf : after lead (f.dropWhile g) = none)
    (h : after lead ((p ++ '\n' :: f).dropWhile g) = some r) :
    ∃ p', r = p' ++ '\n' :: f ∧ openings lead + openings p' ≤ openings p := by
  rw [dropWhile_append] at h
  split at h
  · rw [dropWhile_cons_of_pos hg, hf] at h
    cases h
  · rw [after_append_newline hlead] at h
    obtain ⟨p', hp, rfl⟩ := Option.map_eq_some_iff.mp h
    refine ⟨p', rfl, ?_⟩
    rw [← openings_append, ← eq_of_after hp]
    exact openings_le (dropWhile_sublist _)

theorem Trailer.dropWhile {f : Text} (h : Trailer f) {g : Char → Bool} (hg : g '<' = false) :
    f.dropWhile g = f := by
  rcases h.lead with rfl | ⟨r, rfl⟩
  · rfl
  · have hcons : text "<!-- goobers-action" = '<' :: text "!-- goobers-action" := by decide
    rw [hcons, cons_append]
    exact dropWhile_cons_of_neg (by simp [hg])

/-- **A stamp that matches in front of the comments leaves fewer openings, and comments.** -/
theorem matchAttribution_leaves {p f rest : Text} (hf : Trailer f)
    (h : matchAttribution (p ++ '\n' :: f) = some rest) : Leaves p rest := by
  have hnone := (hf.unstamped f suffix_rfl).1
  unfold matchAttribution at h hnone
  rw [hf.dropWhile (by decide)] at hnone
  rw [dropWhile_append] at h
  split at h
  · rw [dropWhile_cons_of_pos (by decide), hf.dropWhile (by decide)] at h
    rw [h] at hnone
    cases hnone
  rw [after_append_newline (by decide)] at h
  obtain ⟨s₁, h₁, h⟩ := Option.bind_eq_some_iff.mp h
  obtain ⟨s₂, h₂, h⟩ := Option.bind_eq_some_iff.mp h
  obtain ⟨p₁, hp₁, rfl⟩ := Option.map_eq_some_iff.mp h₁
  have hless : openings p₁ < openings p := by
    have hle := openings_le (dropWhile_sublist (· = '\n') (l := p))
    rw [eq_of_after hp₁, openings_append] at hle
    have hone : openings (text "<!--") = 1 := by decide
    omega
  have hword : after (text "goobers:attribution") f = none := by
    rcases hf.lead with rfl | ⟨r, rfl⟩
    · rfl
    · rfl
  obtain ⟨p₂, rfl, hp₂⟩ := after_dropWhile (by decide) (by decide)
    (by rwa [hf.dropWhile (by decide)]) h₂
  dsimp only at h
  split at h
  · cases h
  rw [cut_append_newline (by decide) (by decide)] at h
  cases hcut : cut (text "-->") p₂ with
  | some xy =>
    -- the stamp ends in front of the comments
    obtain ⟨x, y⟩ := xy
    rw [hcut] at h
    injection h with h
    have hy : openings y ≤ openings p₂ := by
      rw [eq_of_cut hcut, openings_append]
      exact Nat.le_add_left _ _
    obtain ⟨q, hq, hqy⟩ := skipNewline_append y f
    obtain ⟨q', hq', hle⟩ := skipFooter_append hf hq
    exact ⟨q', f, hf, h ▸ hq', by omega⟩
  | none =>
    -- it runs on to the end of the first of them
    rw [hcut] at h
    obtain ⟨⟨x, y⟩, hxy, h⟩ := Option.bind_eq_some_iff.mp h
    obtain ⟨⟨a, b⟩, hfcut, heq⟩ := Option.map_eq_some_iff.mp hxy
    cases heq
    injection h with h
    rcases hf.cut hfcut with rfl | ⟨f', rfl, hf'⟩
    · refine ⟨[], [], .nil, ?_, Nat.zero_lt_of_lt hless⟩
      rw [← h]
      rfl
    · obtain ⟨q', hq', hle⟩ := skipFooter_append (q := []) hf' rfl
      exact ⟨q', f', hf', h ▸ hq', hle.trans_lt (Nat.zero_lt_of_lt hless)⟩

/-- So does an operation stamp. -/
theorem matchOperation_leaves {p f rest : Text} (hf : Trailer f)
    (h : matchOperation (p ++ '\n' :: f) = some rest) : Leaves p rest := by
  unfold matchOperation at h
  obtain ⟨s₁, h₁, h⟩ := Option.bind_eq_some_iff.mp h
  obtain ⟨s₂, h₂, h⟩ := Option.bind_eq_some_iff.mp h
  have hlead : after (text "<!-- goobers:operation key=") f = none := by
    rcases hf.lead with rfl | ⟨r, rfl⟩
    · rfl
    · rfl
  obtain ⟨p₁, rfl, hp₁⟩ := after_dropWhile (by decide) (by decide)
    (by rwa [hf.dropWhile (by decide)]) h₁
  rw [dropWhile_append_newline (by decide), after_append_newline (by decide)] at h₂
  obtain ⟨p₂, hp₂, rfl⟩ := Option.map_eq_some_iff.mp h₂
  have hle := openings_le (dropWhile_sublist base64Letter (l := p₁))
  rw [eq_of_after hp₂, openings_append] at hle
  obtain ⟨q, hq, hqy⟩ := skipNewline_append p₂ f
  injection h with h
  refine ⟨q, f, hf, h ▸ hq, ?_⟩
  have hone : openings (text "<!-- goobers:operation key=") = 1 := by decide
  omega

/-! ## Replacing -/

/--
Replacing the matches of a stamp in front of comments keeps the newline and comments behind, and
no opening is gone only if nothing matched.
-/
theorem replaceMatches_leaves {find : Text → Option Text}
    (hfind : ∀ {p f rest}, Trailer f → find (p ++ '\n' :: f) = some rest → Leaves p rest)
    (hnone : ∀ {f}, Trailer f → ∀ t, t <:+ f → find t = none) (n : Nat) {p f : Text}
    (hf : Trailer f) :
    ∃ q f', Trailer f' ∧ replaceMatches find n (p ++ '\n' :: f) = q ++ '\n' :: f' ∧
      openings q ≤ openings p ∧ ((p ++ '\n' :: f).length ≤ n → openings q = openings p →
        ∀ t, t <:+ p ++ '\n' :: f → find t = none) := by
  induction n generalizing p f with
  | zero => exact ⟨p, f, hf, rfl, le_rfl, fun hlen => by simp at hlen⟩
  | succ n ih =>
    have hself : replaceMatches find n f = f := replaceMatches_eq_self (hnone hf) n
    cases hmatch : find (p ++ '\n' :: f) with
    | some rest =>
      -- a match takes an opening away for good, so the counts cannot be equal
      obtain ⟨q₁, f₁, hf₁, hrest, hless⟩ := hfind hf hmatch
      have hstep : replaceMatches find (n + 1) (p ++ '\n' :: f) =
          '\n' :: replaceMatches find n rest := by
        cases p with
        | nil => rw [nil_append] at hmatch ⊢; rw [replaceMatches, hmatch]
        | cons c p => rw [cons_append] at hmatch ⊢; rw [replaceMatches, hmatch]
      rw [hstep]
      cases q₁ with
      | nil =>
        injection hrest with _ hrest
        refine ⟨[], f₁, hf₁, ?_, Nat.zero_le _, fun _ heq => absurd heq hless.ne⟩
        rw [hrest, replaceMatches_eq_self (hnone hf₁)]
        rfl
      | cons c p₁ =>
        rw [cons_append] at hrest
        injection hrest with hc hrest
        subst hc hrest
        obtain ⟨q, f', hf', hq, hle, -⟩ := ih (p := p₁) hf₁
        rw [openings_newline] at hless
        refine ⟨'\n' :: q, f', hf', by rw [hq]; rfl, ?_, fun _ heq => ?_⟩
        · rw [openings_newline]
          omega
        · rw [openings_newline] at heq
          omega
    | none =>
      cases p with
      | nil =>
        rw [nil_append] at hmatch ⊢
        refine ⟨[], f, hf, ?_, le_rfl, fun _ _ t ht => ?_⟩
        · rw [replaceMatches, hmatch, hself]
          rfl
        · rcases suffix_cons_iff.mp ht with rfl | ht
          · exact hmatch
          · exact hnone hf t ht
      | cons c p =>
        rw [cons_append] at hmatch ⊢
        -- no match here: the character stays and the scan goes on
        obtain ⟨q, f', hf', hq, hle, hall⟩ := ih (p := p) hf
        refine ⟨c :: q, f', hf', ?_, ?_, fun hlen heq t ht => ?_⟩
        · rw [replaceMatches, hmatch, hq]
          rfl
        · rw [openings_cons, openings_cons c p]
          omega
        · rw [openings_cons, openings_cons c p] at heq
          rcases suffix_cons_iff.mp ht with rfl | ht
          · exact hmatch
          · exact hall (by simpa using hlen) (by omega) t ht

/-! ## Action lines -/

theorem openings_of_actionLine {l : Text} (h : actionLine l = true) : 0 < openings l := by
  unfold actionLine at h
  rw [Bool.or_eq_true, isPrefixOf_iff_prefix, isPrefixOf_iff_prefix] at h
  have hle : 1 ≤ openings l := by
    rcases h with h | h
    · exact openings_le h.sublist
    · exact openings_le h.sublist
  exact hle

/-- Dropping action lines drops openings. -/
theorem sum_openings_le (ls : List Text) :
    ((ls.filter (fun l => !actionLine l)).map openings).sum ≤ (ls.map openings).sum ∧
      (((ls.filter (fun l => !actionLine l)).map openings).sum = (ls.map openings).sum →
        ∀ l ∈ ls, actionLine l = false) := by
  induction ls with
  | nil => exact ⟨le_rfl, nofun⟩
  | cons l ls ih =>
    cases hl : actionLine l with
    | false =>
      rw [filter_cons_of_pos (by simp [hl]), map_cons, map_cons, sum_cons, sum_cons]
      refine ⟨by omega, fun heq => forall_mem_cons.mpr ⟨hl, ih.2 (by omega)⟩⟩
    | true =>
      have hpos := openings_of_actionLine hl
      rw [filter_cons_of_neg (by simp [hl]), map_cons, sum_cons]
      exact ⟨by omega, fun heq => by omega⟩

/-- The text without its action lines. -/
def withoutActions (s : Text) : Text := unlines ((lines s).filter (fun l => !actionLine l))

theorem openings_withoutActions (s : Text) :
    openings (withoutActions s) ≤ openings s ∧
      (openings (withoutActions s) = openings s → ∀ l ∈ lines s, actionLine l = false) := by
  have h := sum_openings_le (lines s)
  rwa [← openings_unlines, ← openings_unlines, unlines_lines] at h

theorem withoutActions_eq_self {s : Text} (h : ∀ l ∈ lines s, actionLine l = false) :
    withoutActions s = s := by
  unfold withoutActions
  rw [filter_eq_self.mpr (fun l hl => by simp [h l hl]), unlines_lines]

theorem Trailer.filter_lines {f : Text} (h : Trailer f) (hne : f ≠ []) :
    (lines f).filter (fun l => !actionLine l) = [] := by
  induction h with
  | nil => exact absurd rfl hne
  | last hl =>
    rw [lines_of_notMem hl.newline, filter_cons_of_neg (by simp [hl.action]), filter_nil]
  | cons hl _ hf ih =>
    rw [lines_append_newline, lines_of_notMem hl.newline, filter_append, ih hf,
      filter_cons_of_neg (by simp [hl.action]), filter_nil, append_nil]

theorem Trailer.getLast {f : Text} (h : Trailer f) (hne : f ≠ []) : f.getLast? = some '>' := by
  induction h with
  | nil => exact absurd rfl hne
  | last hl =>
    obtain ⟨u, rfl⟩ := hl.ends
    exact getLast?_append_of_ne_nil u (by decide)
  | @cons l f _ _ hf ih => 
    rw [getLast?_append_of_ne_nil _ (by simp), ← singleton_append,
      getLast?_append_of_ne_nil _ hf, ih hf]

/-- The comments at the end are taken out, and more openings than the text has are not left. -/
theorem openings_trailer_le {q f : Text} (hf : Trailer f) :
    openings (withoutActions (trimText (q ++ '\n' :: f))) ≤ openings q := by
  by_cases hne : f = []
  · subst hne
    refine (openings_withoutActions _).1.trans ?_
    refine (openings_le (trim_infix_self _).sublist).trans ?_
    rw [openings_append]
    exact le_rfl
  have hhead : ∀ c ∈ f.head?, isSpace c = false := by
    intro c hc
    rcases hf.lead with hnil | ⟨r, rfl⟩
    · exact absurd hnil hne
    · cases hc
      decide
  have hlast : ∀ c ∈ f.getLast?, isSpace c = false := by
    intro c hc
    rw [hf.getLast hne] at hc
    cases hc
    decide
  have htrim : trimText (q ++ '\n' :: f) = (q ++ ['\n']).dropWhile isSpace ++ f := by
    have h := trim_append_append hne hhead hlast (q ++ ['\n']) []
    rw [append_assoc, append_assoc, append_nil, rdropWhile_nil, append_nil] at h
    exact h
  rw [htrim, dropWhile_append]
  unfold withoutActions
  split
  · rw [dropWhile_cons_of_pos (by decide), dropWhile_nil, nil_append, hf.filter_lines hne]
    exact Nat.zero_le _
  · rw [append_assoc, singleton_append, lines_append_newline, filter_append,
      hf.filter_lines hne, append_nil]
    exact (openings_withoutActions _).1.trans (openings_le (dropWhile_sublist _))

/-- **If no opening is gone in the end, no stamp has matched.** -/
theorem unstamped_of_openings {b f : Text} (hf : Trailer f)
    (h : openings b ≤ openings (withoutActions (stripAttribution (b ++ '\n' :: '\n' :: f)))) :
    Unstamped (b ++ '\n' :: '\n' :: f) := by
  have hsplit : b ++ '\n' :: '\n' :: f = (b ++ ['\n']) ++ '\n' :: f := by simp
  have hopen : openings (b ++ ['\n']) = openings b := by simp
  rw [hsplit] at h ⊢
  obtain ⟨q₁, f₁, hf₁, hq₁, hle₁, hall₁⟩ := replaceMatches_leaves matchAttribution_leaves
    (fun hf t ht => (hf.unstamped t ht).1) ((b ++ ['\n']) ++ '\n' :: f).length hf
  obtain ⟨q₂, f₂, hf₂, hq₂, hle₂, hall₂⟩ := replaceMatches_leaves matchOperation_leaves
    (fun hf t ht => (hf.unstamped t ht).2) (q₁ ++ '\n' :: f₁).length hf₁
  unfold stripAttribution at h
  dsimp only at h
  rw [hq₁, hq₂] at h
  have hle := h.trans (openings_trailer_le hf₂)
  have hnone₁ := hall₁ le_rfl (by omega)
  have hnone₂ := hall₂ le_rfl (by omega)
  rw [← hq₁, replaceMatches_eq_self hnone₁] at hnone₂
  exact fun t ht => ⟨hnone₁ t ht, hnone₂ t ht⟩

section
variable {b f : Text} (hb : trimText b = b) (hne : b ≠ []) (hf : Trailer f) (hcomments : f ≠ [])
include hb hne hf hcomments

/-- Without a stamp only the action lines go. -/
theorem unmarked_of_unstamped (h : Unstamped (b ++ '\n' :: '\n' :: f)) :
    trimText (withoutActions (stripAttribution (b ++ '\n' :: '\n' :: f))) =
      trimText (withoutActions b) := by
  have htrim : trimText (b ++ '\n' :: '\n' :: f) = b ++ '\n' :: '\n' :: f := by
    have hends := trim_eq_self_iff.mp hb
    refine trim_eq_self_iff.mpr ⟨fun c hc => hends.1 c ?_, fun c hc => ?_⟩
    · rwa [head?_append_of_ne_nil _ hne] at hc
    · rw [append_cons, append_cons, getLast?_append_of_ne_nil _ hcomments,
        hf.getLast hcomments] at hc
      cases hc
      decide
  have hlines : (lines (b ++ '\n' :: '\n' :: f)).filter (fun l => !actionLine l) =
      (lines b).filter (fun l => !actionLine l) ++ [[]] := by
    rw [lines_append_newline, ← nil_append ('\n' :: f), lines_append_newline, filter_append,
      filter_append, hf.filter_lines hcomments, append_nil]
    rfl
  rw [h.stripAttribution, htrim]
  unfold withoutActions
  rw [hlines]
  by_cases hnil : (lines b).filter (fun l => !actionLine l) = []
  · rw [hnil]
    rfl
  · rw [unlines_append hnil (by simp)]
    exact trim_append_right (by decide) _

/-- **A text with comments behind it keeps its openings** if it has no stamp and no action line. -/
theorem openings_unmarked_iff :
    openings b ≤
        openings (trimText (withoutActions (stripAttribution (b ++ '\n' :: '\n' :: f)))) ↔
      Unstamped (b ++ '\n' :: '\n' :: f) ∧ ∀ l ∈ lines b, actionLine l = false := by
  have htrim : ∀ s, openings (trimText s) ≤ openings s := fun s =>
    openings_le (trim_infix_self s).sublist
  constructor
  · intro h
    have hun := unstamped_of_openings hf (h.trans (htrim _))
    rw [unmarked_of_unstamped hb hne hf hcomments hun] at h
    have hle := h.trans (htrim _)
    exact ⟨hun, (openings_withoutActions b).2 (le_antisymm (openings_withoutActions b).1 hle)⟩
  · rintro ⟨hun, hact⟩
    rw [unmarked_of_unstamped hb hne hf hcomments hun, withoutActions_eq_self hact, hb]

end

/-! ## The comments of a created item -/

section
variable (enc : Encoding)

variable {enc}

theorem actionComment_of {lead value : Text} (haction : ∀ r, actionLine (lead ++ r) = true)
    (hnewline : '\n' ∉ lead) (hopens : openings lead = 1) (hcloses : '>' ∉ lead)
    (hvalue : ∀ c ∈ value, base64Letter c = true) :
    ActionComment (lead ++ value ++ text " -->") := by
  have hnot : ∀ c, base64Letter c = false → c ∉ value := fun c hc hmem => by
    rw [hvalue c hmem] at hc
    cases hc
  have hopen : openings value = 0 := count_eq_zero.mpr (hnot '<' (by decide))
  have hclose : ∀ c ∉ lead, c ∉ value → (lead ++ value ++ text " -->").count c =
      (text " -->").count c := by
    intro c hlead hval
    rw [count_append, count_append, count_eq_zero.mpr hlead, count_eq_zero.mpr hval, Nat.zero_add]
  refine ⟨by rw [append_assoc]; exact haction _, ?_, ?_, ?_, ?_⟩
  · rw [mem_append, mem_append, not_or, not_or]
    exact ⟨⟨hnewline, hnot _ (by decide)⟩, by decide⟩
  · rw [openings_append, openings_append, hopens, hopen]
    rfl
  · exact hclose '>' hcloses (hnot _ (by decide))
  · exact IsSuffix.trans (by decide) (suffix_append _ (text " -->"))

variable (enc)

theorem actionComment_markerKeyLine (key : Text) : ActionComment (markerKeyLine enc key) := by
  refine actionComment_of (fun r => ?_) (by decide) (by decide) (by decide)
    (enc.base64_letters key)
  unfold actionLine
  rw [Bool.or_eq_true, append_assoc, isPrefixOf_iff_prefix]
  exact .inl (prefix_append _ _)

theorem actionComment_digestLine (payload : Text) : ActionComment (digestLine enc payload) := by
  have hletters : ∀ c ∈ hexDigits, base64Letter c = true := by decide
  refine actionComment_of (fun r => ?_) (by decide) (by decide) (by decide)
    fun c hc => hletters c (enc.sha256_hex payload c hc)
  unfold actionLine
  rw [Bool.or_eq_true, append_assoc, isPrefixOf_iff_prefix, isPrefixOf_iff_prefix]
  exact .inr (prefix_append _ _)

theorem newline_notMem_markerKeyLine (key : Text) : '\n' ∉ markerKeyLine enc key :=
  (actionComment_markerKeyLine enc key).newline

theorem markedBody_eq (key body payload : Text) :
    markedBody enc key body payload =
      body ++ '\n' :: ('\n' :: (markerKeyLine enc key ++ '\n' :: digestLine enc payload)) := by
  unfold markedBody
  simp [text]

theorem lines_markers (key body payload : Text) :
    lines (body ++ '\n' :: ('\n' :: (markerKeyLine enc key ++ '\n' :: digestLine enc payload))) =
      lines body ++ [[], markerKeyLine enc key, digestLine enc payload] := by
  rw [lines_append_newline, ← nil_append ('\n' :: _), lines_append_newline,
    lines_append_newline, lines_of_notMem (newline_notMem_markerKeyLine enc key),
    lines_of_notMem (actionComment_digestLine enc payload).newline]
  rfl

theorem carriage_notMem_markers (key payload : Text) :
    '\r' ∉ '\n' :: (markerKeyLine enc key ++ '\n' :: digestLine enc payload) := by
  have hbase : '\r' ∉ enc.base64 key := fun hmem =>
    absurd (enc.base64_letters key _ hmem) (by decide)
  have hsum : '\r' ∉ enc.sha256 payload := fun hmem =>
    absurd (enc.sha256_hex payload _ hmem) (by decide)
  simp only [markerKeyLine, digestLine, mem_cons, mem_append, not_or]
  exact ⟨by decide, ⟨⟨⟨by decide, by decide⟩, hbase⟩, by decide⟩, by decide,
    ⟨⟨by decide, by decide⟩, hsum⟩, by decide⟩

theorem trailer_markers (key payload : Text) :
    Trailer (markerKeyLine enc key ++ '\n' :: digestLine enc payload) :=
  .cons (actionComment_markerKeyLine enc key) (.last (actionComment_digestLine enc payload))
    (by simp [digestLine, actionDigestPrefix, text])

end

end Goobers.Decomposition
