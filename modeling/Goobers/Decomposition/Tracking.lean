import Goobers.Decomposition.ReadBack

/-!
# The tracking section of a parent

`trackingBody` puts a section with the list of the children into the body of the parent
and keeps what its author wrote around it. `authorText` is that text, on both sides of
the section. A body that was rewritten is rewritten into itself exactly if its author's text
is read back from it unchanged: nothing in the section may look like the end of it, unless
it is on a line that is taken out, and nothing in the text that was kept may look like such
a line. An end marker in the section would add one more line of that kind to the author's
text with every rewriting.
-/

namespace Goobers.Decomposition

open Lib hiding lines
open Lib.Strings List

variable {s before after : Text}

def trackingSectionStart : Text := text "<!-- goobers-decomposition-tracking:v1:start -->"

def trackingSectionEnd : Text := text "<!-- goobers-decomposition-tracking:v1:end -->"

def resumeMarkerPrefix : Text := text "<!-- goobers-decomposition-resume:"

def keptLine (line : Text) : Bool := !resumeMarkerPrefix.isPrefixOf line

def dropResumeLines (s : Text) : Text := unlines ((lines s).filter keptLine)

def withoutResumeMarker (body : Text) : Text := trimText (dropResumeLines (crlf body))

/-- The list of the children. More children than the plan has would be out of range. -/
def trackingItems : List Text → List ChildPlan → Option Text
  | [], _ => some []
  | _ :: _, [] => none
  | id :: ids, child :: children =>
    (trackingItems ids children).map
      (text "- [ ] #" ++ id ++ text " — " ++ child.title ++ text "\n" ++ ·)

/-- What stands between the two lines of the section. -/
def sectionText (plan : Plan) (ids : List Text) : Option Text :=
  (trackingItems ids plan.children).map
    (text "## Decomposition\n\n" ++ trimText plan.summary ++ text "\n\n" ++ ·)

def trackingSection (inner : Text) : Text :=
  trackingSectionStart ++ text "\n" ++ inner ++ trackingSectionEnd

/-- The parts that are there, with a blank line between them. -/
def joinParts (before tracking after : Text) : Text :=
  (text "\n\n").intercalate
    ((if before = [] then [] else [before]) ++ [tracking] ++ (if after = [] then [] else [after]))

/-- The rest of `trackingBody`: the section put into a body. -/
def placeSection (current tracking : Text) : Text :=
  let preserved := withoutResumeMarker current
  match cut trackingSectionStart preserved with
  | none => if preserved = [] then tracking else tracking ++ text "\n\n" ++ preserved
  | some (before, rest) =>
    match cut trackingSectionEnd (trackingSectionStart ++ rest) with
    | none => tracking ++ text "\n\n" ++ preserved
    | some (_, after) => joinParts (trimText before) tracking (trimText after)

def trackingBody (current : Text) (plan : Plan) (ids : List Text) : Option Text :=
  (sectionText plan ids).map (fun inner => placeSection current (trackingSection inner))

/-- What `verify` asks of the parent's body. -/
def verifiesBody (body : Text) (plan : Plan) (ids : List Text) : Prop :=
  trackingBody body plan ids = some body

/--
The author's text before and after the section, without resume markers, with one form of
line ending and without the white space around it. Without a section all of it is behind
the place where the section goes.
-/
def authorText (body : Text) : Text × Text :=
  let preserved := withoutResumeMarker body
  match cut trackingSectionStart preserved with
  | none => ([], preserved)
  | some (before, rest) =>
    match cut trackingSectionEnd (trackingSectionStart ++ rest) with
    | none => ([], preserved)
    | some (_, after) => (trimText before, trimText after)

/-! ## Parts and lines -/

/-- A part in front of another, with a blank line behind it. -/
def lead (before : Text) : Text := if before = [] then [] else before ++ ['\n', '\n']

/-- A part behind another, with a blank line before it. -/
def trail (after : Text) : Text := if after = [] then [] else '\n' :: '\n' :: after

theorem joinParts_eq (before tracking after : Text) :
    joinParts before tracking after = lead before ++ tracking ++ trail after := by
  have hbreak : text "\n\n" = ['\n', '\n'] := rfl
  unfold joinParts lead trail
  rw [hbreak]
  by_cases hb : before = [] <;> by_cases ha : after = [] <;> simp [hb, ha]

/-- The section is put between the author's own texts. -/
theorem placeSection_eq (current tracking : Text) :
    placeSection current tracking =
      joinParts (authorText current).1 tracking (authorText current).2 := by
  have hbreak : text "\n\n" = ['\n', '\n'] := rfl
  rw [joinParts_eq]
  unfold placeSection authorText
  dsimp only
  cases hstart : cut trackingSectionStart (withoutResumeMarker current) with
  | none =>
    by_cases hempty : withoutResumeMarker current = []
    · simp [hempty, lead, trail]
    · simp [hempty, lead, trail, hbreak]
  | some split =>
    obtain ⟨before, rest⟩ := split
    dsimp only
    cases hend : cut trackingSectionEnd (trackingSectionStart ++ rest) with
    | none =>
      -- the text has the start of a section in it, so it is not empty
      have hne : withoutResumeMarker current ≠ [] := by
        rw [eq_of_cut hstart]
        simp [trackingSectionStart, text]
      simp [hne, lead, trail, hbreak]
    | some split =>
      exact joinParts_eq _ _ _

/-- The lines that are kept, each with an ending. -/
def ended (ls : List Text) : Text := ls.flatMap (· ++ ['\n'])

/-- The lines that are kept, each behind an ending. -/
def begun (ls : List Text) : Text := ls.flatMap ('\n' :: ·)

theorem unlines_append_ended (ls : List Text) {y : List Text} (hy : y ≠ []) :
    unlines (ls ++ y) = ended ls ++ unlines y := by
  induction ls with
  | nil => rfl
  | cons l ls ih =>
    rw [cons_append, unlines_cons l (by simp [hy]), ih]
    simp [ended]

theorem unlines_cons_begun (l : Text) (ls : List Text) : unlines (l :: ls) = l ++ begun ls := by
  induction ls generalizing l with
  | nil => simp [begun]
  | cons l' ls ih =>
    rw [unlines_cons l (by simp), ih]
    simp [begun]

theorem trim_ended (ls : List Text) : trimText (ended ls) = trimText (unlines ls) := by
  by_cases hls : ls = []
  · rw [hls]
    rfl
  · have h := unlines_append_ended ls (cons_ne_nil [] [])
    rw [unlines_append hls (by simp), unlines_singleton, append_nil] at h
    rw [← h]
    exact trim_append_right (by simp [isSpace]) _

theorem trim_begun (ls : List Text) : trimText (begun ls) = trimText (unlines ls) := by
  cases ls with
  | nil => rfl
  | cons l ls =>
    rw [unlines_cons_begun]
    exact trim_append_left (x := ['\n']) (by simp [isSpace]) (l ++ begun ls)

/-! ## Lines that are kept -/

theorem exists_crlf_newline (s : Text) :
    ∃ u, crlf (s ++ ['\n']) = u ++ ['\n'] ∧ u <:+: crlf (s ++ ['\n']) := by
  have h : ∃ u, crlf (s ++ ['\n']) = u ++ ['\n'] := by
    by_cases hlast : s.getLast? = some '\r'
    · obtain ⟨w, rfl⟩ := getLast?_eq_some_iff.mp hlast
      refine ⟨crlf w, ?_⟩
      rw [append_assoc, crlf_append (.inr (by decide))]
      rfl
    · exact ⟨crlf s, crlf_append (.inl hlast)⟩
  obtain ⟨u, hu⟩ := h
  exact ⟨u, hu, hu ▸ infix_append' [] u ['\n']⟩

def keptLines (s : Text) : List Text := (lines (crlf s)).filter keptLine

theorem withoutResumeMarker_eq (s : Text) :
    withoutResumeMarker s = trimText (unlines (keptLines s)) := rfl

theorem keptLines_nil : keptLines [] = [[]] := rfl

theorem keptLines_append_newline (h : s.getLast? ≠ some '\r') (t : Text) :
    keptLines (s ++ '\n' :: t) = keptLines s ++ keptLines t := by
  have hnewline : crlf ('\n' :: t) = '\n' :: crlf t :=
    crlf_append (a := ['\n']) (.inl (by decide))
  unfold keptLines
  rw [crlf_append (.inl h), hnewline, lines_append_newline, filter_append]

/-- A line that ends with a carriage return loses it, so the lines before are taken together. -/
theorem exists_keptLines_newline (v : Text) : ∃ ls,
    keptLines (v ++ ['\n']) = ls ++ [[]] ∧
      ∀ t, keptLines (v ++ '\n' :: t) = ls ++ keptLines t := by
  obtain ⟨u, hu, -⟩ := exists_crlf_newline v
  have hkept : ∀ t, keptLines (v ++ '\n' :: t) = (lines u).filter keptLine ++ keptLines t := by
    intro t
    have hsplit : v ++ '\n' :: t = v ++ ['\n'] ++ t := by simp
    have hlast : (v ++ ['\n']).getLast? ≠ some '\r' := by
      rw [getLast?_concat]
      decide
    have hjoin : u ++ ['\n'] ++ crlf t = u ++ '\n' :: crlf t := by simp
    unfold keptLines
    rw [hsplit, crlf_append (.inl hlast), hu, hjoin, lines_append_newline, filter_append]
  exact ⟨_, hkept [], hkept⟩

/-! ## Sections -/

theorem start_marker : Marker trackingSectionStart :=
  ⟨by decide, by rintro _ ⟨⟩; decide, by decide, by decide⟩

theorem end_marker : Marker trackingSectionEnd :=
  ⟨by decide, by rintro _ ⟨⟩; decide, by decide, by decide⟩

theorem edges_of_marker : (∀ c ∈ trackingSectionEnd.head?, isSpace c = false) ∧
    (∀ c ∈ trackingSectionEnd.getLast?, isSpace c = false) := by
  constructor <;> rintro c ⟨⟩ <;> decide

/-- The author's text around a section, as the next rewriting finds it. -/
def frontText (before : Text) : Text :=
  ended (if before = [] then [] else keptLines before ++ [[]])

def backText (after : Text) : Text :=
  begun (if after = [] then [] else [] :: keptLines after)

theorem trim_frontText (before : Text) :
    trimText (frontText before) = withoutResumeMarker before := by
  unfold frontText
  split_ifs with hempty
  · rw [hempty]
    rfl
  · have hended : ended (keptLines before ++ [[]]) = ended (keptLines before) ++ ['\n'] := by
      simp [ended]
    rw [hended, withoutResumeMarker_eq, ← trim_ended]
    exact trim_append_right (by simp [isSpace]) _

theorem trim_backText (after : Text) : trimText (backText after) = withoutResumeMarker after := by
  unfold backText
  split_ifs with hempty
  · rw [hempty]
    rfl
  · rw [withoutResumeMarker_eq, ← trim_begun]
    exact trim_append_left (x := ['\n']) (by simp [isSpace]) (begun (keptLines after))

theorem getLast_of_trimmed (h : trimText s = s) : s.getLast? ≠ some '\r' := by
  intro hlast
  exact absurd ((trim_eq_self_iff.mp h).2 _ hlast) (by decide)

/-- The lines of a rewritten body that are kept are those of its parts. -/
theorem dropResumeLines_joinParts (hb : trimText before = before) (after v : Text) :
    dropResumeLines (crlf (joinParts before (trackingSection (v ++ ['\n'])) after)) =
      frontText before ++ trackingSection (dropResumeLines (crlf (v ++ ['\n']))) ++
        backText after := by
  obtain ⟨ls, hinner, hls⟩ := exists_keptLines_newline v
  -- line by line from the back: the end marker, the section, the text in front
  have hend : keptLines (trackingSectionEnd ++ trail after) =
      trackingSectionEnd :: (if after = [] then [] else [] :: keptLines after) := by
    have hself : keptLines trackingSectionEnd = [trackingSectionEnd] := by decide
    unfold trail
    split_ifs with hempty
    · rw [append_nil, hself]
    · rw [keptLines_append_newline end_marker.getLast_ne, hself]
      have hblank := keptLines_append_newline (s := []) (by simp) after
      rw [nil_append] at hblank
      rw [hblank, keptLines_nil]
      rfl
  have hsection : keptLines (trackingSection (v ++ ['\n']) ++ trail after) =
      trackingSectionStart :: (ls ++ trackingSectionEnd ::
        (if after = [] then [] else [] :: keptLines after)) := by
    have hself : keptLines trackingSectionStart = [trackingSectionStart] := by decide
    have htext : trackingSection (v ++ ['\n']) ++ trail after =
        trackingSectionStart ++ '\n' :: (v ++ '\n' :: (trackingSectionEnd ++ trail after)) := by
      unfold trackingSection
      simp [text]
    rw [htext, keptLines_append_newline start_marker.getLast_ne, hself, hls, hend]
    rfl
  have hall : keptLines (joinParts before (trackingSection (v ++ ['\n'])) after) =
      (if before = [] then [] else keptLines before ++ [[]]) ++ trackingSectionStart ::
        (ls ++ trackingSectionEnd :: (if after = [] then [] else [] :: keptLines after)) := by
    rw [joinParts_eq, append_assoc]
    unfold lead
    by_cases hempty : before = []
    · rw [if_pos hempty, if_pos hempty]
      exact hsection
    · rw [if_neg hempty, if_neg hempty]
      have htext : before ++ ['\n', '\n'] ++ (trackingSection (v ++ ['\n']) ++ trail after) =
          before ++ '\n' :: ([] ++ '\n' :: (trackingSection (v ++ ['\n']) ++ trail after)) := by
        simp
      rw [htext, keptLines_append_newline (getLast_of_trimmed hb),
        keptLines_append_newline (s := []) (by simp), keptLines_nil, hsection]
      simp
  have hkept : dropResumeLines (crlf (v ++ ['\n'])) = ended ls := by
    show unlines (keptLines (v ++ ['\n'])) = _
    rw [hinner, unlines_append_ended ls (by simp), unlines_singleton, append_nil]
  show unlines (keptLines _) = _
  rw [hall, unlines_append_ended _ (by simp), unlines_cons _ (by simp),
    unlines_append_ended ls (by simp), unlines_cons_begun, hkept]
  unfold frontText backText trackingSection
  simp [text]

/-! ## Rewriting a rewritten body -/

theorem not_start_in_frontText (hstart : ¬ trackingSectionStart <:+: before) :
    ¬ trackingSectionStart <:+: frontText before := by
  intro h
  have hinf : ∀ ls : List Text, trackingSectionStart <:+: ended ls →
      ∃ l ∈ ls, trackingSectionStart <:+: l := by
    intro ls hls
    have h' : trackingSectionStart <:+: unlines (ls ++ [[]]) := by
      rw [unlines_append_ended ls (by simp), unlines_singleton, append_nil]
      exact hls
    obtain ⟨l, hl, hin⟩ := infix_unlines start_marker.newline (by simp) h'
    rcases mem_append.mp hl with hl | hl
    · exact ⟨l, hl, hin⟩
    · rw [mem_singleton.mp hl] at hin
      exact absurd hin start_marker.not_infix_nil
  obtain ⟨l, hl, hin⟩ := hinf _ h
  split_ifs at hl with hempty
  · cases hl
  · rcases mem_append.mp hl with hl | hl
    · have hlc : l <:+: crlf before := infix_of_mem_lines (mem_filter.mp hl).1
      exact hstart (infix_of_infix_crlf start_marker.newline (hin.trans hlc))
    · rw [mem_singleton.mp hl] at hin
      exact start_marker.not_infix_nil hin

/--
The author's text as it is read back from a rewritten body: behind the section stands what
is behind the first end marker among the lines that are kept.
-/
theorem authorText_joinParts {inner : Text} (after v : Text) (hb : trimText before = before)
    (hstart : ¬ trackingSectionStart <:+: before)
    (hinner : dropResumeLines (crlf (v ++ ['\n'])) = inner) :
    (¬ trackingSectionEnd <:+: inner →
      authorText (joinParts before (trackingSection (v ++ ['\n'])) after) =
        (withoutResumeMarker before, withoutResumeMarker after)) ∧
    (∀ x y, cut trackingSectionEnd inner = some (x, y) →
      authorText (joinParts before (trackingSection (v ++ ['\n'])) after) =
        (withoutResumeMarker before,
          trimText (y ++ trackingSectionEnd ++ (backText after).rdropWhile isSpace))) := by
  have hpreserved : withoutResumeMarker (joinParts before (trackingSection (v ++ ['\n'])) after) =
      (frontText before).dropWhile isSpace ++ trackingSection inner ++
        (backText after).rdropWhile isSpace := by
    unfold withoutResumeMarker
    rw [dropResumeLines_joinParts hb, hinner]
    refine trim_append_append (by simp [trackingSection, trackingSectionStart, text]) ?_ ?_ _ _
    · rintro c ⟨⟩
      decide
    · intro c hc
      unfold trackingSection at hc
      rw [getLast?_append_of_ne_nil _ end_marker.nonempty] at hc
      exact edges_of_marker.2 c hc
  have hbefore : ¬ trackingSectionStart <:+: (frontText before).dropWhile isSpace :=
    fun h => not_start_in_frontText hstart (h.trans (dropWhile_suffix _).isInfix)
  have hfront : trimText ((frontText before).dropWhile isSpace) = withoutResumeMarker before :=
    (trim_dropWhile _).trans (trim_frontText before)
  generalize hq : (backText after).rdropWhile isSpace = q at hpreserved ⊢
  have hback : trimText q = withoutResumeMarker after :=
    hq ▸ (trim_rdropWhile _).trans (trim_backText after)
  -- the section begins at the first start marker, and ends at the first end marker after it
  have hcutStart : cut trackingSectionStart ((frontText before).dropWhile isSpace ++
      trackingSection inner ++ q) =
      some ((frontText before).dropWhile isSpace,
        text "\n" ++ inner ++ trackingSectionEnd ++ q) := by
    rw [← start_marker.cut_append hbefore (text "\n" ++ inner ++ trackingSectionEnd ++ q)]
    unfold trackingSection
    simp
  have hinside : ∀ w, ¬ trackingSectionEnd <:+: w →
      ¬ trackingSectionEnd <:+: trackingSectionStart ++ text "\n" ++ w := by
    intro w hw h
    have hline : trackingSectionStart ++ text "\n" ++ w = trackingSectionStart ++ '\n' :: w := by
      simp [text]
    rw [hline] at h
    rcases infix_append_newline end_marker.newline h with h | h
    · exact absurd h (by decide)
    · exact hw h
  have hread : ∀ x y, ¬ trackingSectionEnd <:+: x →
      inner ++ trackingSectionEnd ++ q = x ++ trackingSectionEnd ++ y →
      authorText (joinParts before (trackingSection (v ++ ['\n'])) after) =
        (withoutResumeMarker before, trimText y) := by
    intro x y hx hsplit
    have hcutEnd : cut trackingSectionEnd
        (trackingSectionStart ++ (text "\n" ++ inner ++ trackingSectionEnd ++ q)) =
          some (trackingSectionStart ++ text "\n" ++ x, y) := by
      rw [← end_marker.cut_append (hinside x hx) y]
      simp only [append_assoc] at hsplit ⊢
      rw [hsplit]
    unfold authorText
    dsimp only
    rw [hpreserved, hcutStart]
    dsimp only
    rw [hcutEnd]
    dsimp only
    rw [hfront]
  constructor
  · intro hend
    rw [hread inner q hend rfl, hback]
  · intro x y hcut
    refine hread x _ (not_infix_of_cut end_marker.nonempty hcut) ?_
    rw [eq_of_cut hcut]
    simp

/-- The author's text in front has no section in it. -/
theorem not_start_in_authorText (current : Text) :
    ¬ trackingSectionStart <:+: (authorText current).1 := by
  have hnil := start_marker.not_infix_nil
  unfold authorText
  dsimp only
  cases hstart : cut trackingSectionStart (withoutResumeMarker current) with
  | none => exact hnil
  | some split =>
    obtain ⟨before, rest⟩ := split
    dsimp only
    cases hend : cut trackingSectionEnd (trackingSectionStart ++ rest) with
    | none => exact hnil
    | some split =>
      intro h
      exact not_infix_of_cut start_marker.nonempty hstart (h.trans (trim_infix_self before))

/-- Both texts of the author come out trimmed. -/
theorem authorText_trimmed (current : Text) :
    trimText (authorText current).1 = (authorText current).1 ∧
      trimText (authorText current).2 = (authorText current).2 := by
  unfold authorText
  dsimp only
  cases hstart : cut trackingSectionStart (withoutResumeMarker current) with
  | none => exact ⟨rfl, trim_trim _⟩
  | some split =>
    obtain ⟨before, rest⟩ := split
    dsimp only
    cases hend : cut trackingSectionEnd (trackingSectionStart ++ rest) with
    | none => exact ⟨rfl, trim_trim _⟩
    | some split => exact ⟨trim_trim _, trim_trim _⟩

theorem trackingItems_of_le : ∀ {ids : List Text} {children : List ChildPlan},
    ids.length ≤ children.length →
      trackingItems ids children = some [] ∨
        ∃ v, trackingItems ids children = some (v ++ ['\n'])
  | [], _, _ => .inl rfl
  | _ :: _, [], h => absurd h (by simp)
  | id :: ids, child :: children, h => by
    right
    have hrest : ids.length ≤ children.length := by simpa using h
    rcases trackingItems_of_le hrest with hitems | ⟨v, hitems⟩
    · exact ⟨text "- [ ] #" ++ id ++ text " — " ++ child.title, by
        simp [trackingItems, hitems, text]⟩
    · exact ⟨text "- [ ] #" ++ id ++ text " — " ++ child.title ++ text "\n" ++ v, by
        simp [trackingItems, hitems]⟩

theorem exists_sectionText {plan : Plan} {ids : List Text}
    (h : ids.length ≤ plan.children.length) : ∃ v, sectionText plan ids = some (v ++ ['\n']) := by
  rcases trackingItems_of_le h with hitems | ⟨v, hitems⟩
  · exact ⟨text "## Decomposition\n\n" ++ trimText plan.summary ++ ['\n'], by
      simp [sectionText, hitems, text]⟩
  · exact ⟨text "## Decomposition\n\n" ++ trimText plan.summary ++ text "\n\n" ++ v, by
      simp [sectionText, hitems]⟩

/-- The lines that are kept have all the end markers that stand on a line of their own. -/
theorem lineCount_backText (after : Text) :
    lineCount trackingSectionEnd after ≤ lineCount trackingSectionEnd (backText after) := by
  unfold backText
  split_ifs with hempty
  · rw [hempty]
    exact Nat.le_refl _
  · refine (lineCount_crlf end_marker edges_of_marker.2 after).trans ?_
    have hbegun : begun ([] :: keptLines after) = '\n' :: unlines ([] :: keptLines after) := by
      rw [unlines_cons_begun]
      rfl
    have hblank := lineCount_append_newline trackingSectionEnd []
      (unlines ([] :: keptLines after))
    rw [nil_append] at hblank
    have hlines : lines (unlines ([] :: keptLines after)) = [] :: keptLines after := by
      refine lines_unlines (by simp) (forall_mem_cons.mpr ⟨by simp, fun l hl => ?_⟩)
      exact newline_notMem_of_mem_lines (mem_filter.mp hl).1
    rw [hbegun, hblank]
    refine Nat.le_trans ?_ (Nat.le_add_left _ _)
    unfold lineCount
    rw [hlines, count_cons_of_ne (by decide)]
    exact (count_filter (by decide)).ge

/-- If the end marker is left inside the section, more of these lines come behind it with every
rewriting, so the author's text is not what it was. -/
theorem lineCount_lt_of_cut {v x y : Text} (after : Text) (hcut :
    cut trackingSectionEnd (dropResumeLines (crlf (v ++ ['\n']))) = some (x, y)) :
    lineCount trackingSectionEnd after < lineCount trackingSectionEnd
      (trimText (y ++ trackingSectionEnd ++ (backText after).rdropWhile isSpace)) := by
  obtain ⟨hhead, hlast⟩ := edges_of_marker
  -- what is left of the section's lines ends with a line ending, and so does `y`
  obtain ⟨y', rfl⟩ : ∃ y', y = y' ++ ['\n'] := by
    obtain ⟨ls, hinner, -⟩ := exists_keptLines_newline v
    have hended : dropResumeLines (crlf (v ++ ['\n'])) = ended ls := by
      show unlines (keptLines (v ++ ['\n'])) = _
      rw [hinner, unlines_append_ended ls (by simp), unlines_singleton, append_nil]
    have hsplit := eq_of_cut hcut
    rw [hended] at hsplit
    rcases eq_nil_or_concat ls with rfl | ⟨ls, l, rfl⟩
    · have hlength := congrArg length hsplit
      simp [ended, trackingSectionEnd, text] at hlength
    · have hnewline : ended (ls ++ [l]) = ended ls ++ l ++ ['\n'] := by simp [ended]
      rw [concat_eq_append, hnewline] at hsplit
      rcases eq_nil_or_concat y with rfl | ⟨y', c, rfl⟩
      · have hlast' := congrArg getLast? hsplit
        rw [getLast?_concat, append_nil, getLast?_append_of_ne_nil _ end_marker.nonempty] at hlast'
        cases hlast'
      · refine ⟨y', ?_⟩
        rw [concat_eq_append, ← append_assoc] at hsplit
        rw [concat_eq_append, ← (append_inj' hsplit rfl).2]
  have hafter : lineCount trackingSectionEnd after ≤
      lineCount trackingSectionEnd ((backText after).rdropWhile isSpace) :=
    (lineCount_backText after).trans (lineCount_rdropWhile end_marker hlast _)
  have hend : lineCount trackingSectionEnd ((backText after).rdropWhile isSpace) + 1 ≤
      lineCount trackingSectionEnd
        (trackingSectionEnd ++ (backText after).rdropWhile isSpace) := by
    cases hq : (backText after).rdropWhile isSpace with
    | nil =>
      rw [append_nil, lineCount_nil end_marker, lineCount_self end_marker]
    | cons c q =>
      obtain rfl : c = '\n' := by
        have hpre : c :: q <+: backText after := hq ▸ rdropWhile_prefix isSpace _
        unfold backText at hpre
        split_ifs at hpre
        · exact absurd (prefix_nil.mp hpre) (cons_ne_nil c q)
        · exact (cons_prefix_cons.mp hpre).1
      have hblank := lineCount_append_newline trackingSectionEnd [] q
      rw [nil_append, lineCount_nil end_marker] at hblank
      rw [lineCount_append_newline, lineCount_self end_marker, hblank]
      omega
  refine Nat.lt_of_lt_of_le ?_ (lineCount_trim end_marker hhead hlast _)
  rw [append_assoc, append_assoc, singleton_append, lineCount_append_newline]
  omega

/-- The parts that a body is put together from are read back exactly if nothing in them is
normalised again and nothing in the section ends it before its end. -/
theorem authorText_joinParts_iff (after v : Text) (hb : trimText before = before)
    (hstart : ¬ trackingSectionStart <:+: before) :
    authorText (joinParts before (trackingSection (v ++ ['\n'])) after) = (before, after) ↔
      withoutResumeMarker before = before ∧ withoutResumeMarker after = after ∧
        ¬ trackingSectionEnd <:+: dropResumeLines (crlf (v ++ ['\n'])) := by
  obtain ⟨hplain, hcutting⟩ := authorText_joinParts after v hb hstart rfl
  constructor
  · intro hread
    cases hcut : cut trackingSectionEnd (dropResumeLines (crlf (v ++ ['\n']))) with
    | none =>
      have hend := not_infix_of_cut_none end_marker.nonempty hcut
      rw [hplain hend, Prod.mk.injEq] at hread
      exact ⟨hread.1, hread.2, hend⟩
    | some split =>
      obtain ⟨x, y⟩ := split
      have hlt := lineCount_lt_of_cut after hcut
      rw [hcutting x y hcut, Prod.mk.injEq] at hread
      rw [hread.2] at hlt
      exact absurd hlt (Nat.lt_irrefl _)
  · rintro ⟨hbefore, hafter, hend⟩
    rw [hplain hend, hbefore, hafter]

/--
**A rewritten body is rewritten into itself**, so that it passes `verify`, and its author's
text is what it was, exactly if that text has nothing in it that is normalised again and no end
marker is left in the section once its own resume lines are dropped.
-/
theorem trackingBody_idempotent (current : Text) (plan : Plan) (ids : List Text)
    (hids : ids.length ≤ plan.children.length) :
    (∃ body, trackingBody current plan ids = some body ∧ verifiesBody body plan ids ∧
      authorText body = authorText current) ↔
    withoutResumeMarker (authorText current).1 = (authorText current).1 ∧
      withoutResumeMarker (authorText current).2 = (authorText current).2 ∧
      ∀ inner, sectionText plan ids = some inner →
        ¬ trackingSectionEnd <:+: dropResumeLines (crlf inner) := by
  obtain ⟨v, hsection⟩ := exists_sectionText hids
  have hread := authorText_joinParts_iff (authorText current).2 v
    (authorText_trimmed current).1 (not_start_in_authorText current)
  rw [← placeSection_eq] at hread
  rw [hsection]
  simp only [Option.some.injEq, forall_eq']
  rw [← hread, trackingBody, hsection, Option.map_some]
  constructor
  · rintro ⟨body, hsome, -, hauthor⟩
    rw [Option.some.inj hsome]
    exact hauthor
  · intro hauthor
    refine ⟨_, rfl, ?_, hauthor⟩
    -- the second rewriting sees the same text around the section
    unfold verifiesBody trackingBody
    rw [hsection, Option.map_some, placeSection_eq _ (trackingSection _), hauthor,
      ← placeSection_eq]

/-- The body of a parent with a section of an earlier plan in it. -/
def trackedBody : Text :=
  text "An epic.\n\n<!-- goobers-decomposition-tracking:v1:start -->\nold\n" ++
    text "<!-- goobers-decomposition-tracking:v1:end -->\r\nIts notes.\r\n"

theorem trackingBody_idempotent_trackedBody :
    Accepted plainEncoding layeredPlan sampleSelection sampleLive ∧
      ∃ body, trackingBody trackedBody layeredPlan [text "8", text "9"] = some body ∧
        verifiesBody body layeredPlan [text "8", text "9"] ∧
          authorText body = authorText trackedBody := by
  refine ⟨layeredPlan_accepted, (trackingBody_idempotent trackedBody layeredPlan
    [text "8", text "9"] (by decide)).mpr ⟨by decide +kernel, by decide +kernel, ?_⟩⟩
  intro inner h
  rw [← Option.some.inj h]
  decide +kernel

def quotingPlan : Plan :=
  { layeredPlan with
    summary := text "Split at <!-- goobers-decomposition-tracking:v1:end --> here." }

/--
The rewritten body is rewritten into another one: the rest of the section behind the
quoted marker is taken for the author's text. So is a body of the author in which a line
ends with two carriage returns, or one that begins with a resume marker behind a blank.
-/
theorem quotingPlan_rewrites_again :
    Accepted plainEncoding quotingPlan sampleSelection sampleLive ∧
      (∃ body ∈ trackingBody [] quotingPlan [text "8", text "9"],
        ¬ verifiesBody body quotingPlan [text "8", text "9"] ∧ authorText body ≠ authorText []) ∧
      (∃ body ∈ trackingBody (text "a\r\r\nb") layeredPlan [text "8", text "9"],
        ¬ verifiesBody body layeredPlan [text "8", text "9"]) ∧
      ∃ body ∈ trackingBody (text " <!-- goobers-decomposition-resume: a\nb") layeredPlan
          [text "8", text "9"],
        ¬ verifiesBody body layeredPlan [text "8", text "9"] := by
  unfold Accepted verifiesBody
  refine ⟨?_, ?_, ?_, ?_⟩ <;> decide +kernel

end Goobers.Decomposition
