import Goobers.Journal.InstanceLog

/-!
# Retention passes against the reader

Both passes read the complete lines, keep the lines of some records and leave the torn
tail. They trim white space as the reader does, but they do not strip crash fill, so a
line that begins with fill fails a pass. `CompactTickSkips` puts the record with the
highest number last if it is an aged one, which changes the order of a log whose
numbers do not increase.
-/

namespace Goobers.Journal

open Lib List Checkpoints CompactRecord

variable {unmarshal : Bytes → Option Event} {data : Bytes} {events : List Event} {torn : Nat}
  {records : List CompactRecord} {keepAfter keepRunStartsAfter : Int}

/-! ## What a pass writes -/

/-- The number of records dropped and the log left, which is the same one if there is none. -/
def rewritten (data : Bytes) (kept : List Bytes) (dropped : Nat) : Nat × Bytes :=
  (dropped, if dropped = 0 then data else frame newline kept ++ tornTail newline data)

/-- The pass writes the lines of `keptLines` and counts the others as dropped. -/
theorem compactInstanceEventsData_eq :
    (compactInstanceEventsData unmarshal data keepAfter keepRunStartsAfter).map
        (fun p => (p.1.dropped, p.2)) =
      (compactRecords unmarshal (lines newline data)).map fun records =>
        let kept := keptLines (recordAll {} 0 records) keepAfter keepRunStartsAfter 0 records
        rewritten data kept (records.length - kept.length) := by
  unfold compactInstanceEventsData rewritten
  split
  · rename_i hnone
    rw [lines_eq_nil newline hnone]
    rfl
  cases compactRecords unmarshal (lines newline data) with
  | error e => rfl
  | ok records =>
    dsimp only
    split_ifs with hdropped <;> simp [Except.map, hdropped]

theorem dropTickSkipsBefore_eq (keepAfter : Int) :
    (dropTickSkipsBefore unmarshal data keepAfter).map (fun p => (p.1.dropped, p.2)) =
      (compactRecords unmarshal (lines newline data)).map fun records =>
        let s := (records.foldl (fun s r => tickSkipStep keepAfter s r.line r.event) {}).finish
        rewritten data s.kept s.dropped := by
  unfold dropTickSkipsBefore rewritten
  split
  · rename_i hnone
    rw [lines_eq_nil newline hnone]
    rfl
  cases compactRecords unmarshal (lines newline data) with
  | error e => rfl
  | ok records =>
    dsimp only
    split_ifs with hdropped <;> simp [Except.map, hdropped]

theorem ok_of_map_eq {ε α β γ : Type} {x : Except ε α} {y : Except ε β} {f : α → γ} {g : β → γ}
    {a : α} (h : x.map f = y.map g) (hx : x = .ok a) : ∃ b, y = .ok b ∧ g b = f a := by
  subst hx
  cases y with
  | error e => cases h
  | ok b => exact ⟨b, rfl, (Except.ok.inj h).symm⟩

theorem keptLines_eq_filter (cp : Checkpoints) (start : Nat) (records : List CompactRecord) :
    keptLines cp keepAfter keepRunStartsAfter start records =
      (((records.zipIdx start).filter (fun p =>
        !cp.drops keepAfter keepRunStartsAfter p.2 p.1.event)).map Prod.fst).map line := by
  induction records generalizing start with
  | nil => rfl
  | cons r records ih =>
    rw [keptLines, zipIdx_cons, filter_cons, ih]
    cases cp.drops keepAfter keepRunStartsAfter start r.event <;> simp

theorem zipIdx_filter_sublist {α : Type} (records : List α) (p : α × Nat → Bool) :
    ((records.zipIdx.filter p).map Prod.fst).Sublist records := by
  have h := (filter_sublist (l := records.zipIdx) (p := p)).map Prod.fst
  rwa [zipIdx_map_fst] at h

/-! ## The tick-skip pass -/

/-- The record is one that `CompactTickSkips` drops. -/
def agedSkip (keepAfter : Int) (ev : Event) : Bool := ev.type = .tickSkipped ∧ ev.time < keepAfter

def IsHighest (before : List Event) (ev : Event) (after : List Event) : Prop :=
  (∀ b ∈ before, b.seq ≤ ev.seq) ∧ ∀ a ∈ after, a.seq < ev.seq

/-- The skip pass is a filter with a count. -/
theorem tickSkip_foldl (keepAfter : Int) (records : List CompactRecord) :
    ∃ s, records.foldl (fun s r => tickSkipStep keepAfter s r.line r.event) {} = s ∧
      s.kept = (records.filter (fun r => !agedSkip keepAfter r.event)).map line ∧
      s.dropped = records.countP (fun r => agedSkip keepAfter r.event) ∧
      (records = [] ∧ s.maxLine = none ∧ s.maxDropped = false ∨
        ∃ before m after, records = before ++ m :: after ∧
          IsHighest (before.map event) m.event (after.map event) ∧
          s.maxSeq = m.event.seq ∧ s.maxLine = some m.line ∧
          s.maxDropped = agedSkip keepAfter m.event) := by
  refine ⟨_, rfl, ?_⟩
  induction records using reverseRecOn with
  | nil => exact ⟨rfl, rfl, .inl ⟨rfl, rfl, rfl⟩⟩
  | append_singleton records r ih =>
    rw [foldl_concat]
    generalize records.foldl (fun s r => tickSkipStep keepAfter s r.line r.event) {} = s at ih ⊢
    obtain ⟨hkept, hdropped, hmax⟩ := ih
    unfold tickSkipStep agedSkip at *
    refine ⟨?_, ?_, .inr ?_⟩
    · grind
    · grind
    · by_cases hnew : s.maxLine = none ∨ s.maxSeq ≤ r.event.seq
      · refine ⟨records, r, [], rfl, ⟨forall_mem_map.mpr fun b hb => ?_, by simp⟩, by grind⟩
        rcases hmax with ⟨rfl, -⟩ | ⟨before, m, after, rfl, ⟨hbefore, hafter⟩, hseq, hline, -⟩
        · cases hb
        · grind
      · obtain ⟨hline, hseq⟩ := not_or.mp hnew
        obtain ⟨rfl, hnone, -⟩ | ⟨before, m, after, rfl, ⟨hbefore, hafter⟩, hmax, hrest⟩ := hmax
        · exact absurd hnone hline
        · exact ⟨before, m, after ++ [r], by simp, ⟨hbefore, by grind⟩, by grind⟩

/-- **The records the tick-skip pass keeps**: the highest one in any case, then at the end. -/
theorem tickSkip_finish (keepAfter : Int) (records : List CompactRecord) :
    ∃ s, (records.foldl (fun s r => tickSkipStep keepAfter s r.line r.event) {}).finish = s ∧
      (records = [] ∧ s.kept = [] ∧ s.dropped = 0 ∨
        ∃ before m after, records = before ++ m :: after ∧
          IsHighest (before.map event) m.event (after.map event) ∧
          s.kept = (records.filter (fun r => !agedSkip keepAfter r.event) ++
            if agedSkip keepAfter m.event then [m] else []).map line ∧
          s.dropped = (before ++ after).countP (fun r => agedSkip keepAfter r.event)) := by
  obtain ⟨s, hs, hkept, hdropped, hmax⟩ := tickSkip_foldl keepAfter records
  refine ⟨_, rfl, ?_⟩
  rw [hs]
  unfold TickSkipScan.finish
  rcases hmax with ⟨rfl, hline, hm⟩ | ⟨before, m, after, rfl, hhighest, -, hline, hm⟩
  · exact .inl ⟨rfl, by rw [hm]; exact ⟨hkept, hdropped⟩⟩
  refine .inr ⟨before, m, after, rfl, hhighest, ?_⟩
  rw [hline, hm]
  rw [countP_append, countP_cons] at hdropped
  cases haged : agedSkip keepAfter m.event with
  | true =>
    rw [haged] at hdropped
    exact ⟨by simp [hkept], by simp [hdropped]⟩
  | false =>
    rw [haged] at hdropped
    exact ⟨by simp [hkept], by simpa using hdropped⟩

theorem isHighest_unique {before before' after after' : List Event} {m m' : Event}
    (h : IsHighest before m after) (h' : IsHighest before' m' after')
    (heq : before ++ m :: after = before' ++ m' :: after') :
    before = before' ∧ m = m' ∧ after = after' := by
  rcases append_eq_append_iff.mp heq with ⟨as, rfl, hm⟩ | ⟨as, rfl, hm⟩
  all_goals
    cases as with
    | nil =>
      injection hm with hm hafter
      exact ⟨by simp, by simp [hm], by simp [hafter]⟩
    | cons x as =>
      injection hm with hm hafter
      subst hm hafter
      first
      | exact absurd (h.2 m' (by simp)) (Nat.not_lt.mpr (h'.1 m (by simp)))
      | exact absurd (h'.2 m (by simp)) (Nat.not_lt.mpr (h.1 m' (by simp)))

/-! ## What a pass reads -/

theorem compactRecords_ok_iff {ls : List Bytes} :
    compactRecords unmarshal ls = .ok records ↔
      (∀ l ∈ ls, trimSpace l = [] ∨
        ∃ ev, unmarshal (trimSpace l) = some ev ∧ ev.schema = eventSchema) ∧
      records = ls.filterMap fun l =>
        if trimSpace l = [] then none else (unmarshal (trimSpace l)).map (⟨l, ·⟩) := by
  induction ls generalizing records with
  | nil =>
    rw [compactRecords, Except.ok.injEq]
    exact ⟨fun h => ⟨by simp, h.symm⟩, fun h => h.2.symm⟩
  | cons l ls ih =>
    rw [compactRecords, forall_mem_cons, filterMap_cons]
    by_cases hblank : trimSpace l = []
    · rw [if_pos hblank, ih]
      simp [hblank]
    rw [if_neg hblank]
    cases hev : unmarshal (trimSpace l) with
    | none => simp [hblank]
    | some ev =>
      by_cases hschema : ev.schema = eventSchema
      · cases hrest : compactRecords unmarshal ls with
        | error e =>
          simp only [hschema, ne_eq, not_true_eq_false, if_false, reduceCtorEq, false_iff]
          intro h
          cases hrest.symm.trans (ih.mpr ⟨h.1.2, rfl⟩)
        | ok rest =>
          obtain ⟨hall, rfl⟩ := ih.mp hrest
          simp only [hschema, ne_eq, not_true_eq_false, if_false, Except.ok.injEq, hblank]
          exact ⟨fun h => ⟨⟨.inr ⟨ev, rfl, hschema⟩, hall⟩, h.symm⟩, fun h => h.2.symm⟩
      · simp [hblank, hschema]

/-- No complete line begins with crash fill. -/
def NoFill (data : Bytes) : Prop := ∀ l ∈ lines newline data, (trimSpace l).head? ≠ some 0

theorem cleanLine_of_head {l : Bytes} (h : (trimSpace l).head? ≠ some 0) :
    cleanLine l = trimSpace l := by
  have hstrip : (trimSpace l).dropWhile (· = 0) = trimSpace l := by
    cases htext : trimSpace l with
    | nil => rfl
    | cons b rest => simpa [htext] using h
  unfold cleanLine
  simp [hstrip]

section
variable (hjson : ∀ text ev, unmarshal text = some ev → text.head? ≠ some 0)
include hjson

/-- A log that reads can be compacted exactly when no line of it is fill. -/
theorem compactRecords_iff_noFill (hread : readEvents unmarshal data = .ok (events, torn)) :
    (∃ records, compactRecords unmarshal (lines newline data) = .ok records) ↔ NoFill data := by
  obtain ⟨hlines, rfl, hschema, -⟩ := (readEvents_ok_iff unmarshal).mp hread
  constructor
  · rintro ⟨records, hrecords⟩ l hl
    rcases (compactRecords_ok_iff.mp hrecords).1 l hl with hblank | ⟨ev, hev, -⟩
    · simp [hblank]
    · exact hjson _ _ hev
  · intro hfill
    refine ⟨_, compactRecords_ok_iff.mpr ⟨fun l hl => ?_, rfl⟩⟩
    have hclean := cleanLine_of_head (hfill l hl)
    rw [← hclean]
    by_cases hblank : cleanLine l = []
    · exact .inl hblank
    obtain ⟨ev, hev⟩ := (hlines l hl).2.resolve_left hblank
    refine .inr ⟨ev, hev, hschema ev (mem_filterMap.mpr ⟨l, hl, ?_⟩)⟩
    rw [decodeLine, if_neg hblank, hev]

theorem mem_compactRecords (hrecords : compactRecords unmarshal (lines newline data) = .ok records)
    {r : CompactRecord} (hr : r ∈ records) :
    r.line ∈ lines newline data ∧ decodeLine unmarshal r.line = some r.event := by
  obtain ⟨-, rfl⟩ := compactRecords_ok_iff.mp hrecords
  obtain ⟨l, hl, heq⟩ := mem_filterMap.mp hr
  split at heq
  · cases heq
  rename_i hblank
  obtain ⟨ev, hev, rfl⟩ := Option.map_eq_some_iff.mp heq
  refine ⟨hl, ?_⟩
  rw [decodeLine, cleanLine_of_head (hjson _ _ hev), if_neg hblank, hev]

variable (hread : readEvents unmarshal data = .ok (events, torn))
  (hrecords : compactRecords unmarshal (lines newline data) = .ok records)
include hread hrecords

theorem compactRecords_events : records.map event = events := by
  have hfill := (compactRecords_iff_noFill hjson hread).mp ⟨records, hrecords⟩
  rw [(compactRecords_ok_iff.mp hrecords).2, ((readEvents_ok_iff unmarshal).mp hread).2.1,
    map_filterMap]
  refine filterMap_congr fun l hl => ?_
  rw [decodeLine, cleanLine_of_head (hfill l hl)]
  split
  · rfl
  · simp [Function.comp_def]

theorem readEvents_records {sub : List CompactRecord} (hsub : sub ⊆ records) :
    readEvents unmarshal (frame newline (sub.map line) ++ tornTail newline data) =
      .ok (sub.map event, torn) := by
  obtain ⟨hlines, -, hschema, htorn⟩ := (readEvents_ok_iff unmarshal).mp hread
  have hline : ∀ l ∈ sub.map line, l ∈ lines newline data :=
    forall_mem_map.mpr fun r hr => (mem_compactRecords hjson hrecords (hsub hr)).1
  have hnotMem := sep_notMem_tornTail newline data
  have hframe := lines_frame_append newline
    (fun l hl => sep_notMem_of_mem_lines newline (hline l hl)) hnotMem
  refine (readEvents_ok_iff unmarshal).mpr ⟨?_, ?_, forall_mem_map.mpr fun r hr => ?_, ?_⟩
  · rw [hframe]
    exact fun l hl => hlines l (hline l hl)
  · rw [hframe, filterMap_map, ← filterMap_eq_map']
    exact filterMap_congr fun r hr => (mem_compactRecords hjson hrecords (hsub hr)).2.symm
  · rw [← compactRecords_events hjson hread hrecords] at hschema
    exact hschema _ (mem_map_of_mem (hsub hr))
  · rw [tornTail_frame_append newline _ hnotMem, htorn]

theorem readEvents_rewritten {sub : List CompactRecord} (hsub : sub ⊆ records) (dropped : Nat) :
    readEvents unmarshal (rewritten data (sub.map line) dropped).2 =
      .ok (if dropped = 0 then events else sub.map event, torn) := by
  unfold rewritten
  split_ifs with h
  · exact hread
  · exact readEvents_records hjson hread hrecords hsub

/-! ## The compacted log -/

omit hjson hread hrecords

/-- What a pass makes of the text: it succeeds, and the reader finds some of the events in it. -/
def CompactsData (unmarshal : Bytes → Option Event) (events : List Event)
    (pass : Except ReadError (InstanceEventsCompaction × Bytes)) : Prop :=
  ∃ result compacted after torn, pass = .ok (result, compacted) ∧
    readEvents unmarshal compacted = .ok (after, torn) ∧ after.Sublist events

/--
Where the record with the highest number is an aged `tick.skipped`, all records after
it are, or it is the only one.
-/
def HighestInOrder (keepAfter : Int) (events : List Event) : Prop :=
  ∀ before m after, events = before ++ m :: after → IsHighest before m after →
    agedSkip keepAfter m = true →
      (∀ ev ∈ after, agedSkip keepAfter ev = true) ∨
        ∀ ev ∈ before ++ after, agedSkip keepAfter ev = false

/-- Moving the highest record to the end keeps the order only past dropped events. -/
theorem moved_sublist_iff {before after : List Event} {m : Event} {drop : Event → Bool}
    (h : IsHighest before m after) (hm : drop m = true) :
    ((before ++ m :: after).filter (fun ev => !drop ev) ++ [m]).Sublist (before ++ m :: after) ↔
      ∀ ev ∈ after, drop ev = true := by
  have hfilter : (before ++ m :: after).filter (fun ev => !drop ev) =
      before.filter (fun ev => !drop ev) ++ after.filter (fun ev => !drop ev) := by simp [hm]
  rw [hfilter]
  constructor
  · intro hsub
    rw [append_cons before] at hsub
    obtain ⟨l₁, l₂, hl, hl₁, hl₂⟩ := sublist_append_iff.mp hsub
    -- the moved record is not among those after it, so the rest comes from before it
    obtain rfl : l₂ = [] := by
      rcases eq_nil_or_concat l₂ with rfl | ⟨l, x, rfl⟩
      · rfl
      rw [concat_eq_append, ← append_assoc] at hl
      obtain rfl : m = x := by simpa using (append_inj' hl rfl).2
      exact absurd (h.2 m (hl₂.subset (by simp))) (lt_irrefl _)
    rw [append_nil] at hl
    rw [← hl] at hl₁
    have hlen := (hl₁.filter (fun ev => !drop ev)).length_le
    simp only [filter_append, filter_filter, Bool.and_self, length_append] at hlen
    have hnil : after.filter (fun ev => !drop ev) = [] := length_eq_zero_iff.mp (by omega)
    simpa using hnil
  · intro hall
    have hnil : after.filter (fun ev => !drop ev) = [] := by simpa using hall
    rw [hnil, append_nil, append_cons before]
    exact (filter_sublist.append_right _).trans (sublist_append_left _ _)

theorem highestInOrder_iff {before after : List Event} {m : Event} (h : IsHighest before m after) :
    HighestInOrder keepAfter (before ++ m :: after) ↔ (agedSkip keepAfter m = true →
      (∀ ev ∈ after, agedSkip keepAfter ev = true) ∨
        ∀ ev ∈ before ++ after, agedSkip keepAfter ev = false) := by
  refine ⟨fun hall => hall before m after rfl h, fun hall before' m' after' heq h' => ?_⟩
  obtain ⟨rfl, rfl, rfl⟩ := isHighest_unique h h' heq
  exact hall

include hjson hread hrecords

theorem compactsData_iff {pass : Except ReadError (InstanceEventsCompaction × Bytes)}
    {kept : List Bytes} {dropped : Nat}
    (hpass : pass.map (fun p => (p.1.dropped, p.2)) = .ok (rewritten data kept dropped))
    (sub : List CompactRecord) (hkept : kept = sub.map line) (hsub : sub ⊆ records) :
    CompactsData unmarshal events pass ↔ dropped = 0 ∨ (sub.map event).Sublist events := by
  have hafter := readEvents_rewritten hjson hread hrecords hsub dropped
  subst hkept
  cases pass with
  | error e => cases hpass
  | ok p =>
    rw [← congrArg Prod.snd (Except.ok.inj hpass)] at hafter
    constructor
    · rintro ⟨result, compacted, after, torn', hp, hread', hsublist⟩
      cases hp
      rw [hafter] at hread'
      cases hread'
      by_cases hzero : dropped = 0
      · exact .inl hzero
      · exact .inr (by rwa [if_neg hzero] at hsublist)
    · intro h
      refine ⟨p.1, p.2, _, torn, rfl, hafter, ?_⟩
      split_ifs with hzero
      · exact Sublist.refl _
      · exact h.resolve_left hzero

theorem dropTickSkipsBefore_compacts_iff :
    CompactsData unmarshal events (dropTickSkipsBefore unmarshal data keepAfter) ↔
      HighestInOrder keepAfter events := by
  obtain rfl := compactRecords_events hjson hread hrecords
  obtain ⟨s, hs, hcases⟩ := tickSkip_finish keepAfter records
  have hpass := (dropTickSkipsBefore_eq keepAfter).trans (congrArg (Except.map _) hrecords)
  have hiff := compactsData_iff hjson hread hrecords hpass
  rw [hs] at hiff
  rcases hcases with ⟨rfl, hkept, hdropped⟩ | ⟨before, m, after, rfl, hhighest, hkept, hdropped⟩
  · rw [hiff [] hkept (by simp)]
    refine iff_of_true (.inl hdropped) fun before m after heq => ?_
    simp at heq
  rw [map_append, map_cons, highestInOrder_iff hhighest, ← map_cons, ← map_append]
  cases haged : agedSkip keepAfter m.event with
  | false =>
    rw [haged, if_neg (by simp), append_nil] at hkept
    have hsub := filter_sublist (p := fun r => !agedSkip keepAfter r.event)
      (l := before ++ m :: after)
    exact iff_of_true ((hiff _ hkept hsub.subset).mpr (.inr (hsub.map event))) (by simp)
  | true =>
    rw [haged, if_pos rfl] at hkept
    have hmoved := moved_sublist_iff hhighest haged
    rw [← map_cons, ← map_append, filter_map] at hmoved
    have hlast : ((before ++ m :: after).filter (fun r => !agedSkip keepAfter r.event) ++
        [m]).map event = ((before ++ m :: after).filter (fun r =>
          !agedSkip keepAfter r.event)).map event ++ [m.event] := map_append
    have honly : (∀ r ∈ before ++ after, ¬ agedSkip keepAfter r.event = true) ↔
        ∀ ev ∈ before.map event ++ after.map event, agedSkip keepAfter ev = false := by
      rw [← map_append, forall_mem_map]
      simp
    rw [hiff _ hkept (append_subset.mpr ⟨filter_sublist.subset, by simp⟩), hdropped,
      countP_eq_zero, hlast, honly, or_comm]
    exact (or_congr hmoved Iff.rfl).trans (by simp)

end

/-! ## The passes -/

section
variable (hjson : ∀ text ev, unmarshal text = some ev → text.head? ≠ some 0)
  (hread : readEvents unmarshal data = .ok (events, torn))
include hjson hread

/-- A log without fill is compacted to some of its events by the retention pass. -/
theorem compactInstanceEventsData_compacts (keepAfter keepRunStartsAfter : Int)
    (hfill : NoFill data) :
    CompactsData unmarshal events
      (compactInstanceEventsData unmarshal data keepAfter keepRunStartsAfter) := by
  obtain ⟨records, hrecords⟩ := (compactRecords_iff_noFill hjson hread).mpr hfill
  have hsub := zipIdx_filter_sublist records fun p =>
    !(recordAll {} 0 records).drops keepAfter keepRunStartsAfter p.2 p.1.event
  refine (compactsData_iff hjson hread hrecords (compactInstanceEventsData_eq.trans
    (congrArg (Except.map _) hrecords)) _ (keptLines_eq_filter _ _ _) hsub.subset).mpr (.inr ?_)
  rw [← compactRecords_events hjson hread hrecords]
  exact hsub.map event

theorem noFill_of_compact {p : InstanceEventsCompaction × Bytes}
    (h : compactInstanceEventsData unmarshal data keepAfter keepRunStartsAfter = .ok p) :
    NoFill data := by
  obtain ⟨records, hrecords, -⟩ := ok_of_map_eq compactInstanceEventsData_eq h
  exact (compactRecords_iff_noFill hjson hread).mp ⟨records, hrecords⟩

theorem dropTickSkipsBefore_iff : CompactsData unmarshal events
      (dropTickSkipsBefore unmarshal data keepAfter) ↔
    NoFill data ∧ HighestInOrder keepAfter events := by
  by_cases hfill : NoFill data
  · obtain ⟨records, hrecords⟩ := (compactRecords_iff_noFill hjson hread).mpr hfill
    rw [and_iff_right hfill, dropTickSkipsBefore_compacts_iff hjson hread hrecords]
  · refine iff_of_false (fun h => ?_) (fun h => hfill h.1)
    obtain ⟨result, compacted, -, -, hpass, -⟩ := h
    obtain ⟨records, hrecords, -⟩ := ok_of_map_eq (dropTickSkipsBefore_eq keepAfter) hpass
    exact hfill ((compactRecords_iff_noFill hjson hread).mp ⟨records, hrecords⟩)

end

/-- The call succeeds, and the reader finds some of the events in the log it leaves. -/
def Compacts (unmarshal : Bytes → Option Event) (events : List Event) (d : InstanceDir)
    (res : Except AppendError InstanceEventsCompaction) : Prop :=
  (∃ result, res = .ok result) ∧
    ∃ after torn, readEvents unmarshal d.log.data = .ok (after, torn) ∧ after.Sublist events

section
variable {d : InstanceDir} (hjson : ∀ text ev, unmarshal text = some ev → text.head? ≠ some 0)
  (hread : readEvents unmarshal d.log.data = .ok (events, torn))
include hjson hread

/-- The retention pass has nothing to do, or meets no fill. -/
theorem compactInstanceEvents_compacts_iff (keepAfter keepRunStartsAfter : Int) (dryRun : Bool) :
    let pass := compactInstanceEvents unmarshal .ok keepAfter keepRunStartsAfter dryRun d
    Compacts unmarshal events pass.1 pass.2 ↔
      nothingCanAgeOut unmarshal d.log.data keepAfter = true ∨ NoFill d.log.data := by
  unfold compactInstanceEvents
  dsimp only
  by_cases hfence : nothingCanAgeOut unmarshal d.log.data keepAfter = true
  · rw [if_pos hfence]
    exact iff_of_true ⟨⟨_, rfl⟩, events, torn, hread, Sublist.refl _⟩ (.inl hfence)
  rw [if_neg hfence, or_iff_right hfence]
  constructor
  · rintro ⟨⟨result, hres⟩, -⟩
    split at hres
    · cases hres
    · rename_i hpass
      exact noFill_of_compact hjson hread hpass
  · intro hfill
    obtain ⟨result, compacted, after, torn', hpass, hafter, hsub⟩ :=
      compactInstanceEventsData_compacts hjson hread keepAfter keepRunStartsAfter hfill
    rw [hpass]
    dsimp only
    split_ifs with hdone
    · exact ⟨⟨_, rfl⟩, events, torn, hread, Sublist.refl _⟩
    · exact ⟨⟨_, rfl⟩, after, torn', hafter, hsub⟩

/-- The tick-skip pass is not due, or meets no fill and nothing it would reorder. -/
theorem compactTickSkips_compacts_iff {l : InstanceLog} (hopen : l.closed = false)
    (maxBytes keepAfter : Int) :
    let pass := l.compactTickSkips unmarshal .ok maxBytes keepAfter d
    Compacts unmarshal events pass.2.1 pass.2.2 ↔
    (tickSkipCompactionDue l.tickSkipRetry d.generation d.log.data.length maxBytes = true →
      NoFill d.log.data ∧ HighestInOrder keepAfter events) := by
  unfold InstanceLog.compactTickSkips
  dsimp only
  rw [if_neg (by simp [hopen])]
  cases hdue : tickSkipCompactionDue l.tickSkipRetry d.generation d.log.data.length maxBytes with
  | false =>
    exact iff_of_true ⟨⟨_, rfl⟩, events, torn, hread, Sublist.refl _⟩ (by simp)
  | true =>
    rw [← dropTickSkipsBefore_iff hjson hread]
    simp only [Bool.not_true, Bool.false_eq_true, if_false, forall_const]
    cases hpass : dropTickSkipsBefore unmarshal d.log.data keepAfter with
    | error e => exact iff_of_false (fun h => by cases h.1.choose_spec) (by simp [CompactsData])
    | ok p =>
      -- without a drop the text is the same one
      have hsame : p.1.dropped = 0 → p.2 = d.log.data := by
        intro hzero
        obtain ⟨records, hrecords, heq⟩ := ok_of_map_eq (dropTickSkipsBefore_eq keepAfter) hpass
        rw [← congrArg Prod.snd heq]
        dsimp only [rewritten] at heq ⊢
        rw [if_pos ((congrArg Prod.fst heq).trans hzero)]
      dsimp only
      by_cases hzero : p.1.dropped > 0
      · rw [if_pos hzero]
        dsimp only [installCompactedGeneration, InstanceDir.advance]
        constructor
        · rintro ⟨-, after, torn', hafter, hsub⟩
          exact ⟨p.1, p.2, after, torn', rfl, hafter, hsub⟩
        · rintro ⟨result, compacted, after, torn', hp, hafter, hsub⟩
          cases hp
          exact ⟨⟨_, rfl⟩, after, torn', hafter, hsub⟩
      · rw [if_neg hzero]
        dsimp only
        refine iff_of_true ⟨⟨_, rfl⟩, events, torn, hread, Sublist.refl _⟩
          ⟨p.1, p.2, events, torn, rfl, ?_, Sublist.refl _⟩
        rw [hsame (by omega)]
        exact hread

end

/--
**Which logs both passes can compact.** On a log the reader accepts, with files that can be
written, both calls succeed and leave a log that reads as some of its events exactly if the
retention pass sees at once that it has nothing to do or no line begins with crash fill, and
the tick-skip pass is not due or no line begins with fill and it does not have to move the
highest record past a later one.
-/
theorem passes_compact_iff (unmarshal : Bytes → Option Event)
    (hjson : ∀ text ev, unmarshal text = some ev → text.head? ≠ some 0) (d : InstanceDir)
    (l : InstanceLog) (hopen : l.closed = false) (events : List Event) (torn : Nat)
    (hread : readEvents unmarshal d.log.data = .ok (events, torn))
    (keepAfter keepRunStartsAfter maxBytes skipsBefore : Int) (dryRun : Bool) :
    let retention := compactInstanceEvents unmarshal .ok keepAfter keepRunStartsAfter dryRun d
    let skips := l.compactTickSkips unmarshal .ok maxBytes skipsBefore d
    Compacts unmarshal events retention.1 retention.2 ∧
        Compacts unmarshal events skips.2.1 skips.2.2 ↔
      (nothingCanAgeOut unmarshal d.log.data keepAfter = true ∨ NoFill d.log.data) ∧
        (tickSkipCompactionDue l.tickSkipRetry d.generation d.log.data.length maxBytes = true →
          NoFill d.log.data ∧ HighestInOrder skipsBefore events) :=
  and_congr (compactInstanceEvents_compacts_iff hjson hread keepAfter keepRunStartsAfter dryRun)
    (compactTickSkips_compacts_iff hjson hread hopen maxBytes skipsBefore)

/-- A skip behind one byte of crash fill: the reader has it, and no pass gets past it. -/
theorem fill_fails_passes :
    let d : InstanceDir := { log := { data := 0 :: skipLine 1 ++ [newline] } }
    readEvents skipUnmarshal d.log.data = .ok ([skipEvent 1], 0) ∧
      (compactInstanceEvents skipUnmarshal .ok 10 0 false d).2 = .error (.read .corrupt) ∧
      (InstanceLog.compactTickSkips skipUnmarshal .ok 1 10 d {}).2.2 =
        .error (.read .corrupt) := by
  decide +kernel

def twoSkips : InstanceDir := { log := { data := frame newline [skipLine 1, skipLine 2] } }

/-- Of two old skips without fill the first is dropped. -/
theorem two_skips_compact :
    let retention := compactInstanceEvents skipUnmarshal .ok 10 0 false twoSkips
    let skips := InstanceLog.compactTickSkips skipUnmarshal .ok 1 10 twoSkips {}
    (Compacts skipUnmarshal [skipEvent 1, skipEvent 2] retention.1 retention.2 ∧
      Compacts skipUnmarshal [skipEvent 1, skipEvent 2] skips.2.1 skips.2.2) ∧
      skips.2.1.log.data = frame newline [skipLine 2] := by
  have hjson : ∀ text ev, skipUnmarshal text = some ev → text.head? ≠ some 0 := by
    intro text ev h
    obtain ⟨seq, hseq, -⟩ := Option.map_eq_some_iff.mp h
    have htext : text = skipLine seq := by simpa using find?_some hseq
    rw [htext]
    simp [skipLine, asciiBytes]
  have hiff := passes_compact_iff skipUnmarshal hjson twoSkips {} rfl [skipEvent 1, skipEvent 2] 0
    (by decide +kernel) 10 0 1 10 false
  have hfill : NoFill twoSkips.log.data := by
    unfold NoFill
    decide +kernel
  have hhighest : IsHighest [skipEvent 1] (skipEvent 2) [] := ⟨by simp [skipEvent], by simp⟩
  have horder : HighestInOrder 10 [skipEvent 1, skipEvent 2] :=
    (highestInOrder_iff hhighest).mpr (by simp)
  exact ⟨hiff.mpr ⟨.inr hfill, fun _ => ⟨hfill, horder⟩⟩, by decide +kernel⟩

end Goobers.Journal
