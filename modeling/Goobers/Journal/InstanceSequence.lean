import Goobers.Lib.Increasing
import Goobers.Journal.RetentionPass
import Goobers.Journal.LogShape
import Goobers.Journal.TextCodec

/-!
# Instance log numbers are not used twice

The lines of the log carry increasing numbers, so the highest of them is the last,
and the tail read finds it whichever window it stops at. An append is numbered
above it. What compaction has to add is that the last line is still there: then
every number that was ever given to a durable record is at most the last line's.

`CompactTickSkips` always keeps that line. `Compact` does not; the results are
about runs whose compactions keep it.
-/

namespace Goobers.Journal

open Lib List Attempt

variable {c : Codec}

variable {kept as synced survivors : List Attempt} {torn : Bytes} {d : InstanceDir}
  {keepAfter keepRunStartsAfter : Int} {w : InstanceWorld}

/-! ## The tail read -/

def highestFrom (found : Option Nat) (events : List Event) : Option Nat :=
  events.foldl
    (fun found ev => if ev.seq = 0 then found else some (max (found.getD 0) ev.seq)) found

theorem highestFrom_none (events : List Event) : highestFrom none events =
    if highestEventSeq events = 0 then none else some (highestEventSeq events) := by
  have hfold : ∀ n : Nat, highestFrom (if n = 0 then none else some n) events =
      let highest := events.foldl (fun n ev => if ev.seq > n then ev.seq else n) n
      if highest = 0 then none else some highest := by
    unfold highestFrom
    induction events with
    | nil => exact fun _ => rfl
    | cons ev events ih =>
      intro n
      rw [foldl_cons, foldl_cons, ← ih]
      by_cases hev : ev.seq = 0
      · simp [hev]
      · by_cases hn : n = 0
        · simp [hn, Nat.pos_of_ne_zero hev]
        · split_ifs <;> grind
  exact hfold 0

section
variable {unmarshal : Bytes → Option Event} {data : Bytes} {events : List Event} {tornBytes : Nat}

/-- On readable lines the scan is a maximum of their numbers. -/
theorem scanSeqs_eq {ls : List Bytes} (hok : ∀ l ∈ ls, LineOk unmarshal l)
    (hschema : ∀ ev ∈ ls.filterMap (decodeLine unmarshal), ev.schema = eventSchema)
    (found : Option Nat) :
    scanSeqs unmarshal found ls =
      .ok (highestFrom found (ls.filterMap (decodeLine unmarshal))) := by
  induction ls generalizing found with
  | nil => rfl
  | cons l ls ih =>
    have hrest := ih fun m hm => hok m (mem_cons_of_mem _ hm)
    rw [scanSeqs]
    by_cases hfill : cleanLine l = []
    · have hnone : decodeLine unmarshal l = none := if_pos hfill
      rw [filterMap_cons_none hnone] at hschema ⊢
      simp [hfill, hrest hschema]
    · obtain ⟨ev, hev⟩ := (hok l mem_cons_self).2.resolve_left hfill
      have hsome : decodeLine unmarshal l = some ev := (if_neg hfill).trans hev
      rw [filterMap_cons_some hsome, forall_mem_cons] at hschema
      rw [filterMap_cons_some hsome]
      simp only [hfill, if_false, hev, hschema.1, ne_eq, not_true_eq_false, hrest hschema.2]
      split_ifs with hzero
      · simp [highestFrom, hzero]
      · simp [highestFrom, hzero]

theorem scanSeqs_newest (hread : readEvents unmarshal data = .ok (events, tornBytes))
    {shown : List Bytes} (hshown : shown <:+ lines newline data) :
    let highest := highestEventSeq (shown.filterMap (decodeLine unmarshal))
    scanSeqs unmarshal none shown.reverse = .ok (if highest = 0 then none else some highest) := by
  obtain ⟨hok, rfl, hschema, -⟩ := (readEvents_ok_iff unmarshal).mp hread
  have hmem : ∀ l ∈ shown.reverse, l ∈ lines newline data :=
    fun l hl => hshown.subset (mem_reverse.mp hl)
  have hback : highestEventSeq (shown.reverse.filterMap (decodeLine unmarshal)) =
      highestEventSeq (shown.filterMap (decodeLine unmarshal)) := by
    rw [filterMap_reverse]
    exact Nat.le_antisymm
      (highestEventSeq_le.mpr fun _ he => le_highestEventSeq (mem_reverse.mp he))
      (highestEventSeq_le.mpr fun _ he => le_highestEventSeq (mem_reverse.mpr he))
  rw [scanSeqs_eq (fun l hl => hok l (hmem l hl)), highestFrom_none, hback]
  intro ev hev
  obtain ⟨l, hl, hdec⟩ := mem_filterMap.mp hev
  exact hschema ev (mem_filterMap.mpr ⟨l, hmem l hl, hdec⟩)

theorem highestEventSeq_append {front tail : List Event}
    (hsorted : (front ++ tail).Pairwise (fun a b => a.seq < b.seq)) (hne : tail ≠ []) :
    highestEventSeq tail = highestEventSeq (front ++ tail) := by
  obtain ⟨t, ht⟩ := exists_mem_of_ne_nil tail hne
  refine Nat.le_antisymm
    (highestEventSeq_le.mpr fun e he => le_highestEventSeq (mem_append_right _ he))
    (highestEventSeq_le.mpr (forall_mem_append.mpr ⟨fun e he => ?_, fun e he => ?_⟩))
  · have hlt := (pairwise_append.mp hsorted).2.2 e he t ht
    exact hlt.le.trans (le_highestEventSeq ht)
  · exact le_highestEventSeq he

/-- **The backward read finds the highest number and the torn tail**, or spends its budget. -/
theorem tailSequenceLoop_eq (hread : readEvents unmarshal data = .ok (events, tornBytes))
    (hsorted : events.Pairwise (fun a b => a.seq < b.seq)) {chunkSize : Nat}
    (hchunk : 0 < chunkSize) (start : Nat) (hstart : 0 < start) :
    tailSequenceLoop unmarshal chunkSize data start = .found (highestEventSeq events) tornBytes ∨
      tailSequenceLoop unmarshal chunkSize data start = .budgetExhausted := by
  obtain ⟨-, hevents, -, htorn⟩ := (readEvents_ok_iff unmarshal).mp hread
  induction start using Nat.strong_induction_on with
  | _ start ih =>
    rw [tailSequenceLoop, dif_pos ⟨hstart, hchunk⟩]
    unfold highestSeqInChunk
    dsimp only
    rw [lines_complete]
    by_cases hzero : start - chunkSize = 0
    · -- the window is the file
      have hscan := scanSeqs_newest hread (suffix_refl (lines newline data))
      rw [← hevents] at hscan
      simp only [hzero, drop_zero, if_true, decide_true, hscan, htorn]
      by_cases hnone : highestEventSeq events = 0
      · simp [hnone]
      · simp [hnone]
    · simp only [hzero, or_false, decide_false, if_false, Bool.false_eq_true]
      have hnext := ih (start - chunkSize) (by omega) (by omega)
      by_cases hnl : newline ∈ data.drop (start - chunkSize)
      · have hshown := window_lines_suffix newline data (start - chunkSize)
        rw [if_pos hnl, scanSeqs_newest hread hshown, tornTail_drop newline hnl, ← htorn]
        obtain ⟨front, hfront⟩ := hshown
        rw [← hfront, filterMap_append] at hevents
        generalize (lines newline (data.drop (start - chunkSize))).tail.filterMap
          (decodeLine unmarshal) = shown at hevents ⊢
        by_cases hnone : highestEventSeq shown = 0
        · rw [if_pos hnone]
          dsimp only
          split
          · exact Or.inr rfl
          · exact hnext
        · have hne : shown ≠ [] := by
            rintro rfl
            exact hnone rfl
          rw [hevents] at hsorted ⊢
          rw [if_neg hnone, highestEventSeq_append hsorted hne]
          exact Or.inl rfl
      · rw [if_neg hnl]
        dsimp only
        split
        · exact Or.inr rfl
        · exact hnext

/-- When its budget is spent, the tail read falls back to the full one. -/
theorem sequenceFromTailOrFull_eq (hread : readEvents unmarshal data = .ok (events, tornBytes))
    (hsorted : events.Pairwise (fun a b => a.seq < b.seq)) :
    (tailSequence unmarshal data = .found (highestEventSeq events) tornBytes ∨
      tailSequence unmarshal data = .budgetExhausted) ∧
    sequenceFromTailOrFull unmarshal data = .ok (highestEventSeq events, tornBytes) := by
  have htail : tailSequence unmarshal data = .found (highestEventSeq events) tornBytes ∨
      tailSequence unmarshal data = .budgetExhausted := by
    unfold tailSequence
    rcases Nat.eq_zero_or_pos data.length with hzero | hlen
    · obtain ⟨-, rfl, -, rfl⟩ := (readEvents_ok_iff unmarshal).mp hread
      rw [tailSequenceLoop, length_eq_zero_iff.mp hzero]
      exact Or.inl rfl
    · exact tailSequenceLoop_eq hread hsorted (by decide) data.length hlen
  refine ⟨htail, ?_⟩
  unfold sequenceFromTailOrFull
  rcases htail with heq | heq
  · rw [heq]
  · rw [heq, hread]

/--
**The bounded tail read equals the full read.** On every log the reader accepts, with
increasing numbers, it ends with the highest number and the torn bytes the full read
reports, unless it spends its budget.
-/
theorem tailSequence_eq_full (unmarshal : Bytes → Option Event) (data : Bytes)
    (events : List Event) (tornBytes : Nat)
    (hread : readEvents unmarshal data = .ok (events, tornBytes))
    (hsorted : events.Pairwise (fun a b => a.seq < b.seq))
    (hbudget : tailSequence unmarshal data ≠ .budgetExhausted) :
    tailSequence unmarshal data = .found (highestEventSeq events) tornBytes :=
  (sequenceFromTailOrFull_eq hread hsorted).1.resolve_right hbudget

end

def startedRecord (seq : Nat) : Event := { type := .runStarted, seq := seq, schema := eventSchema }

def startedLine (seq : Nat) : Bytes := (textMarshal (startedRecord seq)).getD [] ++ [newline]

/-- A line of fill, three records, one of them behind fill, and a torn tail. -/
def crashedLog : Bytes :=
  [0, 0, newline] ++ startedLine 2 ++ startedLine 3 ++ [0] ++ startedLine 5 ++ [0, 0x7B]

theorem crashedLog_tailSequence : tailSequence textUnmarshal crashedLog = .found 5 2 := by
  refine tailSequence_eq_full textUnmarshal crashedLog
    [startedRecord 2, startedRecord 3, startedRecord 5] 2 (by decide +kernel) ?_ ?_
  · simp [startedRecord]
  · decide +kernel

/-- The number of the last line; `0` for an empty log. -/
def lastSeq (kept : List Attempt) : Nat := (kept.getLast?.map (fun a => a.event.seq)).getD 0

@[simp] theorem lastSeq_concat (kept : List Attempt) (a : Attempt) :
    lastSeq (kept ++ [a]) = a.event.seq := by
  simp [lastSeq]

theorem le_lastSeq (hsorted : kept.Pairwise (fun a b => a.event.seq < b.event.seq)) :
    ∀ a ∈ kept, a.event.seq ≤ lastSeq kept :=
  Increasing.le_lastValue hsorted

/-- **The next number is taken from the last line**, whichever read finds it. -/
theorem LogShape.sequence_eq {f : LogFile} (h : LogShape c f kept torn) :
    sequenceFromTailOrFull c.unmarshal f.data = .ok (lastSeq kept, torn.length) := by
  have hfull : highestEventSeq (kept.map (fun a => c.redact a.event)) = lastSeq kept := by
    apply Nat.le_antisymm
    · rw [highestEventSeq_le]
      intro ev hev
      obtain ⟨a, ha, rfl⟩ := mem_map.mp hev
      rw [c.redact_seq]
      exact le_lastSeq h.sorted a ha
    · rcases eq_nil_or_concat kept with rfl | ⟨init, last, rfl⟩
      · exact Nat.zero_le _
      · rw [concat_eq_append, lastSeq_concat, ← c.redact_seq]
        exact le_highestEventSeq (by simp)
  rw [← hfull]
  refine (sequenceFromTailOrFull_eq h.readEvents_eq ?_).2
  simpa only [pairwise_map, c.redact_seq] using h.sorted

/-! ## The invariant -/

/--
The log holds the lines of `kept`, those of `synced` for good, and no number was
ever given to a durable record that is above all of those. Numbers of durable
records are below every number given out later.
-/
structure SeqInv (c : Codec) (f : LogFile) (kept synced : List Attempt) (torn : Bytes) : Prop
    extends LogShape c f kept torn where
  pos : ∀ a ∈ kept, 0 < a.event.seq
  pre : synced <+: kept
  stable : Synced f synced
  covered : ∀ a ∈ f.written, a.Succeeded → ∃ b ∈ synced, a.event.seq ≤ b.event.seq
  increasing : f.written.Pairwise (fun a b => a.Succeeded → a.event.seq < b.event.seq)

/-- Some lines make the invariant. -/
def LogOk (c : Codec) (f : LogFile) : Prop := ∃ kept synced torn, SeqInv c f kept synced torn

/-- The invariant holds, and the log still begins with the lines of `kept`. -/
def LogGrows (c : Codec) (kept : List Attempt) (f : LogFile) : Prop :=
  ∃ kept' synced torn, SeqInv c f kept' synced torn ∧ kept <+: kept'

theorem SeqInv.logGrows {f : LogFile} (h : SeqInv c f kept synced torn) : LogGrows c kept f :=
  ⟨kept, synced, torn, h, prefix_refl _⟩

theorem LogGrows.weaken {f : LogFile} {kept' : List Attempt} (h : LogGrows c kept' f)
    (hpre : kept <+: kept') : LogGrows c kept f := by
  obtain ⟨kept'', synced, torn, hinv, hmore⟩ := h
  exact ⟨kept'', synced, torn, hinv, hpre.trans hmore⟩

theorem LogGrows.logOk {f : LogFile} (h : LogGrows c kept f) : LogOk c f := by
  obtain ⟨kept', synced, torn, hinv, -⟩ := h
  exact ⟨kept', synced, torn, hinv⟩

theorem logOk_init : LogOk c {} := by
  refine ⟨[], [], [], logShape_init, ?_, prefix_refl [], ?_, ?_, List.Pairwise.nil⟩
  · intro a ha
    cases ha
  · exact Nat.zero_le _
  · intro a ha
    cases ha

section
variable {f : LogFile} {kept synced : List Attempt} {torn : Bytes}

theorem SeqInv.covered_kept (h : SeqInv c f kept synced torn) {a : Attempt} (ha : a ∈ f.written)
    (hok : a.Succeeded) : ∃ b ∈ kept, a.event.seq ≤ b.event.seq := by
  obtain ⟨b, hb, hle⟩ := h.covered a ha hok
  exact ⟨b, h.pre.subset hb, hle⟩

theorem SeqInv.increasing_write (h : SeqInv c f kept synced torn) {a : Attempt}
    (hseq : ∀ b ∈ kept, b.event.seq < a.event.seq) :
    (f.write a).written.Pairwise (fun a b => a.Succeeded → a.event.seq < b.event.seq) := by
  rw [f.write_written, pairwise_append]
  refine ⟨h.increasing, pairwise_singleton _ _, ?_⟩
  intro x hx y hy hok
  obtain ⟨b, hb, hle⟩ := h.covered_kept hx hok
  have hlt := hseq b hb
  rw [mem_singleton.mp hy]
  omega

/-- **A write numbered above the lines kept keeps the invariant**, whatever becomes of it. -/
theorem SeqInv.write (h : SeqInv c f kept synced []) {a : Attempt} (ha : a.Sound c)
    (hpos : 0 < a.event.seq) (hseq : ∀ b ∈ kept, b.event.seq < a.event.seq) :
    ∃ kept' synced' torn', SeqInv c (f.write a) kept' synced' torn' ∧ kept <+: kept' ∧
      (a.Succeeded → torn' = [] ∧ kept' = kept ++ [a]) := by
  have hposKept : ∀ b ∈ kept ++ [a], 0 < b.event.seq :=
    forall_mem_append.mpr ⟨h.pos, forall_mem_singleton.mpr hpos⟩
  have hinc := h.increasing_write hseq
  by_cases hok : a.Succeeded
  · -- the line is there for good, and so is everything before it
    have hshape := h.toLogShape.write_whole ha hok.whole hseq
    refine ⟨kept ++ [a], kept ++ [a], [], ⟨hshape, hposKept, prefix_refl _,
      hshape.synced_of_succeeded hok, ?_, hinc⟩, prefix_append _ _, fun _ => ⟨rfl, rfl⟩⟩
    intro x hx hxok
    rw [f.write_written] at hx
    rcases mem_append.mp hx with hold | hnew
    · obtain ⟨b, hb, hle⟩ := h.covered_kept hold hxok
      exact ⟨b, mem_append_left _ hb, hle⟩
    · exact ⟨a, by simp, by rw [mem_singleton.mp hnew]⟩
  · -- a failed write adds no durable number
    have hcov : ∀ x ∈ (f.write a).written, x.Succeeded →
        ∃ b ∈ synced, x.event.seq ≤ b.event.seq := by
      intro x hx hxok
      rw [f.write_written] at hx
      rcases mem_append.mp hx with hold | hnew
      · exact h.covered x hold hxok
      · rw [mem_singleton.mp hnew] at hxok
        exact absurd hxok hok
    have hstable : Synced (f.write a) synced := h.stable.write h.toLogShape h.pre a
    by_cases hw : a.Whole
    · refine ⟨kept ++ [a], synced, [], ⟨h.toLogShape.write_whole ha hw hseq, hposKept,
        h.pre.trans (prefix_append _ _), hstable, hcov, hinc⟩, prefix_append _ _,
        fun hs => absurd hs hok⟩
    · obtain ⟨torn', hshape⟩ := h.toLogShape.write_torn ha hw
      exact ⟨kept, synced, torn', ⟨hshape, h.pos, h.pre, hstable, hcov, hinc⟩,
        prefix_refl _, fun hs => absurd hs hok⟩

theorem SeqInv.truncate (h : SeqInv c f kept synced torn) :
    SeqInv c (truncateTornTail f torn.length) kept synced [] where
  toLogShape := h.toLogShape.truncate
  pos := h.pos
  pre := h.pre
  stable := h.stable.truncate h.toLogShape h.pre
  covered := h.covered
  increasing := h.increasing

theorem SeqInv.crash (h : SeqInv c f kept synced torn) (n fill : Nat) :
    LogOk c (f.crash n fill) := by
  obtain ⟨kept', torn', hshape, hsynced, hkept, hstable⟩ :=
    h.toLogShape.crash h.stable h.pre n fill
  refine ⟨kept', kept', torn', hshape, ?_, prefix_refl _, hstable, ?_, h.increasing⟩
  · exact fun a ha => h.pos a (hkept.subset ha)
  · intro a ha hok
    obtain ⟨b, hb, hle⟩ := h.covered a ha hok
    exact ⟨b, hsynced.subset hb, hle⟩

theorem SeqInv.advance (h : SeqInv c d.log kept synced torn) (hsub : survivors.Sublist kept)
    (hlast : ∀ last, kept.getLast? = some last → last ∈ survivors) {data : Bytes}
    (hdata : data = frame newline (survivors.map line) ++ torn) :
    LogOk c (d.advance data).log := by
  refine ⟨survivors, survivors, torn, ⟨hdata, h.torn, ?_, h.sorted.sublist hsub⟩, ?_,
    prefix_refl _, ?_, ?_, h.increasing⟩
  · exact fun a ha => h.sound a (hsub.subset ha)
  · exact fun a ha => h.pos a (hsub.subset ha)
  · show (frame newline (survivors.map line)).length ≤ data.length
    rw [hdata, length_append]
    omega
  · intro a ha hok
    obtain ⟨b, hb, hle⟩ := h.covered_kept ha hok
    rcases eq_nil_or_concat kept with rfl | ⟨init, last, rfl⟩
    · cases hb
    rw [concat_eq_append] at hb hlast
    have hbound := le_lastSeq (concat_eq_append ▸ h.sorted) b hb
    rw [lastSeq_concat] at hbound
    exact ⟨last, hlast last (by simp), by omega⟩

/-! ## Appending -/

theorem SeqInv.appendEvent (h : SeqInv c f kept synced []) {seq : Nat}
    (hle : ∀ b ∈ kept, b.event.seq ≤ seq) (io : WriteOutcome) (now : Int) (ev : Event) :
    LogGrows c kept (Journal.appendEvent c io now f seq ev).1 ∧
      ∀ stamped, (Journal.appendEvent c io now f seq ev).2.2 = .ok stamped →
        ∃ kept' synced', SeqInv c (Journal.appendEvent c io now f seq ev).1 kept' synced' [] ∧
          kept <+: kept' ∧
          ∀ b ∈ kept', b.event.seq ≤ (Journal.appendEvent c io now f seq ev).2.1 := by
  rcases appendEvent_cases c io now f seq ev with ⟨e, heq⟩ | ⟨a, ha, hev, hio, heq⟩
  · rw [heq]
    exact ⟨h.logGrows, fun stamped hok => by cases hok⟩
  have hnum : a.event.seq = seq + 1 := by rw [hev, stampEvent_seq]
  have hseq : ∀ b ∈ kept, b.event.seq < a.event.seq := by
    intro b hb
    have := hle b hb
    omega
  obtain ⟨kept', synced', torn', hinv, hpre, hclean⟩ := h.write ha (by omega) hseq
  rw [heq]
  refine ⟨⟨kept', synced', torn', hinv, hpre⟩, fun stamped hok => ?_⟩
  have hsucc : a.Succeeded := by
    unfold Attempt.Succeeded
    rw [hio]
    -- the stamped event is only returned for a line that was synced
    cases io with
    | ok => rfl
    | stops n => cases hok
    | syncFails => cases hok
  obtain ⟨rfl, rfl⟩ := hclean hsucc
  refine ⟨kept ++ [a], synced', hinv, hpre, ?_⟩
  intro b hb
  show b.event.seq ≤ seq + 1
  rcases mem_append.mp hb with hb | hb
  · have := hle b hb
    omega
  · rw [mem_singleton.mp hb]
    omega

end

section
variable {d : InstanceDir} {kept synced : List Attempt} {torn : Bytes}

theorem openInstanceLog_grows (hinv : SeqInv c d.log kept synced torn) (io : WriteOutcome)
    (now : Int) : LogGrows c kept (openInstanceLog c io now d).1.log := by
  have hcut := hinv.truncate
  unfold openInstanceLog
  rw [hinv.toLogShape.sequence_eq]
  dsimp only
  split
  · exact hcut.logGrows
  have happ := (hcut.appendEvent (le_lastSeq hinv.sorted) io now (repairedEvent torn.length)).1
  split
  · rename_i heq
    rw [heq] at happ
    exact happ
  · rename_i heq
    rw [heq] at happ
    exact happ

/-- An append adds its own line and that of a repair, with numbers above all others. -/
theorem append_grows (hinv : SeqInv c d.log kept synced torn) (repairWrite io : WriteOutcome)
    (now : Int) (l : InstanceLog) (ev : Event) :
    LogGrows c kept (l.append c repairWrite io now d ev).2.1.log := by
  unfold InstanceLog.append
  split
  · exact hinv.logGrows
  have hcut := hinv.truncate
  rw [hinv.toLogShape.sequence_eq]
  dsimp only
  generalize hfloor : (if lastSeq kept < l.seq then l.seq else lastSeq kept) = seq
  have hle : ∀ b ∈ kept, b.event.seq ≤ seq := by
    intro b hb
    have := le_lastSeq hinv.sorted b hb
    split at hfloor <;> omega
  -- after the repair, if there was one, the boundary is clean again
  let repair := appendEvent c repairWrite now (truncateTornTail d.log torn.length) seq
    (repairedEvent torn.length)
  have hrepaired : ∀ log seq' r, (if torn.length > 0 then
        (repair.1, repair.2.1, repair.2.2.map (fun _ => ()))
      else (truncateTornTail d.log torn.length, seq, (.ok () : Except AppendError Unit)))
        = (log, seq', r) →
      LogGrows c kept log ∧ (r = .ok () → ∃ kept' synced', SeqInv c log kept' synced' [] ∧
        kept <+: kept' ∧ ∀ b ∈ kept', b.event.seq ≤ seq') := by
    intro log seq' r heq
    split at heq
    · obtain ⟨hlog, hclean⟩ := hcut.appendEvent hle repairWrite now (repairedEvent torn.length)
      injection heq with h1 h2
      injection h2 with h2 h3
      subst h1 h2 h3
      refine ⟨hlog, fun hok => ?_⟩
      cases hr : repair.2.2 with
      | error e =>
        rw [hr] at hok
        cases hok
      | ok stamped => exact hclean stamped hr
    · injection heq with h1 h2
      injection h2 with h2 h3
      subst h1 h2
      exact ⟨hcut.logGrows, fun _ => ⟨kept, synced, hcut, prefix_refl _, hle⟩⟩
  split
  · rename_i log seq' e heq
    exact (hrepaired log seq' (.error e) heq).1
  · rename_i log seq' heq
    obtain ⟨_, hclean⟩ := hrepaired log seq' (.ok ()) heq
    obtain ⟨kept', synced', hinv', hpre, hle'⟩ := hclean rfl
    exact (hinv'.appendEvent hle' io now ev).1.weaken hpre

end

/-! ## What the passes read -/

def recordOf (c : Codec) (a : Attempt) : CompactRecord := ⟨a.line, c.redact a.event⟩

theorem compactRecords_eq (hsound : ∀ a ∈ as, a.Sound c) :
    compactRecords c.unmarshal (as.map line) = .ok (as.map (recordOf c)) := by
  induction as with
  | nil => rfl
  | cons a as ih =>
    have ha := hsound a mem_cons_self
    rw [map_cons, compactRecords]
    simp only [ha.object.trimSpace_eq, ha.object.ne_nil, ha.decode, c.redact_schema,
      ha.schema, ih (fun b hb => hsound b (mem_cons_of_mem _ hb))]
    rfl

/-! ## The compaction pass -/

/--
A pass with these cutoffs keeps the record with the highest number, the last one of
the log.
-/
def keepsHighest (unmarshal : Bytes → Option Event) (data : Bytes)
    (keepAfter keepRunStartsAfter : Int) : Bool :=
  match compactRecords unmarshal (lines newline data) with
  | .error _ => true
  | .ok records =>
    match records.getLast? with
    | none => true
    | some last =>
      !(Checkpoints.recordAll {} 0 records).drops keepAfter keepRunStartsAfter
        (records.length - 1) last.event

theorem keepsHighest_last {unmarshal : Bytes → Option Event} {data : Bytes}
    {records : List CompactRecord} {last : CompactRecord}
    (h : keepsHighest unmarshal data keepAfter keepRunStartsAfter = true)
    (hrecords : compactRecords unmarshal (lines newline data) = .ok records)
    (hlast : records.getLast? = some last) :
    (Checkpoints.recordAll {} 0 records).drops keepAfter keepRunStartsAfter (records.length - 1)
      last.event = false := by
  unfold keepsHighest at h
  rw [hrecords] at h
  dsimp only at h
  rw [hlast] at h
  simpa using h

/-- **The new generation holds some of the lines**, the last one among them. -/
def KeepsLines (d d' : InstanceDir) (kept : List Attempt) (torn : Bytes) : Prop :=
  ∃ survivors : List Attempt, survivors.Sublist kept ∧
    (∀ last, kept.getLast? = some last → last ∈ survivors) ∧
    d' = d.advance (frame newline (survivors.map Attempt.line) ++ torn)

theorem KeepsLines.logOk {d' : InstanceDir} (h : KeepsLines d d' kept torn)
    (hinv : SeqInv c d.log kept synced torn) : LogOk c d'.log := by
  obtain ⟨survivors, hsub, hlast, rfl⟩ := h
  exact hinv.advance hsub hlast rfl

theorem SeqInv.keepsLines (hinv : SeqInv c d.log kept synced torn)
    {records sub : List CompactRecord}
    (hrecords : compactRecords c.unmarshal (lines newline d.log.data) = .ok records)
    (hsub : sub.Sublist records) (hlast : ∀ last, records.getLast? = some last → last ∈ sub)
    {dropped dropped' : Nat} {compacted : Bytes}
    (heq : rewritten d.log.data (sub.map CompactRecord.line) dropped = (dropped', compacted))
    (hdropped : dropped' ≠ 0) : KeepsLines d (d.advance compacted) kept torn := by
  rw [hinv.toLogShape.lines_eq, compactRecords_eq hinv.sound] at hrecords
  cases hrecords
  obtain ⟨survivors, hsurvivors, rfl⟩ := sublist_map_iff.mp hsub
  cases heq
  refine ⟨survivors, hsurvivors, fun last hl => ?_, ?_⟩
  · obtain ⟨a, ha, hrecord⟩ := mem_map.mp (hlast (recordOf c last) (by rw [getLast?_map, hl]; rfl))
    have hseq := congrArg (fun r => r.event.seq) hrecord
    simp only [recordOf, c.redact_seq] at hseq
    -- no two lines of the log have one number
    have hnodup : (kept.map (fun a => a.event.seq)).Nodup :=
      pairwise_map.mpr (hinv.sorted.imp ne_of_lt)
    rwa [← inj_on_of_nodup_map hnodup (hsurvivors.subset ha) (mem_of_getLast? hl) hseq]
  · rw [if_neg hdropped, hinv.toLogShape.tornTail_eq, map_map]
    rfl

theorem compactInstanceEventsData_keepsLines (hinv : SeqInv c d.log kept synced torn)
    (hkeeps : keepsHighest c.unmarshal d.log.data keepAfter keepRunStartsAfter = true)
    {result : InstanceEventsCompaction} {compacted : Bytes}
    (hpass : compactInstanceEventsData c.unmarshal d.log.data keepAfter keepRunStartsAfter
      = .ok (result, compacted)) (hdropped : result.dropped ≠ 0) :
    KeepsLines d (d.advance compacted) kept torn := by
  obtain ⟨records, hrecords, heq⟩ := ok_of_map_eq compactInstanceEventsData_eq hpass
  rw [keptLines_eq_filter] at heq
  refine hinv.keepsLines hrecords (zipIdx_filter_sublist records _) (fun last hl => ?_) heq hdropped
  refine mem_map.mpr ⟨(last, records.length - 1), mem_filter.mpr ⟨?_, ?_⟩, rfl⟩
  · rwa [mem_zipIdx_iff_getElem?, ← getLast?_eq_getElem?]
  · rw [keepsHighest_last hkeeps hrecords hl]
    rfl

theorem install_dir (d : InstanceDir) (compacted : Bytes) (io : Install) :
    (installCompactedGeneration d compacted io).1 = d ∨
      (installCompactedGeneration d compacted io).1 = d.advance compacted := by
  cases io with
  | ok | advanced => exact .inr rfl
  | failed => exact .inl rfl

/-- A compaction of the handle changes nothing, or installs what it computed. -/
theorem compact_dir (unmarshal : Bytes → Option Event) (io : Install)
    (keepAfter keepRunStartsAfter : Int) (d : InstanceDir) (l : InstanceLog) :
    (l.compact unmarshal io keepAfter keepRunStartsAfter d).1 = d ∨
      ∃ result compacted,
        compactInstanceEventsData unmarshal d.log.data keepAfter keepRunStartsAfter =
          .ok (result, compacted) ∧ result.dropped ≠ 0 ∧
        (l.compact unmarshal io keepAfter keepRunStartsAfter d).1 = d.advance compacted := by
  unfold InstanceLog.compact
  split
  · exact .inl rfl
  split
  · exact .inl rfl
  rename_i result compacted hpass
  split_ifs with hdropped
  · exact .inl rfl
  have hinstall := install_dir d compacted io
  split
  all_goals
    rename_i heq
    rw [heq] at hinstall
    exact hinstall.imp id fun h => ⟨result, compacted, hpass, hdropped, h⟩

theorem compactInstanceEvents_dir (unmarshal : Bytes → Option Event) (io : Install)
    (keepAfter keepRunStartsAfter : Int) (dryRun : Bool) (d : InstanceDir) :
    (compactInstanceEvents unmarshal io keepAfter keepRunStartsAfter dryRun d).1 = d ∨
      dryRun = false ∧ nothingCanAgeOut unmarshal d.log.data keepAfter = false ∧
      ∃ result compacted,
        compactInstanceEventsData unmarshal d.log.data keepAfter keepRunStartsAfter =
          .ok (result, compacted) ∧ result.dropped ≠ 0 ∧
        (compactInstanceEvents unmarshal io keepAfter keepRunStartsAfter dryRun d).1 =
          d.advance compacted := by
  unfold compactInstanceEvents
  dsimp only
  split
  · exact .inl rfl
  rename_i hfence
  split
  · exact .inl rfl
  rename_i result compacted hpass
  split_ifs with hdropped
  · exact .inl rfl
  rw [not_or] at hdropped
  have hinstall := install_dir d compacted io
  split
  all_goals
    rename_i heq
    rw [heq] at hinstall
    exact hinstall.imp id fun h => ⟨by simpa using hdropped.2, by simpa using hfence, result,
      compacted, hpass, hdropped.1, h⟩

/-! ## The tick-skip pass -/

theorem dropTickSkipsBefore_keepsLines (hinv : SeqInv c d.log kept synced torn)
    {result : InstanceEventsCompaction} {compacted : Bytes}
    (hpass : dropTickSkipsBefore c.unmarshal d.log.data keepAfter = .ok (result, compacted))
    (hdropped : result.dropped > 0) : KeepsLines d (d.advance compacted) kept torn := by
  obtain ⟨records, hrecords, heq⟩ := ok_of_map_eq (dropTickSkipsBefore_eq keepAfter) hpass
  obtain ⟨s, hs, hcases⟩ := tickSkip_finish keepAfter records
  dsimp only at heq
  rw [hs] at heq
  rcases hcases with ⟨-, -, hnone⟩ | ⟨before, m, after, rfl, hhighest, hkept, -⟩
  · exact absurd ((congrArg Prod.fst heq).symm.trans hnone) hdropped.ne'
  -- the numbers increase, so the highest record is the last
  have hsorted : (before ++ m :: after).Pairwise (fun a b => a.event.seq < b.event.seq) := by
    have hlines := hrecords
    rw [hinv.toLogShape.lines_eq, compactRecords_eq hinv.sound] at hlines
    rw [← Except.ok.inj hlines, pairwise_map]
    exact hinv.sorted.imp fun h => by simpa [recordOf, c.redact_seq] using h
  obtain rfl : after = [] := eq_nil_iff_forall_not_mem.mpr fun a ha =>
    (hhighest.2 _ (mem_map_of_mem ha)).asymm
      (rel_of_pairwise_cons (pairwise_append.mp hsorted).2.1 ha)
  have hend : s.kept = (before.filter (fun r => !agedSkip keepAfter r.event) ++ [m]).map
      CompactRecord.line := by
    cases haged : agedSkip keepAfter m.event <;> simp [hkept, haged]
  rw [hend] at heq
  refine hinv.keepsLines hrecords (filter_sublist.append_right _)
    (fun last hl => ?_) heq hdropped.ne'
  simp at hl
  simp [hl]

theorem compactTickSkips_dir (unmarshal : Bytes → Option Event) (io : Install)
    (maxBytes keepAfter : Int) (d : InstanceDir) (l : InstanceLog) :
    (l.compactTickSkips unmarshal io maxBytes keepAfter d).2.1 = d ∨
      ∃ result compacted, dropTickSkipsBefore unmarshal d.log.data keepAfter =
          .ok (result, compacted) ∧ result.dropped > 0 ∧
        (l.compactTickSkips unmarshal io maxBytes keepAfter d).2.1 = d.advance compacted := by
  unfold InstanceLog.compactTickSkips
  split
  · exact .inl rfl
  split
  · exact .inl rfl
  split
  · exact .inl rfl
  rename_i result compacted hpass
  dsimp only
  have hinstalled : ∀ d' r, (if result.dropped > 0 then
      installCompactedGeneration d compacted io else (d, .ok ())) = (d', r) →
      d' = d ∨ result.dropped > 0 ∧ d' = d.advance compacted := by
    intro d' r heq
    split_ifs at heq with hdropped
    · have hinstall := install_dir d compacted io
      rw [heq] at hinstall
      exact hinstall.imp id fun h => ⟨hdropped, h⟩
    · injection heq with hd _
      exact .inl hd.symm
  split
  · rename_i d' e heq
    exact (hinstalled d' _ heq).imp id fun h => ⟨result, compacted, hpass, h.1, h.2⟩
  · rename_i d' heq
    exact (hinstalled d' _ heq).imp id fun h => ⟨result, compacted, hpass, h.1, h.2⟩

/-! ## Every run -/

def InstanceAction.keepsHighest (c : Codec) (w : InstanceWorld) : InstanceAction → Bool
  | .compact _ _ keepAfter keepRunStartsAfter =>
    Journal.keepsHighest c.unmarshal w.dir.log.data keepAfter keepRunStartsAfter
  | .compactInstanceEvents _ keepAfter keepRunStartsAfter dryRun =>
    dryRun || nothingCanAgeOut c.unmarshal w.dir.log.data keepAfter ||
      Journal.keepsHighest c.unmarshal w.dir.log.data keepAfter keepRunStartsAfter
  | _ => true

def runKeepsHighest (c : Codec) : InstanceWorld → List InstanceAction → Bool
  | _, [] => true
  | w, a :: actions => a.keepsHighest c w && runKeepsHighest c (w.step c a) actions

theorem step_compacts (hinv : SeqInv c w.dir.log kept synced torn)
    (hkeeps : keepsHighest c.unmarshal w.dir.log.data keepAfter keepRunStartsAfter = true)
    (h : d = w.dir ∨ ∃ result compacted,
      compactInstanceEventsData c.unmarshal w.dir.log.data keepAfter keepRunStartsAfter =
        .ok (result, compacted) ∧ result.dropped ≠ 0 ∧ d = w.dir.advance compacted) :
    d = w.dir ∨ KeepsLines w.dir d kept torn := by
  rcases h with h | ⟨result, compacted, hpass, hdropped, rfl⟩
  · exact .inl h
  · exact .inr (compactInstanceEventsData_keepsLines hinv hkeeps hpass hdropped)

/-- **What a step does to the log**: nothing, a write by one handle, a new generation or a crash. -/
theorem step_dir (hinv : SeqInv c w.dir.log kept synced torn) {a : InstanceAction}
    (hkeeps : a.keepsHighest c w = true) : (w.step c a).dir = w.dir ∨
      (∃ io now, a = .openLog io now ∧ (w.step c a).dir = (openInstanceLog c io now w.dir).1) ∨
      (∃ (handle : Nat) (repairWrite io : WriteOutcome) (now : Int) (ev : Event) (l : InstanceLog),
        a = .append handle repairWrite io now ev ∧
        (w.step c a).dir = (l.append c repairWrite io now w.dir ev).2.1) ∨
      KeepsLines w.dir (w.step c a).dir kept torn ∨
      ∃ n fill, a = .crash n fill ∧
        (w.step c a).dir = { w.dir with log := w.dir.log.crash n fill } := by
  cases a with
  | openLog io now =>
    refine .inr (.inl ⟨io, now, rfl, ?_⟩)
    unfold InstanceWorld.step
    dsimp only
    split
    all_goals
      rename_i heq
      rw [heq]
  | append handle repairWrite io now ev =>
    unfold InstanceWorld.step
    dsimp only
    cases w.handles[handle]? with
    | none => exact .inl rfl
    | some l => exact .inr (.inr (.inl ⟨handle, repairWrite, io, now, ev, l, rfl, rfl⟩))
  | compact handle io keepAfter keepRunStartsAfter =>
    unfold InstanceWorld.step
    dsimp only
    cases w.handles[handle]? with
    | none => exact .inl rfl
    | some l =>
      exact (step_compacts hinv hkeeps
        (compact_dir c.unmarshal io keepAfter keepRunStartsAfter w.dir l)).imp id
          fun h => .inr (.inr (.inl h))
  | compactTickSkips handle io maxBytes keepAfter =>
    unfold InstanceWorld.step
    dsimp only
    cases w.handles[handle]? with
    | none => exact .inl rfl
    | some l =>
      rcases compactTickSkips_dir c.unmarshal io maxBytes keepAfter w.dir l with
        h | ⟨result, compacted, hpass, hdropped, h⟩
      · exact .inl h
      · refine .inr (.inr (.inr (.inl ?_)))
        dsimp only
        rw [h]
        exact dropTickSkipsBefore_keepsLines hinv hpass hdropped
  | compactInstanceEvents io keepAfter keepRunStartsAfter dryRun =>
    rcases compactInstanceEvents_dir c.unmarshal io keepAfter keepRunStartsAfter dryRun w.dir with
      h | ⟨hdry, hfence, h⟩
    · exact .inl h
    · unfold InstanceAction.keepsHighest at hkeeps
      dsimp only at hkeeps
      rw [hdry, hfence] at hkeeps
      exact (step_compacts hinv hkeeps (.inr h)).imp id fun h => .inr (.inr (.inl h))
  | close handle =>
    left
    unfold InstanceWorld.step
    dsimp only
    cases w.handles[handle]? <;> rfl
  | crash n fill => exact .inr (.inr (.inr (.inr ⟨n, fill, rfl, rfl⟩)))

/-- Every action that keeps the highest number keeps the log in order. -/
theorem step_logOk (h : LogOk c w.dir.log) {a : InstanceAction}
    (hkeeps : a.keepsHighest c w = true) :
    LogOk c (w.step c a).dir.log := by
  obtain ⟨kept, synced, torn, hinv⟩ := h
  rcases step_dir hinv hkeeps with heq | ⟨io, now, -, heq⟩ |
    ⟨handle, repairWrite, io, now, ev, l, -, heq⟩ | hlines | ⟨n, fill, -, heq⟩
  · rw [heq]
    exact ⟨kept, synced, torn, hinv⟩
  · rw [heq]
    exact (openInstanceLog_grows hinv io now).logOk
  · rw [heq]
    exact (append_grows hinv repairWrite io now l ev).logOk
  · exact hlines.logOk hinv
  · rw [heq]
    exact hinv.crash n fill

theorem run_logOk (h : LogOk c w.dir.log) {actions : List InstanceAction}
    (hkeeps : runKeepsHighest c w actions = true) : LogOk c (w.run c actions).dir.log := by
  induction actions generalizing w with
  | nil => exact h
  | cons a actions ih =>
    unfold runKeepsHighest at hkeeps
    rw [Bool.and_eq_true] at hkeeps
    exact ih (step_logOk h hkeeps.1) hkeeps.2

/--
**Instance log numbers are not used twice.** Take any run of opens, appends, both
compaction passes, closes and crashes on an initially empty log, in which every
compaction finds its log's highest record to be one it keeps. Every line a write
was ever begun for, `repaired` events included, was stamped with a number above
those of all earlier successful appends, whether or not their records are still
there.
-/
theorem instance_seq_increases (c : Codec) (actions : List InstanceAction)
    (hkeeps : runKeepsHighest c {} actions = true) :
    (({} : InstanceWorld).run c actions).dir.log.written.Pairwise
      (fun earlier later => earlier.Succeeded → earlier.event.seq < later.event.seq) := by
  obtain ⟨kept, synced, torn, hinv⟩ := run_logOk logOk_init hkeeps
  exact hinv.increasing

/-- The only record ages out; the next handle starts over. -/
def reusedRun : List InstanceAction :=
  [.openLog .ok 1, .append 0 .ok .ok 2 { type := .tickSkipped }, .compact 0 .ok 10 0, .close 0,
   .openLog .ok 20, .append 1 .ok .ok 21 { type := .tickSkipped }]

theorem reusedRun_repeats :
    (({} : InstanceWorld).run textCodec reusedRun).dir.log.written.map
      (fun a => (decide a.Succeeded, a.event.seq)) = [(true, 1), (true, 1)] := by
  decide +kernel

/-- With a newer record in the log the numbers go on. -/
theorem keptRun_increases :
    let actions : List InstanceAction :=
      [.openLog .ok 1, .append 0 .ok .ok 2 { type := .tickSkipped },
       .append 0 .ok .ok 12 { type := .tickSkipped }, .compact 0 .ok 10 0, .close 0,
       .openLog .ok 20, .append 1 .ok .ok 21 { type := .tickSkipped }]
    runKeepsHighest textCodec {} actions = true ∧
      (({} : InstanceWorld).run textCodec actions).dir.log.written.Pairwise
        (fun earlier later => earlier.Succeeded → earlier.event.seq < later.event.seq) := by
  intro actions
  have hkeeps : runKeepsHighest textCodec {} actions = true := by decide +kernel
  exact ⟨hkeeps, instance_seq_increases textCodec actions hkeeps⟩

end Goobers.Journal
