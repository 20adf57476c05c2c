import Goobers.Journal.EventLog

/-!
# The shape of an event log

A log that only this package writes is the framed lines of some of the writes that
were begun, with increasing numbers, and then a torn tail without a newline. The
shape says nothing about which lines are kept, so it holds of a run's log, which
loses no line, and of the instance log, which is compacted.

Each way the file changes has one lemma: a line is written, a torn tail is cut, a
crash. `Synced` says how many of the lines a crash cannot take.
-/

namespace Goobers.Journal

open Lib List

variable {c : Codec}

variable {a : Attempt} {f : LogFile} {kept synced : List Attempt} {torn : Bytes}

/-! ## Reading a line back -/

theorem Attempt.Sound.decodeLine_eq (h : a.Sound c) :
    decodeLine c.unmarshal a.line = some (c.redact a.event) := by
  unfold decodeLine
  rw [h.object.cleanLine_eq, if_neg h.object.ne_nil, h.decode]

theorem Attempt.Sound.lineOk (h : a.Sound c) : LineOk c.unmarshal a.line := by
  refine ⟨h.short, Or.inr ⟨c.redact a.event, ?_⟩⟩
  rw [h.object.cleanLine_eq, h.decode]

/-! ## The file -/

/-- The log is the lines of these writes and a torn tail. -/
structure LogShape (c : Codec) (f : LogFile) (kept : List Attempt) (torn : Bytes) : Prop where
  data : f.data = frame newline (kept.map Attempt.line) ++ torn
  torn : newline ∉ torn
  sound : ∀ a ∈ kept, a.Sound c
  sorted : kept.Pairwise (fun a b => a.event.seq < b.event.seq)

/-- The lines of `synced` are on stable storage. -/
def Synced (f : LogFile) (synced : List Attempt) : Prop :=
  (frame newline (synced.map Attempt.line)).length ≤ f.durable

section
variable (h : LogShape c f kept torn)
include h

theorem LogShape.oneLine :
    ∀ l ∈ kept.map Attempt.line, newline ∉ l := by
  intro l hl
  obtain ⟨a, ha, rfl⟩ := mem_map.mp hl
  exact (h.sound a ha).object.oneLine

theorem LogShape.lines_eq :
    lines newline f.data = kept.map Attempt.line := by
  rw [h.data]
  exact lines_frame_append newline h.oneLine h.torn

theorem LogShape.tornTail_eq : tornTail newline f.data = torn := by
  rw [h.data]
  exact tornTail_frame_append newline _ h.torn

/-- The reader gets the events of the whole lines and the length of the torn tail. -/
theorem LogShape.readEvents_eq : readEvents c.unmarshal f.data
      = .ok (kept.map (fun a => c.redact a.event), torn.length) := by
  rw [readEvents_ok_iff, h.lines_eq, h.tornTail_eq]
  refine ⟨?_, ?_, ?_, rfl⟩
  · intro l hl
    obtain ⟨a, ha, rfl⟩ := mem_map.mp hl
    exact (h.sound a ha).lineOk
  · rw [filterMap_map]
    have hdec : ∀ a ∈ kept, (decodeLine c.unmarshal ∘ Attempt.line) a
        = some (c.redact a.event) := fun a ha => (h.sound a ha).decodeLine_eq
    rw [filterMap_congr hdec, ← filterMap_eq_map']
  · intro ev hev
    obtain ⟨a, ha, rfl⟩ := mem_map.mp hev
    rw [c.redact_schema]
    exact (h.sound a ha).schema

end

theorem logShape_init : LogShape c {} [] [] where
  data := rfl
  torn := by simp
  sound := by intro a ha; simp at ha
  sorted := List.Pairwise.nil

/-! ## The first lines of any log -/

/-- The log begins with the lines `ls`, whoever wrote them, and no crash can take them. -/
structure Stored (f : LogFile) (ls : List Bytes) : Prop where
  first : ls <+: lines newline f.data
  durable : (frame newline ls).length ≤ f.durable

section
variable {f : LogFile} {ls : List Bytes}

theorem Stored.frame_append (h : Stored f ls) : ∃ rest, f.data = frame newline ls ++ rest := by
  obtain ⟨more, hmore⟩ := h.first
  refine ⟨frame newline more ++ tornTail newline f.data, ?_⟩
  rw [← append_assoc, ← Lib.frame_append, hmore, frame_lines_append_tornTail]

theorem truncateTornTail_data (f : LogFile) :
    (truncateTornTail f (tornTail newline f.data).length).data =
      frame newline (lines newline f.data) := by
  have hsplit := frame_lines_append_tornTail newline f.data
  unfold truncateTornTail
  generalize frame newline (lines newline f.data) = whole at hsplit ⊢
  generalize tornTail newline f.data = torn at hsplit ⊢
  rw [← hsplit, length_append, Nat.add_sub_cancel]
  exact take_left

theorem truncateTornTail_lines (f : LogFile) :
    lines newline (truncateTornTail f (tornTail newline f.data).length).data =
      lines newline f.data := by
  rw [truncateTornTail_data, ← complete_eq_frame_lines, lines_complete]

theorem Stored.truncate (h : Stored f ls) :
    Stored (truncateTornTail f (tornTail newline f.data).length) ls := by
  refine ⟨(truncateTornTail_lines f).symm ▸ h.first, ?_⟩
  obtain ⟨more, hmore⟩ := h.first
  have hdurable := h.durable
  have hdata := congrArg length (truncateTornTail_data f)
  rw [← hmore, Lib.frame_append, length_append] at hdata
  show _ ≤ min f.durable (truncateTornTail f (tornTail newline f.data).length).data.length
  omega

theorem Stored.crash (h : Stored f ls) (n fill : Nat) :
    lines newline (f.crash n fill).data <+: lines newline f.data ∧ Stored (f.crash n fill) ls := by
  have hzero : newline ∉ replicate fill (0 : UInt8) := by
    intro hmem
    exact absurd (eq_of_mem_replicate hmem) (by decide)
  have hdata : frame newline ls <+: (f.crash n fill).data := by
    obtain ⟨rest, hrest⟩ := h.frame_append
    have hle := h.durable
    refine (prefix_take_iff.mpr ⟨⟨rest, hrest.symm⟩, ?_⟩).trans (prefix_append _ _)
    omega
  refine ⟨?_, ?_, hdata.length_le⟩
  · show lines newline (f.data.take (f.durable + n) ++ replicate fill 0) <+: _
    rw [lines_append_of_notMem newline hzero]
    exact lines_prefix newline (List.take_prefix _ _)
  · have hself := lines_frame_append newline
      (fun l hl => sep_notMem_of_mem_lines newline (h.first.subset hl)) (t := []) (by simp)
    rw [append_nil] at hself
    exact hself ▸ lines_prefix newline hdata

end

/-! ## A line is written -/

@[simp] theorem LogFile.write_written (f : LogFile) (a : Attempt) :
    (f.write a).written = f.written ++ [a] := by
  unfold LogFile.write
  cases a.outcome <;> rfl

theorem LogFile.write_data_of_whole (f : LogFile) (h : a.Whole) :
    (f.write a).data = f.data ++ (a.line ++ [newline]) := by
  unfold LogFile.write
  unfold Attempt.Whole at h
  cases hio : a.outcome with
  | ok => rfl
  | syncFails => rfl
  | stops n =>
    simp only [hio] at h ⊢
    rw [take_of_length_le (by simpa using h)]

theorem Attempt.Succeeded.whole (h : a.Succeeded) : a.Whole := by
  have hio : a.outcome = .ok := h
  unfold Attempt.Whole
  rw [hio]
  trivial

theorem LogFile.write_durable_of_succeeded (f : LogFile) (h : a.Succeeded) :
    (f.write a).durable = (f.write a).data.length := by
  have hio : a.outcome = .ok := h
  unfold LogFile.write
  simp [hio]

theorem LogFile.write_durable_of_failed (f : LogFile) (h : ¬ a.Succeeded) :
    (f.write a).durable = f.durable := by
  have hio : a.outcome ≠ .ok := h
  unfold LogFile.write
  cases hcase : a.outcome with
  | ok => exact absurd hcase hio
  | syncFails => rfl
  | stops n => rfl

theorem LogShape.write_whole (h : LogShape c f kept []) (ha : a.Sound c) (hw : a.Whole)
    (hseq : ∀ b ∈ kept, b.event.seq < a.event.seq) : LogShape c (f.write a) (kept ++ [a]) [] where
  data := by
    rw [f.write_data_of_whole hw, h.data]
    simp
  torn := by simp
  sound := forall_mem_append.mpr ⟨h.sound, forall_mem_singleton.mpr ha⟩
  sorted := by
    rw [pairwise_append]
    refine ⟨h.sorted, pairwise_singleton _ _, ?_⟩
    intro b hb d hd
    exact mem_singleton.mp hd ▸ hseq b hb

/-- A write that is cut leaves a torn tail, and no line. -/
theorem LogShape.write_torn (h : LogShape c f kept []) (ha : a.Sound c) (hw : ¬ a.Whole) :
    ∃ torn, LogShape c (f.write a) kept torn := by
  have hstop : ∃ n, a.outcome = .stops n ∧ n ≤ a.line.length := by
    unfold Attempt.Whole at hw
    cases hio : a.outcome with
    | ok | syncFails => simp [hio] at hw
    | stops n =>
      simp only [hio] at hw
      exact ⟨n, rfl, by omega⟩
  obtain ⟨n, hio, hn⟩ := hstop
  have hwrite : (f.write a).data = f.data ++ a.line.take n := by
    unfold LogFile.write
    simp only [hio]
    rw [take_append_of_le_length hn]
  refine ⟨a.line.take n, ?_, ?_, h.sound, h.sorted⟩
  · rw [hwrite, h.data, append_nil]
  · exact fun hmem => ha.object.oneLine (mem_of_mem_take hmem)

theorem LogFile.write_data (f : LogFile) (a : Attempt) :
    ∃ part, part <+: a.line ++ [newline] ∧ (f.write a).data = f.data ++ part := by
  unfold LogFile.write
  cases a.outcome with
  | ok | syncFails => exact ⟨_, prefix_refl _, rfl⟩
  | stops n => exact ⟨_, take_prefix _ _, rfl⟩

theorem Stored.write {ls : List Bytes} (h : Stored f ls) (a : Attempt) : Stored (f.write a) ls := by
  obtain ⟨part, -, hpart⟩ := f.write_data a
  have hfirst := lines_prefix newline ⟨part, hpart.symm⟩
  refine ⟨h.first.trans hfirst, ?_⟩
  by_cases hok : a.Succeeded
  · obtain ⟨rest, hrest⟩ := h.frame_append
    rw [f.write_durable_of_succeeded hok, hpart, hrest]
    simp only [length_append]
    omega
  · rw [f.write_durable_of_failed hok]
    exact h.durable

theorem Synced.stored (h : LogShape c f kept torn) (hs : Synced f synced) (hpre : synced <+: kept) :
    Stored f (synced.map Attempt.line) :=
  ⟨h.lines_eq ▸ hpre.map Attempt.line, hs⟩

theorem Synced.write (h : LogShape c f kept torn) (hs : Synced f synced) (hpre : synced <+: kept)
    (a : Attempt) : Synced (f.write a) synced :=
  ((hs.stored h hpre).write a).durable

theorem LogShape.synced_of_succeeded (h : LogShape c (f.write a) kept torn) (hok : a.Succeeded) :
    Synced (f.write a) kept := by
  unfold Synced
  rw [f.write_durable_of_succeeded hok, h.data, length_append]
  omega

/-! ## A torn tail is cut -/

theorem LogShape.truncate (h : LogShape c f kept torn) :
    LogShape c (truncateTornTail f torn.length) kept [] where
  data := by
    rw [← h.tornTail_eq, truncateTornTail_data, h.lines_eq, append_nil]
  torn := by simp
  sound := h.sound
  sorted := h.sorted

theorem Synced.truncate (h : LogShape c f kept torn) (hs : Synced f synced)
    (hpre : synced <+: kept) :
    Synced (truncateTornTail f torn.length) synced :=
  h.tornTail_eq ▸ (hs.stored h hpre).truncate.durable

/-! ## A crash -/

/-- A crash may take lines from the end, but none that was synced. -/
theorem LogShape.crash (h : LogShape c f kept torn) (hs : Synced f synced) (hpre : synced <+: kept)
    (n fill : Nat) :
    ∃ kept' torn', LogShape c (f.crash n fill) kept' torn' ∧ synced <+: kept' ∧ kept' <+: kept ∧
      Synced (f.crash n fill) kept' := by
  obtain ⟨hlines, hsynced, -⟩ := (hs.stored h hpre).crash n fill
  rw [h.lines_eq] at hlines
  have hdurable : (f.crash n fill).durable = (f.crash n fill).data.length := rfl
  generalize hdata : (f.crash n fill).data = data at hlines hsynced hdurable
  have hm : (kept.take (lines newline data).length).map Attempt.line = lines newline data := by
    rw [map_take]
    exact (prefix_iff_eq_take.mp hlines).symm
  have hcut : synced.length ≤ (lines newline data).length := by
    simpa using hsynced.length_le
  have hframe := frame_lines_append_tornTail newline data
  generalize (lines newline data).length = m at hm hcut
  refine ⟨kept.take m, tornTail newline data, ?_, ?_, take_prefix _ _, ?_⟩
  · refine ⟨?_, sep_notMem_tornTail newline data, ?_, ?_⟩
    · rw [hm, hdata, hframe]
    · exact fun a ha => h.sound a (mem_of_mem_take ha)
    · exact h.sorted.sublist (take_sublist _ _)
  · exact prefix_take_iff.mpr ⟨hpre, hcut⟩
  · unfold Synced
    rw [hm, hdurable]
    conv_rhs => rw [← hframe]
    rw [length_append]
    omega

end Goobers.Journal
