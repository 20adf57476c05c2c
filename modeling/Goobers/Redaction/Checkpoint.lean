import Mathlib.Data.List.Forall2
import Goobers.Lib.Cuts
import Goobers.Redaction.Registry
import Mathlib.Algebra.GroupWithZero.Nat

/-!
# Redaction of a stream

A capture is scrubbed while it is still coming in. Each stage keeps what it was given
until it is safe: the registry releases a prefix of it where no registered form is under
way. The cursors of the forms tell, and they start anew at each release.

What is released does not depend on how the stream was cut into deltas. It is the
longest prefix of the stream whose end no form can cross as seen from there. Later bytes
may show that an earlier place is not crossed after all; such a place is not used.
-/

namespace Goobers.Redaction

open Lib Lib.Utf8 Lib.Json List RegistryScrubber

/-! ## The cuts of the registry -/

structure CheckpointExactTarget where
  value : Bytes
  fail : List Nat
  cursor : Nat := 0
  deriving DecidableEq, Repr

def newCheckpointExactTarget (value : Bytes) : CheckpointExactTarget where
  value := value
  fail := failTable value

def CheckpointExactTarget.advance (t : CheckpointExactTarget) (b : UInt8) :
    CheckpointExactTarget :=
  { t with cursor := advanceCursor t.value t.fail t.cursor b }

/-- The state of the loop of `SafePrefix`. -/
structure PrefixScan where
  targets : List CheckpointExactTarget
  offset : Nat := 0
  safe : Nat := 0
  deriving DecidableEq, Repr

def PrefixScan.step (s : PrefixScan) (b : UInt8) : PrefixScan :=
  let targets := s.targets.map (fun t => t.advance b)
  let live := targets.any (fun t => t.cursor ≠ 0)
  { targets := targets, offset := s.offset + 1, safe := if live then s.safe else s.offset + 1 }

def RegistryScrubber.safePrefix (s : RegistryScrubber) (input : Bytes) : Nat :=
  (input.foldl PrefixScan.step { targets := s.redactionTargets.map newCheckpointExactTarget }).safe

/-! ## The stream -/

/-- A scrubber that can say how much of an input is safe. -/
structure CheckpointPrefixScrubber where
  scrub : Bytes → Bytes
  safePrefix : Bytes → Nat

structure CheckpointScrubStage where
  scrubber : CheckpointPrefixScrubber
  pending : Bytes := []
  /-- Ghost: the raw bytes this stage has released. -/
  released : Bytes := []

structure CheckpointScrubber where
  stages : List CheckpointScrubStage
  bytes : Nat := 0

def maxCheckpointScrubBytes : Nat := 16 * 2 ^ 20

inductive CheckpointError where
  | notInitialized
  | exceedsByteLimit
  deriving DecidableEq, Repr

def CheckpointScrubStage.take (stage : CheckpointScrubStage) (delta : Bytes) :
    CheckpointScrubStage × Bytes :=
  let pending := stage.pending ++ delta
  let boundary := stage.scrubber.safePrefix pending
  ({ stage with
      pending := pending.drop boundary
      released := stage.released ++ pending.take boundary },
    stage.scrubber.scrub (pending.take boundary))

def takeAll : List CheckpointScrubStage → Bytes → List CheckpointScrubStage × Bytes
  | [], delta => ([], delta)
  | stage :: stages, delta =>
    let (stage, delta) := stage.take delta
    let (stages, delta) := takeAll stages delta
    (stage :: stages, delta)

def CheckpointScrubber.scrubDelta (s : CheckpointScrubber) (delta : Bytes) :
    CheckpointScrubber × Except CheckpointError Bytes :=
  if s.stages.isEmpty then (s, .error .notInitialized)
  else if maxCheckpointScrubBytes - s.bytes < delta.length then (s, .error .exceedsByteLimit)
  else
    let (stages, out) := takeAll s.stages delta
    ({ stages := stages, bytes := s.bytes + delta.length }, .ok out)

def newCheckpointScrubber (r : RegistryScrubber) : CheckpointScrubber where
  stages := [{ scrubber := ⟨r.scrub, r.safePrefix⟩ }]

structure Capture where
  scrubber : CheckpointScrubber
  text : Bytes := []
  output : Bytes := []

def Capture.feed (s : Capture) (delta : Bytes) : Capture :=
  match s.scrubber.scrubDelta delta with
  | (scrubber, .error _) => { s with scrubber := scrubber }
  | (scrubber, .ok out) =>
    { scrubber := scrubber, text := s.text ++ delta, output := s.output ++ out }

def Capture.released (s : Capture) : Bytes :=
  match s.scrubber.stages with
  | [] => []
  | stage :: _ => stage.released

def capture (r : RegistryScrubber) (deltas : List Bytes) : Capture :=
  deltas.foldl Capture.feed { scrubber := newCheckpointScrubber r }

/-! ## What the scan finds -/

/-- The cursors and the last cut, for the bytes scanned so far. -/
structure ScanOk (words : List Bytes) (w : Bytes) (s : PrefixScan) : Prop where
  cursors : List.Forall₂ (fun v t => t.value = v ∧ t.fail = failTable v ∧ Cursor v w t.cursor)
    words s.targets
  offset : s.offset = w.length
  safe : LastCut words w s.safe

theorem ScanOk.init {words : List Bytes} (hne : ∀ v ∈ words, v ≠ []) :
    ScanOk words [] { targets := words.map newCheckpointExactTarget } where
  cursors := by
    rw [forall₂_map_right_iff]
    exact forall₂_same.mpr fun v hv => ⟨rfl, rfl, cursor_nil (hne v hv)⟩
  offset := rfl
  safe := ⟨Nat.le_refl 0, settled_nil, fun m hm _ => hm⟩

theorem live_iff {words : List Bytes} {w : Bytes} {targets : List CheckpointExactTarget}
    (h : List.Forall₂ (fun v t => t.value = v ∧ t.fail = failTable v ∧ Cursor v w t.cursor)
      words targets) :
    targets.any (fun t => t.cursor ≠ 0) = false ↔ Settled words w := by
  unfold Settled
  induction h with
  | nil => simp
  | @cons v t words targets hhead htail ih =>
    obtain ⟨-, -, hcursor⟩ := hhead
    simp only [any_cons, Bool.or_eq_false_iff, mem_cons, forall_eq_or_imp]
    rw [ih]
    refine and_congr_left fun _ => ?_
    rw [← hcursor.eq_zero_iff]
    simp

/-- One byte more: every cursor is the longest part of its value that ends there. -/
theorem ScanOk.step {words : List Bytes} {w : Bytes} {s : PrefixScan} (h : ScanOk words w s)
    (b : UInt8) : ScanOk words (w ++ [b]) (s.step b) := by
  have hcursors : List.Forall₂
      (fun v t => t.value = v ∧ t.fail = failTable v ∧ Cursor v (w ++ [b]) t.cursor)
      words (s.targets.map (fun t => t.advance b)) := by
    rw [forall₂_map_right_iff]
    refine h.cursors.imp ?_
    intro v t ⟨hvalue, hfail, hcursor⟩
    refine ⟨hvalue, hfail, ?_⟩
    show Cursor v (w ++ [b]) (advanceCursor t.value t.fail t.cursor b)
    rw [hvalue, hfail]
    exact advanceCursor_spec hcursor b
  have hlive := live_iff hcursors
  have hlen : (w ++ [b]).length = w.length + 1 := by simp
  have hwhole : (w ++ [b]).take (w.length + 1) = w ++ [b] := take_of_length_le (by omega)
  have hshort : ∀ m, m ≤ w.length → (w ++ [b]).take m = w.take m :=
    fun m hm => take_append_of_le_length hm
  have hoffset := h.offset
  obtain ⟨hle, hsettled, hgreatest⟩ := h.safe
  refine ⟨hcursors, by show s.offset + 1 = _; omega, ?_⟩
  unfold PrefixScan.step
  dsimp only
  rw [hoffset]
  split
  -- some value is half read: the last cut stays where it was
  · rename_i hany
    have hnot : ¬ Settled words (w ++ [b]) := by
      rw [← hlive]
      simp only [hany, Bool.true_eq_false, not_false_eq_true]
    refine ⟨by omega, hshort _ hle ▸ hsettled, ?_⟩
    intro m hm hm'
    by_cases hlast : m = w.length + 1
    · rw [hlast, hwhole] at hm'
      exact absurd hm' hnot
    · rw [hshort m (by omega)] at hm'
      exact hgreatest m (by omega) hm'
  -- nothing is half read: the cut moves to the end
  · rename_i hnone
    have hset : Settled words (w ++ [b]) := by
      rw [← hlive]
      simpa using hnone
    refine ⟨by omega, hwhole.symm ▸ hset, ?_⟩
    intro m hm _
    omega

theorem RegistryScrubber.safePrefix_spec (values : List Bytes) (text : Bytes) :
    LastCut (of values).redactionTargets text ((of values).safePrefix text) := by
  have hscan : ScanOk (of values).redactionTargets text (text.foldl PrefixScan.step
      { targets := (of values).redactionTargets.map newCheckpointExactTarget }) := by
    induction text using reverseRecOn with
    | nil => exact ScanOk.init (redactionTargets_ne_nil values)
    | append_singleton text b ih =>
      rw [foldl_append]
      exact ih.step b
  exact hscan.safe

/-! ## What the stream releases -/

/-- What was emitted and withheld, for the bytes fed so far. -/
structure CaptureOk (r : RegistryScrubber) (s : Capture) : Prop where
  stage : ∃ bytes, s.scrubber =
    { stages := [{ scrubber := ⟨r.scrub, r.safePrefix⟩,
                   pending := s.text.drop (r.safePrefix s.text),
                   released := s.text.take (r.safePrefix s.text) }],
      bytes := bytes }
  /-- What was put out is the redacted text up to the cut, whatever follows. -/
  output : (∀ v ∈ r.redactionTargets, ¬ Overlaps v redacted) →
    ∀ rest, r.scrub (s.text.take (r.safePrefix s.text) ++ rest) = s.output ++ r.scrub rest

theorem captureOk_init (values : List Bytes) :
    CaptureOk (of values)
      { scrubber := newCheckpointScrubber (of values) } where
  stage := ⟨0, rfl⟩
  output := fun _ _ => rfl

theorem scrubDelta_single (stage : CheckpointScrubStage) (bytes : Nat) (delta : Bytes) :
    CheckpointScrubber.scrubDelta { stages := [stage], bytes := bytes } delta =
      if maxCheckpointScrubBytes - bytes < delta.length then
        ({ stages := [stage], bytes := bytes }, .error .exceedsByteLimit)
      else
        ({ stages := [(stage.take delta).1], bytes := bytes + delta.length },
          .ok (stage.take delta).2) :=
  rfl

/-- **Scanning what is pending anew finds the cut of the whole text.** -/
theorem RegistryScrubber.safePrefix_append (values : List Bytes) (text delta : Bytes) :
    let r := of values
    let pending := text.drop (r.safePrefix text) ++ delta
    (text ++ delta).take (r.safePrefix (text ++ delta)) =
        text.take (r.safePrefix text) ++ pending.take (r.safePrefix pending) ∧
      (text ++ delta).drop (r.safePrefix (text ++ delta)) =
        pending.drop (r.safePrefix pending) := by
  intro r pending
  have hcut : LastCut r.redactionTargets text (r.safePrefix text) := safePrefix_spec values text
  have htext : text ++ delta = text.take (r.safePrefix text) ++ pending := by
    rw [← append_assoc, take_append_drop]
  have hsafe : r.safePrefix (text ++ delta) =
      (text.take (r.safePrefix text)).length + r.safePrefix pending := by
    have hwhole := (safePrefix_spec values pending).append hcut.settled
    rw [← htext] at hwhole
    exact (safePrefix_spec values (text ++ delta)).unique hwhole
  rw [hsafe]
  constructor
  · rw [htext, take_length_add_append]
  · rw [htext, drop_length_add_append]

/-- A capture fed in pieces withholds what could still become a value. -/
theorem CaptureOk.feed {values : List Bytes} {s : Capture}
    (h : CaptureOk (of values) s) (delta : Bytes) :
    CaptureOk (of values) (s.feed delta) := by
  obtain ⟨bytes, hstage⟩ := h.stage
  unfold Capture.feed
  rw [hstage, scrubDelta_single]
  split_ifs with hlimit
  · exact ⟨⟨bytes, rfl⟩, h.output⟩
  · obtain ⟨htake, hdrop⟩ := safePrefix_append values s.text delta
    refine ⟨⟨bytes + delta.length, ?_⟩, ?_⟩
    · rw [htake, hdrop]
      rfl
    · intro hfree rest
      have hnext := safePrefix_spec values
        (s.text.drop ((of values).safePrefix s.text) ++ delta)
      have hout := h.output hfree
      rw [htake, append_assoc, hout, append_assoc]
      congr 1
      exact replaceEach_append (redactionTargets_ne_nil values) hfree
        fun v hv => hnext.settled.not_straddles hv rest

theorem captureOk (values deltas : List Bytes) :
    CaptureOk (of values) (capture (of values) deltas) := by
  unfold capture
  induction deltas using reverseRecOn with
  | nil => exact captureOk_init values
  | append_singleton deltas delta ih =>
    rw [foldl_append]
    exact ih.feed delta

/--
**Redaction of a stream does not depend on its cuts.** For any values registered and any
deltas, let `text` be what was accepted of them. The raw bytes released are the first
`SafePrefix text` bytes of it. That is the longest prefix of the text whose end no
occurrence of a registered form can cross in any continuation of the prefix, so none
crosses it in a continuation of the text either. If no form can overlap the placeholder,
what was put out is a prefix of the redaction of the text with any continuation.
-/
theorem scrubDelta_cut_independent (values deltas : List Bytes) :
    let r := RegistryScrubber.of values
    let s := capture r deltas
    s.released = s.text.take (r.safePrefix s.text) ∧
      (r.safePrefix s.text ≤ s.text.length ∧
        (∀ v ∈ r.redactionTargets, ∀ next,
          ¬ Crosses v (s.text.take (r.safePrefix s.text) ++ next) (r.safePrefix s.text)) ∧
        ∀ k ≤ s.text.length, (∀ v ∈ r.redactionTargets, ∀ next,
          ¬ Crosses v (s.text.take k ++ next) k) → k ≤ r.safePrefix s.text) ∧
      (∀ v ∈ r.redactionTargets, ∀ next, ¬ Crosses v (s.text ++ next) (r.safePrefix s.text)) ∧
      ((∀ v ∈ r.redactionTargets, ¬ Overlaps v redacted) →
        ∀ next, s.output <+: r.scrub (s.text ++ next)) := by
  intro r s
  obtain ⟨⟨bytes, hstage⟩, hout⟩ := captureOk values deltas
  have hcut : LastCut r.redactionTargets s.text (r.safePrefix s.text) :=
    safePrefix_spec values s.text
  -- a settled prefix, said with occurrences
  have hsettled : ∀ k ≤ s.text.length, Settled r.redactionTargets (s.text.take k) ↔
      ∀ v ∈ r.redactionTargets, ∀ next, ¬ Crosses v (s.text.take k ++ next) k := by
    intro k hk
    have hlen : (s.text.take k).length = k := by
      rw [length_take]
      exact Nat.min_eq_left hk
    rw [settled_iff, hlen]
  have hnone := (hsettled _ hcut.le).mp hcut.settled
  refine ⟨?_, ⟨hcut.le, hnone, ?_⟩, ?_, ?_⟩
  · unfold Capture.released
    rw [hstage]
  · intro k hk hfree
    exact hcut.greatest k hk ((hsettled k hk).mpr hfree)
  · intro v hv next hcross
    refine hnone v hv (s.text.drop (r.safePrefix s.text) ++ next) ?_
    rwa [← append_assoc, take_append_drop]
  · intro hfree next
    have hsplit := hout hfree (s.text.drop (r.safePrefix s.text) ++ next)
    rw [← append_assoc, take_append_drop] at hsplit
    rw [hsplit]
    exact prefix_append _ _

/-- One value of a text where a place turns out not to be crossed. -/
def ababac : Bytes := ascii "ababac"

/--
**The place after the first two bytes is not used.** `ababac` is under way there, and
again after each later byte of `ababab`, so nothing is released. But no occurrence crosses
that place in any continuation of the text.
-/
theorem ababab_not_released :
    let r := RegistryScrubber.of [ababac]
    let s := capture r [ascii "ababab"]
    s.text = ascii "ababab" ∧ s.released = [] ∧ r.safePrefix s.text = 0 ∧
      ∀ v ∈ r.redactionTargets, ∀ next, ¬ Crosses v (s.text ++ next) 2 := by
  intro r s
  have htargets : r.redactionTargets = [ababac] := by decide +kernel
  have htext : s.text = ascii "ababab" := by decide +kernel
  refine ⟨htext, by decide +kernel, by decide +kernel, ?_⟩
  rw [htargets, htext]
  intro v hv next ⟨before, after, heq, hlow, hhigh⟩
  obtain rfl := mem_singleton.mp hv
  -- the occurrence begins at the first or at the second byte, and neither fits
  have hbyte : ∀ i : Nat, (ascii "ababab" ++ next)[i]? = (before ++ ababac ++ after)[i]? :=
    fun i => by rw [heq]
  match before, hlow with
  | [], _ =>
    have hfifth : some (0x62 : UInt8) = some 0x63 := hbyte 5
    cases hfifth
  | [_], _ =>
    have hfirst : some (0x62 : UInt8) = some 0x61 := hbyte 1
    cases hfirst
  | _ :: _ :: _, hlow => exact absurd hlow (by simp)

/-- A value that the deltas cut, and another one under way at the end. -/
theorem token_cut_independent :
    let r := RegistryScrubber.of [ascii "s3cr3t"]
    let s := capture r [ascii "a s3", ascii "cr3t!", ascii " s3c"]
    (s.output = ascii "a [REDACTED]! " ∧ r.safePrefix s.text = 10) ∧
      ∀ next, s.output <+: r.scrub (s.text ++ next) := by
  intro r s
  have htargets : r.redactionTargets = [ascii "s3cr3t"] := by decide +kernel
  have hfree : ∀ v ∈ r.redactionTargets, ¬ Overlaps v redacted := by
    rw [htargets]
    intro v hv
    rw [mem_singleton.mp hv]
    exact not_overlaps_of_disjoint (by decide) (by decide) (by decide +kernel)
  refine ⟨by decide +kernel, ?_⟩
  exact (scrubDelta_cut_independent [ascii "s3cr3t"]
    [ascii "a s3", ascii "cr3t!", ascii " s3c"]).2.2.2 hfree

end Goobers.Redaction
