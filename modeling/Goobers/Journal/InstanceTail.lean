import Goobers.Journal.InstanceSequence
import Goobers.Journal.PhaseTail

/-!
# The live tail of the instance log

A tail reads what is appended after it was opened. It keeps the generation it has
open, how far it has read of it and the highest number it has taken. When the pointer
has moved it drains the old generation, which nobody writes any more, and goes on in
the new one behind the records it knows.

A poll is several reads, and writers may come in between; each read and each look at
the pointer is one step here. A poll that fails gives its caller nothing, but what it
had read by then stays read.
-/

namespace Goobers.Journal

open Lib List

/-- A reader's place: the generation, the offset and the last number. -/
structure InstanceLogTail where
  generation : Nat
  offset : Nat
  seq : Nat
  deriving DecidableEq, Repr

/-! ## Reading -/

section
variable (unmarshal : Bytes → Option Event)

def openInstanceLogTail (d : InstanceDir) : Option InstanceLogTail :=
  match tailSequence unmarshal d.log.data with
  | .found seq tornBytes => some ⟨d.generation, d.log.data.length - tornBytes, seq⟩
  | _ => none

def InstanceLogTail.accept (t : InstanceLogTail) (events : List Event) : InstanceLogTail :=
  { t with seq := events.foldl (fun seq ev => if seq < ev.seq then ev.seq else seq) t.seq }

def eventsAfter (records : List EventRecord) (seq : Nat) : List Event :=
  (records.map EventRecord.event).filter (fun ev => seq < ev.seq)

/-- What is new in the open generation. -/
def readCurrent (t : InstanceLogTail) (data : Bytes) :
    Except ReadError (InstanceLogTail × List Event) :=
  if data.length ≤ t.offset then .ok (t, [])
  else
    match parseEventRecords unmarshal (data.drop t.offset) with
    | .error e => .error e
    | .ok (records, tornBytes) =>
      let events := eventsAfter records t.seq
      let t := { t with offset := t.offset + ((data.length - t.offset) - tornBytes) }
      .ok (t.accept events, events)

/--
The loop of `readEventsAfterSeq`. The window is the file from a chunk's start to its
end, without its first line unless it begins the file; it grows until it shows a record
that is known already.
-/
def readAfterLoop (chunkSize : Nat) (data : Bytes) (seq start : Nat) :
    Except ReadError (List Event × Nat) :=
  let window := data.drop (start - chunkSize)
  if _h : 0 < chunkSize ∧ chunkSize < start then
    if newline ∉ window then readAfterLoop chunkSize data seq (start - chunkSize)
    else
      match parseEventRecords unmarshal (window.dropWhile (fun b => b ≠ newline)).tail with
      | .error e => .error e
      | .ok (records, tornBytes) =>
        let newer := records.rtakeWhile (fun r => seq < r.event.seq)
        if newer.length < records.length then
          .ok (eventsAfter newer seq, data.length - tornBytes)
        else readAfterLoop chunkSize data seq (start - chunkSize)
  else
    match parseEventRecords unmarshal data with
    | .error e => .error e
    | .ok (records, tornBytes) =>
      .ok (eventsAfter (records.rtakeWhile (fun r => seq < r.event.seq)) seq,
        data.length - tornBytes)
termination_by start
decreasing_by all_goals omega

/-- The events above a number, and where the complete lines end. -/
def readEventsAfterSeq (data : Bytes) (seq : Nat) : Except ReadError (List Event × Nat) :=
  if seq = 0 then
    match parseEventRecords unmarshal data with
    | .error e => .error e
    | .ok (records, tornBytes) => .ok (eventsAfter records seq, data.length - tornBytes)
  else readAfterLoop unmarshal tailChunkSize data seq data.length

end

/-! ## Polls and writers -/

/-- Where a poll stands. -/
inductive PollAt where
  /-- Before it reads the open generation; the second time to drain it. -/
  | readCurrent (drain : Bool)
  /-- Before it compares the pointer with the open generation. -/
  | resolve
  /-- Before it looks where the pointer points. -/
  | reopen
  /-- Before it reads the new generation. -/
  | readRotated (generation : Nat)
  deriving DecidableEq, Repr

structure Poll where
  at_ : PollAt := .readCurrent false
  events : List Event := []
  /-- Ghost: the events of the current generation when the poll began. -/
  started : List Event := []
  /-- Ghost: the tail had that generation open. -/
  caughtUp : Bool := true
  deriving DecidableEq, Repr

/-- The writer's world with a reader polling it. -/
structure TailWorld where
  world : InstanceWorld
  frozen : Nat → Bytes
  tail : InstanceLogTail
  poll : Option Poll := none
  delivered : List Event := []
  /--
  Ghost: what was in the current generation at a poll that succeeded. An event counts
  if it was there when the poll began, and either the tail had that generation open or
  the event was still there when the poll ended.
  -/
  seen : List Event := []

namespace TailWorld

def current (w : TailWorld) : Nat := w.world.dir.generation

/-- What the file of a generation holds. A file that was removed is still there for the tail. -/
def file (w : TailWorld) (generation : Nat) : Bytes :=
  if generation = w.current then w.world.dir.log.data else w.frozen generation

end TailWorld

inductive TailAction where
  /-- Any process does something to the log. -/
  | write (a : InstanceAction)
  | startPoll
  /-- The next read of the poll; it may fail. -/
  | pollStep (ok : Bool)
  deriving DecidableEq, Repr

section
variable (c : Codec)

namespace TailWorld

def events (w : TailWorld) (generation : Nat) : List Event :=
  loggedEvents c.unmarshal (w.file generation)

def write (w : TailWorld) (a : InstanceAction) : TailWorld :=
  { w with world := w.world.step c a, frozen := w.file }

def startPoll (w : TailWorld) : TailWorld :=
  match w.poll with
  | some _ => w
  | none =>
    let started := w.events c w.current
    { w with poll := some { started, caughtUp := w.tail.generation = w.current } }

def advancePoll (w : TailWorld) (p : Poll) : TailWorld :=
  match p.at_ with
  | .readCurrent drain =>
    match readCurrent c.unmarshal w.tail (w.file w.tail.generation) with
    | .error _ => { w with poll := none }
    | .ok (tail, events) =>
      let next := if drain then .reopen else .resolve
      { w with tail := tail, poll := some { p with at_ := next, events := p.events ++ events } }
  | .resolve =>
    if w.current = w.tail.generation then
      { w with
        poll := none
        delivered := w.delivered ++ p.events
        seen := w.seen ++
          p.started.filter (fun ev => p.caughtUp || decide (ev ∈ w.events c w.current)) }
    else { w with poll := some { p with at_ := .readCurrent true } }
  | .reopen => { w with poll := some { p with at_ := .readRotated w.current } }
  | .readRotated generation =>
    match readEventsAfterSeq c.unmarshal (w.file generation) w.tail.seq with
    | .error _ => { w with poll := none }
    | .ok (events, offset) =>
      let tail : InstanceLogTail := { w.tail with generation := generation, offset := offset }
      { w with
        tail := tail.accept events
        poll := some { p with at_ := .readCurrent false, events := p.events ++ events } }

def step (w : TailWorld) : TailAction → TailWorld
  | .write a => w.write c a
  | .startPoll => w.startPoll c
  | .pollStep ok =>
    match w.poll with
    | none => w
    | some p => if ok then w.advancePoll c p else { w with poll := none }

def run (w : TailWorld) (actions : List TailAction) : TailWorld := actions.foldl (step c) w

end TailWorld

end

/-! ## What a read returns -/

section
variable {unmarshal : Bytes → Option Event} {data : Bytes}

/-- A log that every read gets through. -/
structure Readable (unmarshal : Bytes → Option Event) (data : Bytes) : Prop where
  lineOk : ∀ l ∈ lines newline data, LineOk unmarshal l
  pos : ∀ ev ∈ loggedEvents unmarshal data, 0 < ev.seq
  increasing : Increasing Event.seq (loggedEvents unmarshal data)

theorem parseEventRecords_eq (h : ∀ l ∈ lines newline data, LineOk unmarshal l) :
    ∃ records, parseEventRecords unmarshal data = .ok (records, (tornTail newline data).length) ∧
      records.map EventRecord.event = loggedEvents unmarshal data := by
  obtain ⟨records, hscan⟩ : ∃ records, scanRecords unmarshal (lines newline data) = .ok records :=
    ⟨_, (scanRecords_ok_iff unmarshal).mpr ⟨h, rfl⟩⟩
  refine ⟨records, ?_, scanRecords_events unmarshal hscan⟩
  unfold parseEventRecords
  rw [lines_complete, hscan]

def eventsAbove (seq : Nat) (events : List Event) : List Event :=
  events.filter (fun ev => decide (seq < ev.seq))

theorem mem_eventsAbove {seq : Nat} {events : List Event} {ev : Event} :
    ev ∈ eventsAbove seq events ↔ ev ∈ events ∧ seq < ev.seq := by
  simp [eventsAbove]

theorem eventsAfter_eq (records : List EventRecord) (seq : Nat) :
    eventsAfter records seq = eventsAbove seq (records.map EventRecord.event) := rfl

/-- A suffix that reaches back to a known number has all of the newer events. -/
theorem eventsAbove_of_suffix {seq : Nat} {events shown : List Event}
    (hinc : Increasing Event.seq events) (hshown : shown <:+ events)
    (hknown : ∃ ev ∈ shown, ev.seq ≤ seq) : eventsAbove seq shown = eventsAbove seq events := by
  obtain ⟨front, rfl⟩ := hshown
  obtain ⟨known, hmem, hle⟩ := hknown
  have hfront : eventsAbove seq front = [] := by
    unfold eventsAbove
    rw [filter_eq_nil_iff]
    intro ev hev
    have hlt := (Increasing.append_iff.mp hinc).2.2 ev hev known hmem
    simp only [decide_eq_true_eq]
    omega
  unfold eventsAbove at hfront ⊢
  rw [filter_append, hfront, nil_append]

theorem eventsAfter_newer {records : List EventRecord} (seq : Nat)
    (hinc : Increasing Event.seq (records.map EventRecord.event)) :
    eventsAfter (records.rtakeWhile (fun r => seq < r.event.seq)) seq
      = eventsAbove seq (records.map EventRecord.event) := by
  have hrecords : Increasing (fun r : EventRecord => r.event.seq) records := by
    unfold Increasing at hinc ⊢
    rwa [pairwise_map] at hinc
  rw [hrecords.rtakeWhile_eq, eventsAfter_eq, eventsAbove, eventsAbove, filter_map, filter_map]
  simp [Function.comp_def]

section
variable (hline : ∀ l ∈ lines newline data, LineOk unmarshal l)
  (hinc : Increasing Event.seq (loggedEvents unmarshal data))
include hline hinc

/-- However large its chunks, the backward read finds all of the newer events. -/
theorem readAfterLoop_eq (chunkSize seq start : Nat) :
    readAfterLoop unmarshal chunkSize data seq start =
      .ok (eventsAbove seq (loggedEvents unmarshal data),
        data.length - (tornTail newline data).length) := by
  induction start using Nat.strong_induction_on with
  | _ start ih =>
    rw [readAfterLoop]
    split
    · have hnext := ih (start - chunkSize) (by omega)
      split
      · exact hnext
      rename_i hnl
      rw [not_not] at hnl
      obtain ⟨hlines, htorn⟩ := lines_tail_dropWhile newline hnl
      have hsuffix := window_lines_suffix newline data (start - chunkSize)
      rw [← hlines] at hsuffix
      obtain ⟨records, hparse, hevents⟩ :=
        parseEventRecords_eq (fun l hl => hline l (hsuffix.subset hl))
      have hshown : records.map EventRecord.event <:+ loggedEvents unmarshal data := by
        rw [hevents]
        exact hsuffix.filterMap _
      rw [hparse]
      dsimp only
      -- the window shows a known number, or the next one is wider
      split_ifs with hlen
      · have hknown : ∃ ev ∈ records.map EventRecord.event, ev.seq ≤ seq := by
          by_contra hnone
          simp only [not_exists, not_and, not_le] at hnone
          have hall : ∀ r ∈ records, decide (seq < r.event.seq) = true :=
            fun r hr => decide_eq_true (hnone _ (mem_map_of_mem hr))
          rw [rtakeWhile_eq_self_iff.mpr hall] at hlen
          exact Nat.lt_irrefl _ hlen
        rw [eventsAfter_newer seq (List.Pairwise.sublist hshown.sublist hinc),
          eventsAbove_of_suffix hinc hshown hknown, htorn, tornTail_drop newline hnl]
      · exact hnext
    · obtain ⟨records, hparse, hevents⟩ := parseEventRecords_eq hline
      rw [hparse]
      dsimp only
      rw [eventsAfter_newer seq (hevents ▸ hinc), hevents]

theorem readEventsAfterSeq_eq (seq : Nat) :
    readEventsAfterSeq unmarshal data seq =
      .ok (eventsAbove seq (loggedEvents unmarshal data),
        data.length - (tornTail newline data).length) := by
  unfold readEventsAfterSeq
  split
  · obtain ⟨records, hparse, hevents⟩ := parseEventRecords_eq hline
    rw [hparse]
    dsimp only
    rw [eventsAfter_eq, hevents]
  · exact readAfterLoop_eq hline hinc tailChunkSize seq data.length

end

/--
**A suffix read returns everything newer.** Of a log that the full reader accepts and whose
numbers increase, it returns the events of the full read above the number, in order, and the
place where the last complete line ends.
-/
theorem readEventsAfterSeq_newer {records : List EventRecord} {tornBytes : Nat}
    (hfull : parseEventRecords unmarshal data = .ok (records, tornBytes))
    (hinc : Increasing Event.seq (records.map EventRecord.event)) (seq : Nat) :
    readEventsAfterSeq unmarshal data seq =
      .ok ((records.map EventRecord.event).filter (fun ev => seq < ev.seq),
        (frame newline (lines newline data)).length) := by
  have hline : ∀ l ∈ lines newline data, LineOk unmarshal l := by
    unfold parseEventRecords at hfull
    rw [lines_complete] at hfull
    split at hfull
    · cases hfull
    · rename_i hscan
      exact ((scanRecords_ok_iff unmarshal).mp hscan).1
  obtain ⟨records', hparse, hevents⟩ := parseEventRecords_eq hline
  rw [hfull] at hparse
  cases hparse
  have hlength := congrArg length (frame_lines_append_tornTail newline data)
  rw [length_append] at hlength
  rw [readEventsAfterSeq_eq hline (hevents ▸ hinc) seq, ← hevents, ← hlength, Nat.add_sub_cancel]
  rfl

/-- Two skips and the beginning of a third. -/
def tornSkips : Bytes := frame newline [skipLine 1, skipLine 2] ++ (skipLine 3).take 7

theorem readEventsAfterSeq_torn : readEventsAfterSeq skipUnmarshal tornSkips 1 =
    .ok ([skipEvent 2], (frame newline [skipLine 1, skipLine 2]).length) := by
  have hfull : parseEventRecords skipUnmarshal tornSkips =
      .ok ([⟨skipEvent 1, skipLine 1⟩, ⟨skipEvent 2, skipLine 2⟩], 7) := by
    decide +kernel
  rw [readEventsAfterSeq_newer hfull (by unfold Increasing; decide +kernel) 1]
  decide +kernel

/--
The tail has read some of the lines of its file: those have numbers it knows, the rest
has higher ones.
-/
def Consumed (unmarshal : Bytes → Option Event) (t : InstanceLogTail) (data : Bytes) : Prop :=
  ∃ pre rest, lines newline data = pre ++ rest ∧ t.offset = (frame newline pre).length ∧
    (∀ ev ∈ pre.filterMap (decodeLine unmarshal), ev.seq ≤ t.seq) ∧
    (∀ ev ∈ rest.filterMap (decodeLine unmarshal), t.seq < ev.seq)

/-- The reader has everything the file holds. -/
structure Took (unmarshal : Bytes → Option Event) (t t' : InstanceLogTail) (data : Bytes)
    (events : List Event) : Prop where
  offset : t'.offset = data.length - (tornTail newline data).length
  takes : events = eventsAbove t.seq (loggedEvents unmarshal data)
  seq : t'.seq = max t.seq (lastValue Event.seq events)

theorem Took.le {t t' : InstanceLogTail} {events : List Event}
    (h : Took unmarshal t t' data events) (hread : Readable unmarshal data) :
    ∀ ev ∈ loggedEvents unmarshal data, ev.seq ≤ t'.seq := by
  intro ev hev
  have hseq := h.seq
  by_cases hknown : ev.seq ≤ t.seq
  · omega
  have hinc : Increasing Event.seq events := h.takes ▸ hread.increasing.filter _
  have hmem : ev ∈ events := by
    rw [h.takes, mem_eventsAbove]
    exact ⟨hev, by omega⟩
  have := hinc.le_lastValue ev hmem
  omega

theorem length_frame_lines (data : Bytes) : (frame newline (lines newline data)).length =
    data.length - (tornTail newline data).length := by
  have h := congrArg length (frame_lines_append_tornTail newline data)
  rw [length_append] at h
  omega

theorem Consumed.of_all {t : InstanceLogTail}
    (hoff : t.offset = data.length - (tornTail newline data).length)
    (hle : ∀ ev ∈ loggedEvents unmarshal data, ev.seq ≤ t.seq) : Consumed unmarshal t data := by
  refine ⟨lines newline data, [], (append_nil _).symm, ?_, hle, by simp⟩
  rw [hoff, length_frame_lines]

theorem drop_frame {pre rest : List Bytes} (h : lines newline data = pre ++ rest) :
    data.drop (frame newline pre).length = frame newline rest ++ tornTail newline data := by
  conv_lhs => rw [← frame_lines_append_tornTail newline data, h, frame_append, append_assoc]
  exact drop_left

/-- Reading on takes every event that was not taken yet. -/
theorem readCurrent_took {t : InstanceLogTail} (hread : Readable unmarshal data)
    (h : Consumed unmarshal t data) :
    ∃ t' events, readCurrent unmarshal t data = .ok (t', events) ∧
      t'.generation = t.generation ∧ Took unmarshal t t' data events := by
  obtain ⟨pre, rest, hlines, hoff, hpre, hrest⟩ := h
  have hevents : eventsAbove t.seq (loggedEvents unmarshal data)
      = rest.filterMap (decodeLine unmarshal) := by
    unfold eventsAbove loggedEvents
    rw [hlines, filterMap_append, filter_append]
    have hnone : (pre.filterMap (decodeLine unmarshal)).filter (fun ev => decide (t.seq < ev.seq))
        = [] := by
      rw [filter_eq_nil_iff]
      intro ev hev
      simpa using hpre ev hev
    rw [hnone, nil_append, filter_eq_self]
    intro ev hev
    simpa using hrest ev hev
  -- the offset is the end of a line, so what follows is framed like a log
  have hdrop := drop_frame hlines
  rw [← hoff] at hdrop
  have hlen := congrArg length hdrop
  rw [length_drop, length_append] at hlen
  unfold readCurrent
  split
  -- nothing new: the file has not grown past the offset
  · have hframe : (frame newline rest).length = 0 := by omega
    have hnil : rest = [] := by
      cases rest with
      | nil => rfl
      | cons l rest => simp at hframe
    refine ⟨t, [], rfl, rfl, ?_, ?_, ?_⟩
    · have := length_frame_lines data
      rw [hlines, hnil, append_nil, ← hoff] at this
      exact this
    · rw [hevents, hnil]
      rfl
    · simp
  · have hrestLines : lines newline (data.drop t.offset) = rest := by
      rw [hdrop]
      refine lines_frame_append newline (fun l hl => ?_) (sep_notMem_tornTail newline data)
      exact sep_notMem_of_mem_lines newline (hlines ▸ mem_append_right pre hl)
    have htorn : tornTail newline (data.drop t.offset) = tornTail newline data := by
      rw [hdrop]
      exact tornTail_frame_append newline _ (sep_notMem_tornTail newline data)
    have hok : ∀ l ∈ lines newline (data.drop t.offset), LineOk unmarshal l := by
      intro l hl
      rw [hrestLines] at hl
      exact hread.lineOk l (hlines ▸ mem_append_right pre hl)
    obtain ⟨records, hparse, hrecords⟩ := parseEventRecords_eq hok
    rw [hparse]
    have hnew : eventsAfter records t.seq = rest.filterMap (decodeLine unmarshal) := by
      rw [eventsAfter_eq, hrecords, loggedEvents, hrestLines]
      exact filter_eq_self.mpr fun ev hev => by simpa using hrest ev hev
    refine ⟨_, _, rfl, rfl, ?_, ?_, ?_⟩
    · show t.offset + _ = _
      rw [htorn]
      omega
    · rw [hnew, hevents]
    · have hinc : Increasing Event.seq (eventsAfter records t.seq) := by
        rw [hnew, ← hevents]
        exact hread.increasing.filter _
      exact hinc.foldl_max t.seq

end

end Goobers.Journal
