import Goobers.Journal.Run
import Goobers.Journal.LogShape
import Goobers.Journal.TextCodec

/-!
# The event log survives crashes

The writes a run's log keeps are in the order they were begun, every one that
returned success is among them, and they lie in the durable prefix, so a crash can
only drop lines whose append never returned success. A handle that is not blocked
stands on a clean boundary, with a counter at or above every number in the file.

`LogInv` is the part about the file, `WorldInv` adds the handle.
-/

namespace Goobers.Journal

open Lib List

variable {c : Codec}

variable {f : LogFile} {kept : List Attempt} {torn : Bytes} {r : Run} {now : Int}
  {io : WriteOutcome} {w : World}

/-! ## The file -/

/-- The log's shape, with the writes that are in it. -/
structure LogInv (c : Codec) (f : LogFile) (kept : List Attempt) (torn : Bytes) : Prop
    extends LogShape c f kept torn where
  /-- The lines kept are writes that were begun, in the order they were begun. -/
  sub : kept.Sublist f.written
  whole : ∀ a ∈ kept, a.Whole
  /-- No success is lost, and none is counted twice. -/
  succeeded : kept.filter (fun a => a.Succeeded) = f.written.filter (fun a => a.Succeeded)
  /-- Past the durable prefix there are no successes. -/
  durable : ∃ synced pending, kept = synced ++ pending ∧ Synced f synced ∧
    ∀ a ∈ pending, ¬ a.Succeeded

theorem logInv_init : LogInv c {} [] [] where
  toLogShape := logShape_init
  sub := List.Sublist.slnil
  whole := by intro a ha; simp at ha
  succeeded := rfl
  durable := ⟨[], [], rfl, by simp [Synced], by simp⟩

theorem LogInv.write_whole (h : LogInv c f kept []) {a : Attempt} (ha : a.Sound c) (hw : a.Whole)
    (hseq : ∀ b ∈ kept, b.event.seq < a.event.seq) : LogInv c (f.write a) (kept ++ [a]) [] where
  toLogShape := h.toLogShape.write_whole ha hw hseq
  sub := by
    rw [f.write_written]
    exact h.sub.append (List.Sublist.refl [a])
  whole := forall_mem_append.mpr ⟨h.whole, forall_mem_singleton.mpr hw⟩
  succeeded := by
    rw [f.write_written, filter_append, filter_append, h.succeeded]
  durable := by
    by_cases hok : a.Succeeded
    · -- the fsync made everything before it durable as well
      refine ⟨kept ++ [a], [], by simp, ?_, by simp⟩
      exact (h.toLogShape.write_whole ha hw hseq).synced_of_succeeded hok
    · obtain ⟨synced, pending, hsplit, hsync, hpend⟩ := h.durable
      refine ⟨synced, pending ++ [a], by rw [hsplit, append_assoc], ?_, ?_⟩
      · exact hsync.write h.toLogShape ⟨pending, hsplit.symm⟩ a
      · exact forall_mem_append.mpr ⟨hpend, forall_mem_singleton.mpr hok⟩

theorem LogInv.write_torn (h : LogInv c f kept []) {a : Attempt} (ha : a.Sound c) (hw : ¬ a.Whole) :
    ∃ torn, LogInv c (f.write a) kept torn := by
  obtain ⟨torn, hshape⟩ := h.toLogShape.write_torn ha hw
  obtain ⟨synced, pending, hsplit, hsync, hpend⟩ := h.durable
  have hfail : ¬ a.Succeeded := fun hok => hw (Attempt.Succeeded.whole hok)
  refine ⟨torn, hshape, ?_, h.whole, ?_, synced, pending, hsplit, ?_, hpend⟩
  · rw [f.write_written]
    exact h.sub.trans (sublist_append_left _ _)
  · rw [f.write_written, filter_append, ← h.succeeded]
    simp [hfail]
  · exact hsync.write h.toLogShape ⟨pending, hsplit.symm⟩ a

theorem LogInv.truncate (h : LogInv c f kept torn) :
    LogInv c (truncateTornTail f torn.length) kept [] where
  toLogShape := h.toLogShape.truncate
  sub := h.sub
  whole := h.whole
  succeeded := h.succeeded
  durable := by
    obtain ⟨synced, pending, hsplit, hsync, hpend⟩ := h.durable
    exact ⟨synced, pending, hsplit, hsync.truncate h.toLogShape ⟨pending, hsplit.symm⟩, hpend⟩

/-- A crash leaves some of the lines and a torn tail. -/
theorem LogInv.crash (h : LogInv c f kept torn) (n fill : Nat) :
    ∃ kept' torn', LogInv c (f.crash n fill) kept' torn' := by
  obtain ⟨synced, pending, hsplit, hsync, hpend⟩ := h.durable
  obtain ⟨kept', torn', hshape, ⟨more, hmore⟩, ⟨rest, hrest⟩, hsync'⟩ :=
    h.toLogShape.crash hsync ⟨pending, hsplit.symm⟩ n fill
  -- what is lost comes after the synced lines
  have hlost : ∀ a ∈ rest, ¬ a.Succeeded := by
    intro a ha
    rw [hsplit, ← hmore, append_assoc, append_cancel_left_eq] at hrest
    exact hpend a (hrest ▸ mem_append_right more ha)
  have hnone : rest.filter (fun a => a.Succeeded) = [] := by
    rw [filter_eq_nil_iff]
    intro a ha
    simpa using hlost a ha
  have hsub : kept'.Sublist kept := hrest ▸ sublist_append_left kept' rest
  refine ⟨kept', torn', hshape, hsub.trans h.sub, ?_, ?_, kept', [], by simp, hsync', by simp⟩
  · exact fun a ha => h.whole a (hsub.subset ha)
  · show kept'.filter _ = f.written.filter _
    rw [← h.succeeded, ← hrest, filter_append, hnone, append_nil]

/-! ## The handle -/

/-- A handle that may append stands on a clean boundary, above every number in the file. -/
def Ready (kept : List Attempt) (torn : Bytes) (r : Run) : Prop :=
  r.appendErr = false → torn = [] ∧ ∀ a ∈ kept, a.event.seq ≤ r.seq

/-- The log under a handle that may append. -/
def HandleInv (c : Codec) (f : LogFile) (r : Run) : Prop :=
  ∃ kept torn, LogInv c f kept torn ∧ Ready kept torn r

/-- The file is well formed, and a live handle is in step with it. -/
def WorldInv (c : Codec) (w : World) : Prop :=
  ∃ kept torn, LogInv c w.dir.log kept torn ∧ ∀ r, w.handle = some r → Ready kept torn r

theorem clear_of_refusal {ev : Event} (h : r.refusal c now f ev = none) : r.appendErr = false := by
  unfold Run.refusal at h
  split at h
  · cases h
  · rename_i hb
    simpa using hb

/--
**Everything an append can do to a well-formed log**: fail and keep no new line, or keep
the whole line of its event on a clean boundary. Only the first can be told from the
result alone: a line whose fsync failed is kept too.
-/
theorem append_kept (hlog : LogInv c f kept torn) (hready : Ready kept torn r) (io : WriteOutcome)
    (now : Int) (ev : Event) : (∃ e torn', (r.append c io now f ev).2.2 = .error e ∧
        LogInv c (r.append c io now f ev).2.1 kept torn' ∧
        Ready kept torn' (r.append c io now f ev).1) ∨
      ∃ a : Attempt, a.event = r.stamped now ev ∧
        (c.marshalEvent a.event).map c.scrub = some a.line ∧ a.outcome = io ∧ a.Whole ∧
        ((r.append c io now f ev).2.2 = .ok () ↔ io = .ok) ∧
        (r.append c io now f ev).1 = { r with seq := r.seq + 1, appendErr := decide (io ≠ .ok) } ∧
        LogInv c f kept [] ∧ r.appendErr = false ∧
        LogInv c (r.append c io now f ev).2.1 (kept ++ [a]) [] ∧
        ∀ b ∈ kept ++ [a], b.event.seq ≤ r.seq + 1 := by
  unfold Run.append Run.stamped
  cases href : r.refusal c now f ev with
  | some e => exact Or.inl ⟨e, torn, rfl, hlog, hready⟩
  | none =>
    have hclear := clear_of_refusal href
    obtain ⟨rfl, hle⟩ := hready hclear
    dsimp only
    generalize (if ev.branch = 0 then { ev with branch := r.branch } else ev) = ev'
    rcases appendEvent_cases c io now f r.seq ev' with ⟨e, heq⟩ | ⟨a, ha, hev, hio, heq⟩
    · rw [heq]
      exact Or.inl ⟨e, [], rfl, hlog, fun hb => absurd hb (by simp)⟩
    rw [heq]
    have hnum : a.event.seq = r.seq + 1 := by rw [hev, stampEvent_seq]
    have hline := ha.marshal
    have hlt : ∀ b ∈ kept, b.event.seq < a.event.seq := by
      intro b hb
      have := hle b hb
      omega
    by_cases hw : a.Whole
    · have hlog' := hlog.write_whole ha hw hlt
      have hbound : ∀ b ∈ kept ++ [a], b.event.seq ≤ r.seq + 1 := by
        intro b hb
        rcases mem_append.mp hb with hb | hb
        · have := hle b hb
          omega
        · rw [mem_singleton.mp hb, hnum]
      right
      cases io with
      | ok =>
        exact ⟨a, hev, hline, hio, hw, by simp [writeResult], by simp [writeResult, hclear],
          hlog, hclear, hlog', hbound⟩
      | syncFails | stops n =>
        exact ⟨a, hev, hline, hio, hw, by simp [writeResult], rfl, hlog, hclear, hlog',
          hbound⟩
    · -- a write that stopped inside the line also blocked the handle
      obtain ⟨torn', hlog'⟩ := hlog.write_torn ha hw
      cases io with
      | ok | syncFails => simp [Attempt.Whole, hio] at hw
      | stops n =>
        exact Or.inl ⟨.write, torn', rfl, hlog', fun hb => absurd hb (by simp [writeResult])⟩

theorem handleInv_append (h : HandleInv c f r) (io : WriteOutcome) (now : Int) (ev : Event) :
    HandleInv c (r.append c io now f ev).2.1 (r.append c io now f ev).1 := by
  obtain ⟨kept, torn, hlog, hready⟩ := h
  rcases append_kept hlog hready io now ev with
    ⟨e, torn', -, hlog', hready'⟩ | ⟨a, -, -, -, -, -, hrun, -, -, hlog', hbound⟩
  · exact ⟨kept, torn', hlog', hready'⟩
  · refine ⟨kept ++ [a], [], hlog', fun _ => ⟨rfl, ?_⟩⟩
    rw [hrun]
    exact hbound

theorem append_ok_clear {ev : Event} (h : (r.append c io now f ev).2.2 = .ok ()) :
    (r.append c io now f ev).1.appendErr = false := by
  unfold Run.append at h ⊢
  cases href : r.refusal c now f ev with
  | some e => rw [href] at h; cases h
  | none =>
    have hclear := clear_of_refusal href
    rw [href] at h
    dsimp only at h ⊢
    split at h
    · cases h
    · exact hclear

theorem HandleInv.clean (h : HandleInv c f r) (hclear : r.appendErr = false) :
    ∃ kept, LogInv c f kept [] := by
  obtain ⟨kept, torn, hlog, hready⟩ := h
  obtain ⟨rfl, _⟩ := hready hclear
  exact ⟨kept, hlog⟩

theorem handleInv_truncate (h : LogInv c f kept torn)
    (hseq : r.seq = highestEventSeq (kept.map (fun a => c.redact a.event))) :
    HandleInv c (truncateTornTail f torn.length) r := by
  refine ⟨kept, [], h.truncate, fun _ => ⟨rfl, ?_⟩⟩
  intro a ha
  rw [hseq, ← c.redact_seq]
  exact le_highestEventSeq (mem_map_of_mem ha)

theorem handleInv_repair (h : LogInv c f kept torn) (io : WriteOutcome) (now : Int) (r : Run) :
    HandleInv c (r.repairAppendBoundary c io now f).2.1 (r.repairAppendBoundary c io now f).1 ∧
      ((r.repairAppendBoundary c io now f).2.2 = .ok () →
        (r.repairAppendBoundary c io now f).1.appendErr = false) := by
  unfold Run.repairAppendBoundary
  rw [h.readEvents_eq]
  dsimp only
  generalize hr : ({ r with seq := highestEventSeq (kept.map (fun a => c.redact a.event)),
                            appendErr := false } : Run) = r'
  have hinv : HandleInv c (truncateTornTail f torn.length) r' :=
    handleInv_truncate h (by rw [← hr])
  split
  · exact ⟨hinv, fun _ => by rw [← hr]⟩
  · exact ⟨handleInv_append hinv io now _, append_ok_clear⟩

/-- Reopening keeps the log well formed; only a handle it returns need be in step with it. -/
theorem handleInv_reopen {d : RunDir} (h : LogInv c d.log kept torn) (io : WriteOutcome)
    (now : Int) :
    let res := reopen c io now d (kept.map (fun a => c.redact a.event)) torn.length
    (∃ kept' torn', LogInv c res.1.log kept' torn') ∧
      ∀ r, res.2 = .ok r → HandleInv c res.1.log r ∧ r.appendErr = false := by
  dsimp only [reopen]
  generalize hr : recoveredRun (kept.map (fun a => c.redact a.event)) d.state = r'
  have hinv : HandleInv c (truncateTornTail d.log torn.length) r' :=
    handleInv_truncate h (by rw [← hr]; rfl)
  have hopen : r'.appendErr = false := by rw [← hr]; rfl
  split
  · split
    · refine ⟨⟨kept, [], h.truncate⟩, ?_⟩
      intro r hok
      injection hok with hok
      exact hok ▸ ⟨hinv, hopen⟩
    · refine ⟨⟨kept, [], h.truncate⟩, ?_⟩
      intro r hok
      injection hok with hok
      exact hok ▸ ⟨hinv, hopen⟩
  · have happ := handleInv_append hinv io now (repairedEvent torn.length)
    split
    · rename_i heq
      rw [heq] at happ
      obtain ⟨kept', torn', hlog', _⟩ := happ
      exact ⟨⟨kept', torn', hlog'⟩, nofun⟩
    · rename_i r'' log heq
      have hclear : (r'.append c io now (truncateTornTail d.log torn.length)
          (repairedEvent torn.length)).1.appendErr = false := append_ok_clear (by rw [heq])
      rw [heq] at happ hclear
      refine ⟨?_, ?_⟩
      · obtain ⟨kept', torn', hlog', _⟩ := happ
        exact ⟨kept', torn', hlog'⟩
      · intro r hok
        injection hok with hok
        exact hok ▸ ⟨happ, hclear⟩

theorem handleInv_recover {d : RunDir} (h : LogInv c d.log kept torn) (io : WriteOutcome)
    (now : Int) (leftovers : Leftovers) :
    (∃ kept' torn', LogInv c (recover c io now d leftovers).1.log kept' torn') ∧
      ∀ r, (recover c io now d leftovers).2 = .ok r →
        HandleInv c (recover c io now d leftovers).1.log r ∧ r.appendErr = false := by
  obtain ⟨hdir, hres⟩ := recover_of_read h.readEvents_eq io now leftovers
  obtain ⟨hlog, hrun⟩ := handleInv_reopen h io now
  rw [hdir]
  exact ⟨hlog, fun r hok => hrun r ((hres r).mp hok).1⟩

/-! ## What a restore adds -/

/-- `f'` has the lines of `f` and then records of repairs, each with the property `P`. -/
structure RepairsOf (c : Codec) (P : Event → Prop) (f f' : LogFile) : Prop where
  added : ∃ added : List Attempt, lines newline f'.data =
    lines newline f.data ++ added.map Attempt.line ∧
      ∀ a ∈ added, a.Sound c ∧ P a.event
  stored : ∀ ls, Stored f ls → Stored f' ls

section
variable {f f' : LogFile} {P : Event → Prop}

theorem RepairsOf.refl (f : LogFile) : RepairsOf c P f f := ⟨⟨[], by simp, by simp⟩, fun _ h => h⟩

theorem RepairsOf.of_truncate
    (h : RepairsOf c P (truncateTornTail f (tornTail newline f.data).length) f') :
    RepairsOf c P f f' :=
  ⟨truncateTornTail_lines f ▸ h.added, fun ls hls => h.stored ls hls.truncate⟩

theorem repairsOf_write (hclean : tornTail newline f.data = []) {a : Attempt} (ha : a.Sound c)
    (hP : P a.event) : RepairsOf c P f (f.write a) := by
  refine ⟨?_, fun ls hls => hls.write a⟩
  obtain ⟨part, hpart, hdata⟩ := f.write_data a
  have hone : lines newline part <+: [a.line] := by
    have hline := lines_line_append newline ha.object.oneLine []
    exact hline ▸ lines_prefix newline hpart
  rw [hdata, lines_append, hclean]
  cases hcase : lines newline part with
  | nil => exact ⟨[], by simp, by simp⟩
  | cons l ls =>
    rw [hcase] at hone
    obtain ⟨rfl, hnil⟩ := cons_prefix_cons.mp hone
    obtain rfl := prefix_nil.mp hnil
    exact ⟨[a], by simp, fun b hb => mem_singleton.mp hb ▸ ⟨ha, hP⟩⟩

/-- The record of a repair, if it can be formed, is one with the property `P`. -/
def RecordedWith (c : TextLayer) (P : Event → Prop) (r : Run) (now : Int) (n : Nat) : Prop :=
  (c.marshalEvent (r.stamped now (repairedEvent n))).isSome →
    P (r.stamped now (repairedEvent n))

/-- A repair cuts the torn tail off and writes at most its own record. -/
theorem append_repairs (f : LogFile) (io : WriteOutcome) {now : Int} {r : Run} {n : Nat}
    (hP : RecordedWith c P r now n) : RepairsOf c P f
      (r.append c io now (truncateTornTail f (tornTail newline f.data).length)
        (repairedEvent n)).2.1 := by
  have hclean : tornTail newline
      (truncateTornTail f (tornTail newline f.data).length).data = [] := by
    rw [truncateTornTail_data]
    simpa using tornTail_frame_append newline (lines newline f.data) (t := []) (by simp)
  refine RepairsOf.of_truncate ?_
  generalize truncateTornTail f _ = cut at hclean ⊢
  unfold RecordedWith Run.stamped at hP
  unfold Run.append
  cases r.refusal c now cut (repairedEvent n) with
  | some e => exact RepairsOf.refl cut
  | none =>
    dsimp only
    generalize (if (repairedEvent n).branch = 0 then
      { repairedEvent n with branch := r.branch } else repairedEvent n) = ev at hP ⊢
    rcases appendEvent_cases c io now cut r.seq ev with ⟨e, heq⟩ | ⟨a, ha, haev, -, heq⟩
    · rw [heq]
      exact RepairsOf.refl cut
    · rw [← haev] at hP
      have hwrite := repairsOf_write hclean ha
        (hP (Option.isSome_map ▸ Option.isSome_iff_exists.mpr ⟨_, ha.marshal⟩))
      rw [heq]
      cases io <;> exact hwrite

/-- Recovery does no more to the log than a repair does. -/
theorem recover_repairs (d : RunDir) (io : WriteOutcome) (now : Int) (leftovers : Leftovers)
    (hP : ∀ events torn, readEvents c.unmarshal d.log.data = .ok (events, torn) → torn ≠ 0 →
      RecordedWith c P (recoveredRun events d.state) now torn) :
    RepairsOf c P d.log (recover c io now d leftovers).1.log := by
  cases hread : readEvents c.unmarshal d.log.data with
  | error e =>
    unfold recover
    rw [hread]
    exact RepairsOf.refl d.log
  | ok read =>
  obtain ⟨events, torn⟩ := read
  have hrecord := hP _ _ hread
  rw [(recover_of_read hread io now leftovers).1]
  rw [((readEvents_ok_iff c.unmarshal).mp hread).2.2.2] at hrecord ⊢
  unfold reopen
  dsimp only
  split
  · split <;> exact (RepairsOf.refl _).of_truncate
  rename_i htorn
  have happ := append_repairs d.log io (hrecord htorn)
  split
  · rename_i heq
    rwa [heq] at happ
  · rename_i heq
    rwa [heq] at happ

/-- After a repair the events before it read back unchanged. -/
theorem RepairsOf.read (h : RepairsOf c P f f') {events : List Event} {torn : Nat}
    (hread : readEvents c.unmarshal f.data = .ok (events, torn)) :
    ∃ more : List Event, readEvents c.unmarshal f'.data =
        .ok (events ++ more.map c.redact, (tornTail newline f'.data).length) ∧
      ∀ ev ∈ more, (c.marshalEvent ev).isSome ∧ P ev := by
  obtain ⟨hok, rfl, hschema, -⟩ := (readEvents_ok_iff c.unmarshal).mp hread
  obtain ⟨added, hadded, hsound⟩ := h.added
  have hdecode : (added.map Attempt.line).filterMap (decodeLine c.unmarshal) =
      (added.map Attempt.event).map c.redact := by
    rw [filterMap_map, map_map, ← filterMap_eq_map']
    exact filterMap_congr (fun a ha => (hsound a ha).1.decodeLine_eq)
  refine ⟨added.map Attempt.event, (readEvents_ok_iff c.unmarshal).mpr ⟨?_, ?_, ?_, rfl⟩, ?_⟩
  · rw [hadded]
    exact forall_mem_append.mpr ⟨hok, forall_mem_map.mpr fun a ha => (hsound a ha).1.lineOk⟩
  · rw [hadded, filterMap_append, hdecode]
  · intro ev hev
    rcases mem_append.mp hev with hev | hev
    · exact hschema ev hev
    obtain ⟨_, hmem, rfl⟩ := mem_map.mp hev
    obtain ⟨a, ha, rfl⟩ := mem_map.mp hmem
    rw [c.redact_schema]
    exact (hsound a ha).1.schema
  · intro ev hev
    obtain ⟨a, ha, rfl⟩ := mem_map.mp hev
    obtain ⟨hsnd, hP⟩ := hsound a ha
    exact ⟨Option.isSome_map ▸ Option.isSome_iff_exists.mpr ⟨_, hsnd.marshal⟩, hP⟩

end

/-! ## Every run -/

def World.init : World := { handle := some {} }

theorem worldInv_init : WorldInv c World.init := by
  refine ⟨[], [], logInv_init, ?_⟩
  intro r _ _
  exact ⟨rfl, by simp⟩

theorem HandleInv.world (h : HandleInv c f r) (st : Option State) :
    WorldInv c ⟨⟨f, st⟩, some r⟩ := by
  obtain ⟨kept, torn, hlog, hready⟩ := h
  refine ⟨kept, torn, hlog, ?_⟩
  intro r' hr
  exact Option.some.inj hr ▸ hready

theorem WorldInv.handle (h : WorldInv c w) (hr : w.handle = some r) : HandleInv c w.dir.log r := by
  obtain ⟨kept, torn, hlog, hready⟩ := h
  exact ⟨kept, torn, hlog, hready r hr⟩

theorem HandleInv.applyLifecycle (h : HandleInv c f r) (ev : Event) :
    HandleInv c f (r.applyLifecycle ev) := by
  obtain ⟨kept, torn, hlog, hready⟩ := h
  refine ⟨kept, torn, hlog, ?_⟩
  unfold Run.applyLifecycle
  split <;> exact hready

/-- Every action keeps the log well formed under its handle. -/
theorem worldInv_step (h : WorldInv c w) (a : Action) : WorldInv c (w.step c a).1 := by
  cases a with
  | append io now ev =>
    unfold World.step
    cases hh : w.handle with
    | none => exact h
    | some r =>
      have happ := handleInv_append (h.handle hh) io now ev
      dsimp only [Run.appendPrepared]
      split
      · rename_i heq
        rw [heq] at happ
        exact happ.world _
      · rename_i heq
        rw [heq] at happ
        exact (happ.applyLifecycle ev).world _
  | repairAppendBoundary io now =>
    unfold World.step
    cases hh : w.handle with
    | none => exact h
    | some r =>
      obtain ⟨kept, torn, hlog, _⟩ := h
      exact (handleInv_repair hlog io now r).1.world _
  | recover io now leftovers =>
    unfold World.step
    cases hh : w.handle with
    | some r => exact h
    | none =>
      obtain ⟨kept, torn, hlog, _⟩ := h
      obtain ⟨⟨kept', torn', hlog'⟩, hrun⟩ := handleInv_recover hlog io now leftovers
      dsimp only
      split
      · rename_i heq
        rw [heq] at hlog'
        exact ⟨kept', torn', hlog', nofun⟩
      · rename_i heq
        rw [heq] at hrun
        exact (hrun _ rfl).1.world _
  | crash kept fill =>
    -- the handle is gone, so only the log is left to speak of
    obtain ⟨kept, torn, hlog, _⟩ := h
    obtain ⟨kept', torn', hlog'⟩ := hlog.crash _ fill
    exact ⟨kept', torn', hlog', fun r hr => absurd hr (by simp [World.step])⟩
  | close =>
    obtain ⟨kept, torn, hlog, _⟩ := h
    exact ⟨kept, torn, hlog, fun r hr => absurd hr (by simp [World.step])⟩

theorem worldInv_run (h : WorldInv c w) (actions : List Action) : WorldInv c (w.run c actions) := by
  induction actions generalizing w with
  | nil => exact h
  | cons a actions ih => exact ih (worldInv_step h a)

/-- A call of `Append` on a live handle: the event as the handle stamps it, and its result. -/
structure Reported where
  event : Event
  result : Except AppendError Unit
  deriving DecidableEq

/-- The call of `Append` an action is, if it is one, with the result the step returns. -/
def World.report (c : Codec) (w : World) : Action → Option Reported
  | .append io now ev =>
    w.handle.map (fun r => ⟨r.stamped now ev, (w.step c (.append io now ev)).2⟩)
  | _ => none

/-- Every call of `Append` along a run, oldest first. -/
def World.appends (c : Codec) (w : World) : List Action → List Reported
  | [] => []
  | a :: actions => (w.report c a).toList ++ (w.step c a).1.appends c actions

/-- A line of the log is the event of an append, or the record of a repair. -/
inductive LogLine where
  | appended (r : Reported)
  | repaired (ev : Event)

def LogLine.event : LogLine → Event
  | .appended r => r.event
  | .repaired ev => ev

def LogLine.report? : LogLine → Option Reported
  | .appended r => some r
  | .repaired _ => none

/-- The lines of a log against the results the callers were given. -/
structure Explains (appends : List Reported) (lines : List LogLine) : Prop where
  /-- The lines appended are calls that were made, each at most once and in their order. -/
  begun : (lines.filterMap LogLine.report?).Sublist appends
  /-- Every call that returned success has its line. -/
  succeeded : (lines.filterMap LogLine.report?).filter (fun r => r.result = .ok ()) =
    appends.filter (fun r => r.result = .ok ())
  /-- Any other line is one whose write was interrupted or whose fsync failed. -/
  failed : ∀ r, .appended r ∈ lines →
    r.result = .ok () ∨ r.result = .error .write ∨ r.result = .error .sync
  repaired : ∀ ev, .repaired ev ∈ lines → ev.type = .repaired

section
variable {appends : List Reported} {lines : List LogLine}

theorem Explains.refused (h : Explains appends lines) {r : Reported} (hr : r.result ≠ .ok ()) :
    Explains (appends ++ [r]) lines where
  begun := h.begun.trans (sublist_append_left _ _)
  succeeded := by
    rw [h.succeeded, filter_append, filter_singleton, decide_eq_false hr, cond_false, append_nil]
  failed := h.failed
  repaired := h.repaired

theorem Explains.appended (h : Explains appends lines) {r : Reported}
    (hr : r.result = .ok () ∨ r.result = .error .write ∨ r.result = .error .sync) :
    Explains (appends ++ [r]) (lines ++ [.appended r]) where
  begun := by
    rw [filterMap_append]
    exact h.begun.append (Sublist.refl [r])
  succeeded := by
    rw [filterMap_append, filter_append, filter_append, h.succeeded]
    rfl
  failed r' hmem := by
    rcases mem_append.mp hmem with hmem | hmem
    · exact h.failed r' hmem
    · cases mem_singleton.mp hmem
      exact hr
  repaired ev hmem := by
    rcases mem_append.mp hmem with hmem | hmem
    · exact h.repaired ev hmem
    · cases mem_singleton.mp hmem

theorem Explains.repair (h : Explains appends lines) {ev : Event} (hev : ev.type = .repaired) :
    Explains appends (lines ++ [.repaired ev]) where
  begun := by
    rw [filterMap_append, show [LogLine.repaired ev].filterMap LogLine.report? = [] from rfl,
      append_nil]
    exact h.begun
  succeeded := by
    rw [filterMap_append, show [LogLine.repaired ev].filterMap LogLine.report? = [] from rfl,
      append_nil]
    exact h.succeeded
  failed r hmem := by
    rcases mem_append.mp hmem with hmem | hmem
    · exact h.failed r hmem
    · cases mem_singleton.mp hmem
  repaired ev' hmem := by
    rcases mem_append.mp hmem with hmem | hmem
    · exact h.repaired ev' hmem
    · cases mem_singleton.mp hmem
      exact hev

end

/-- The writes begun so far, against the calls of `Append` so far. -/
inductive Accounted : List Attempt → List Reported → Prop where
  | nil : Accounted [] []
  /-- The call was refused before it wrote. -/
  | refused {written appends} (r : Reported) : Accounted written appends → r.result ≠ .ok () →
      Accounted written (appends ++ [r])
  | appended {written appends} (a : Attempt) (r : Reported) : Accounted written appends →
      a.event = r.event → r.result = (writeResult a.outcome a.event).map (fun _ => ()) →
      Accounted (written ++ [a]) (appends ++ [r])
  /-- A repair put itself on record. -/
  | repaired {written appends} (a : Attempt) : Accounted written appends →
      a.event.type = .repaired → Accounted (written ++ [a]) appends

/-- An append begins no write and fails, or begins one and reports how it went. -/
theorem append_written (r : Run) (f : LogFile) (io : WriteOutcome) (now : Int) (ev : Event) :
    (∃ e, (r.append c io now f ev).2.2 = .error e ∧
        (r.append c io now f ev).2.1.written = f.written) ∨
      ∃ a : Attempt, a.event = r.stamped now ev ∧
        (r.append c io now f ev).2.1.written = f.written ++ [a] ∧
        (r.append c io now f ev).2.2 = (writeResult a.outcome a.event).map (fun _ => ()) := by
  unfold Run.append Run.stamped
  cases r.refusal c now f ev with
  | some e => exact Or.inl ⟨e, rfl, rfl⟩
  | none =>
    dsimp only
    generalize (if ev.branch = 0 then { ev with branch := r.branch } else ev) = ev'
    rcases appendEvent_cases c io now f r.seq ev' with ⟨e, heq⟩ | ⟨a, -, hev, rfl, heq⟩
    · rw [heq]
      exact Or.inl ⟨e, rfl, rfl⟩
    · rw [heq]
      refine Or.inr ⟨a, hev, ?_, ?_⟩
      · cases a.outcome <;> exact f.write_written a
      · cases a.outcome <;> rfl

section
variable {appends : List Reported}

theorem Accounted.repairing (h : Accounted f.written appends) (r : Run) (io : WriteOutcome)
    (now : Int) (n m : Nat) : Accounted
      (r.append c io now (truncateTornTail f n) (repairedEvent m)).2.1.written appends := by
  rcases append_written (c := c) r (truncateTornTail f n) io now (repairedEvent m) with
    ⟨e, -, hsame⟩ | ⟨a, hev, hmore, -⟩
  · rw [hsame]
    exact h
  · rw [hmore]
    exact h.repaired a (by rw [hev, Run.stamped]; split <;> rfl)

/-- All that recovery writes is the record of its repair. -/
theorem Accounted.recover {d : RunDir} (h : Accounted d.log.written appends) (io : WriteOutcome)
    (now : Int) (leftovers : Leftovers) :
    Accounted (recover c io now d leftovers).1.log.written appends := by
  cases hread : readEvents c.unmarshal d.log.data with
  | error e =>
    unfold Journal.recover
    rw [hread]
    exact h
  | ok read =>
    obtain ⟨events, torn⟩ := read
    rw [(recover_of_read hread io now leftovers).1]
    have happ := h.repairing (c := c) (recoveredRun events d.state) io now torn torn
    unfold reopen
    dsimp only
    split
    · split <;> exact h
    · split
      · rename_i heq
        rwa [heq] at happ
      · rename_i heq
        rwa [heq] at happ

end

/--
What a reader of the log finds: the redacted events of `lines`, which the results of the
`appends` explain. Their numbers strictly increase, and `tornBytes` bytes are torn.
-/
structure ReadsBack (c : Codec) (f : LogFile) (appends : List Reported) (lines : List LogLine)
    (tornBytes : Nat) : Prop extends Explains appends lines where
  read : readEvents c.unmarshal f.data = .ok (lines.map (fun l => c.redact l.event), tornBytes)
  increasing : ((lines.map (fun l => c.redact l.event)).map Event.seq).Pairwise (· < ·)

/-- A repair record can be encoded within the line bound. -/
def RepairedFits (c : Codec) : Prop :=
  ∀ seq now n branch, ∃ text,
    c.marshalEvent (stampEvent seq now { repairedEvent n with branch := branch }) = some text ∧
      (c.scrub text).length + 1 ≤ maxEventBytes

theorem append_repaired_ok (hfits : RepairedFits c) (hclear : r.appendErr = false) (now : Int)
    (f : LogFile) (n : Nat) : (r.append c .ok now f (repairedEvent n)).2.2 = .ok () := by
  have href : r.refusal c now f (repairedEvent n) = none := by
    simp [Run.refusal, hclear, repairedEvent]
  obtain ⟨text, hm, hlen⟩ := hfits (r.seq + 1) now n r.branch
  have happ : (appendEvent c .ok now f r.seq { repairedEvent n with branch := r.branch }).2.2
      = .ok (stampEvent (r.seq + 1) now { repairedEvent n with branch := r.branch }) := by
    unfold appendEvent
    simp only [hm, if_neg (Nat.not_lt.mpr hlen), writeResult]
  unfold Run.append
  rw [href]
  dsimp only [repairedEvent] at happ ⊢
  simp only [↓reduceIte]
  split
  · rename_i heq
    rw [heq] at happ
    cases happ
  · rfl

end Goobers.Journal
