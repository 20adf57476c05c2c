import Goobers.Lib.Runs
import Goobers.Journal.InstanceTail

/-!
# The tail delivers every event once

The generations from the one a tail has open to the current one each continue the one
before, because a compaction keeps the record with the highest number. So what a tail
finds above its number in a new generation is what it has not read, once the old one is
drained, and its number grows with every read.

This holds while no read of a poll fails after the poll has read something. A poll that
fails later drops what it had, and the tail does not read it again.
-/

namespace Goobers.Journal

open Lib List TailWorld Event

variable {unmarshal : Bytes → Option Event} {tail : InstanceLogTail}

/-! ## What a writer does -/

section
variable {c : Codec} {f : LogFile} {kept synced : List Attempt} {torn : Bytes} {d : InstanceDir}

theorem LogShape.loggedEvents_eq (h : LogShape c f kept torn) :
    loggedEvents c.unmarshal f.data = kept.map (fun a => c.redact a.event) :=
  ((readEvents_ok_iff c.unmarshal).mp h.readEvents_eq).2.1.symm

theorem SeqInv.readable (h : SeqInv c f kept synced torn) : Readable c.unmarshal f.data where
  lineOk := ((readEvents_ok_iff c.unmarshal).mp h.toLogShape.readEvents_eq).1
  pos := by
    rw [h.toLogShape.loggedEvents_eq]
    intro ev hev
    obtain ⟨a, ha, rfl⟩ := mem_map.mp hev
    rw [c.redact_seq]
    exact h.pos a ha
  increasing := by
    rw [h.toLogShape.loggedEvents_eq, Increasing, pairwise_map]
    simpa only [c.redact_seq] using h.sorted

/-- What a reader sees of a step that is no crash: more lines, or fewer in a new generation. -/
def Evolves (c : Codec) (d d' : InstanceDir) : Prop :=
  (d'.generation = d.generation ∧
    ∃ more, lines newline d'.log.data = lines newline d.log.data ++ more) ∨
  (d'.generation = d.generation + 1 ∧
    (loggedEvents c.unmarshal d'.log.data).Sublist (loggedEvents c.unmarshal d.log.data) ∧
    lastValue Event.seq (loggedEvents c.unmarshal d'.log.data)
      = lastValue Event.seq (loggedEvents c.unmarshal d.log.data))

theorem LogGrows.evolves {d' : InstanceDir} (hinv : SeqInv c d.log kept synced torn)
    (h : LogGrows c kept d'.log) (hgen : d'.generation = d.generation) : Evolves c d d' := by
  obtain ⟨kept', synced', torn', hinv', more, rfl⟩ := h
  refine .inl ⟨hgen, more.map Attempt.line, ?_⟩
  rw [hinv.toLogShape.lines_eq, hinv'.toLogShape.lines_eq, map_append]

/-- A compaction starts another generation, which continues the one before. -/
theorem KeepsLines.evolves {d' : InstanceDir} (hinv : SeqInv c d.log kept synced torn)
    (h : KeepsLines d d' kept torn) : Evolves c d d' := by
  obtain ⟨survivors, hsub, hlast, rfl⟩ := h
  have hshape : LogShape c (d.advance (frame newline (survivors.map Attempt.line) ++ torn)).log
      survivors torn :=
    ⟨rfl, hinv.torn, fun a ha => hinv.sound a (hsub.subset ha), hinv.sorted.sublist hsub⟩
  have hinc := hinv.readable.increasing
  rw [hinv.toLogShape.loggedEvents_eq] at hinc
  have hsub' := hsub.map (fun a => c.redact a.event)
  refine .inr ⟨rfl, ?_, ?_⟩
  · rw [hshape.loggedEvents_eq, hinv.toLogShape.loggedEvents_eq]
    exact hsub'
  · rw [hshape.loggedEvents_eq, hinv.toLogShape.loggedEvents_eq]
    refine hinc.lastValue_of_sublist hsub' fun last hl => ?_
    rw [getLast?_map, Option.map_eq_some_iff] at hl
    obtain ⟨a, ha, rfl⟩ := hl
    exact mem_map_of_mem (hlast a ha)

theorem openInstanceLog_generation (c : Codec) (io : WriteOutcome) (now : Int) (d : InstanceDir) :
    (openInstanceLog c io now d).1.generation = d.generation := by
  unfold openInstanceLog
  split
  · rfl
  dsimp only
  split
  · rfl
  · split <;> rfl

theorem append_generation (c : Codec) (repairWrite io : WriteOutcome) (now : Int)
    (d : InstanceDir) (l : InstanceLog) (ev : Event) :
    (l.append c repairWrite io now d ev).2.1.generation = d.generation := by
  unfold InstanceLog.append
  split
  · rfl
  split
  · rfl
  · dsimp only
    split <;> rfl

/-- **Every step but a crash evolves the log**, if its compaction keeps the highest record. -/
theorem step_evolves {w : InstanceWorld} (h : LogOk c w.dir.log) {a : InstanceAction}
    (hkeeps : a.keepsHighest c w = true) (hcrash : ∀ n fill, a ≠ .crash n fill) :
    Evolves c w.dir (w.step c a).dir := by
  obtain ⟨kept, synced, torn, hinv⟩ := h
  rcases step_dir hinv hkeeps with heq | ⟨io, now, -, heq⟩ |
    ⟨handle, repairWrite, io, now, ev, l, -, heq⟩ | hlines | ⟨n, fill, hcase, -⟩
  · rw [heq]
    exact hinv.logGrows.evolves hinv rfl
  · rw [heq]
    exact (openInstanceLog_grows hinv io now).evolves hinv (openInstanceLog_generation c io now _)
  · rw [heq]
    exact (append_grows hinv repairWrite io now l ev).evolves hinv
      (append_generation c repairWrite io now _ l ev)
  · exact hlines.evolves hinv
  · exact absurd hcase (hcrash n fill)

end

/-! ## The invariant -/

/-- A later generation, from an earlier one: what it has of the earlier numbers was there. -/
structure Continues (earlier later : List Event) : Prop where
  old : ∀ ev ∈ later, ev.seq ≤ lastValue Event.seq earlier → ev ∈ earlier
  last : lastValue Event.seq earlier ≤ lastValue Event.seq later

theorem Continues.refl (events : List Event) : Continues events events :=
  ⟨fun _ hev _ => hev, Nat.le_refl _⟩

theorem Continues.append {earlier later more : List Event} (h : Continues earlier later)
    (hinc : Increasing seq (later ++ more)) (hpos : ∀ ev ∈ later ++ more, 0 < ev.seq) :
    Continues earlier (later ++ more) where
  old := by
    intro ev hev hle
    rcases mem_append.mp hev with hold | hnew
    · exact h.old ev hold hle
    have hmore := fun ev hev => hpos ev (mem_append_right later hev)
    have hlt := hinc.lastValue_lt hmore ev hnew
    have := h.last
    omega
  last := Nat.le_trans h.last hinc.lastValue_le_append

theorem Continues.compact {earlier later fewer : List Event} (h : Continues earlier later)
    (hsub : fewer.Sublist later)
    (hlast : lastValue seq fewer = lastValue seq later) : Continues earlier fewer where
  old := fun ev hev hle => h.old ev (hsub.subset hev) hle
  last := hlast ▸ h.last

namespace TailWorld

/-- What was read and not lost: delivered, or about to be. -/
def taken (w : TailWorld) : List Event := w.delivered ++ (w.poll.map Poll.events).getD []

def Drained (c : Codec) (w : TailWorld) : Prop :=
  ∀ ev ∈ w.events c w.tail.generation, ev.seq ≤ w.tail.seq

end TailWorld

def PlaceOk (c : Codec) (w : TailWorld) (p : Poll) : Prop :=
  match p.at_ with
  | .readCurrent drain => drain = true → w.tail.generation < w.current
  | .resolve => w.tail.generation < w.current ∨ ∀ ev ∈ p.started, ev.seq ≤ w.tail.seq
  | .reopen => w.tail.generation < w.current ∧ w.Drained c
  | .readRotated generation =>
    w.tail.generation < generation ∧ generation ≤ w.current ∧ w.Drained c

/-- What a poll will have delivered of the events it began with. -/
structure PollOk (c : Codec) (start : Nat) (w : TailWorld) (p : Poll) : Prop where
  bound : ∀ ev ∈ p.started, ev.seq ≤ lastValue Event.seq (w.events c w.current)
  held : p.caughtUp = true → ∀ ev ∈ p.started, start < ev.seq →
    ev ∈ w.taken ∨ ev ∈ w.events c w.tail.generation
  place : PlaceOk c w p

/--
The generations from the one the tail has open to the current one each continue the
one before; what the tail has passed of its own is taken, once and in order.
-/
structure TailInv (c : Codec) (start : Nat) (w : TailWorld) : Prop where
  log : LogOk c w.world.dir.log
  behind : w.tail.generation ≤ w.current
  readable : ∀ g, w.tail.generation ≤ g → g ≤ w.current → Readable c.unmarshal (w.file g)
  chain : ∀ g h, w.tail.generation ≤ g → g ≤ h → h ≤ w.current →
    Continues (w.events c g) (w.events c h)
  consumed : Consumed c.unmarshal w.tail (w.file w.tail.generation)
  reached : w.tail.seq ≤ lastValue Event.seq (w.events c w.tail.generation)
  accounted : ∀ ev ∈ w.events c w.tail.generation, start < ev.seq → ev.seq ≤ w.tail.seq →
    ev ∈ w.taken
  increasing : Increasing Event.seq w.taken
  bounded : ∀ ev ∈ w.taken, ev.seq ≤ w.tail.seq
  poll : ∀ p, w.poll = some p → PollOk c start w p
  seen : ∀ ev ∈ w.seen, start < ev.seq → ev ∈ w.delivered

/-! ## A writer's step -/

section
variable {c : Codec} {start : Nat} {w : TailWorld} {a : InstanceAction}

@[simp] theorem TailWorld.file_current (w : TailWorld) : w.file w.current = w.world.dir.log.data :=
  if_pos rfl

theorem TailWorld.write_file {g : Nat} (hg : g ≠ (w.write c a).current) :
    (w.write c a).file g = w.file g :=
  if_neg hg

theorem TailWorld.write_cases (h : Evolves c w.world.dir (w.write c a).world.dir) :
    ((w.write c a).current = w.current ∧ (∀ g < w.current, (w.write c a).file g = w.file g) ∧
      ∃ more, lines newline ((w.write c a).file w.current)
        = lines newline (w.file w.current) ++ more) ∨
    ((w.write c a).current = w.current + 1 ∧ (∀ g ≤ w.current, (w.write c a).file g = w.file g) ∧
      ((w.write c a).events c (w.current + 1)).Sublist (w.events c w.current) ∧
      lastValue seq ((w.write c a).events c (w.current + 1))
        = lastValue seq (w.events c w.current)) := by
  rcases h with ⟨hgen, more, hlines⟩ | ⟨hgen, hsub, hlast⟩
  · have hcur : (w.write c a).current = w.current := hgen
    refine .inl ⟨hcur, fun g hg => write_file (by omega), more, ?_⟩
    rw [← hcur, file_current, hcur, file_current]
    exact hlines
  · have hcur : (w.write c a).current = w.current + 1 := hgen
    refine .inr ⟨hcur, fun g hg => write_file (by omega), ?_⟩
    unfold events
    rw [← hcur, file_current, file_current]
    exact ⟨hsub, hlast⟩

theorem TailWorld.write_grows (h : Evolves c w.world.dir (w.write c a).world.dir) {g : Nat}
    (hg : g ≤ w.current) :
    ∃ more, lines newline ((w.write c a).file g) = lines newline (w.file g) ++ more := by
  rcases write_cases h with ⟨-, hold, hmore⟩ | ⟨-, hold, -⟩
  · rcases Nat.lt_or_eq_of_le hg with hlt | rfl
    · exact ⟨[], by rw [hold g hlt, append_nil]⟩
    · exact hmore
  · exact ⟨[], by rw [hold g hg, append_nil]⟩

theorem loggedEvents_append {data data' : Bytes} {more : List Bytes}
    (h : lines newline data' = lines newline data ++ more) : loggedEvents unmarshal data'
      = loggedEvents unmarshal data ++ more.filterMap (decodeLine unmarshal) := by
  rw [loggedEvents, h, filterMap_append]
  rfl

theorem Readable.lt_of_more {data data' : Bytes} {more : List Bytes}
    (hread : Readable unmarshal data') (h : lines newline data' = lines newline data ++ more) :
    ∀ ev ∈ more.filterMap (decodeLine unmarshal),
      lastValue seq (loggedEvents unmarshal data) < ev.seq := by
  have hinc := hread.increasing
  have hpos := hread.pos
  rw [loggedEvents_append h] at hinc hpos
  exact hinc.lastValue_lt fun ev hev => hpos ev (mem_append_right _ hev)

/-- A place in the file stays good when lines are added. -/
theorem Consumed.grow {t : InstanceLogTail} {data data' : Bytes} {more : List Bytes}
    (h : Consumed unmarshal t data) (hread : Readable unmarshal data')
    (hreached : t.seq ≤ lastValue seq (loggedEvents unmarshal data))
    (hmore : lines newline data' = lines newline data ++ more) : Consumed unmarshal t data' := by
  obtain ⟨pre, rest, hlines, hoff, hpre, hrest⟩ := h
  refine ⟨pre, rest ++ more, ?_, hoff, hpre, ?_⟩
  · rw [hmore, hlines, append_assoc]
  · intro ev hev
    rw [filterMap_append] at hev
    rcases mem_append.mp hev with hev | hev
    · exact hrest ev hev
    · have := hread.lt_of_more hmore ev hev
      omega

theorem TailInv.write_readable (h : TailInv c start w)
    (hev : Evolves c w.world.dir (w.write c a).world.dir)
    (hlog : LogOk c (w.write c a).world.dir.log) {g : Nat} (hlow : w.tail.generation ≤ g)
    (hhigh : g ≤ (w.write c a).current) : Readable c.unmarshal ((w.write c a).file g) := by
  by_cases hcur : g = (w.write c a).current
  · obtain ⟨kept, synced, torn, hinv⟩ := hlog
    rw [hcur, file_current]
    exact hinv.readable
  · rw [write_file hcur]
    have hbound : (w.write c a).current ≤ w.current + 1 := by
      rcases write_cases hev with ⟨heq, -⟩ | ⟨heq, -⟩ <;> omega
    exact h.readable g hlow (by omega)

theorem TailInv.write_chain (h : TailInv c start w)
    (hev : Evolves c w.world.dir (w.write c a).world.dir)
    (hlog : LogOk c (w.write c a).world.dir.log) {g k : Nat} (hlow : w.tail.generation ≤ g)
    (hle : g ≤ k) (hhigh : k ≤ (w.write c a).current) :
    Continues ((w.write c a).events c g) ((w.write c a).events c k) := by
  by_cases heq : g = k
  · rw [heq]
    exact Continues.refl _
  have hold := h.chain g k hlow hle
  have hread := h.write_readable hev hlog (Nat.le_trans hlow hle) hhigh
  unfold events at hold ⊢
  rcases write_cases hev with ⟨hcur, hsame, more, hmore⟩ | ⟨hcur, hsame, hsub, hlast⟩
  · rw [hsame g (by omega)]
    by_cases hk : k < w.current
    · rw [hsame k hk]
      exact hold (by omega)
    · obtain rfl : k = w.current := by omega
      have hinc := hread.increasing
      have hpos := hread.pos
      rw [loggedEvents_append hmore] at hinc hpos ⊢
      exact (hold (Nat.le_refl _)).append hinc hpos
  · rw [hsame g (by omega)]
    by_cases hk : k ≤ w.current
    · rw [hsame k hk]
      exact hold hk
    · obtain rfl : k = w.current + 1 := by omega
      exact (h.chain g w.current hlow (by omega) (Nat.le_refl _)).compact hsub hlast

theorem TailWorld.write_current (hev : Evolves c w.world.dir (w.write c a).world.dir) :
    w.current ≤ (w.write c a).current := by
  rcases write_cases hev with ⟨heq, -⟩ | ⟨heq, -⟩ <;> omega

theorem TailWorld.Drained.write (h : w.Drained c) (hlt : w.tail.generation < w.current)
    (hle : w.current ≤ (w.write c a).current) : (w.write c a).Drained c := by
  intro ev hev
  have hfile : (w.write c a).file w.tail.generation = w.file w.tail.generation :=
    write_file (by omega)
  have hev' : ev ∈ loggedEvents c.unmarshal ((w.write c a).file w.tail.generation) := hev
  rw [hfile] at hev'
  exact h ev hev'

theorem PlaceOk.write {p : Poll} (h : PlaceOk c w p) (hle : w.current ≤ (w.write c a).current) :
    PlaceOk c (w.write c a) p := by
  unfold PlaceOk at h ⊢
  cases hat : p.at_ with
  | readCurrent drain =>
    rw [hat] at h
    exact fun hdrain => Nat.lt_of_lt_of_le (h hdrain) hle
  | resolve =>
    rw [hat] at h
    exact h.imp (fun hlt => Nat.lt_of_lt_of_le hlt hle) id
  | reopen =>
    rw [hat] at h
    exact ⟨Nat.lt_of_lt_of_le h.1 hle, h.2.write h.1 hle⟩
  | readRotated generation =>
    rw [hat] at h
    obtain ⟨hlt, hgen, hdrained⟩ := h
    exact ⟨hlt, Nat.le_trans hgen hle, hdrained.write (Nat.lt_of_lt_of_le hlt hgen) hle⟩

theorem TailInv.write_last (h : TailInv c start w)
    (hev : Evolves c w.world.dir (w.write c a).world.dir)
    (hlog : LogOk c (w.write c a).world.dir.log) {g : Nat} (hlow : w.tail.generation ≤ g)
    (hhigh : g ≤ w.current) :
    lastValue seq (w.events c g) ≤ lastValue seq ((w.write c a).events c g) := by
  obtain ⟨more, hmore⟩ := write_grows hev hhigh
  have hinc := (h.write_readable hev hlog hlow
    (Nat.le_trans hhigh (write_current hev))).increasing
  unfold events
  rw [loggedEvents_append hmore] at hinc ⊢
  exact hinc.lastValue_le_append

theorem PollOk.write {p : Poll} (hpoll : PollOk c start w p) (h : TailInv c start w)
    (hev : Evolves c w.world.dir (w.write c a).world.dir)
    (hlog : LogOk c (w.write c a).world.dir.log) : PollOk c start (w.write c a) p := by
  have hle := write_current hev
  refine ⟨?_, ?_, hpoll.place.write hle⟩
  · intro ev hmem
    have hbound := hpoll.bound ev hmem
    have hgrows := h.write_last hev hlog h.behind (Nat.le_refl _)
    have hchain := (h.write_chain hev hlog h.behind hle (Nat.le_refl _)).last
    omega
  · intro hup ev hmem hstart
    refine (hpoll.held hup ev hmem hstart).imp id fun hfile => ?_
    obtain ⟨more, hmore⟩ := write_grows hev h.behind
    show ev ∈ loggedEvents c.unmarshal ((w.write c a).file w.tail.generation)
    rw [loggedEvents_append hmore]
    exact mem_append_left _ hfile

/-- The writer may append or compact at any moment of a poll. -/
theorem TailInv.write (h : TailInv c start w)
    (hev : Evolves c w.world.dir (w.write c a).world.dir)
    (hlog : LogOk c (w.write c a).world.dir.log) : TailInv c start (w.write c a) := by
  obtain ⟨more, hmore⟩ := write_grows hev h.behind
  have hcurrent := write_current hev
  have hread : Readable c.unmarshal ((w.write c a).file w.tail.generation) :=
    h.write_readable hev hlog (Nat.le_refl _) (Nat.le_trans h.behind hcurrent)
  have hreached := h.reached
  refine ⟨hlog, Nat.le_trans h.behind hcurrent, fun g => h.write_readable hev hlog,
    fun g k => h.write_chain hev hlog, h.consumed.grow hread hreached hmore,
    Nat.le_trans hreached (h.write_last hev hlog (Nat.le_refl _) h.behind), ?_, h.increasing,
    h.bounded, fun p hp => (h.poll p hp).write h hev hlog, h.seen⟩
  -- what is new in the open generation is above all that the tail has read
  intro ev hmem hstart hle
  have hmem' : ev ∈ loggedEvents c.unmarshal ((w.write c a).file w.tail.generation) := hmem
  have hle' : ev.seq ≤ w.tail.seq := hle
  rw [loggedEvents_append hmore] at hmem'
  rcases mem_append.mp hmem' with hold | hnew
  · exact h.accounted ev hold hstart hle
  have hlt := hread.lt_of_more hmore ev hnew
  unfold events at hreached
  omega

end

/-! ## A step of a poll -/

section
variable {c : Codec} {start : Nat} {w : TailWorld} {p : Poll}

theorem TailInv.setPoll (h : TailInv c start w) {poll : Option Poll}
    (htaken : w.taken = w.delivered ++ (poll.map Poll.events).getD [])
    (hpoll : ∀ p, poll = some p → PollOk c start { w with poll := poll } p) :
    TailInv c start { w with poll := poll } := by
  have hacc := h.accounted
  have hinc := h.increasing
  have hbounded := h.bounded
  rw [htaken] at hacc hinc hbounded
  exact ⟨h.log, h.behind, h.readable, h.chain, h.consumed, h.reached, hacc, hinc, hbounded, hpoll,
    h.seen⟩

theorem TailWorld.taken_of_poll (hp : w.poll = some p) : w.taken = w.delivered ++ p.events := by
  unfold taken
  rw [hp]
  rfl

section
variable (h : TailInv c start w)
include h

theorem TailInv.startPoll : TailInv c start (w.startPoll c) := by
  unfold TailWorld.startPoll
  split
  · exact h
  rename_i hnone
  refine h.setPoll (by rw [taken, hnone]; rfl) fun p hp => ?_
  injection hp with hp
  subst hp
  refine ⟨(h.readable w.current h.behind (Nat.le_refl _)).increasing.le_lastValue, ?_, ?_⟩
  · intro hup ev hev _
    have hgen : w.tail.generation = w.current := by simpa using hup
    right
    rw [hgen]
    exact hev
  · intro hdrain
    cases hdrain

section
variable (hp : w.poll = some p)
include hp

theorem TailInv.fail (hnone : p.events = []) :
    TailInv c start { w with poll := none } :=
  h.setPoll (by rw [taken_of_poll hp, hnone]; rfl) fun p hp => by cases hp

theorem TailInv.move (next : PollAt) (hplace : PlaceOk c w { p with at_ := next }) :
    TailInv c start { w with poll := some { p with at_ := next } } := by
  have htaken := taken_of_poll hp
  refine h.setPoll htaken fun q hq => ?_
  injection hq with hq
  subst hq
  obtain ⟨hbound, hheld, -⟩ := h.poll p hp
  rw [htaken] at hheld
  exact ⟨hbound, hheld, hplace⟩

/--
**A read keeps the invariant**: of the open generation, or of a later one once the open
one is drained.
-/
theorem TailInv.took {events : List Event} (hlow : w.tail.generation ≤ tail.generation)
    (hhigh : tail.generation ≤ w.current)
    (htook : Took c.unmarshal w.tail tail (w.file tail.generation) events)
    (hdrained : tail.generation = w.tail.generation ∨ w.Drained c) (next : PollAt)
    (hplace : PlaceOk c { w with tail := tail } { p with at_ := next }) : TailInv c start
      { w with
        tail := tail
        poll := some { p with at_ := next, events := p.events ++ events } } := by
  have hread := h.readable tail.generation hlow hhigh
  have hchain := h.chain w.tail.generation tail.generation (Nat.le_refl _) hlow hhigh
  have hreached := h.reached
  have hseq := htook.seq
  have hmem : ∀ ev, ev ∈ events ↔ ev ∈ w.events c tail.generation ∧ w.tail.seq < ev.seq := by
    intro ev
    rw [htook.takes, mem_eventsAbove]
    rfl
  have hinc : Increasing seq events := htook.takes ▸ hread.increasing.filter _
  have htaken : w.taken ++ events = w.delivered ++ (p.events ++ events) := by
    rw [taken_of_poll hp, append_assoc]
  have hle := htook.le hread
  refine ⟨h.log, hhigh, fun g hg => h.readable g (Nat.le_trans hlow hg),
    fun g k hg => h.chain g k (Nat.le_trans hlow hg), Consumed.of_all htook.offset hle, ?_, ?_, ?_,
    ?_, ?_, h.seen⟩
  · -- the tail's number is one of the file's, or was there before
    have hnew : lastValue seq events ≤ lastValue seq (w.events c tail.generation) :=
      lastValue_le fun ev hev => hread.increasing.le_lastValue ev ((hmem ev).mp hev).1
    have := hchain.last
    show tail.seq ≤ lastValue seq (w.events c tail.generation)
    omega
  · intro ev hev hstart _
    show ev ∈ w.delivered ++ (p.events ++ events)
    rw [← htaken]
    by_cases hknown : ev.seq ≤ w.tail.seq
    · have hold := hchain.old ev hev (by omega)
      exact mem_append_left _ (h.accounted ev hold hstart hknown)
    · exact mem_append_right _ ((hmem ev).mpr ⟨hev, by omega⟩)
  · show Increasing seq (w.delivered ++ (p.events ++ events))
    rw [← htaken, Increasing.append_iff]
    refine ⟨h.increasing, hinc, fun old hold new hnew => ?_⟩
    have := h.bounded old hold
    have := ((hmem new).mp hnew).2
    omega
  · intro ev hev
    have hev' : ev ∈ w.taken ++ events := htaken ▸ hev
    show ev.seq ≤ tail.seq
    rcases mem_append.mp hev' with hold | hnew
    · have := h.bounded ev hold
      omega
    · have := hinc.le_lastValue ev hnew
      omega
  · intro q hq
    injection hq with hq
    subst hq
    obtain ⟨hbound, hheld, -⟩ := h.poll p hp
    refine ⟨hbound, ?_, hplace⟩
    intro hup ev hev hstart
    show ev ∈ w.delivered ++ (p.events ++ events) ∨ ev ∈ w.events c tail.generation
    rw [← htaken]
    rcases hheld hup ev hev hstart with htaken | hfile
    · exact .inl (mem_append_left _ htaken)
    rcases hdrained with hgen | hdr
    · exact .inr (hgen ▸ hfile)
    · exact .inl (mem_append_left _ (h.accounted ev hfile hstart (hdr ev hfile)))

/-- **A poll that ends has everything that it could see**, and hands it over. -/
theorem TailInv.finish (hgen : w.current = w.tail.generation)
    (hall : ∀ ev ∈ p.started, ev.seq ≤ w.tail.seq) :
    TailInv c start
      { w with
        poll := none
        delivered := w.delivered ++ p.events
        seen := w.seen ++
          p.started.filter (fun ev => p.caughtUp || decide (ev ∈ w.events c w.current)) } := by
  have hacc := h.accounted
  obtain ⟨-, hheld, -⟩ := h.poll p hp
  have htaken : w.taken = (w.delivered ++ p.events) ++ [] := by
    rw [taken_of_poll hp, append_nil]
  rw [taken_of_poll hp] at hacc hheld
  have hinc := h.increasing
  have hbounded := h.bounded
  rw [htaken] at hinc hbounded
  refine ⟨h.log, h.behind, h.readable, h.chain, h.consumed, h.reached, ?_, hinc, hbounded, ?_, ?_⟩
  · intro ev hev hstart hle
    exact mem_append_left _ (hacc ev hev hstart hle)
  · intro q hq
    cases hq
  · intro ev hev hstart
    rcases mem_append.mp hev with hold | hnew
    · exact mem_append_left _ (h.seen ev hold hstart)
    obtain ⟨hstarted, hcond⟩ := mem_filter.mp hnew
    rw [hgen, Bool.or_eq_true, decide_eq_true_eq] at hcond
    have hfile : ev ∈ w.events c w.tail.generation → ev ∈ w.delivered ++ p.events :=
      fun hfile => hacc ev hfile hstart (hall ev hstarted)
    rcases hcond with hup | hfile'
    · exact (hheld hup ev hstarted hstart).elim id hfile
    · exact hfile hfile'

/-- A poll delivers each event once, in order, whatever was written meanwhile. -/
theorem TailInv.advancePoll :
    TailInv c start (w.advancePoll c p) := by
  have hplace := (h.poll p hp).place
  unfold PlaceOk at hplace
  unfold TailWorld.advancePoll
  cases hat : p.at_ with
  | readCurrent drain =>
    rw [hat] at hplace
    have hread := h.readable _ (Nat.le_refl _) h.behind
    obtain ⟨tail, events, heq, hgen, htook⟩ := readCurrent_took hread h.consumed
    rw [heq]
    have hle := htook.le hread
    rw [← hgen] at htook
    refine h.took hp (Nat.le_of_eq hgen.symm) (hgen ▸ h.behind) htook (.inl hgen) _ ?_
    cases drain with
    | true =>
      refine ⟨?_, ?_⟩
      · rw [hgen]
        exact hplace rfl
      · intro ev hev
        have hev' : ev ∈ w.events c tail.generation := hev
        rw [hgen] at hev'
        exact hle ev hev'
    | false =>
      rcases Nat.lt_or_eq_of_le h.behind with hlt | hcur
      · exact .inl (hgen.symm ▸ hlt)
      right
      intro ev hev
      have hbound := (h.poll p hp).bound ev hev
      rw [← hcur] at hbound
      exact Nat.le_trans hbound (lastValue_le hle)
  | resolve =>
    -- a poll that finds the same generation again is at its end
    rw [hat] at hplace
    dsimp only
    split_ifs with hcur
    · refine h.finish hp hcur (hplace.resolve_left ?_)
      omega
    · have hbehind := h.behind
      refine h.move hp _ ?_
      intro _
      omega
  | reopen =>
    rw [hat] at hplace
    exact h.move hp _ ⟨hplace.1, Nat.le_refl _, hplace.2⟩
  | readRotated generation =>
    -- the old file was drained, so only the numbers above are new
    rw [hat] at hplace
    obtain ⟨hlt, hle, hdrained⟩ := hplace
    have hread := h.readable generation (Nat.le_of_lt hlt) hle
    dsimp only
    rw [readEventsAfterSeq_eq hread.lineOk hread.increasing]
    refine h.took hp (Nat.le_of_lt hlt) hle ⟨rfl, rfl, ?_⟩ (.inr hdrained) _ ?_
    · exact (hread.increasing.filter _).foldl_max w.tail.seq
    · intro hdrain
      cases hdrain

end

end

end

/-! ## Every run -/

/--
What the tail can cope with: no compaction drops the highest record, and no read of a
poll fails once the poll has read something. A crash of the machine takes the tail
with it.
-/
def TailAction.safe (c : Codec) (w : TailWorld) : TailAction → Bool
  | .write (.crash _ _) => false
  | .write a => a.keepsHighest c w.world
  | .startPoll => true
  | .pollStep ok => ok || w.poll.all (fun p => p.events.isEmpty)

section
variable {c : Codec} {start : Nat} {w : TailWorld}

theorem TailAction.safe_write {a : InstanceAction} (h : (TailAction.write a).safe c w = true) :
    a.keepsHighest c w.world = true ∧ ∀ n fill, a ≠ .crash n fill := by
  cases a with
  | crash n fill => cases h
  | _ => exact ⟨h, fun n fill heq => by cases heq⟩

/-- Every step of writer and poller keeps the invariant. -/
theorem TailInv.step (h : TailInv c start w) {a : TailAction} (hsafe : a.safe c w = true) :
    TailInv c start (w.step c a) := by
  cases a with
  | write a =>
    obtain ⟨hkeeps, hcrash⟩ := TailAction.safe_write hsafe
    exact h.write (step_evolves h.log hkeeps hcrash) (step_logOk h.log hkeeps)
  | startPoll => exact h.startPoll
  | pollStep ok =>
    unfold TailWorld.step
    cases hp : w.poll with
    | none => exact h
    | some p =>
      cases ok with
      | true => exact h.advancePoll hp
      | false =>
        have hnone : p.events = [] := by simpa [TailAction.safe, hp] using hsafe
        exact h.fail hp hnone

def TailWorld.opened (world : InstanceWorld) (tail : InstanceLogTail) : TailWorld where
  world := world
  frozen := fun _ => []
  tail := tail

theorem openInstanceLogTail_eq {d : InstanceDir} {kept synced : List Attempt} {torn : Bytes}
    (hinv : SeqInv c d.log kept synced torn)
    (hopen : openInstanceLogTail c.unmarshal d = some tail) :
    tail = ⟨d.generation, d.log.data.length - torn.length, lastSeq kept⟩ := by
  have hseq := hinv.toLogShape.sequence_eq
  unfold openInstanceLogTail at hopen
  unfold sequenceFromTailOrFull at hseq
  cases hfound : tailSequence c.unmarshal d.log.data with
  | found seq tornBytes =>
    rw [hfound] at hopen hseq
    injection hseq with hseq
    injection hseq with h1 h2
    rw [h1, h2] at hopen
    injection hopen with hopen
    exact hopen.symm
  | budgetExhausted | failed err =>
    rw [hfound] at hopen
    cases hopen

/-- A tail that is opened starts at the end of the log. -/
theorem tailInv_open {world : InstanceWorld} (hlog : LogOk c world.dir.log)
    (hopen : openInstanceLogTail c.unmarshal world.dir = some tail) :
    TailInv c tail.seq (opened world tail) := by
  obtain ⟨kept, synced, torn, hinv⟩ := hlog
  have hread := hinv.readable
  have hlast : lastValue seq (loggedEvents c.unmarshal world.dir.log.data)
      = lastSeq kept := by
    rw [hinv.toLogShape.loggedEvents_eq, lastValue, lastSeq, getLast?_map]
    simp [Function.comp_def, c.redact_seq]
  have hle := hread.increasing.le_lastValue
  have htail := openInstanceLogTail_eq hinv hopen
  have hgen : tail.generation = world.dir.generation := by rw [htail]
  have hseq : tail.seq = lastSeq kept := by rw [htail]
  -- the one file a new tail knows is the current one, read to its end
  have hfile : (opened world tail).file tail.generation = world.dir.log.data :=
    if_pos hgen
  rw [← hseq] at hlast
  rw [hlast] at hle
  refine ⟨⟨kept, synced, torn, hinv⟩, Nat.le_of_eq hgen, ?_, ?_, ?_, ?_, ?_, List.Pairwise.nil, ?_,
    ?_, ?_⟩
  · intro g hlow hhigh
    obtain rfl : g = tail.generation := Nat.le_antisymm (hgen ▸ hhigh) hlow
    rw [hfile]
    exact hread
  · intro g k hlow hgk hhigh
    have hcurrent : k ≤ tail.generation := hgen.symm ▸ hhigh
    obtain rfl : g = k := Nat.le_antisymm hgk (Nat.le_trans hcurrent hlow)
    exact Continues.refl _
  · show Consumed c.unmarshal tail ((opened world tail).file tail.generation)
    rw [hfile]
    refine Consumed.of_all ?_ hle
    rw [hinv.toLogShape.tornTail_eq, htail]
  · show tail.seq ≤ lastValue seq ((opened world tail).events c tail.generation)
    unfold events
    rw [hfile, hlast]
  · intro ev _ hstart hle
    exact absurd hstart (Nat.not_lt.mpr hle)
  · intro ev hev
    cases hev
  · intro p hp
    cases hp
  · intro ev hev
    cases hev

/--
**A tail delivers every event once and in order.** Take any history of the instance log
whose compactions keep the highest record, a tail opened then, and any interleaving of
further writes and compactions with the reads of the tail's polls, in which compactions
again keep the highest record and no read fails after one of its poll has brought
something. What the polls delivered has strictly increasing numbers, and contains every
event above the opening number that was in the current generation at a poll that
succeeded.
-/
theorem tail_delivers (c : Codec) (history : List InstanceAction)
    (hhistory : runKeepsHighest c {} history = true) (tail : InstanceLogTail)
    (hopen : openInstanceLogTail c.unmarshal (({} : InstanceWorld).run c history).dir = some tail)
    (actions : List TailAction)
    (hsafe : Along (TailWorld.step c) (fun w a => a.safe c w = true)
      (TailWorld.opened (({} : InstanceWorld).run c history) tail) actions) :
    let w := (TailWorld.opened (({} : InstanceWorld).run c history) tail).run c actions
    w.delivered.Pairwise (fun earlier later => earlier.seq < later.seq) ∧
      ∀ ev ∈ w.seen, tail.seq < ev.seq → ev ∈ w.delivered := by
  intro w
  have hinv : TailInv c tail.seq w :=
    hsafe.inv (fun w a ha hw => hw.step ha) (tailInv_open (run_logOk logOk_init hhistory) hopen)
  exact ⟨(Increasing.append_iff.mp hinv.increasing).1, hinv.seen⟩

/-- A tail on an empty log that has one record by its first poll; the look at the pointer fails. -/
def failedPoll : List TailAction :=
  [.write (.append 0 .ok .ok 2 { type := .tickSkipped }), .startPoll, .pollStep true,
   .pollStep false, .startPoll, .pollStep true, .pollStep true]

/-- **A failed poll loses what it had read.** The next one succeeds and delivers nothing. -/
theorem failedPoll_loses :
    let world := ({} : InstanceWorld).run textCodec [.openLog .ok 1]
    openInstanceLogTail textCodec.unmarshal world.dir = some ⟨0, 0, 0⟩ ∧
      let w := (TailWorld.opened world ⟨0, 0, 0⟩).run textCodec failedPoll
      w.seen.map Event.seq = [1] ∧ w.delivered = [] ∧ w.poll = none := by
  decide +kernel

/-- A compaction comes between the reads of a poll; the poll before it failed at once. -/
theorem rotatedPoll_delivers :
    let history : List InstanceAction :=
      [.openLog .ok 1, .append 0 .ok .ok 2 { type := .tickSkipped }]
    let actions : List TailAction :=
      [.write (.append 0 .ok .ok 3 { type := .tickSkipped }), .startPoll, .pollStep false,
       .startPoll, .pollStep true, .write (.append 0 .ok .ok 12 { type := .tickSkipped }),
       .write (.compact 0 .ok 10 0), .pollStep true, .pollStep true, .pollStep true,
       .pollStep true, .pollStep true, .pollStep true]
    let world := ({} : InstanceWorld).run textCodec history
    let w := (opened world ⟨0, 58, 1⟩).run textCodec actions
    (w.current = 1 ∧ w.delivered.map seq = [2, 3] ∧ w.seen.map seq = [1, 2]) ∧
      w.delivered.Pairwise (fun earlier later => earlier.seq < later.seq) ∧
      ∀ ev ∈ w.seen, 1 < ev.seq → ev ∈ w.delivered := by
  intro history actions world w
  have hhistory : runKeepsHighest textCodec {} history = true := by decide
  have hopen : openInstanceLogTail textCodec.unmarshal world.dir = some ⟨0, 58, 1⟩ := by
    decide +kernel
  have hsafe : Along (step textCodec) (fun w a => a.safe textCodec w = true)
      (opened world ⟨0, 58, 1⟩) actions := by
    decide +kernel
  refine ⟨?_, tail_delivers textCodec history hhistory ⟨0, 58, 1⟩ hopen actions hsafe⟩
  decide +kernel

end

end Goobers.Journal
