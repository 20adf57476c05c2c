import Mathlib.Data.Int.Basic
import Mathlib.Tactic.SplitIfs
import Mathlib.Algebra.GroupWithZero.Nat
import Mathlib.Algebra.Group.Int.Defs

/-!
# Schedule windows

A workflow's schedules are evaluated together, at instants the caller picks, against one
baseline: the last evaluation that found something. A fire more than an hour old is expired,
and only moves the baseline; the fires of the last hour start one run.

Instants are nanoseconds since Go's zero time, which stands for "no instant". A schedule is
its `Next` function and the delay `constantScheduleDelay` finds in it, if there is one.
-/

namespace Goobers.Scheduler

/-! ## Schedules -/

def second : Int := 1000000000

def scheduleCatchUpWindow : Int := 3600 * second

/-- The longest `time.Duration`; differences of instants are cut off there. -/
def maxDuration : Int := 2 ^ 63 - 1

def truncateToSecond (t : Int) : Int := t - t % second

/-- A schedule is its next fire after an instant, and its delay if that is constant. -/
structure Schedule where
  /-- The next fire after an instant, `0` if there is none. -/
  next : Int → Int
  /-- What `constantScheduleDelay` returns for it. -/
  constantDelay : Int := 0

def Schedule.every (delay : Int) : Schedule where
  next t := truncateToSecond t + delay
  constantDelay := delay

def nextScheduleInWindow (s : Schedule) (first floor : Int) : Int :=
  if 0 < s.constantDelay then
    -- the last fire at or before `floor`, in the phase of `first`
    let previous := first + (min (floor - first) maxDuration / s.constantDelay) * s.constantDelay
    s.next previous
  else s.next floor

/-! ## Evaluation -/

inductive ScheduleError where
  /-- `schedule did not advance` -/
  | notAdvancing
  /-- `schedule exceeds bounded hourly discovery` -/
  | unbounded
  deriving DecidableEq, Repr

/-- The fires from `next` up to `now`, at most `left` of them; the error if the loop ends in one. -/
def countFires (s : Schedule) (floor now : Int) : Nat → Int → Nat × Option ScheduleError
  | left, next =>
    if next = 0 ∨ now < next then (0, none)
    else
      match left with
      | 0 => (0, some .unbounded)
      | left + 1 =>
        if next ≤ floor then (0, some .unbounded)
        else if s.next next ≠ 0 ∧ s.next next ≤ next then (1, some .notAdvancing)
        else
          let later := countFires s floor now left (s.next next)
          (later.1 + 1, later.2)

def maxHourlyFires : Nat := 3601

/-- The body of the loop over the schedules: the fires of one of them in the window. -/
def scheduleFires (s : Schedule) (before floor now : Int) : Nat × Option ScheduleError :=
  let first := s.next before
  if first = 0 then (0, none)
  else if first ≤ before then (0, some .notAdvancing)
  else
    countFires s floor now maxHourlyFires
      (if first ≤ floor then nextScheduleInWindow s first floor else first)

structure Discovery where
  missedTicks : Nat := 0
  indexes : List Nat := []
  expired : Bool := false
  deriving DecidableEq, Repr

def discover (before floor now : Int) :
    Nat → List Schedule → Discovery → Discovery × Option ScheduleError
  | _, [], found => (found, none)
  | index, s :: rest, found =>
    let fires := scheduleFires s before floor now
    let found' : Discovery :=
      { missedTicks := found.missedTicks + fires.1
        indexes := if 0 < fires.1 ∧ fires.2 = none then found.indexes ++ [index]
          else found.indexes
        expired := found.expired ||
          (s.next before ≠ 0 && before < s.next before && s.next before ≤ floor) }
    match fires.2 with
    | some e => (found', some e)
    | none => discover before floor now (index + 1) rest found'

structure TickResult where
  fire : Bool := false
  lastEval : Int
  catchUp : Bool := false
  missedTicks : Nat := 0
  deriving DecidableEq, Repr

structure ScheduleWindowEvaluation where
  tick : TickResult
  floor : Int
  indexes : List Nat := []
  deriving DecidableEq, Repr

/-- The beginning of the window: the baseline, or an hour ago. -/
def windowFloor (before now : Int) : Int :=
  if before < now - scheduleCatchUpWindow then now - scheduleCatchUpWindow else before

/-- The result comes with the error, if there is one; the baseline then stays. -/
def evaluateScheduleWindow (schedules : List Schedule) (before now : Int) :
    ScheduleWindowEvaluation × Option ScheduleError :=
  if now ≤ before then ({ tick := { lastEval := before }, floor := before }, none)
  else
    let floor := windowFloor before now
    let found := discover before floor now 0 schedules {}
    match found.2 with
    | some e =>
      -- the schedules before the refused one are counted, but neither fire nor baseline is set
      ({ tick := { lastEval := before, missedTicks := found.1.missedTicks }
         floor := floor
         indexes := found.1.indexes }, some e)
    | none =>
      let fire : Bool := 0 < found.1.missedTicks
      ({ tick :=
           { fire := fire
             lastEval := if fire || found.1.expired then now else before
             catchUp := 1 < found.1.missedTicks
             missedTicks := found.1.missedTicks }
         floor := floor
         indexes := found.1.indexes }, none)

/-- The baseline after an evaluation. -/
def lastEval (schedules : List Schedule) (before now : Int) : Int :=
  (evaluateScheduleWindow schedules before now).1.tick.lastEval

/-- The baseline after a sequence of evaluations. -/
def lastEvalAfter (schedules : List Schedule) (before : Int) (instants : List Int) : Int :=
  instants.foldl (lastEval schedules) before

end Goobers.Scheduler
