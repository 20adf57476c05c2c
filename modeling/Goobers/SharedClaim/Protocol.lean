import Goobers.SharedClaim.Lease

/-!
# Instances sharing one record

Any number of instances call `AcquireUntil`, `Release` and `ConfirmOwnerGone` on
one provider record. Time is the provider's clock; an instance's own clock shows
it with a constant offset. A call is in flight for a while, and everything the
provider does for it happens at some moment in between: it reads the record, it
reads its clock in whole seconds, and it performs the compare-and-swap. The reply
may never arrive, also after the store committed.

A call is a value in the list of calls in flight, and an action names the call it
is about. `deadlines` are the local deadlines `AcquireUntil` has returned. An
owner that calls `Release` has stopped: its deadlines are dropped, and what its
acquisitions in flight return no longer counts, nor does an acquisition it begins
while the release is still under way.
-/

namespace Goobers.SharedClaim

inductive Kind where
  | acquire (ttl : Int)
  | release
  | confirmOwnerGone
  deriving DecidableEq, Repr

inductive Stage where
  /-- The read is under way: what the provider has looked up for it so far. -/
  | reading (seen : Option (Nat × Record)) (clock : Option Int)
  /-- The compare-and-swap is on its way. -/
  | swapping (revision : Nat) (next : Record)
  /-- The store committed it. -/
  | swapped
  deriving DecidableEq, Repr

structure Call where
  owner : Owner
  kind : Kind
  /-- The caller's own clock when the call began. -/
  start : Int
  /-- What the call returns counts: its owner has not called `Release` meanwhile. -/
  counted : Bool
  /-- The caller is still there. -/
  waiting : Bool
  stage : Stage
  deriving DecidableEq, Repr

/-- The provider's clock and record, the calls in flight and the deadlines returned. -/
structure World where
  now : Int
  revision : Nat
  record : Record
  calls : List Call
  deadlines : List (Owner × Int)
  deriving DecidableEq, Repr

def World.clock (offset : String → Int) (w : World) (owner : Owner) : Int :=
  w.now + offset owner.instance_

/-- The local deadline `acquireUntil` computes before it calls the provider. -/
def Call.deadline (c : Call) (ttl : Int) : Int := c.start + (ttl - second)

/-- The provider's clock in whole seconds. -/
def truncateSecond (t : Int) : Int := t - t % second

inductive Action where
  | tick (d : Nat)
  | callAcquire (owner : Owner) (ttl : Int)
  | callRelease (owner : Owner)
  | callConfirm (owner : Owner)
  /-- The provider looks the record up for this call's read. -/
  | lookUp (c : Call)
  /-- The provider reads its clock for this call's read. -/
  | stamp (c : Call)
  /-- The read's reply reaches the caller, who decides. -/
  | observe (c : Call)
  /-- The store performs this call's compare-and-swap. -/
  | swap (c : Call)
  /-- The reply of the compare-and-swap reaches the caller. -/
  | acknowledge (c : Call)
  /-- The caller stops waiting. A swap already on its way may still happen. -/
  | giveUp (c : Call)
  deriving DecidableEq, Repr

def World.begin (w : World) (c : Call) : World := { w with calls := c :: w.calls }

def World.finish (w : World) (c : Call) : World := { w with calls := w.calls.erase c }

def World.moveTo (w : World) (c : Call) (stage : Stage) : World :=
  (w.finish c).begin { c with stage := stage }

def World.committed (w : World) (c : Call) (next : Record) : World :=
  { w.moveTo c .swapped with revision := w.revision + 1, record := next }

def World.Releasing (w : World) (owner : Owner) : Prop :=
  ∃ c ∈ w.calls, c.kind = .release ∧ c.owner = owner ∧ c.waiting

instance (w : World) (owner : Owner) : Decidable (w.Releasing owner) :=
  inferInstanceAs (Decidable (∃ c ∈ w.calls, _))

def World.stop (w : World) (owner : Owner) : World :=
  { w with
    deadlines := w.deadlines.filter (fun p => p.1 ≠ owner)
    calls := w.calls.map (fun c => if c.owner = owner then { c with counted := false } else c) }

/-- What the caller does with a read's reply. -/
def World.decide (w : World) (c : Call) (observed : Observation) : World :=
  match c.kind with
  | .acquire ttl =>
    match acquireRecord c.owner ttl observed with
    | .error _ => w.finish c
    | .ok next => w.moveTo c (.swapping observed.revision next)
  | .release =>
    match releaseRecord c.owner observed with
    | .ok (some next) => w.moveTo c (.swapping observed.revision next)
    | _ => w.finish c
  -- whatever `confirmOwnerGone` concludes, it writes nothing
  | .confirmOwnerGone => w.finish c

/-- An action that does not apply changes nothing. -/
def World.step (offset : String → Int) (w : World) : Action → World
  | .tick d => { w with now := w.now + d }
  | .callAcquire owner ttl =>
    if ValidAcquire owner ttl then
      w.begin { owner := owner, kind := .acquire ttl, start := w.clock offset owner,
                counted := ¬ w.Releasing owner, waiting := true, stage := .reading none none }
    else w
  | .callRelease owner =>
    if validOwner owner then
      (w.stop owner).begin
        { owner := owner, kind := .release, start := w.clock offset owner, counted := false,
          waiting := true, stage := .reading none none }
    else w
  | .callConfirm owner =>
    if validOwner owner then
      w.begin { owner := owner, kind := .confirmOwnerGone, start := w.clock offset owner,
                counted := false, waiting := true, stage := .reading none none }
    else w
  | .lookUp c =>
    if c ∈ w.calls then
      match c.stage with
      | .reading none clock => w.moveTo c (.reading (some (w.revision, w.record)) clock)
      | _ => w
    else w
  | .stamp c =>
    if c ∈ w.calls then
      match c.stage with
      | .reading seen none => w.moveTo c (.reading seen (some (truncateSecond w.now)))
      | _ => w
    else w
  | .observe c =>
    if c ∈ w.calls then
      match c.stage with
      | .reading (some (revision, record)) (some now) => w.decide c ⟨record, revision, now⟩
      | _ => w
    else w
  | .swap c =>
    if c ∈ w.calls then
      match c.stage with
      | .swapping revision next =>
        if revision = w.revision then w.committed c next else w.finish c
      | _ => w
    else w
  | .acknowledge c =>
    if c ∈ w.calls ∧ c.waiting then
      match c.stage, c.kind with
      | .swapped, .acquire ttl =>
        if c.counted ∧ w.clock offset c.owner < c.deadline ttl then
          { w.finish c with deadlines := (c.owner, c.deadline ttl) :: w.deadlines }
        else w.finish c
      | .swapped, _ => w.finish c
      | _, _ => w
    else w
  | .giveUp c =>
    if c ∈ w.calls then
      match c.stage with
      | .swapping _ _ => (w.finish c).begin { c with counted := false, waiting := false }
      | _ => w.finish c
    else w

def World.run (offset : String → Int) (w : World) (actions : List Action) : World :=
  actions.foldl (World.step offset) w

/-- No call in flight and no deadline returned yet; the record may be anything. -/
def World.start (now : Int) (revision : Nat) (record : Record) : World :=
  { now := now, revision := revision, record := record, calls := [], deadlines := [] }

end Goobers.SharedClaim
