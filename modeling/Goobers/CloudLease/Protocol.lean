import Mathlib.Data.List.Basic

/-!
# Managers sharing one named lease

Any number of managers acquire, renew and release one named lease, which is a row of
`control.lease` and a row of `control.lease_heartbeat`. Whoever writes the heartbeat
row holds its lock until the transaction ends, so at most one transaction that has
locked it is open, and it is part of the state together with the values it has
scanned. A statement executes at a moment of the database's clock; its reply reaches
the manager any time later, or never. What a manager does with a reply uses its own
clock, which shows the database's with a constant offset.

`Acquire` stamps the heartbeat's expiry when the `UPDATE` executes, and starts the
handle's safety window when the reply of its last query is there. `Renew` does the same
with its one statement.

Instants and durations are nanoseconds. A `timestamptz` keeps microseconds, and so
does the interval a duration is sent as.
-/

namespace Goobers.CloudLease

/-! ## Configuration -/

def second : Int := 1000000000

def defaultTTL : Int := 15 * second

def defaultRenewInterval : Int := 5 * second

def defaultSelfFenceAfter : Int := 10 * second

def maxFencedConnections : Int := 4

/-- `pool` is the connection limit of the pool, if there is one. -/
structure Config where
  pool : Option Int
  instanceID : String
  name : String
  holder : String
  ttl : Int := 0
  renewInterval : Int := 0
  selfFenceAfter : Int := 0
  deriving DecidableEq, Repr

def Config.withDefaults (config : Config) : Config :=
  { config with
    ttl := if config.ttl = 0 then defaultTTL else config.ttl
    renewInterval := if config.renewInterval = 0 then defaultRenewInterval else config.renewInterval
    selfFenceAfter :=
      if config.selfFenceAfter = 0 then defaultSelfFenceAfter else config.selfFenceAfter }

/-- A manager has a configuration that `new` has checked. -/
structure Manager where
  config : Config
  pooled : ∃ maxConns ∈ config.pool, maxConns ≤ maxFencedConnections
  named : config.instanceID ≠ "" ∧ config.name ≠ "" ∧ config.holder ≠ ""
  positive : 0 < config.ttl ∧ 0 < config.renewInterval ∧ 0 < config.selfFenceAfter
  shorter : config.selfFenceAfter < config.ttl

def new (config : Config) : Except String Manager :=
  match hpool : config.pool with
  | none => .error "cloud lease pool is required"
  | some maxConns =>
    if hconns : maxFencedConnections < maxConns then
      .error ("cloud lease pool has " ++ toString maxConns ++ " connections, maximum is " ++
        toString maxFencedConnections)
    else if hnamed : config.instanceID = "" ∨ config.name = "" ∨ config.holder = "" then
      .error "cloud lease instance, name, and holder are required"
    else
      let checked := config.withDefaults
      if hpos : checked.ttl ≤ 0 ∨ checked.renewInterval ≤ 0 ∨ checked.selfFenceAfter ≤ 0 then
        .error "cloud lease durations must be positive"
      else if hshort : checked.ttl ≤ checked.selfFenceAfter then
        .error "cloud lease self-fence window must be shorter than the TTL"
      else
        .ok
          { config := checked
            pooled := ⟨maxConns, hpool, by omega⟩
            named := by simp only [not_or] at hnamed; exact hnamed
            positive := by simpa only [not_or, Int.not_le] using hpos
            shorter := by simpa only [Int.not_le] using hshort }

theorem Config.withDefaults_eq {config : Config} (h : 0 < config.ttl)
    (h' : 0 < config.renewInterval) (h'' : 0 < config.selfFenceAfter) :
    config.withDefaults = config := by
  unfold Config.withDefaults
  rw [if_neg (by omega), if_neg (by omega), if_neg (by omega)]

/-- `new` accepts the configuration of every manager, and changes nothing in it. -/
theorem new_config (m : Manager) : new m.config = .ok m := by
  obtain ⟨maxConns, hpool, hconns⟩ := m.pooled
  have hdefaults := Config.withDefaults_eq m.positive.1 m.positive.2.1 m.positive.2.2
  have hshort := m.shorter
  have hpos := m.positive
  unfold new
  split
  · rename_i hnone
    exact absurd (hnone.symm.trans hpool) (by simp)
  · rename_i n hn
    obtain rfl : n = maxConns := Option.some.inj (hn.symm.trans hpool)
    simp only [hdefaults]
    rw [dif_neg (by omega), dif_neg (by simpa only [not_or] using m.named), dif_neg (by omega),
      dif_neg (by omega)]

/-- The managers of one named lease, each with the offset of its clock. -/
structure Fleet (ι : Type) where
  manager : ι → Manager
  offset : ι → Int
  instance_eq : ∀ i j, (manager i).config.instanceID = (manager j).config.instanceID
  name_eq : ∀ i j, (manager i).config.name = (manager j).config.name

variable {ι : Type}

def Fleet.config (f : Fleet ι) (m : ι) : Config := (f.manager m).config

/-! ## Handles -/

/-- An acquired epoch. `lastRenew` is a reading of its manager's clock. -/
structure Handle (ι : Type) where
  manager : ι
  epoch : Nat
  lastRenew : Int
  deriving DecidableEq, Repr

def selfFenceRemaining (config : Config) (now : Int) (handle : Handle ι) : Int :=
  config.selfFenceAfter - (now - handle.lastRenew)

def selfFenced (config : Config) (now : Int) (handle : Handle ι) : Bool :=
  selfFenceRemaining config now handle ≤ 0

/-! ## The rows -/

/-- The row of `control.lease`. -/
structure Lease where
  holder : String := ""
  epoch : Nat := 0
  deriving DecidableEq, Repr

/-- The row of `control.lease_heartbeat`; no expiry is `-infinity`. -/
structure Heartbeat where
  holder : String := ""
  epoch : Nat := 0
  /-- In microseconds. -/
  expiresAt : Option Int := none
  deriving DecidableEq, Repr

/-- What a nanosecond value is in the database. -/
def micros (t : Int) : Int := t / 1000

def Heartbeat.expired (row : Heartbeat) (clock : Int) : Bool :=
  match row.expiresAt with
  | none => true
  | some x => x < clock

def Heartbeat.live (row : Heartbeat) (clock : Int) : Bool :=
  match row.expiresAt with
  | none => false
  | some x => clock < x

/-! ## The protocol -/

/-- The transaction that has the row locked. -/
inductive Transaction (ι : Type) where
  /-- `Acquire` has scanned `holder` and decided to take over. -/
  | acquiring (manager : ι) (holder : String)
  /-- `Acquire` has updated both rows, the heartbeat at the moment `stamp`. -/
  | acquired (manager : ι) (holder : String) (epoch : Nat) (stamp : Int)
  /-- `Release` has found its handle's holder and epoch. -/
  | releasing (manager : ι) (epoch : Nat)
  /-- `Release` has updated both rows. -/
  | released (epoch : Nat)
  deriving DecidableEq, Repr

inductive Stage where
  /-- `Acquire` has committed; its verification has not executed. -/
  | committed (stamp : Int)
  /-- `Acquire`'s verification has found its own live row; the reply is on its way. -/
  | verified (stamp : Int)
  /-- `Renew` has updated the heartbeat; the reply is on its way. -/
  | renewed (stamp : Int)
  /-- `Release` has begun and has not locked the heartbeat. -/
  | release
  deriving DecidableEq, Repr

structure Call (ι : Type) where
  manager : ι
  epoch : Nat
  stage : Stage
  deriving DecidableEq, Repr

/-- The row, its lock, the calls in flight and the handles given out. -/
structure World (ι : Type) where
  now : Int
  lease : Lease
  heartbeat : Heartbeat
  /-- The lock of the heartbeat row. -/
  lock : Option (Transaction ι)
  calls : List (Call ι)
  handles : List (Handle ι)
  deriving DecidableEq, Repr

/-- `EnsureRows` on a database without the rows. -/
def World.start (now : Int) : World ι :=
  { now := now, lease := {}, heartbeat := {}, lock := none, calls := [], handles := [] }

def World.clockTimestamp (w : World ι) : Int := micros w.now

/-- A manager's `Now()`. -/
def Fleet.clock (f : Fleet ι) (w : World ι) (m : ι) : Int := w.now + f.offset m

def Fleet.selfFenced (f : Fleet ι) (w : World ι) (handle : Handle ι) : Bool :=
  CloudLease.selfFenced (f.config handle.manager) (f.clock w handle.manager) handle

inductive Action (ι : Type) where
  | tick (d : Nat)
  /-- `Acquire` locks and reads the heartbeat, and decides. -/
  | lockForAcquire (m : ι)
  /-- The open transaction executes its updates. -/
  | update
  /-- The open transaction commits. -/
  | commit
  /-- The open transaction ends without effect. -/
  | rollback
  /-- `Acquire`'s verification executes. -/
  | verify (c : Call ι)
  /-- `Renew`'s statement executes. -/
  | renew (handle : Handle ι)
  | callRelease (handle : Handle ι)
  /-- `Release` locks and reads the heartbeat, and compares. -/
  | lockForRelease (c : Call ι)
  /-- The manager processes the reply. -/
  | reply (c : Call ι)
  /-- The reply never arrives, or nobody waits for it. -/
  | lose (c : Call ι)
  deriving DecidableEq, Repr

def World.begin (w : World ι) (c : Call ι) : World ι := { w with calls := c :: w.calls }

variable [DecidableEq ι]

def World.finish (w : World ι) (c : Call ι) : World ι := { w with calls := w.calls.erase c }

def World.lockForAcquire (w : World ι) (m : ι) : World ι :=
  let row := w.heartbeat
  -- a row somebody holds and that has not expired is `ErrHeld`
  if row.holder ≠ "" ∧ row.expired w.clockTimestamp = false then w
  else { w with lock := some (.acquiring m row.holder) }

/-- The updates of the open transaction, uncommitted. -/
def World.update (f : Fleet ι) (w : World ι) : World ι :=
  match w.lock with
  | some (.acquiring m holder) =>
    { w with lock := some (.acquired m holder (w.lease.epoch + 1) w.now) }
  | some (.releasing m epoch) =>
    match w.handles.find? (fun handle => handle.manager = m ∧ handle.epoch = epoch) with
    | none => w
    | some handle =>
      -- the window is checked again under the lock, and `control.lease` must match
      if f.selfFenced w handle = false ∧ w.lease.holder = (f.config m).holder ∧
          w.lease.epoch = epoch then
        { w with lock := some (.released epoch) }
      else { w with lock := none }
  | _ => w

def World.commit (f : Fleet ι) (w : World ι) : World ι :=
  match w.lock with
  | some (.acquired m _ epoch stamp) =>
    let holder := (f.config m).holder
    { w with
      lease := { holder := holder, epoch := epoch }
      heartbeat :=
        { holder := holder, epoch := epoch
          expiresAt := some (micros stamp + micros (f.config m).ttl) }
      lock := none
      calls := { manager := m, epoch := epoch, stage := .committed stamp } :: w.calls }
  | some (.released epoch) =>
    { w with
      lease := { holder := "", epoch := epoch + 1 }
      heartbeat := { holder := "", epoch := epoch + 1, expiresAt := none }
      lock := none }
  | _ => w

/-- The row is this holder's, under this epoch. -/
def World.Owns (f : Fleet ι) (w : World ι) (m : ι) (epoch : Nat) : Prop :=
  w.heartbeat.holder = (f.config m).holder ∧ w.heartbeat.epoch = epoch

instance (f : Fleet ι) (w : World ι) (m : ι) (epoch : Nat) : Decidable (w.Owns f m epoch) :=
  inferInstanceAs (Decidable (_ ∧ _))

def World.verify (f : Fleet ι) (w : World ι) (c : Call ι) (stamp : Int) : World ι :=
  if w.Owns f c.manager c.epoch ∧ w.heartbeat.live w.clockTimestamp then
    (w.finish c).begin { c with stage := .verified stamp }
  else w.finish c

def World.renew (f : Fleet ι) (w : World ι) (handle : Handle ι) : World ι :=
  if w.Owns f handle.manager handle.epoch then
    { w with
      heartbeat :=
        { w.heartbeat with
          expiresAt := some (w.clockTimestamp + micros (f.config handle.manager).ttl) }
      calls :=
        { manager := handle.manager, epoch := handle.epoch, stage := .renewed w.now } :: w.calls }
  else w

def World.lockForRelease (f : Fleet ι) (w : World ι) (c : Call ι) : World ι :=
  if w.Owns f c.manager c.epoch then
    { w.finish c with lock := some (.releasing c.manager c.epoch) }
  else w.finish c

def World.reply (f : Fleet ι) (w : World ι) (c : Call ι) : World ι :=
  match c.stage with
  | .verified _ =>
    { w.finish c with
      handles :=
        { manager := c.manager, epoch := c.epoch, lastRenew := f.clock w c.manager } ::
          w.handles }
  | .renewed _ =>
    { w.finish c with
      handles := w.handles.map fun handle =>
        if handle.manager = c.manager ∧ handle.epoch = c.epoch then
          { handle with lastRenew := f.clock w c.manager }
        else handle }
  | _ => w

/-- An action that does not apply changes nothing. -/
def World.step (f : Fleet ι) (w : World ι) : Action ι → World ι
  | .tick d => { w with now := w.now + d }
  | .lockForAcquire m => if w.lock = none then w.lockForAcquire m else w
  | .update => w.update f
  | .commit => w.commit f
  | .rollback => { w with lock := none }
  | .verify c =>
    if c ∈ w.calls then
      match c.stage with
      | .committed stamp => w.verify f c stamp
      | _ => w
    else w
  -- a statement that writes the row waits for the lock
  | .renew handle => if handle ∈ w.handles ∧ w.lock = none then w.renew f handle else w
  | .callRelease handle =>
    if handle ∈ w.handles ∧ f.selfFenced w handle = false then
      w.begin { manager := handle.manager, epoch := handle.epoch, stage := .release }
    else w
  | .lockForRelease c =>
    if c ∈ w.calls ∧ c.stage = .release ∧ w.lock = none then w.lockForRelease f c else w
  | .reply c => if c ∈ w.calls then w.reply f c else w
  | .lose c => w.finish c

def World.run (f : Fleet ι) (w : World ι) (actions : List (Action ι)) : World ι :=
  actions.foldl (World.step f) w

end Goobers.CloudLease
