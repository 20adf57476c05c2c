import Goobers.CloudLease.Protocol
import Goobers.Lib.Runs

/-!
# A takeover finds every earlier handle self-fenced

The database lets the lease expire a TTL after the moment it stamped the heartbeat. A
handle's safety window begins when the reply is processed, so it ends a TTL or less
after the stamp only if the reply is processed within the difference between the TTL
and the window. A reply that takes longer leaves its handle unfenced when somebody
else takes the lease over.

The invariant speaks of `last`, the moment of the latest stamp. The expiry is a TTL
after `last`, and no window ends later than that. When the row is found expired, every
window has therefore ended, and no stamp is recent enough for its reply to be
processed in time. The lock keeps it so until the takeover commits, and afterwards a
statement of an earlier epoch finds another epoch in the row.
-/

namespace Goobers.CloudLease

open Lib World

variable {ι : Type} {f : Fleet ι} {w w' : World ι} {last : Int} {E : Nat}

/-- When the database executed the statement this call waits for. -/
def Stage.stamp : Stage → Option Int
  | .committed stamp => some stamp
  | .verified stamp => some stamp
  | .renewed stamp => some stamp
  | .release => none

/-- One microsecond, in nanoseconds: the precision of the database. -/
def microsecond : Int := 1000

/--
A reply is processed in time: the delay since the stamp is at most what a TTL, of
whatever manager, is longer than the manager's own safety window, less a microsecond.
-/
def Fleet.Prompt (f : Fleet ι) (w : World ι) : Action ι → Prop
  | .reply c => ∀ stamp ∈ c.stage.stamp, ∀ k,
      w.now - stamp ≤ (f.config k).ttl - (f.config c.manager).selfFenceAfter - microsecond
  | _ => True

/-- When the handle's safety window ends, on the database's clock. -/
def Fleet.windowEnd (f : Fleet ι) (handle : Handle ι) : Int :=
  handle.lastRenew - f.offset handle.manager + (f.config handle.manager).selfFenceAfter

theorem selfFenced_iff {handle : Handle ι} :
    f.selfFenced w handle = true ↔ f.windowEnd handle ≤ w.now := by
  unfold Fleet.selfFenced CloudLease.selfFenced selfFenceRemaining Fleet.clock Fleet.windowEnd
  rw [decide_eq_true_iff]
  omega

theorem ttl_lt_of_expired {ttl : Int} (h : micros last + micros ttl < w.clockTimestamp) :
    last + ttl < w.now + microsecond := by
  unfold clockTimestamp micros at h
  unfold microsecond
  omega

/-! ## What a step does -/

/-- Nothing is written, stamped or told: at most time passes, calls end and a lock is given up
or taken for a release. -/
structure Calm (w w' : World ι) : Prop where
  now : w.now ≤ w'.now
  lease : w'.lease = w.lease
  heartbeat : w'.heartbeat = w.heartbeat
  handles : w'.handles = w.handles
  calls : ∀ c' ∈ w'.calls, ∀ stamp ∈ c'.stage.stamp, ∃ c ∈ w.calls,
    c.manager = c'.manager ∧ c.epoch = c'.epoch ∧ stamp ∈ c.stage.stamp
  lock : w'.lock = w.lock ∨ w'.lock = none ∨ ∃ m epoch, w'.lock = some (.releasing m epoch)

theorem Calm.refl (w : World ι) : Calm w w :=
  ⟨Int.le_refl _, rfl, rfl, rfl, fun c hc _ hs => ⟨c, hc, rfl, rfl, hs⟩, .inl rfl⟩

/-- What one action can do, with what is known when it does. -/
inductive Effect [DecidableEq ι] (f : Fleet ι) (w : World ι) : World ι → Prop
  | calm {w' : World ι} (h : Calm w w') : Effect f w w'
  | decided (m : ι) (hlock : w.lock = none)
      (h : w.heartbeat.holder ≠ "" → w.heartbeat.expired w.clockTimestamp = true) :
      Effect f w { w with lock := some (.acquiring m w.heartbeat.holder) }
  | acquired (m : ι) (holder : String) (hlock : w.lock = some (.acquiring m holder)) :
      Effect f w { w with lock := some (.acquired m holder (w.lease.epoch + 1) w.now) }
  | released (epoch : Nat) (h : w.lease.epoch = epoch) :
      Effect f w { w with lock := some (.released epoch) }
  | committedAcquire (m : ι) (holder : String) (epoch : Nat) (stamp : Int)
      (hlock : w.lock = some (.acquired m holder epoch stamp)) : Effect f w (w.commit f)
  | committedRelease (epoch : Nat) (hlock : w.lock = some (.released epoch)) :
      Effect f w (w.commit f)
  | renewed (handle : Handle ι) (hlock : w.lock = none)
      (h : w.Owns f handle.manager handle.epoch) : Effect f w (w.renew f handle)
  | replied (c : Call ι) (stamp : Int) (hc : c ∈ w.calls) (hstamp : stamp ∈ c.stage.stamp)
      (hprompt : ∀ k,
        w.now - stamp ≤ (f.config k).ttl - (f.config c.manager).selfFenceAfter - microsecond) :
      Effect f w (w.reply f c)

section

variable [DecidableEq ι]

theorem calm_finish (c : Call ι) : Calm w (w.finish c) :=
  ⟨Int.le_refl _, rfl, rfl, rfl,
    fun c' hc' _ hs => ⟨c', List.mem_of_mem_erase hc', rfl, rfl, hs⟩, .inl rfl⟩

theorem effect_update (f : Fleet ι) (w : World ι) : Effect f w (w.update f) := by
  unfold update
  split
  · rename_i m holder hlock
    exact .acquired m holder hlock
  · rename_i m epoch hlock
    split
    · exact .calm (Calm.refl w)
    · split_ifs with h
      · exact .released epoch h.2.2
      · exact .calm { Calm.refl w with lock := .inr (.inl rfl) }
  · exact .calm (Calm.refl w)

theorem effect_commit (f : Fleet ι) (w : World ι) : Effect f w (w.commit f) := by
  cases hlock : w.lock with
  | none => exact .calm (by simpa [commit, hlock] using Calm.refl w)
  | some tx =>
    cases tx with
    | acquiring m holder
    | releasing m epoch => exact .calm (by simpa [commit, hlock] using Calm.refl w)
    | acquired m holder epoch stamp => exact .committedAcquire m holder epoch stamp hlock
    | released epoch => exact .committedRelease epoch hlock

theorem calm_verify {c : Call ι} {stamp : Int} (hc : c ∈ w.calls)
    (hstage : c.stage = .committed stamp) : Calm w (w.verify f c stamp) := by
  unfold verify
  split
  · refine { calm_finish c with calls := ?_ }
    intro c' hc' s hs
    rcases List.mem_cons.mp hc' with rfl | hc'
    · exact ⟨c, hc, rfl, rfl, by simpa [hstage, Stage.stamp] using hs⟩
    · exact (calm_finish c).calls c' hc' s hs
  · exact calm_finish c

omit [DecidableEq ι] in
theorem calm_callRelease (m : ι) (epoch : Nat) :
    Calm w (w.begin { manager := m, epoch := epoch, stage := .release }) := by
  refine { Calm.refl w with calls := ?_ }
  intro c' hc' s hs
  rcases List.mem_cons.mp hc' with rfl | hc'
  · simp [Stage.stamp] at hs
  · exact ⟨c', hc', rfl, rfl, hs⟩

theorem calm_lockForRelease (c : Call ι) : Calm w (w.lockForRelease f c) := by
  unfold lockForRelease
  split
  · exact { calm_finish c with lock := .inr (.inr ⟨c.manager, c.epoch, rfl⟩) }
  · exact calm_finish c

/-- All that an action does to the rows and the handles; the invariants follow from it. -/
theorem step_effect {a : Action ι} (hprompt : f.Prompt w a) : Effect f w (w.step f a) := by
  cases a with
  | tick d =>
    refine .calm { Calm.refl w with now := ?_ }
    show w.now ≤ w.now + d
    omega
  | lockForAcquire m =>
    -- a lease that somebody holds is only taken when it has run out
    simp only [step, lockForAcquire]
    split
    · rename_i hlock
      split_ifs with h
      · exact .calm (Calm.refl w)
      · exact .decided m hlock (fun hheld => by simpa [hheld] using h)
    · exact .calm (Calm.refl w)
  | update => exact effect_update f w
  | commit => exact effect_commit f w
  | rollback => exact .calm { Calm.refl w with lock := .inr (.inl rfl) }
  | verify c =>
    simp only [step]
    split_ifs with hc
    · split
      · rename_i stamp hstage
        exact .calm (calm_verify hc hstage)
      · exact .calm (Calm.refl w)
    · exact .calm (Calm.refl w)
  | renew handle =>
    simp only [step]
    split_ifs with h
    · by_cases howns : w.Owns f handle.manager handle.epoch
      · exact .renewed handle h.2 howns
      · exact .calm (by simpa [renew, howns] using Calm.refl w)
    · exact .calm (Calm.refl w)
  | callRelease handle =>
    simp only [step]
    split
    · exact .calm (calm_callRelease handle.manager handle.epoch)
    · exact .calm (Calm.refl w)
  | lockForRelease c =>
    simp only [step]
    split
    · exact .calm (calm_lockForRelease c)
    · exact .calm (Calm.refl w)
  | reply c =>
    -- a release has no stamp and tells its caller nothing new
    simp only [step]
    split_ifs with hc
    · cases hstamp : c.stage.stamp with
      | none =>
        have hrelease : c.stage = .release := by
          cases hs : c.stage <;> simp [hs, Stage.stamp] at hstamp
          rfl
        exact .calm (by simpa [reply, hrelease] using Calm.refl w)
      | some stamp => exact .replied c stamp hc hstamp (hprompt stamp hstamp)
    · exact .calm (Calm.refl w)
  | lose c => exact .calm (calm_finish c)

/-- A handle comes with the reply, and its window is counted from then. -/
theorem mem_handles_reply {c : Call ι} {handle : Handle ι} (h : handle ∈ (w.reply f c).handles) :
    handle ∈ w.handles ∨ (handle.manager = c.manager ∧ handle.epoch = c.epoch ∧
      f.windowEnd handle = w.now + (f.config c.manager).selfFenceAfter) := by
  unfold reply at h
  split at h
  · rcases List.mem_cons.mp h with rfl | h
    · refine .inr ⟨rfl, rfl, ?_⟩
      simp only [Fleet.windowEnd, Fleet.clock]
      omega
    · exact .inl h
  · obtain ⟨old, hold, rfl⟩ := List.mem_map.mp h
    split_ifs with hsame
    · refine .inr ⟨hsame.1, hsame.2, ?_⟩
      simp only [Fleet.windowEnd, Fleet.clock, hsame.1]
      omega
    · exact .inl hold
  · exact .inl h

theorem mem_calls_reply {c c' : Call ι} (h : c' ∈ (w.reply f c).calls) : c' ∈ w.calls := by
  unfold reply at h
  split at h
  · exact List.mem_of_mem_erase h
  · exact List.mem_of_mem_erase h
  · exact h

@[simp]
theorem reply_now (c : Call ι) : (w.reply f c).now = w.now := by
  unfold reply
  split <;> rfl

@[simp]
theorem reply_lease (c : Call ι) : (w.reply f c).lease = w.lease := by
  unfold reply
  split <;> rfl

@[simp]
theorem reply_heartbeat (c : Call ι) : (w.reply f c).heartbeat = w.heartbeat := by
  unfold reply
  split <;> rfl

@[simp]
theorem reply_lock (c : Call ι) : (w.reply f c).lock = w.lock := by
  unfold reply
  split <;> rfl

end

/-! ## The invariant -/

/-- The epochs before `E` are over: their windows have ended, and no reply can begin another one
in time. -/
structure Overtaken (f : Fleet ι) (E : Nat) (w : World ι) : Prop where
  handles : ∀ handle ∈ w.handles, handle.epoch < E → f.windowEnd handle ≤ w.now
  calls : ∀ c ∈ w.calls, c.epoch < E → ∀ stamp ∈ c.stage.stamp, ∃ k,
    stamp + (f.config k).ttl < w.now + (f.config c.manager).selfFenceAfter + microsecond

/-- The open transaction is taking over a lease somebody held. -/
def World.TakingOver (w : World ι) : Prop :=
  ∃ m holder, holder ≠ "" ∧ (w.lock = some (.acquiring m holder) ∨
    ∃ epoch stamp, w.lock = some (.acquired m holder epoch stamp))

/-- The rows and the windows against the instant of the last stamp. -/
structure Stamped (f : Fleet ι) (last : Int) (w : World ι) : Prop where
  past : last ≤ w.now
  rows : w.lease.epoch = w.heartbeat.epoch
  held : w.heartbeat.holder ≠ "" → w.heartbeat.expiresAt ≠ none
  expiry : ∀ x, w.heartbeat.expiresAt = some x →
    ∃ k, x = micros last + micros (f.config k).ttl
  calls : ∀ c ∈ w.calls, ∀ stamp ∈ c.stage.stamp, stamp ≤ last
  windows : ∀ handle ∈ w.handles, ∀ k,
    f.windowEnd handle + microsecond ≤ last + (f.config k).ttl
  acquired : ∀ m holder epoch stamp, w.lock = some (.acquired m holder epoch stamp) →
    last ≤ stamp ∧ stamp ≤ w.now ∧ epoch = w.lease.epoch + 1
  released : ∀ epoch, w.lock = some (.released epoch) → epoch = w.lease.epoch
  overtaken : w.TakingOver → Overtaken f (w.heartbeat.epoch + 1) w

/-- What holds of every state that a run with prompt replies reaches. -/
def Inv (f : Fleet ι) (w : World ι) : Prop := ∃ last, Stamped f last w

theorem Stamped.unlocked (hlock : w.lock = none) (past : last ≤ w.now)
    (rows : w.lease.epoch = w.heartbeat.epoch)
    (held : w.heartbeat.holder ≠ "" → w.heartbeat.expiresAt ≠ none)
    (expiry : ∀ x, w.heartbeat.expiresAt = some x →
      ∃ k, x = micros last + micros (f.config k).ttl)
    (calls : ∀ c ∈ w.calls, ∀ stamp ∈ c.stage.stamp, stamp ≤ last)
    (windows : ∀ handle ∈ w.handles, ∀ k,
      f.windowEnd handle + microsecond ≤ last + (f.config k).ttl) : Stamped f last w where
  past := past
  rows := rows
  held := held
  expiry := expiry
  calls := calls
  windows := windows
  acquired := by intro m holder epoch stamp hl; simp [hlock] at hl
  released := by intro epoch hl; simp [hlock] at hl
  overtaken := by rintro ⟨m, holder, _, hl | ⟨epoch, stamp, hl⟩⟩ <;> simp [hlock] at hl

theorem inv_start (f : Fleet ι) (now : Int) : Inv f (start now) := by
  refine ⟨now, .unlocked rfl (Int.le_refl _) rfl (fun h => absurd rfl h) ?_ ?_ ?_⟩
  · intro x hx; simp [start] at hx
  · intro c hc; simp [start] at hc
  · intro handle hh; simp [start] at hh

/-- A heartbeat that has run out is older than every window granted with it. -/
theorem Stamped.overtaken_of_expired (h : Stamped f last w) (hx : w.heartbeat.expiresAt ≠ none)
    (hexp : w.heartbeat.expired w.clockTimestamp = true) : Overtaken f E w := by
  obtain ⟨x, hx⟩ := Option.ne_none_iff_exists'.mp hx
  obtain ⟨k, rfl⟩ := h.expiry x hx
  have hend : last + (f.config k).ttl < w.now + microsecond := by
    refine ttl_lt_of_expired ?_
    simpa [Heartbeat.expired, hx] using hexp
  refine ⟨fun handle hh _ => ?_, fun c hc _ stamp hs => ⟨k, ?_⟩⟩
  · have := h.windows handle hh k
    omega
  · have hpos := (f.manager c.manager).positive.2.2
    have := h.calls c hc stamp hs
    change 0 < (f.config c.manager).selfFenceAfter at hpos
    omega

theorem Overtaken.calm (h : Overtaken f E w) (hcalm : Calm w w') : Overtaken f E w' := by
  have hnow := hcalm.now
  refine ⟨fun handle hh hE => ?_, fun c' hc' hE stamp hs => ?_⟩
  · have := h.handles handle (hcalm.handles ▸ hh) hE
    omega
  · obtain ⟨c, hc, hm, he, hs⟩ := hcalm.calls c' hc' stamp hs
    obtain ⟨k, hk⟩ := h.calls c hc (he ▸ hE) stamp hs
    rw [hm] at hk
    exact ⟨k, by omega⟩

theorem TakingOver.lock_ne_none (h : w.TakingOver) : w.lock ≠ none := by
  obtain ⟨m, holder, _, hl | ⟨epoch, stamp, hl⟩⟩ := h <;> simp [hl]

theorem Calm.takingOver (hcalm : Calm w w') (ht : w'.TakingOver) : w.TakingOver := by
  obtain ⟨m, holder, hne, hl⟩ := ht
  rcases hcalm.lock with hlock | hlock | ⟨m', epoch', hlock⟩
  · exact ⟨m, holder, hne, hlock ▸ hl⟩
  · simp [hlock] at hl
  · simp [hlock] at hl

theorem Stamped.calm (h : Stamped f last w) (hcalm : Calm w w') : Stamped f last w' := by
  have hnow := hcalm.now
  have hpast := h.past
  refine ⟨by omega, ?_, ?_, ?_, ?_, ?_, ?_, ?_, ?_⟩
  · rw [hcalm.lease, hcalm.heartbeat, h.rows]
  · rw [hcalm.heartbeat]
    exact h.held
  · rw [hcalm.heartbeat]
    exact h.expiry
  · intro c' hc' stamp hs
    obtain ⟨c, hc, _, _, hs⟩ := hcalm.calls c' hc' stamp hs
    exact h.calls c hc stamp hs
  · rw [hcalm.handles]
    exact h.windows
  · intro m holder epoch stamp hl
    rcases hcalm.lock with hlock | hlock | ⟨m', epoch', hlock⟩
    · obtain ⟨h₁, h₂, h₃⟩ := h.acquired m holder epoch stamp (hlock ▸ hl)
      exact ⟨h₁, by omega, by rw [hcalm.lease]; exact h₃⟩
    · simp [hlock] at hl
    · simp [hlock] at hl
  · intro epoch hl
    rcases hcalm.lock with hlock | hlock | ⟨m', epoch', hlock⟩
    · rw [hcalm.lease]
      exact h.released epoch (hlock ▸ hl)
    · simp [hlock] at hl
    · simp [hlock] at hl
  · intro ht
    rw [hcalm.heartbeat]
    exact (h.overtaken (hcalm.takingOver ht)).calm hcalm

section

variable [DecidableEq ι]

theorem Effect.epoch_le (he : Effect f w w') (h : Stamped f last w) :
    w.heartbeat.epoch ≤ w'.heartbeat.epoch := by
  have hrows := h.rows
  cases he with
  | calm hcalm => exact Nat.le_of_eq (by rw [hcalm.heartbeat])
  | decided | acquired | released => exact Nat.le_refl _
  | committedAcquire m holder epoch stamp hlock =>
    have := (h.acquired m holder epoch stamp hlock).2.2
    simp only [commit, hlock]
    omega
  | committedRelease epoch hlock =>
    have := h.released epoch hlock
    simp only [commit, hlock]
    omega
  | renewed handle hlock howns => simp [renew, howns]
  | replied c => simp

/--
Epochs that are over stay over. `hE` says why no statement of such an epoch can stamp the
heartbeat: the row has moved on, or it is locked by a transaction that moves it on.
-/
theorem Effect.overtaken (he : Effect f w w') (h : Stamped f last w) (ho : Overtaken f E w)
    (hE : E ≤ w.heartbeat.epoch ∨ (E ≤ w.heartbeat.epoch + 1 ∧ w.lock ≠ none)) :
    Overtaken f E w' := by
  cases he with
  | calm hcalm => exact ho.calm hcalm
  | decided | acquired | released => exact ⟨ho.handles, ho.calls⟩
  | committedAcquire m holder epoch stamp hlock =>
    have hepoch := (h.acquired m holder epoch stamp hlock).2.2
    have hrows := h.rows
    simp only [commit, hlock]
    exact ⟨ho.handles, List.forall_mem_cons.mpr
      ⟨fun hlt => absurd hlt (by dsimp only; omega), ho.calls⟩⟩
  | committedRelease epoch hlock =>
    simp only [commit, hlock]
    exact ⟨ho.handles, ho.calls⟩
  | renewed handle hlock howns =>
    simp only [renew, howns]
    refine ⟨ho.handles, fun c hc hlt => ?_⟩
    rcases List.mem_cons.mp hc with rfl | hc
    · have hown : w.heartbeat.epoch = handle.epoch := howns.2
      have hcur : E ≤ w.heartbeat.epoch := hE.resolve_right (fun hl => hl.2 hlock)
      exact absurd hlt (by dsimp only; omega)
    · exact ho.calls c hc hlt
  | replied c stamp hc hstamp hprompt =>
    refine ⟨fun handle hh hlt => ?_, fun c' hc' hlt => ?_⟩
    · rw [reply_now]
      rcases mem_handles_reply hh with hh | ⟨_, he, _⟩
      · exact ho.handles handle hh hlt
      · -- a reply of an epoch that is over would be late
        obtain ⟨k, hk⟩ := ho.calls c hc (he ▸ hlt) stamp hstamp
        have := hprompt k
        omega
    · rw [reply_now]
      exact ho.calls c' (mem_calls_reply hc') hlt

theorem Effect.overtaken_of_takingOver (he : Effect f w w') (h : Stamped f last w)
    (hrow : w'.heartbeat.epoch = w.heartbeat.epoch) (ht : w.TakingOver) :
    Overtaken f (w'.heartbeat.epoch + 1) w' := by
  rw [hrow]
  exact he.overtaken h (h.overtaken ht) (.inr ⟨Nat.le_refl _, TakingOver.lock_ne_none ht⟩)

/-- Each effect keeps the invariant; the takeover is the case with content. -/
theorem Effect.inv (he : Effect f w w') (h : Inv f w) : Inv f w' := by
  obtain ⟨last, h⟩ := h
  have hpast := h.past
  have hover := he.overtaken_of_takingOver h
  cases he with
  | calm hcalm => exact ⟨last, h.calm hcalm⟩
  | decided m hlock hexp =>
    -- the old lease has run out, so every window granted under it is over
    refine ⟨last, { h with acquired := ?_, released := ?_, overtaken := ?_ }⟩
    · intro m' holder epoch stamp hl
      simp at hl
    · intro epoch hl
      simp at hl
    · rintro ⟨m', holder, hne, hl | ⟨epoch, stamp, hl⟩⟩
      · injection hl with hl
        injection hl with _ hholder
        subst hholder
        have hover : Overtaken f (w.heartbeat.epoch + 1) w :=
          h.overtaken_of_expired (h.held hne) (hexp hne)
        exact ⟨hover.handles, hover.calls⟩
      · simp at hl
  | acquired m holder hlock =>
    refine ⟨last, { h with acquired := ?_, released := ?_, overtaken := ?_ }⟩
    · intro m' holder' epoch stamp hl
      injection hl with hl
      injection hl with _ _ hepoch hstamp
      subst hepoch hstamp
      exact ⟨hpast, Int.le_refl _, rfl⟩
    · intro epoch hl
      simp at hl
    · rintro ⟨m', holder', hne, hl | ⟨epoch, stamp, hl⟩⟩
      · simp at hl
      · injection hl with hl
        injection hl with _ hholder
        subst hholder
        exact hover rfl ⟨m, holder, hne, .inl hlock⟩
  | released epoch hepoch =>
    refine ⟨last, { h with acquired := ?_, released := ?_, overtaken := ?_ }⟩
    · intro m' holder epoch stamp hl
      simp at hl
    · intro epoch' hl
      injection hl with hl
      injection hl with hl
      exact hl.symm.trans hepoch.symm
    · rintro ⟨m', holder, _, hl | ⟨epoch, stamp, hl⟩⟩ <;> simp at hl
  | committedAcquire m holder epoch stamp hlock =>
    -- the new row is stamped with the instant of the transaction
    obtain ⟨hlast, hstamp, _⟩ := h.acquired m holder epoch stamp hlock
    simp only [commit, hlock]
    refine ⟨stamp, .unlocked rfl hstamp rfl (fun _ => by simp) ?_ ?_ ?_⟩
    · intro x hx
      injection hx with hx
      exact ⟨m, hx.symm⟩
    · intro c hc s hs
      rcases List.mem_cons.mp hc with rfl | hc
      · injection hs with hs
        omega
      · have := h.calls c hc s hs
        omega
    · intro handle hh k
      have := h.windows handle hh k
      omega
  | committedRelease epoch hlock =>
    simp only [commit, hlock]
    refine ⟨last, .unlocked rfl hpast rfl (fun hne => absurd rfl hne) ?_ h.calls h.windows⟩
    · intro x hx
      simp at hx
  | renewed handle hlock howns =>
    simp only [renew, howns]
    refine ⟨w.now, .unlocked hlock (Int.le_refl _) h.rows (fun _ => by simp) ?_ ?_ ?_⟩
    · intro x hx
      injection hx with hx
      exact ⟨handle.manager, hx.symm⟩
    · intro c hc s hs
      rcases List.mem_cons.mp hc with rfl | hc
      · injection hs with hs
        omega
      · have := h.calls c hc s hs
        omega
    · intro handle' hh k
      have := h.windows handle' hh k
      omega
  | replied c stamp hc hstamp hprompt =>
    -- a prompt reply begins its window before the row runs out
    refine ⟨last, by simpa using hpast, by simpa using h.rows, by simpa using h.held,
      by simpa using h.expiry, ?_, ?_, by simpa using h.acquired, by simpa using h.released, ?_⟩
    · exact fun c' hc' => h.calls c' (mem_calls_reply hc')
    · intro handle hh k
      rcases mem_handles_reply hh with hh | ⟨_, _, hend⟩
      · exact h.windows handle hh k
      · have := h.calls c hc stamp hstamp
        have := hprompt k
        omega
    · rintro ⟨m', holder', hne, hl⟩
      exact hover (by simp) ⟨m', holder', hne, by simpa using hl⟩

/-! ## Every run -/

theorem inv_run (h : Inv f w) {actions : List (Action ι)}
    (hprompt : Along (step f) f.Prompt w actions) : Inv f (w.run f actions) := by
  have hstep : ∀ w a, f.Prompt w a → Inv f w → Inv f (w.step f a) :=
    fun w a hp hi => (step_effect hp).inv hi
  exact Along.inv hstep h hprompt

/-- Once its epoch is overtaken a handle stays out of its window. -/
theorem overtaken_run (h : Inv f w) (ho : Overtaken f E w) (hE : E ≤ w.heartbeat.epoch)
    {actions : List (Action ι)} (hprompt : Along (step f) f.Prompt w actions) :
    Overtaken f E (w.run f actions) := by
  have hstep : ∀ w a, f.Prompt w a →
      (Inv f w ∧ Overtaken f E w ∧ E ≤ w.heartbeat.epoch) →
      Inv f (w.step f a) ∧ Overtaken f E (w.step f a) ∧ E ≤ (w.step f a).heartbeat.epoch := by
    rintro w a hp ⟨hi, ho, hE⟩
    obtain ⟨last, hs⟩ := hi
    have he := step_effect hp
    exact ⟨he.inv ⟨last, hs⟩, he.overtaken hs ho (.inl hE), Nat.le_trans hE (he.epoch_le hs)⟩
  exact (Along.inv hstep ⟨h, ho, hE⟩ hprompt).2.1

/--
**Takeover safety.** Any number of managers share a lease, each with a configuration that
`New` accepts. In a run in which every reply is processed in time, a transaction of `Acquire`
that found the lease held and expired commits. Then, at that moment and at any later one, every
handle of an earlier epoch is self-fenced.
-/
theorem selfFenced_of_takeover (f : Fleet ι) (now : Int) (before after : List (Action ι))
    (hprompt : Along (World.step f) f.Prompt (World.start now) (before ++ .commit :: after))
    {m : ι} {holder : String} {epoch : Nat} {stamp : Int}
    (hlock : ((World.start now).run f before).lock = some (.acquired m holder epoch stamp))
    (hexpired : holder ≠ "") :
    ∀ handle ∈ ((World.start now).run f (before ++ .commit :: after)).handles,
      handle.epoch < epoch →
        f.selfFenced ((World.start now).run f (before ++ .commit :: after)) handle = true := by
  obtain ⟨hbefore, hcommit, hafter⟩ := along_append.mp hprompt
  obtain ⟨last, hs⟩ := inv_run (inv_start f now) hbefore
  have htaking : ((start now).run f before).TakingOver :=
    ⟨m, holder, hexpired, .inr ⟨epoch, stamp, hlock⟩⟩
  have hepoch : epoch = ((start now).run f before).heartbeat.epoch + 1 := by
    rw [(hs.acquired m holder epoch stamp hlock).2.2, hs.rows]
  have he : Effect f ((start now).run f before)
      (((start now).run f before).step f .commit) := step_effect hcommit
  have hover : Overtaken f epoch (((start now).run f before).step f .commit) := by
    rw [hepoch]
    exact he.overtaken hs (hs.overtaken htaking)
      (.inr ⟨Nat.le_refl _, TakingOver.lock_ne_none htaking⟩)
  have hrow : epoch ≤ (((start now).run f before).step f .commit).heartbeat.epoch := by
    simp [step, commit, hlock]
  have hend := overtaken_run (he.inv ⟨last, hs⟩) hover hrow hafter
  have hsplit : (start now).run f (before ++ .commit :: after) =
      (((start now).run f before).step f .commit).run f after := by
    simp [run]
  intro handle hh hlt
  rw [hsplit] at hh ⊢
  exact selfFenced_iff.mpr (hend.handles handle hh hlt)

end

/-! ## Two controllers -/

def controllerConfig (holder : String) : Config :=
  { pool := some 4, instanceID := "prod", name := "controller", holder := holder
    ttl := defaultTTL, renewInterval := defaultRenewInterval
    selfFenceAfter := defaultSelfFenceAfter }

def controller (holder : String) (h : holder ≠ "") : Manager where
  config := controllerConfig holder
  pooled := ⟨4, rfl, by decide⟩
  named := ⟨by simp [controllerConfig], by simp [controllerConfig], h⟩
  positive := by
    show 0 < defaultTTL ∧ 0 < defaultRenewInterval ∧ 0 < defaultSelfFenceAfter
    decide
  shorter := by
    show defaultSelfFenceAfter < defaultTTL
    decide

def controllers : Fleet Bool where
  manager b := if b then controller "second" (by decide) else controller "first" (by decide)
  offset b := if b then 0 else 7 * second
  instance_eq := by decide
  name_eq := by decide

def firstCall (stage : Stage) : Call Bool := { manager := false, epoch := 1, stage := stage }

/-- The first controller acquires; the reply of its last query takes `delay` to be processed.
After `wait` more, the second controller finds the lease expired and updates both rows. -/
def handover (delay wait : Nat) : List (Action Bool) :=
  [.lockForAcquire false, .update, .commit, .verify (firstCall (.committed 0)), .tick delay,
   .reply (firstCall (.verified 0)), .tick wait, .lockForAcquire true, .update]

theorem selfFenced_of_takeover_controllers :
    ((World.start 0).run controllers (handover 1000000000 14000001000)).lock =
        some (.acquired true "first" 2 15000001000) ∧
      ∀ handle ∈ ((World.start 0).run controllers
          (handover 1000000000 14000001000 ++ [.commit])).handles, handle.epoch < 2 →
        controllers.selfFenced ((World.start 0).run controllers
          (handover 1000000000 14000001000 ++ [.commit])) handle = true := by
  have hlock : ((start 0).run controllers (handover 1000000000 14000001000)).lock =
      some (.acquired true "first" 2 15000001000) := by decide
  refine ⟨hlock, selfFenced_of_takeover controllers 0 _ [] ?_ hlock (by decide)⟩
  -- the one reply of the run is processed a second after its stamp
  refine ⟨trivial, trivial, trivial, trivial, trivial, ?_, trivial, trivial, trivial, trivial,
    trivial⟩
  intro stamp hs k
  obtain rfl : 0 = stamp := Option.some.inj hs
  cases k <;> decide

/-- The reply of the acquisition takes fourteen seconds: the takeover a second later finds the
first controller's handle with nine seconds of its window left. -/
theorem late_reply_not_selfFenced :
    ((World.start 0).run controllers (handover 14000000000 1000001000)).lock =
        some (.acquired true "first" 2 15000001000) ∧
      ∃ handle ∈ ((World.start 0).run controllers
          (handover 14000000000 1000001000 ++ [.commit])).handles, handle.epoch < 2 ∧
        controllers.selfFenced ((World.start 0).run controllers
          (handover 14000000000 1000001000 ++ [.commit])) handle = false := by
  decide

end Goobers.CloudLease
