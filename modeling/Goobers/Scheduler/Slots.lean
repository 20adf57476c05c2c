import Goobers.Scheduler.Waiting

/-!
# Slots are not overbooked

The tracker keeps a count for each workflow and one for the instance. They are the counts of
the runs that were granted a slot and have not released it, whatever is admitted, continued,
resumed and released. A restart may find more runs than the limits allow; their number goes down
to the limits and not above them again.
-/

namespace Goobers.Scheduler

open Conditions

variable {limits : WorkflowIdentity → ReadinessConditions} {w : World} {c c' : Conditions}
  {held : List WorkflowIdentity}

/-- The counts are those of these runs, each of which is named by its workflow. -/
structure Books (c : Conditions) (held : List WorkflowIdentity) : Prop where
  active : ∀ i, c.activeOf i = held.count i
  total : c.totalActive = held.length

/-- The runs are within the limits, or were as many before. -/
structure Within (limits : WorkflowIdentity → ReadinessConditions) (limit : Int)
    (before held : List WorkflowIdentity) : Prop where
  workflow : ∀ i, (held.count i : Int) ≤ max (maxConcurrentRuns (limits i)) (before.count i)
  total : 0 < limit → (held.length : Int) ≤ max limit before.length

/-! ## The runs that hold a slot -/

/-- The workflow of a run that is granted a slot. -/
def World.grant? (limits : WorkflowIdentity → ReadinessConditions) (w : World) :
    Op → Option WorkflowIdentity
  | .admitWorkflow i gates now bypass =>
    if (w.conditions.admitProviderWorkflow w.now i gates (limits i) now bypass).2.isOk
    then some i else none
  | .reserve i =>
    if (w.conditions.reserveContinuation w.now i (limits i)).2.isOk then some i else none
  | .resume run i =>
    if (w.conditions.reserveParentContinuation w.now run.id i (limits i)).2.isOk
    then some i else none
  | .release _ | .clear _ | .advance _ => none

/-- A grant adds a run and a release takes one away, if the workflow has one. -/
def World.booked (limits : WorkflowIdentity → ReadinessConditions) (w : World)
    (held : List WorkflowIdentity) (op : Op) : List WorkflowIdentity :=
  match op with
  | .release i => held.erase i
  | op => (w.grant? limits op).toList ++ held

def World.bookings (limits : WorkflowIdentity → ReadinessConditions) :
    World → List WorkflowIdentity → List Op → List WorkflowIdentity
  | _, held, [] => held
  | w, held, op :: ops => (w.step limits op).bookings limits (w.booked limits held op) ops

/-! ## One operation -/

/-- What an operation does to the slots, and with them to the runs that hold one. -/
def Rebooks (limits : WorkflowIdentity → ReadinessConditions) (c c' : Conditions)
    (rebook : List WorkflowIdentity → List WorkflowIdentity) : Prop :=
  c'.instanceMaxParallel = c.instanceMaxParallel ∧ ∀ held, Books c held →
    Books c' (rebook held) ∧ Within limits c.instanceMaxParallel held (rebook held)

theorem rebooks_of_same (h : SameSlots c c') : Rebooks limits c c' (fun held => held) := by
  refine ⟨h.limit, fun held hbooks => ⟨⟨fun i => ?_, h.totalActive.trans hbooks.total⟩, ?_⟩⟩
  · rw [h.activeOf, hbooks.active]
  · exact ⟨fun _ => le_max_right .., fun _ => le_max_right ..⟩

/-- A slot that is free may be taken without overbooking. -/
theorem rebooks_take {i : WorkflowIdentity} {D : Finset Waiter} (hfree : c.Free limits i D)
    (hsame : SameSlots (c.take i) c') : Rebooks limits c c' (i :: ·) := by
  refine ⟨hsame.limit, fun held hbooks => ⟨⟨fun j => ?_, ?_⟩, fun j => ?_, fun hlim => ?_⟩⟩
  · rw [hsame.activeOf, activeOf_take, hbooks.active, List.count_cons]
    grind
  · rw [hsame.totalActive, List.length_cons]
    exact congrArg (· + 1) hbooks.total
  · have := hbooks.active i
    have := hfree.1
    rw [List.count_cons]
    grind
  · have := hfree.2 hlim
    have := hbooks.total
    rw [List.length_cons]
    omega

/-- A slot is counted exactly when the reply grants it. -/
def Replied (c : Conditions) (r : Conditions × Except String Unit) : Prop :=
  r.1.totalActive = c.totalActive + if r.2.isOk then 1 else 0

theorem replied_error (h : c'.totalActive = c.totalActive) (reason : String) :
    Replied c (c', .error reason) :=
  h.trans (Int.add_zero _).symm

theorem replied_reserveContinuationFor (c : Conditions) (i : WorkflowIdentity)
    (r : ReadinessConditions) (run : String) : Replied c (c.reserveContinuationFor i r run) := by
  unfold reserveContinuationFor
  split
  · exact replied_error rfl _
  split
  · exact replied_error rfl _
  · rfl

theorem replied_reserveParentContinuation (c : Conditions) (now : Int) (run : String)
    (i : WorkflowIdentity) (r : ReadinessConditions) :
    Replied c (c.reserveParentContinuation now run i r) := by
  have h := replied_reserveContinuationFor (c.pruneClaims now) i r run
  unfold reserveParentContinuation
  split <;> rename_i heq <;> rw [heq] at h
  · exact h
  · split <;> exact h

theorem replied_admitProviderWorkflow (c : Conditions) (clockNow : Int) (i : WorkflowIdentity)
    (gates : Gates) (r : ReadinessConditions) (now : Int) (bypass : Bool) :
    Replied c (c.admitProviderWorkflow clockNow i gates r now bypass) := by
  unfold admitProviderWorkflow
  split
  · exact replied_error rfl _
  dsimp only
  split
  · exact replied_error rfl _
  split
  · exact replied_error rfl _
  split
  · exact replied_error rfl _
  · rfl

/-- The reply says whether the slot was taken. -/
theorem rebooks_of_decided {r : Conditions × Except String Unit} {now : Int}
    {i : WorkflowIdentity} {run : String} (h : Decided limits c r.1 now i run)
    (hreply : Replied c r) :
    Rebooks limits c r.1 ((if r.2.isOk then some i else none).toList ++ ·) := by
  unfold Replied at hreply
  rcases h with hsame | ⟨hfree, hsame⟩
  · have hno : r.2.isOk = false := by
      have := hsame.totalActive
      grind
    rw [hno]
    exact rebooks_of_same hsame
  · have hyes : r.2.isOk = true := by
      have htotal : r.1.totalActive = c.totalActive + 1 := hsame.totalActive
      grind
    rw [hyes]
    exact rebooks_take hfree hsame

theorem rebooks_release (c : Conditions) (i : WorkflowIdentity) :
    Rebooks limits c (c.releaseWorkflow i) (·.erase i) := by
  by_cases hpos : 0 < c.activeOf i
  · refine ⟨by rw [releaseWorkflow, if_pos hpos], fun held hbooks => ?_⟩
    have hactive := hbooks.active i
    have hlength := List.length_erase_add_one (List.count_pos_iff.mp (by omega : 0 < held.count i))
    have hless : (held.erase i).Sublist held := List.erase_sublist
    dsimp only
    refine ⟨⟨fun j => ?_, ?_⟩, fun j => ?_, fun _ => ?_⟩
    · rw [activeOf_release, hbooks.active, List.count_erase]
      grind
    · have htotal := hbooks.total
      rw [releaseWorkflow, if_pos hpos]
      show c.totalActive - 1 = _
      omega
    · have := hless.count_le j
      omega
    · omega
  · -- nothing is counted for the workflow, so none of the runs is one of it
    rw [releaseWorkflow, if_neg hpos]
    have hkeep : Rebooks limits c c (fun held => held) := rebooks_of_same (SameSlots.refl c)
    refine ⟨hkeep.1, fun held hbooks => ?_⟩
    dsimp only
    have hnone : i ∉ held := by
      have hactive := hbooks.active i
      exact List.count_eq_zero.mp (by omega)
    rw [List.erase_of_not_mem hnone]
    exact hkeep.2 held hbooks

/-- Every operation keeps the books, with the runs its reply grants or releases. -/
theorem step_rebooks (hs : w.conditions.Sound limits w.now) (op : Op) :
    Rebooks limits w.conditions (w.step limits op).conditions (w.booked limits · op) := by
  cases op with
  | admitWorkflow i gates now bypass =>
    exact rebooks_of_decided (admitProviderWorkflow_spec hs i gates now bypass).1
      (replied_admitProviderWorkflow ..)
  | reserve i =>
    exact rebooks_of_decided (reserveContinuation_spec hs i).1
      (replied_reserveContinuationFor (w.conditions.pruneClaims w.now) i (limits i) "")
  | resume run i =>
    have hdec : Decided limits w.conditions
        (w.conditions.reserveParentContinuation w.now run.id i (limits i)).1 w.now i run.id := by
      rcases reserveParentContinuation_spec hs i run.id with ⟨hfree, h⟩ | ⟨_, reason, h⟩
      · rw [h]
        exact .inr ⟨hfree, ⟨rfl, rfl, rfl⟩⟩
      · rw [h]
        exact .inl ⟨rfl, rfl, rfl⟩
    exact rebooks_of_decided hdec (replied_reserveParentContinuation ..)
  | release i => exact rebooks_release _ i
  | clear run => exact rebooks_of_same ⟨rfl, rfl, rfl⟩
  | advance d => exact rebooks_of_same (SameSlots.refl _)

/-! ## Every run -/

/--
**Slots are not overbooked.** Take any tracker whose counts are those of some runs, as after a
restart, and any admissions, continuations, resumes, releases, ended claims and passing of time.
The counts are again those of the runs that were there or were granted a slot, and have not
released it. No workflow has more of them than its limit allows or than it had, and under a limit
of its own neither has the instance.
-/
theorem slots_never_overbooked (hs : w.conditions.Sound limits w.now)
    (h : Books w.conditions held) (ops : List Op) :
    Books (w.run limits ops).conditions (w.bookings limits held ops) ∧
      Within limits w.conditions.instanceMaxParallel held (w.bookings limits held ops) := by
  induction ops generalizing w held with
  | nil => exact ⟨h, fun _ => le_max_right .., fun _ => le_max_right ..⟩
  | cons op ops ih =>
    obtain ⟨hlimit, hstep⟩ := step_rebooks hs op
    obtain ⟨hmid, hin⟩ := hstep held h
    obtain ⟨hheld, hout⟩ := ih (sound_step hs op) hmid
    rw [hlimit] at hout
    refine ⟨hheld, fun i => ?_, fun hlim => ?_⟩
    · exact (hout.workflow i).trans (max_le (le_max_left ..) (hin.workflow i))
    · exact (hout.total hlim).trans (max_le (le_max_left ..) (hin.total hlim))

/-- Two runs of a workflow that may have one, found after a restart. -/
def restarted : World where
  now := 0
  conditions :=
    { active := (∅ : Lib.GoMap _ _).put ⟨"", "build"⟩ 2
      totalActive := 2
      instanceMaxParallel := 1 }

/-- A third run is refused; when both have ended, a continuation is granted. -/
def restartedOps : List Op :=
  [.reserve ⟨"", "build"⟩, .release ⟨"", "build"⟩, .release ⟨"", "build"⟩, .advance 5,
    .reserve ⟨"", "build"⟩]

theorem restarted_slots :
    Books (restarted.run (fun _ => {}) restartedOps).conditions [⟨"", "build"⟩] ∧
      Within (fun _ => {}) 1 [⟨"", "build"⟩, ⟨"", "build"⟩] [⟨"", "build"⟩] := by
  have hbooks : Books restarted.conditions [⟨"", "build"⟩, ⟨"", "build"⟩] := by
    refine ⟨fun i => ?_, rfl⟩
    simp only [activeOf, restarted, Lib.GoMap.get?_put, List.count_cons, List.count_nil]
    grind [Lib.GoMap.get?_empty]
  have hsound : restarted.conditions.Sound (fun _ => {}) restarted.now := by
    intro run claim hclaim
    simp [restarted] at hclaim
  exact slots_never_overbooked (w := restarted) hsound hbooks restartedOps

end Goobers.Scheduler
