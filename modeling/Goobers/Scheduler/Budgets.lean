import Goobers.Scheduler.Conditions
import Mathlib.Data.List.Induction
import Mathlib.Data.List.TakeWhile

/-!
# Run budgets and the clock

The starts of a workflow are kept in the order they were admitted; they are pruned from
the front and counted from the back. While the clock does not go back this is the order
of their times: what has been pruned is out of the window of every request to come, and
a count that stops at the first old start has seen all the others. A start that was
admitted while the clock was back hides the starts before it.
-/

namespace Goobers.Scheduler

open Lib Conditions List

variable {limits : WorkflowIdentity → ReadinessConditions} {identity : WorkflowIdentity}
  {w : World} {op : Op} {t : Int} {starts history coming : List Int}

def Conditions.startsOf (c : Conditions) (identity : WorkflowIdentity) : List Int :=
  (c.starts.get? identity).getD []

/-- The instant of a request for a start of the workflow. -/
def Op.request? (identity : WorkflowIdentity) : Op → Option Int
  | .admitWorkflow i _ now _ => if i = identity then some now else none
  | _ => none

/-- The instant of a start of the workflow that is admitted. -/
def World.admit? (limits : WorkflowIdentity → ReadinessConditions) (identity : WorkflowIdentity)
    (w : World) : Op → Option Int
  | .admitWorkflow i gates now bypass =>
    if i = identity ∧
        (w.conditions.admitProviderWorkflow w.now i gates (limits i) now bypass).2.isOk
    then some now else none
  | _ => none

def World.admitted (limits : WorkflowIdentity → ReadinessConditions)
    (identity : WorkflowIdentity) : World → List Op → List Int
  | _, [] => []
  | w, op :: ops =>
    (w.admit? limits identity op).toList ++ (w.step limits op).admitted limits identity ops

/-! ## Sorted starts -/

/-- On sorted starts `pruneStarts` is a filter. -/
theorem pruneStarts_sorted (h : starts.Pairwise (· ≤ ·)) (now window : Int) :
    pruneStarts starts now window = starts.filter (now - window ≤ ·) := by
  induction starts with
  | nil => rfl
  | cons s starts ih =>
    have hs := pairwise_cons.mp h
    rw [pruneStarts, dropWhile_cons]
    by_cases hold : s < now - window
    · rw [if_pos (decide_eq_true hold), filter_cons_of_neg (by grind)]
      exact ih hs.2
    · rw [if_neg (by simpa using hold), eq_comm, filter_eq_self]
      intro s' hs'
      rcases mem_cons.mp hs' with rfl | hs'
      · simpa using hold
      · have := hs.1 s' hs'
        simp only [decide_eq_true_eq]
        omega

/-- On sorted starts `countSince` counts all of the window. -/
theorem countSince_sorted (h : starts.Pairwise (· ≤ ·)) (cutoff : Int) :
    countSince starts cutoff = starts.countP (cutoff ≤ ·) := by
  induction starts using reverseRecOn with
  | nil => rfl
  | append_singleton starts s ih =>
    obtain ⟨hs, -, hle⟩ := pairwise_append.mp h
    rw [countSince, reverse_concat]
    by_cases hnew : cutoff ≤ s
    · simpa [hnew, countSince] using ih hs
    · have hold : ∀ s' ∈ starts, s' < cutoff := fun s' hs' => by
        have := hle s' hs' s (by simp)
        omega
      simpa [hnew] using (countP_eq_zero.mpr fun s' hs' => by simpa using hold s' hs').symm

/-! ## What is kept -/

/-- The starts on record are those of the history that the windows still need. -/
structure Kept (starts history coming : List Int) : Prop where
  sorted : (history ++ coming).Pairwise (· ≤ ·)
  kept : ∃ dropped, history = dropped ++ starts ∧
    ∀ s ∈ dropped, ∀ t ∈ coming, s < t - dayWindow

section
variable (h : Kept starts history (t :: coming))
include h

theorem Kept.prune_eq :
    pruneStarts starts t dayWindow = history.filter (t - dayWindow ≤ ·) := by
  obtain ⟨hsorted, dropped, rfl, hdropped⟩ := h
  rw [pruneStarts_sorted (pairwise_append.mp (pairwise_append.mp hsorted).1).2.1,
    filter_append, self_eq_append_left, filter_eq_nil_iff]
  intro s hs
  grind [hdropped s hs t mem_cons_self]

theorem Kept.skip : Kept starts history coming := by
  obtain ⟨hsorted, dropped, hhistory, hdropped⟩ := h
  exact ⟨hsorted.sublist (by simp), dropped, hhistory,
    fun s hs t' ht' => hdropped s hs t' (by simp [ht'])⟩

theorem Kept.prune :
    Kept (pruneStarts starts t dayWindow) history coming := by
  obtain ⟨hsorted, dropped, rfl, hdropped⟩ := h
  refine ⟨hsorted.sublist (by simp), dropped ++ starts.takeWhile (· < t - dayWindow), ?_, ?_⟩
  · rw [pruneStarts, append_assoc, takeWhile_append_dropWhile]
  intro s hs t' ht'
  rcases mem_append.mp hs with hs | hs
  · exact hdropped s hs t' (by simp [ht'])
  · have hold : s < t - dayWindow := by simpa using mem_takeWhile_imp hs
    have hle := (pairwise_cons.mp (pairwise_append.mp hsorted).2.1).1 t' ht'
    omega

theorem Kept.admit :
    Kept (pruneStarts starts t dayWindow ++ [t]) (history ++ [t]) coming := by
  obtain ⟨-, dropped, hhistory, hdropped⟩ := h.prune
  exact ⟨by simpa using h.sorted, dropped, by rw [hhistory, append_assoc], hdropped⟩

end

/-! ## Steps -/

/-- An admission writes down its instant, and a refusal only prunes. -/
theorem startsOf_admit (c : Conditions) (clockNow : Int) (i : WorkflowIdentity) (gates : Gates)
    (r : ReadinessConditions) (now : Int) (bypass : Bool) :
    let answer := c.admitProviderWorkflow clockNow i gates r now bypass
    let pruned := pruneStarts (c.startsOf i) now dayWindow
    answer.2.isOk = true ∧ answer.1.starts = c.starts.put i (pruned ++ [now]) ∨
      answer.2.isOk = false ∧
        (answer.1.starts = c.starts.put i pruned ∨ answer.1.starts = c.starts) := by
  unfold admitProviderWorkflow
  split
  · exact .inr ⟨rfl, .inr rfl⟩
  dsimp only
  split
  · exact .inr ⟨rfl, .inr rfl⟩
  split
  · exact .inr ⟨rfl, .inl rfl⟩
  split
  · exact .inr ⟨rfl, .inr rfl⟩
  · exact .inl ⟨rfl, rfl⟩

theorem startsOf_step (h : op.request? identity = none) :
    (w.step limits op).conditions.startsOf identity = w.conditions.startsOf identity := by
  cases op with
  | admitWorkflow i gates now bypass =>
    have hi : identity ≠ i := fun hi => by simp [Op.request?, hi] at h
    rcases startsOf_admit w.conditions w.now i gates (limits i) now bypass with
      ⟨-, hstarts⟩ | ⟨-, hstarts | hstarts⟩ <;>
      simp [World.step, startsOf, hstarts, GoMap.get?_put_of_ne _ hi]
  | reserve i =>
    simp only [World.step, reserveContinuation, reserveContinuationFor]
    split_ifs <;> rfl
  | resume run i =>
    simp only [World.step, reserveParentContinuation, reserveContinuationFor]
    split_ifs <;> simp <;> rfl
  | release i =>
    simp only [World.step, releaseWorkflow]
    split_ifs <;> rfl
  | clear run => rfl
  | advance d => rfl

/-- One operation keeps the starts of the last day, the new one with them. -/
theorem Kept.step (h : Kept (w.conditions.startsOf identity) history
      ((op.request? identity).toList ++ coming)) :
    Kept ((w.step limits op).conditions.startsOf identity)
      (history ++ (w.admit? limits identity op).toList) coming := by
  cases hreq : op.request? identity with
  | none =>
    have hadmit : w.admit? limits identity op = none := by
      cases op <;> simp_all [Op.request?, World.admit?]
    rw [startsOf_step hreq]
    simpa [hreq, hadmit] using h
  | some t =>
    cases op with
    | admitWorkflow i gates now bypass =>
      obtain ⟨rfl, rfl⟩ : i = identity ∧ now = t := by simpa [Op.request?] using hreq
      have h : Kept (w.conditions.startsOf i) history (now :: coming) := by simpa [hreq] using h
      rcases startsOf_admit w.conditions w.now i gates (limits i) now bypass with
        ⟨hok, hstarts⟩ | ⟨hok, hstarts | hstarts⟩
      · simpa [World.step, World.admit?, startsOf, hok, hstarts] using h.admit
      · simpa [World.step, World.admit?, startsOf, hok, hstarts] using h.prune
      · simpa [World.step, World.admit?, startsOf, hok, hstarts] using h.skip
    | _ => simp [Op.request?] at hreq

/-- So does a run. -/
theorem Kept.run {ops : List Op} (h : Kept (w.conditions.startsOf identity) history
      (ops.filterMap (Op.request? identity) ++ coming)) :
    Kept ((w.run limits ops).conditions.startsOf identity)
      (history ++ w.admitted limits identity ops) coming := by
  induction ops generalizing w history with
  | nil => simpa [World.run, World.admitted] using h
  | cons op ops ih =>
    rw [World.admitted, ← append_assoc]
    refine ih (Kept.step ?_)
    cases hreq : op.request? identity <;> simpa [hreq] using h

/-! ## Budgets -/

/-- A request that nothing else refuses is answered by the starts of the last hour and of the last
day, if the clock has not gone back. -/
theorem budgets_count_window (limits : WorkflowIdentity → ReadinessConditions)
    (identity : WorkflowIdentity) (gates : Gates) (w : World) (ops : List Op) (now : Int)
    (hfresh : w.conditions.startsOf identity = [])
    (hclock : (ops.filterMap (Op.request? identity) ++ [now]).Pairwise (· ≤ ·)) :
    let w' := w.run limits ops
    let c := w'.conditions.pruneClaims w'.now
    let history := w.admitted limits identity ops
    gates.quota = none → c.startRefusal identity gates (limits identity) = none →
    c.poolRefusal identity gates = none → c.disableCadenceBudgets = false →
    (w'.conditions.admitProviderWorkflow w'.now identity gates (limits identity) now false).2 =
      if c.hourlyBudget identity.workflow (limits identity) ≤
          history.countP (now - budgetWindow ≤ ·) then .error reasonBudget
      else if 0 < c.dailyBudget identity.workflow (limits identity) ∧
          c.dailyBudget identity.workflow (limits identity) ≤
            history.countP (now - dayWindow ≤ ·) then .error reasonDailyBudget
      else .ok () := by
  intro w' c history hquota hstart hpool hon
  have hkept : Kept (w'.conditions.startsOf identity) history [now] := by
    have h : Kept (w.conditions.startsOf identity) []
        (ops.filterMap (Op.request? identity) ++ [now]) := ⟨hclock, [], by simp [hfresh], by simp⟩
    simpa using h.run
  have hstarts : pruneStarts ((c.starts.get? identity).getD []) now dayWindow =
      history.filter (now - dayWindow ≤ ·) := hkept.prune_eq
  -- the hour lies within the day, so pruning to the day loses none of it
  have hhour : countSince (history.filter (now - dayWindow ≤ ·)) (now - budgetWindow) =
      history.countP (now - budgetWindow ≤ ·) := by
    have hsorted := (pairwise_append.mp hkept.sorted).1
    rw [countSince_sorted (hsorted.filter _), countP_filter]
    refine countP_congr fun s _ => ?_
    simp only [Bool.and_eq_true, decide_eq_true_eq]
    unfold budgetWindow dayWindow second
    omega
  unfold admitProviderWorkflow
  simp only [hquota]
  rw [show w'.conditions.pruneClaims w'.now = c from rfl, hstart]
  rw [hstarts, budgetRefusal, hhour, hon, ← countP_eq_length_filter]
  generalize history.countP (now - budgetWindow ≤ ·) = inHour
  generalize history.countP (now - dayWindow ≤ ·) = inDay
  by_cases hhourly : c.hourlyBudget identity.workflow (limits identity) ≤ inHour
  · simp [hhourly]
  by_cases hdaily : 0 < c.dailyBudget identity.workflow (limits identity) ∧
      c.dailyBudget identity.workflow (limits identity) ≤ inDay
  · simp [hhourly, hdaily]
  · simp [hhourly, hdaily, hpool]

/-! ## A clock that is set back -/

def twoAnHour (_ : WorkflowIdentity) : ReadinessConditions :=
  { maxConcurrentRuns := 9, maxRunsPerHour := 2 }

/-- Requests at these minutes. -/
def minutes (times : List Int) : List Op :=
  times.map fun t => .admitWorkflow { workflow := "build" } {} (t * 60 * second) false

theorem budgets_count_window_third :
    (((World.mk 0 {}).run twoAnHour (minutes [600, 610])).conditions.admitProviderWorkflow 0
      { workflow := "build" } {} (twoAnHour { workflow := "build" }) (620 * 60 * second) false).2 =
      .error reasonBudget :=
  (budgets_count_window twoAnHour { workflow := "build" } {} ⟨0, {}⟩ (minutes [600, 610])
    (620 * 60 * second) rfl (by decide) rfl (by decide) (by decide)
    rfl).trans (by decide)

/-- The start of the fifth hour, admitted while the clock was back, hides the one of the tenth: a
third start within the hour is admitted. -/
theorem start_hidden_by_setback :
    let ops := minutes [600, 300, 630]
    let w := (World.mk 0 {}).run twoAnHour ops
    (World.mk 0 {}).admitted twoAnHour { workflow := "build" } ops =
        [600, 300, 630].map (· * 60 * second) ∧
      (w.conditions.admitProviderWorkflow 0 { workflow := "build" } {}
        (twoAnHour { workflow := "build" }) (640 * 60 * second) false).2 = .ok () := by
  decide

end Goobers.Scheduler
