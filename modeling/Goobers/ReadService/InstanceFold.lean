import Goobers.Journal.InstanceLog
import Goobers.Lib.Latest

/-!
# What a restart reads from the instance log

The status service folds the instance log into cluster-check results, worker
divergence and the first init completion; the scheduler takes each workflow's last
scheduled fire from it, and the control plane the last event with authority over the
configuration.

Each of these is said here twice: as the loop of the source, and in terms of the
records that decide it (`…_eq`), which is the form the results about retention use.
-/

namespace Goobers.ReadService

open Lib Journal List

/-! ## Cluster checks -/

/-- The recorded outcome of a check. Freshness is computed on each read and not kept. -/
structure Result where
  check : String
  outcome : String
  checkedAt : Int
  expiresAt : Int
  deriving DecidableEq, Repr

/-- `clustercheck.FromEvent`; `parseTime` is `time.Parse` of the RFC 3339 layout. -/
def fromEvent (parseTime : String → Option Int) (ev : Event) : Option Result :=
  if ev.type ≠ .clusterCheckCompleted then none
  else
    let check := ev.runnerString "check"
    let outcome := ev.runnerString "outcome"
    match parseTime (ev.runnerString "expiresAt") with
    | none => none
    | some at_ =>
      if check = "" ∨ ev.time = 0 ∨ ¬ ev.time < at_ ∨
          (outcome ≠ "pass" ∧ outcome ≠ "warn" ∧ outcome ≠ "fail") then none
      else some ⟨check, outcome, ev.time, at_⟩

/-! ## The fold of the status service -/

structure WorkerConfigDivergenceStatus where
  worker : String
  state : String
  workerDigest : String
  daemonDigest : String
  reason : String
  message : String
  at_ : Int
  deriving DecidableEq, Repr

/-- The daemon's own entry, for the time before a worker has reported. -/
def workerConfigDivergenceReportingCapability : String := "worker:remote-reporting"

/-- The part of the folded state that a restart has to find again. -/
structure InstanceState where
  clusterChecks : GoMap String Result := ∅
  initCompletedAt : Int := 0
  workerDivergenceOrder : List String := []
  workerDivergence : GoMap String WorkerConfigDivergenceStatus := ∅

namespace InstanceState

/-- A warning cannot establish recovery from a failure. -/
def applyClusterCheck (parseTime : String → Option Int) (s : InstanceState) (ev : Event) :
    InstanceState :=
  match fromEvent parseTime ev with
  | none => s
  | some result =>
    if result.outcome = "warn" ∧
        (s.clusterChecks.get? result.check).map Result.outcome = some "fail" then s
    else { s with clusterChecks := s.clusterChecks.put result.check result }

def clearWorkerDivergence (s : InstanceState) (worker : String) : InstanceState :=
  match s.workerDivergence.get? worker with
  | none => s
  | some _ =>
    { s with
      workerDivergence := s.workerDivergence.del worker
      workerDivergenceOrder := s.workerDivergenceOrder.erase worker }

def divergenceStatus (ev : Event) : WorkerConfigDivergenceStatus :=
  { worker := ev.runnerString "worker", state := ev.runnerString "state",
    workerDigest := ev.runnerString "workerDigest", daemonDigest := ev.runnerString "daemonDigest",
    reason := ev.runnerString "reason", message := ev.runnerString "message", at_ := ev.time }

/-- A worker's report takes the daemon's own entry away. -/
def applyWorkerDivergence (s : InstanceState) (ev : Event) : InstanceState :=
  let worker := ev.runnerString "worker"
  if worker = "" then s
  else
    let s := if worker ≠ workerConfigDivergenceReportingCapability then
        s.clearWorkerDivergence workerConfigDivergenceReportingCapability
      else s
    let order := if (s.workerDivergence.get? worker).isSome then s.workerDivergenceOrder
      else s.workerDivergenceOrder ++ [worker]
    { s with
      workerDivergenceOrder := order
      workerDivergence := s.workerDivergence.put worker (divergenceStatus ev) }

/-- The earliest init completion counts. -/
def applyInitCompleted (s : InstanceState) (ev : Event) : InstanceState :=
  if ev.time ≠ 0 ∧ (s.initCompletedAt = 0 ∨ ev.time < s.initCompletedAt) then
    { s with initCompletedAt := ev.time }
  else s

def applySchedulingEvent (s : InstanceState) (ev : Event) : InstanceState :=
  match ev.type with
  | .initCompleted => s.applyInitCompleted ev
  | .workerConfigDivergence => s.applyWorkerDivergence ev
  | _ => s

def apply (parseTime : String → Option Int) (s : InstanceState) (ev : Event) : InstanceState :=
  (s.applyClusterCheck parseTime ev).applySchedulingEvent ev

def ofLog (parseTime : String → Option Int) (events : List Event) : InstanceState :=
  events.foldl (apply parseTime) {}

end InstanceState

def newestConfigAuthority (events : List Event) : Option Event :=
  (events.filter isConfigGenerationAuthority).getLast?

/-! ## The scheduler's last evaluations -/

structure WorkflowIdentity where
  gaggle : String
  workflow : String
  deriving DecidableEq, Repr

structure TriggerFiredRecord where
  gaggle : String
  workflow : String
  time : Int
  deriving DecidableEq, Repr

def scheduledTriggerFired (reason : String) : Bool :=
  reason = "" || reason = "scheduled" || "catch-up ".toList.isPrefixOf reason.toList

def firedRecord (ev : Event) : Option TriggerFiredRecord :=
  if ev.type = .triggerFired ∧ scheduledTriggerFired ev.reason then
    some ⟨ev.gaggle, ev.workflow, ev.time⟩
  else none

/-- A record without a gaggle belongs to the only workflow of its name. -/
def resolveWorkflowIdentity (gaggle workflow : String) (workflows : List WorkflowIdentity) :
    Option WorkflowIdentity :=
  if gaggle ≠ "" then
    if ⟨gaggle, workflow⟩ ∈ workflows then some ⟨gaggle, workflow⟩ else none
  else
    match workflows.filter (fun candidate => candidate.workflow = workflow) with
    | [candidate] => some candidate
    | _ => none

/-- The loop of `ReconstructLastEval`: the last times, and whether a fire was seen. -/
def lastEvalStep (workflows : List WorkflowIdentity)
    (last : GoMap WorkflowIdentity (Int × Bool)) (f : TriggerFiredRecord) :
    GoMap WorkflowIdentity (Int × Bool) :=
  match resolveWorkflowIdentity f.gaggle f.workflow workflows with
  | none => last
  | some identity =>
    match last.get? identity with
    | some (time, true) => if time < f.time then last.put identity (f.time, true) else last
    | _ => last.put identity (f.time, true)

def reconstructLastEval (fired : List TriggerFiredRecord) (workflows : List WorkflowIdentity)
    (startedAt : Int) (identity : WorkflowIdentity) : Option Int :=
  let initial : GoMap WorkflowIdentity (Int × Bool) :=
    workflows.foldl (fun last identity => last.put identity (startedAt, false)) ∅
  ((fired.foldl (lastEvalStep workflows) initial).get? identity).map Prod.fst

def lastEval (events : List Event) (workflows : List WorkflowIdentity) (startedAt : Int)
    (identity : WorkflowIdentity) : Option Int :=
  reconstructLastEval (events.filterMap firedRecord) workflows startedAt identity

/-! ## What decides a status -/

section decisive
variable {α β : Type} (outcome : α → String)

def lastDefinite (l : List α) : Option α := (l.filter (fun x => outcome x ≠ "warn")).getLast?

/--
The record that decides, of records oldest first: the last one, unless only warnings
follow a failure.
-/
def decisive (l : List α) : Option α :=
  match lastDefinite outcome l with
  | some x => if outcome x = "fail" then some x else l.getLast?
  | none => l.getLast?

variable {outcome}

theorem decisive_of_fail {l : List α} {x : α} (h : lastDefinite outcome l = some x)
    (hfail : outcome x = "fail") : decisive outcome l = some x := by
  unfold decisive
  rw [h]
  exact if_pos hfail

theorem decisive_of_not_fail {l : List α}
    (h : ∀ x, lastDefinite outcome l = some x → outcome x ≠ "fail") :
    decisive outcome l = l.getLast? := by
  unfold decisive
  split
  · rename_i x hx
    exact if_neg (h x hx)
  · rfl

theorem lastDefinite_concat {l : List α} {x : α} (hx : outcome x ≠ "warn") :
    lastDefinite outcome (l ++ [x]) = some x := by
  simp [lastDefinite, hx]

theorem lastDefinite_concat_warn {l : List α} {x : α} (hx : outcome x = "warn") :
    lastDefinite outcome (l ++ [x]) = lastDefinite outcome l := by
  simp [lastDefinite, hx]

theorem lastDefinite_of_decisive {l : List α} {x : α} (h : decisive outcome l = some x)
    (hx : outcome x ≠ "warn") : lastDefinite outcome l = some x := by
  by_cases hfail : ∃ y, lastDefinite outcome l = some y ∧ outcome y = "fail"
  · obtain ⟨y, hy, hyfail⟩ := hfail
    rw [decisive_of_fail hy hyfail] at h
    rw [hy, h]
  · rw [decisive_of_not_fail (fun y hy hyfail => hfail ⟨y, hy, hyfail⟩)] at h
    obtain ⟨l', rfl⟩ := getLast?_eq_some_iff.mp h
    exact lastDefinite_concat hx

/-- A warning does not replace a failure; anything else is decisive by being last. -/
theorem decisive_concat (l : List α) (x : α) :
    decisive outcome (l ++ [x]) =
      if outcome x = "warn" ∧ (decisive outcome l).map outcome = some "fail" then
        decisive outcome l
      else some x := by
  by_cases hwarn : outcome x = "warn"
  · have hsame := lastDefinite_concat_warn (l := l) hwarn
    by_cases hfail : ∃ y, lastDefinite outcome l = some y ∧ outcome y = "fail"
    · obtain ⟨y, hy, hyfail⟩ := hfail
      rw [decisive_of_fail (hsame.trans hy) hyfail, decisive_of_fail hy hyfail]
      simp [hwarn, hyfail]
    · rw [decisive_of_not_fail (fun y hy hyfail => hfail ⟨y, hsame.symm.trans hy, hyfail⟩),
        getLast?_concat, if_neg]
      rintro ⟨-, hmap⟩
      obtain ⟨y, hy, hyfail⟩ := Option.map_eq_some_iff.mp hmap
      exact hfail ⟨y, lastDefinite_of_decisive hy (by simp [hyfail]), hyfail⟩
  · rw [if_neg (fun h => hwarn h.1)]
    by_cases hfail : outcome x = "fail"
    · exact decisive_of_fail (lastDefinite_concat hwarn) hfail
    rw [decisive_of_not_fail, getLast?_concat]
    intro y hy
    rw [lastDefinite_concat hwarn] at hy
    rwa [← Option.some.inj hy]

theorem decisive_mem {l : List α} {x : α} (h : decisive outcome l = some x) : x ∈ l := by
  unfold decisive at h
  split at h
  · rename_i y hy
    split at h
    · obtain rfl := Option.some.inj h
      exact (mem_filter.mp (mem_of_getLast? hy)).1
    · exact mem_of_getLast? h
  · exact mem_of_getLast? h

theorem foldl_decisive {value : α → Option β} {recorded : β → String} {l : List α}
    (hvalue : ∀ x ∈ l, (value x).map recorded = some (outcome x)) :
    l.foldl (fun latest x =>
        if outcome x = "warn" ∧ latest.map recorded = some "fail" then latest else value x) none =
      (decisive outcome l).bind value := by
  induction l using reverseRecOn with
  | nil => rfl
  | append_singleton l x ih =>
    have hl : ∀ y ∈ l, (value y).map recorded = some (outcome y) :=
      fun y hy => hvalue y (mem_append_left _ hy)
    have hrecorded : ((decisive outcome l).bind value).map recorded =
        (decisive outcome l).map outcome := by
      cases hd : decisive outcome l with
      | none => rfl
      | some y => exact hl y (decisive_mem hd)
    rw [foldl_concat, ih hl, hrecorded, decisive_concat]
    split <;> rfl

theorem warn_of_after_decisive {before after : List α} {x y : α}
    (h : decisive outcome (before ++ x :: after) = some x) (hx : x ∉ after) (hy : y ∈ after) :
    outcome y = "warn" ∧ outcome x = "fail" := by
  have hlast : (before ++ x :: after).getLast? ≠ some x := by
    intro hlast
    have hne : after ≠ [] := ne_nil_of_mem hy
    rw [getLast?_append_of_ne_nil _ (cons_ne_nil _ _), getLast?_cons,
      getLast?_eq_getLast_of_ne_nil hne] at hlast
    exact hx (Option.some.inj hlast ▸ getLast_mem hne)
  have hfail : ∃ z, lastDefinite outcome (before ++ x :: after) = some z ∧ outcome z = "fail" := by
    by_contra hnone
    rw [decisive_of_not_fail (fun z hz hzfail => hnone ⟨z, hz, hzfail⟩)] at h
    exact hlast h
  obtain ⟨z, hz, hzfail⟩ := hfail
  obtain rfl : z = x := Option.some.inj ((decisive_of_fail hz hzfail).symm.trans h)
  refine ⟨Classical.byContradiction fun hwarn => hx ?_, hzfail⟩
  -- a later definite record would be the last one
  have hmem : y ∈ after.filter (fun w => outcome w ≠ "warn") := by simp [hy, hwarn]
  have hne := ne_nil_of_mem hmem
  unfold lastDefinite at hz
  rw [filter_append, filter_cons_of_pos (by simp [hzfail]),
    getLast?_append_of_ne_nil _ (cons_ne_nil _ _), getLast?_cons,
    getLast?_eq_getLast_of_ne_nil hne] at hz
  have := getLast_mem hne
  rw [Option.getD_some] at hz
  rw [Option.some.inj hz] at this
  exact (mem_filter.mp this).1

end decisive

/-! ## What decides the folded state -/

/-- The outcome a record of a check gives, whether it is valid or not. -/
def checkOutcome (ev : Event) : String := ev.runnerString "outcome"

def validCheck (parseTime : String → Option Int) (check : String) (ev : Event) : Bool :=
  ((fromEvent parseTime ev).map Result.check) = some check

theorem fromEvent_some {parseTime : String → Option Int} {ev : Event} {r : Result}
    (h : fromEvent parseTime ev = some r) :
    ev.type = .clusterCheckCompleted ∧ r.check = ev.runnerString "check" ∧ r.check ≠ "" ∧
      r.outcome = checkOutcome ev ∧ r.checkedAt = ev.time := by
  unfold fromEvent at h
  split at h
  · cases h
  rename_i htype
  dsimp only at h
  split at h
  · cases h
  split at h
  · cases h
  rename_i hvalid
  cases h
  exact ⟨Classical.not_not.mp htype, rfl, fun hnil => hvalid (.inl hnil), rfl, rfl⟩

theorem validCheck_iff {parseTime : String → Option Int} {check : String} {ev : Event} :
    validCheck parseTime check ev = true ↔
      ∃ r, fromEvent parseTime ev = some r ∧ r.check = check := by
  simp [validCheck]

namespace InstanceState
variable {parseTime : String → Option Int}

theorem clearWorkerDivergence_clusterChecks (s : InstanceState) (worker : String) :
    (s.clearWorkerDivergence worker).clusterChecks = s.clusterChecks := by
  unfold clearWorkerDivergence
  split <;> rfl

theorem applySchedulingEvent_clusterChecks (s : InstanceState) (ev : Event) :
    (s.applySchedulingEvent ev).clusterChecks = s.clusterChecks := by
  unfold applySchedulingEvent
  split
  · unfold applyInitCompleted
    split <;> rfl
  · unfold applyWorkerDivergence
    dsimp only
    split
    · rfl
    split
    · exact clearWorkerDivergence_clusterChecks _ _
    · rfl
  · rfl

theorem applyClusterCheck_other (s : InstanceState) (ev : Event) :
    (s.applyClusterCheck parseTime ev).workerDivergence = s.workerDivergence ∧
      (s.applyClusterCheck parseTime ev).initCompletedAt = s.initCompletedAt := by
  unfold applyClusterCheck
  split
  · exact ⟨rfl, rfl⟩
  · split <;> exact ⟨rfl, rfl⟩

theorem get?_apply_clusterChecks (parseTime : String → Option Int) (s : InstanceState)
    (ev : Event) (check : String) :
    (apply parseTime s ev).clusterChecks.get? check =
      if validCheck parseTime check ev then
        if checkOutcome ev = "warn" ∧
            (s.clusterChecks.get? check).map Result.outcome = some "fail" then
          s.clusterChecks.get? check
        else fromEvent parseTime ev
      else s.clusterChecks.get? check := by
  unfold apply
  rw [applySchedulingEvent_clusterChecks]
  unfold applyClusterCheck validCheck
  cases hr : fromEvent parseTime ev with
  | none => simp
  | some r =>
    obtain ⟨-, -, -, hout, -⟩ := fromEvent_some hr
    rw [← hout]
    by_cases hcheck : r.check = check
    · subst hcheck
      simp only [Option.map_some]
      split
      · rfl
      · exact GoMap.get?_put_self _ _ _
    · rw [if_neg (by simp [hcheck])]
      dsimp only
      split
      · rfl
      · exact GoMap.get?_put_of_ne _ (Ne.symm hcheck) _

/-- **The status of a check is decided by its valid records alone.** -/
theorem clusterChecks_eq (events : List Event) (check : String) :
    (ofLog parseTime events).clusterChecks.get? check =
      (decisive checkOutcome (events.filter (validCheck parseTime check))).bind
        (fromEvent parseTime) := by
  have hfold := foldl_view (apply parseTime) (fun s => s.clusterChecks.get? check)
    (validCheck parseTime check)
    (fun latest ev =>
      if checkOutcome ev = "warn" ∧ latest.map Result.outcome = some "fail" then latest
      else fromEvent parseTime ev)
    (fun s ev => get?_apply_clusterChecks parseTime s ev check) events {}
  refine hfold.trans (foldl_decisive fun ev hev => ?_)
  obtain ⟨r, hr, -⟩ := validCheck_iff.mp (mem_filter.mp hev).2
  rw [hr, Option.map_some, (fromEvent_some hr).2.2.2.1]

/-! ### Worker divergence -/

/-- The record is a worker's report and decides what is known of this worker. -/
def reportsOn (worker : String) (ev : Event) : Bool :=
  compactWorkerDivergenceKey ev ≠ "" &&
    (compactWorkerDivergenceKey ev = worker || worker = workerConfigDivergenceReportingCapability)

theorem get?_clearWorkerDivergence (s : InstanceState) (worker cleared : String) :
    (s.clearWorkerDivergence cleared).workerDivergence.get? worker =
      if worker = cleared then none else s.workerDivergence.get? worker := by
  unfold clearWorkerDivergence
  split
  · rename_i hnone
    split_ifs with heq
    · rw [heq]
      exact hnone
    · rfl
  · exact GoMap.get?_del _ _ _

theorem get?_applyWorkerDivergence (s : InstanceState) {ev : Event}
    (htype : ev.type = .workerConfigDivergence) (worker : String) :
    (s.applyWorkerDivergence ev).workerDivergence.get? worker =
      if reportsOn worker ev then
        if compactWorkerDivergenceKey ev = worker then some (divergenceStatus ev) else none
      else s.workerDivergence.get? worker := by
  have hkey : compactWorkerDivergenceKey ev = ev.runnerString "worker" := by
    simp [compactWorkerDivergenceKey, htype]
  unfold applyWorkerDivergence reportsOn
  rw [hkey]
  by_cases hnil : ev.runnerString "worker" = ""
  · simp [hnil]
  rw [if_neg hnil, GoMap.get?_put]
  by_cases hworker : worker = ev.runnerString "worker"
  · simp [hworker, hnil]
  have hne : ev.runnerString "worker" ≠ worker := Ne.symm hworker
  rw [if_neg hworker]
  by_cases hcap : ev.runnerString "worker" = workerConfigDivergenceReportingCapability
  · have : worker ≠ workerConfigDivergenceReportingCapability := hcap ▸ hworker
    simp [hcap, this, this.symm]
  · rw [if_pos hcap, get?_clearWorkerDivergence]
    by_cases hw : worker = workerConfigDivergenceReportingCapability
    · simp [hw, hnil, hcap]
    · simp [hw, hne]

theorem get?_apply_workerDivergence (parseTime : String → Option Int) (s : InstanceState)
    (ev : Event) (worker : String) :
    (apply parseTime s ev).workerDivergence.get? worker =
      if reportsOn worker ev then
        if compactWorkerDivergenceKey ev = worker then some (divergenceStatus ev) else none
      else s.workerDivergence.get? worker := by
  have hsame : (s.applyClusterCheck parseTime ev).workerDivergence = s.workerDivergence :=
    (applyClusterCheck_other s ev).1
  unfold apply applySchedulingEvent
  split
  · rename_i htype
    have hkey : compactWorkerDivergenceKey ev = "" := by simp [compactWorkerDivergenceKey, htype]
    rw [if_neg (by simp [reportsOn, hkey])]
    unfold applyInitCompleted
    split <;> rw [← hsame]
  · rename_i htype
    rw [get?_applyWorkerDivergence _ htype, hsame]
  · rename_i hinit htype
    have hkey : compactWorkerDivergenceKey ev = "" := by
      exact if_neg htype
    rw [if_neg (by simp [reportsOn, hkey]), hsame]

theorem workerDivergence_eq (events : List Event) (worker : String) :
    (ofLog parseTime events).workerDivergence.get? worker =
      ((events.filter (reportsOn worker)).getLast?.map (fun ev =>
        if compactWorkerDivergenceKey ev = worker then some (divergenceStatus ev)
        else none)).getD none := by
  have hfold := foldl_view (apply parseTime) (fun s => s.workerDivergence.get? worker)
    (reportsOn worker)
    (fun _ ev =>
      if compactWorkerDivergenceKey ev = worker then some (divergenceStatus ev) else none)
    (fun s ev => get?_apply_workerDivergence parseTime s ev worker) events {}
  exact hfold.trans (foldl_overwrite _ _ _)

/-! ### Init completion -/

theorem apply_initCompletedAt (parseTime : String → Option Int) (s : InstanceState) (ev : Event) :
    (apply parseTime s ev).initCompletedAt =
      if ev.type = .initCompleted then
        if ev.time ≠ 0 ∧ (s.initCompletedAt = 0 ∨ ev.time < s.initCompletedAt) then ev.time
        else s.initCompletedAt
      else s.initCompletedAt := by
  have hsame : (s.applyClusterCheck parseTime ev).initCompletedAt = s.initCompletedAt :=
    (applyClusterCheck_other s ev).2
  unfold apply applySchedulingEvent
  split
  · rename_i htype
    unfold applyInitCompleted
    rw [hsame]
    split
    · rfl
    · exact hsame
  · rename_i htype
    rw [if_neg (by simp [htype])]
    unfold applyWorkerDivergence
    dsimp only
    split
    · exact hsame
    split
    · unfold clearWorkerDivergence
      split <;> exact hsame
    · exact hsame
  · rename_i hinit _
    rw [if_neg hinit, hsame]

theorem initCompletedAt_eq (events : List Event) :
    (ofLog parseTime events).initCompletedAt =
      (ofLog parseTime (events.filter (fun ev => ev.type = .initCompleted))).initCompletedAt := by
  have hfold := foldl_view (apply parseTime) initCompletedAt (fun ev => ev.type = .initCompleted)
    (fun t ev => if ev.time ≠ 0 ∧ (t = 0 ∨ ev.time < t) then ev.time else t)
    (fun s ev => by simpa using apply_initCompletedAt parseTime s ev)
  refine (hfold events {}).trans (Eq.trans ?_ (hfold (events.filter _) {}).symm)
  simp

end InstanceState

/-! ### Last evaluations -/

def fireTimes (events : List Event) (workflows : List WorkflowIdentity)
    (identity : WorkflowIdentity) : List Int :=
  ((events.filterMap firedRecord).filter (fun f =>
    resolveWorkflowIdentity f.gaggle f.workflow workflows = some identity)).map
      TriggerFiredRecord.time

theorem get?_lastEvalStep (workflows : List WorkflowIdentity)
    (last : GoMap WorkflowIdentity (Int × Bool)) (f : TriggerFiredRecord)
    (identity : WorkflowIdentity) :
    (lastEvalStep workflows last f).get? identity =
      if decide (resolveWorkflowIdentity f.gaggle f.workflow workflows = some identity) = true then
        match last.get? identity with
        | some (time, true) => if time < f.time then some (f.time, true) else some (time, true)
        | _ => some (f.time, true)
      else last.get? identity := by
  unfold lastEvalStep
  cases hresolve : resolveWorkflowIdentity f.gaggle f.workflow workflows with
  | none => simp
  | some found =>
    dsimp only
    by_cases hfound : found = identity
    · subst hfound
      rw [if_pos (by simp)]
      split
      · rename_i time hget
        split
        · rw [GoMap.get?_put_self]
        · exact hget
      · rw [GoMap.get?_put_self]
    · rw [if_neg (by simp [hfound])]
      split
      · split
        · exact GoMap.get?_put_of_ne _ (Ne.symm hfound) _
        · rfl
      · exact GoMap.get?_put_of_ne _ (Ne.symm hfound) _

theorem get?_initialEval (workflows : List WorkflowIdentity) (startedAt : Int)
    (identity : WorkflowIdentity) :
    (workflows.foldl (fun last identity => GoMap.put last identity (startedAt, false))
      (∅ : GoMap WorkflowIdentity (Int × Bool))).get? identity =
        if identity ∈ workflows then some (startedAt, false) else none := by
  induction workflows using reverseRecOn with
  | nil => simp
  | append_singleton workflows w ih =>
    rw [foldl_concat, GoMap.get?_put, ih]
    by_cases hw : identity = w
    · simp [hw]
    · simp [hw]

/-- Of the fires the latest is kept; what it starts from counts only without one. -/
theorem foldl_lastEval (fired : List TriggerFiredRecord) (start : Option (Int × Bool))
    (hstart : ∀ time, start ≠ some (time, true)) :
    (fired.foldl (fun (last : Option (Int × Bool)) (f : TriggerFiredRecord) =>
        match last with
        | some (time, true) => if time < f.time then some (f.time, true) else some (time, true)
        | _ => some (f.time, true)) start) =
      match (fired.map TriggerFiredRecord.time).max? with
      | some time => some (time, true)
      | none => start := by
  induction fired using reverseRecOn with
  | nil => rfl
  | append_singleton fired f ih =>
    rw [foldl_concat, ih, map_append]
    cases hmax : (fired.map TriggerFiredRecord.time).max? with
    | none =>
      rw [max?_eq_none_iff.mp hmax]
      simp
    | some time =>
      have hnew : (fired.map TriggerFiredRecord.time ++ [f].map TriggerFiredRecord.time).max? =
          some (if time < f.time then f.time else time) := by
        obtain ⟨hmem, hle⟩ := max?_eq_some_iff.mp hmax
        refine max?_eq_some_iff.mpr ⟨?_, ?_⟩
        · split
          · simp
          · exact mem_append_left _ hmem
        · intro b hb
          rcases mem_append.mp hb with hb | hb
          · have := hle b hb
            split <;> omega
          · have : b = f.time := by simpa using hb
            split <;> omega
      rw [hnew]
      dsimp only
      split <;> rfl

/-- **The last evaluation is the latest fire, and the start of the scheduler without one.** -/
theorem lastEval_eq (events : List Event) (workflows : List WorkflowIdentity) (startedAt : Int)
    (identity : WorkflowIdentity) :
    lastEval events workflows startedAt identity =
      match (fireTimes events workflows identity).max? with
      | some time => some time
      | none => if identity ∈ workflows then some startedAt else none := by
  unfold lastEval reconstructLastEval
  dsimp only
  rw [foldl_view (lastEvalStep workflows) (fun last => last.get? identity)
    (fun f => resolveWorkflowIdentity f.gaggle f.workflow workflows = some identity)
    (fun last f =>
      match last with
      | some (time, true) => if time < f.time then some (f.time, true) else some (time, true)
      | _ => some (f.time, true))
    (fun last f => get?_lastEvalStep workflows last f identity), get?_initialEval, foldl_lastEval]
  · unfold fireTimes
    split
    · rfl
    · split <;> rfl
  · intro time
    split <;> simp

end Goobers.ReadService
