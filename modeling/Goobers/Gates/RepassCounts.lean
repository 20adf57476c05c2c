import Goobers.Gates.TargetSeeds
import Goobers.Lib.Latest

/-!
# What the repass counters count

The counters of a target stage have closed forms. A policy counter is never given
back, so it counts all policy re-entries into the stage, and with its bound it ends
every repair loop. The other two count from the last progress of a gate that declares
the stage as its branch.

A policy counter is also the maximum of the counts its charges have put on record,
which is what `targetRepassSeed` takes: a resumed run goes on with the same one.
-/

namespace Goobers.Gates

open Lib
open Journal (Event RunnerValue)

/-! ## The policy counter -/

/-- Neither progress nor an infrastructure failure nor a wait: the class policy repasses are of. -/
def policyOutcome (outcome : String) : Bool :=
  outcome ≠ outcomePass && outcome ≠ outcomeInfra && outcome ≠ outcomeTimeout

theorem policyOutcome_iff {outcome : String} : policyOutcome outcome = true ↔
    outcome ≠ outcomePass ∧ outcome ≠ outcomeInfra ∧ outcome ≠ outcomeTimeout := by
  simp [policyOutcome, and_assoc]

@[simp] theorem policyOutcome_pass : policyOutcome outcomePass = false := by decide

@[simp] theorem policyOutcome_infra : policyOutcome outcomeInfra = false := by decide

@[simp] theorem policyOutcome_timeout : policyOutcome outcomeTimeout = false := by decide

namespace RepassBudget

variable (b : RepassBudget) (g : Gate) (outcome target : String) (reentry : Bool)
  (maxRepasses : Nat)

theorem countGate_policy :
    ((b.giveBack g outcome).countGate g outcome).1.repassAttempts = b.repassAttempts := by
  unfold giveBack countGate
  dsimp only
  repeat' split
  all_goals rfl

theorem charge_policy :
    let r := b.charge g outcome target reentry maxRepasses
    (∀ key, r.1.repassAttempts.count key =
      if reentry = true ∧ policyOutcome outcome = true ∧ key = target then
        b.repassAttempts.count target + 1
      else b.repassAttempts.count key) ∧
    (policyOutcome outcome = true → reentry = true → r.2.repassTarget = target ∧
      r.2.attempt = b.repassAttempts.count target + 1 ∧
      (r.2.exceeded = true ↔ maxRepassesForGate g maxRepasses < r.2.attempt)) ∧
    (outcome ≠ outcomeInfra → ¬ (policyOutcome outcome = true ∧ reentry = true) →
      r.2.repassTarget = "" ∧ r.2.attempt = 0) := by
  have hback := countGate_policy b g outcome
  unfold charge
  generalize (b.giveBack g outcome).countGate g outcome = counted at hback
  rw [← hback]
  by_cases hw : outcome = outcomeTimeout
  · cases reentry <;> simp [hw]
  by_cases hp : outcome = outcomePass
  · cases reentry <;> simp [hp]
  by_cases hi : outcome = outcomeInfra
  · cases reentry <;> simp [hi]
  have hclass : policyOutcome outcome = true := policyOutcome_iff.mpr ⟨hp, hi, hw⟩
  cases reentry with
  | false => simp
  | true => simp [hw, hp, hi, hclass, Counters.count_incr]

end RepassBudget

/-! ## Closed forms -/

/-- The arguments of one `Charge`. -/
structure ChargeCall where
  gate : Gate
  outcome : String
  target : String
  reentry : Bool
  maxRepasses : Nat

namespace ChargeCall

variable (stage : String) (c : ChargeCall)

def repasses : Bool := c.reentry && policyOutcome c.outcome && c.target = stage

def infraRetries : Bool := c.reentry && c.outcome = outcomeInfra && c.target = stage

def polls : Bool := c.reentry && c.outcome = outcomeTimeout && c.target = stage

/-- The gate got past its machinery, and an infrastructure failure of it goes to the stage. -/
def clearsInfra : Bool :=
  c.outcome ≠ outcomeInfra && c.outcome ≠ outcomeTimeout &&
    branchTarget c.gate outcomeInfra = some stage

def clearsPoll : Bool :=
  c.outcome ≠ outcomeTimeout && branchTarget c.gate outcomeTimeout = some stage

def policyBound : Nat := maxRepassesForGate c.gate c.maxRepasses

end ChargeCall

def RepassBudget.chargeCall (b : RepassBudget) (c : ChargeCall) : RepassBudget × RepassCharge :=
  b.charge c.gate c.outcome c.target c.reentry c.maxRepasses

def chargeCalls (calls : List ChargeCall) : RepassBudget :=
  calls.foldl (fun b c => (b.chargeCall c).1) {}

def chargeReports (calls : List ChargeCall) : List (ChargeCall × RepassCharge) :=
  (calls.foldl (fun s c => ((s.1.chargeCall c).1, s.2 ++ [(c, (s.1.chargeCall c).2)]))
    (({} : RepassBudget), [])).2

def largestBound (stage : String) (calls : List ChargeCall) : Nat :=
  ((calls.filter (ChargeCall.repasses stage)).map ChargeCall.policyBound).foldl max 0

theorem chargeCalls_concat (calls : List ChargeCall) (c : ChargeCall) :
    chargeCalls (calls ++ [c]) = ((chargeCalls calls).chargeCall c).1 := by
  simp [chargeCalls]

theorem chargeReports_concat (calls : List ChargeCall) (c : ChargeCall) :
    chargeReports (calls ++ [c]) =
      chargeReports calls ++ [(c, ((chargeCalls calls).chargeCall c).2)] := by
  have hbudget :
      (calls.foldl (fun s c => ((s.1.chargeCall c).1, s.2 ++ [(c, (s.1.chargeCall c).2)]))
        (({} : RepassBudget), ([] : List (ChargeCall × RepassCharge)))).1 = chargeCalls calls := by
    induction calls using List.reverseRecOn with
    | nil => rfl
    | append_singleton calls d ih =>
      rw [chargeCalls_concat, List.foldl_concat, ih]
  unfold chargeReports
  rw [List.foldl_concat, hbudget]

theorem count_chargeCalls (field : RepassBudget → Counters) {stage : String}
    {clears counts : ChargeCall → Bool} (hempty : (field {}).count stage = 0)
    (hstep : ∀ b c, (field (RepassBudget.chargeCall b c).1).count stage =
      if clears c then 0 else if counts c then (field b).count stage + 1
      else (field b).count stage) (calls : List ChargeCall) :
    (field (chargeCalls calls)).count stage = (sinceLast clears calls).countP counts := by
  refine count_eq_sinceLast (fun calls => (field (chargeCalls calls)).count stage) hempty
    (fun calls c => ?_) calls
  rw [chargeCalls_concat]
  exact hstep _ c

theorem repassAttempts_chargeCall (stage : String) (b : RepassBudget) (c : ChargeCall) :
    (b.chargeCall c).1.repassAttempts.count stage =
      if c.repasses stage then b.repassAttempts.count stage + 1
      else b.repassAttempts.count stage := by
  refine ((b.charge_policy _ _ _ _ _).1 stage).trans ?_
  unfold ChargeCall.repasses
  by_cases ht : stage = c.target
  · simp [ht]
  · simp [ht, Ne.symm ht]

theorem infrastructureRepassAttempts_chargeCall (stage : String) (b : RepassBudget)
    (c : ChargeCall) :
    (b.chargeCall c).1.infrastructureRepassAttempts.count stage =
      if c.clearsInfra stage then 0
      else if c.infraRetries stage then b.infrastructureRepassAttempts.count stage + 1
      else b.infrastructureRepassAttempts.count stage := by
  refine (b.charge_infrastructure _ _ _ _ _ stage).trans ?_
  unfold ChargeCall.clearsInfra ChargeCall.infraRetries
  by_cases hw : c.outcome = outcomeTimeout
  · simp [hw]
  by_cases hi : c.outcome = outcomeInfra
  · by_cases ht : stage = c.target
    · simp [hi, ht]
    · simp [hi, ht, Ne.symm ht]
  · simp [hw, hi]

theorem pollAttempts_chargeCall (stage : String) (b : RepassBudget) (c : ChargeCall) :
    (b.chargeCall c).1.pollAttempts.count stage =
      if c.clearsPoll stage then 0
      else if c.polls stage then b.pollAttempts.count stage + 1
      else b.pollAttempts.count stage := by
  refine (b.charge_poll _ _ _ _ _ stage).trans ?_
  unfold ChargeCall.clearsPoll ChargeCall.polls
  by_cases hw : c.outcome = outcomeTimeout
  · by_cases ht : stage = c.target
    · simp [hw, ht]
    · simp [hw, ht, Ne.symm ht]
  · simp [hw]

theorem repassAttempts_eq (stage : String) (calls : List ChargeCall) :
    (chargeCalls calls).repassAttempts.count stage = calls.countP (ChargeCall.repasses stage) := by
  induction calls using List.reverseRecOn with
  | nil => rfl
  | append_singleton calls c ih =>
    rw [chargeCalls_concat, repassAttempts_chargeCall, ih]
    cases hc : c.repasses stage <;> simp [hc]

def unexceeded (stage : String) (calls : List ChargeCall) : Nat :=
  (chargeReports calls).countP (fun r => r.1.repasses stage && !r.2.exceeded)

theorem unexceeded_concat (stage : String) (calls : List ChargeCall) (c : ChargeCall) :
    unexceeded stage (calls ++ [c]) = unexceeded stage calls +
      if c.repasses stage && !((chargeCalls calls).chargeCall c).2.exceeded then 1 else 0 := by
  unfold unexceeded
  rw [chargeReports_concat, List.countP_append, List.countP_singleton]

/-- The n-th policy re-entry is reported as exceeded if n is past the bound of its gate. -/
theorem unexceeded_le (stage : String) (calls : List ChargeCall) :
    unexceeded stage calls ≤ calls.countP (ChargeCall.repasses stage) ∧
      unexceeded stage calls ≤ largestBound stage calls := by
  -- on the calls; a charge beyond the bound is not an unexceeded one
  induction calls using List.reverseRecOn with
  | nil => exact ⟨Nat.le_refl 0, Nat.le_refl 0⟩
  | append_singleton calls c ih =>
    unfold largestBound at ih ⊢
    rw [unexceeded_concat, List.countP_append, List.filter_append]
    cases hc : c.repasses stage with
    | false => simpa [hc] using ih
    | true =>
      have hparts := hc
      simp only [ChargeCall.repasses, Bool.and_eq_true, decide_eq_true_eq] at hparts
      obtain ⟨⟨hreentry, hclass⟩, rfl⟩ := hparts
      obtain ⟨-, hattempt, hexceeded⟩ := ((chargeCalls calls).charge_policy c.gate c.outcome
        c.target c.reentry c.maxRepasses).2.1 hclass hreentry
      rw [hattempt, repassAttempts_eq] at hexceeded
      have hone : [c].countP (ChargeCall.repasses c.target) = 1 := by simp [hc]
      have hmax : ((calls.filter (ChargeCall.repasses c.target) ++
          [c].filter (ChargeCall.repasses c.target)).map ChargeCall.policyBound).foldl max 0 =
          max (((calls.filter (ChargeCall.repasses c.target)).map
            ChargeCall.policyBound).foldl max 0) c.policyBound := by simp [hc]
      change ((chargeCalls calls).chargeCall c).2.exceeded = true ↔ c.policyBound < _ at hexceeded
      cases hx : ((chargeCalls calls).chargeCall c).2.exceeded with
      | true =>
        simp only [Bool.not_true, Bool.and_false, Bool.false_eq_true, if_false]
        omega
      | false =>
        have hbound : ¬ c.policyBound < calls.countP (ChargeCall.repasses c.target) + 1 := by
          intro hlt
          rw [hexceeded.mpr hlt] at hx
          cases hx
        simp only [Bool.not_false, Bool.and_true, if_true]
        omega

/--
**The counters of a stage, in closed form, and the bound on its repair loop.** After any
charges of an empty budget the policy counter is the number of policy re-entries, the
infrastructure and polling counters are the numbers of theirs since a gate with a branch
to the stage last made progress, and the policy re-entries that were not reported as
exceeded are at most the largest bound of the gates they came from.
-/
theorem charge_counters_exact (calls : List ChargeCall) (stage : String) :
    (chargeCalls calls).repassAttempts.count stage = calls.countP (ChargeCall.repasses stage) ∧
      (chargeCalls calls).infrastructureRepassAttempts.count stage =
        (sinceLast (ChargeCall.clearsInfra stage) calls).countP (ChargeCall.infraRetries stage) ∧
      (chargeCalls calls).pollAttempts.count stage =
        (sinceLast (ChargeCall.clearsPoll stage) calls).countP (ChargeCall.polls stage) ∧
      unexceeded stage calls ≤ largestBound stage calls := by
  refine ⟨repassAttempts_eq stage calls, ?_, ?_, (unexceeded_le stage calls).2⟩
  · exact count_chargeCalls RepassBudget.infrastructureRepassAttempts rfl
      (infrastructureRepassAttempts_chargeCall stage) calls
  · exact count_chargeCalls RepassBudget.pollAttempts rfl
      (pollAttempts_chargeCall stage) calls

/-! ## The seed of a resumed run -/

/-- A consumer's invalid handoff; `unsupported` says why its producer cannot be retried. -/
structure InvalidHandoff where
  consumer : String
  producer : String
  input : String := ""
  unsupported : String := ""
  /-- The producer is a stage that has completed. -/
  reentry : Bool

def invalidHandoffUnsupportedTopologyReason : String := "invalid_handoff_unsupported_topology"

def InvalidHandoff.event (h : InvalidHandoff) (fields : List (String × RunnerValue)) : Event :=
  { type := .runnerAnnotate, stage := h.consumer,
    runner := [("kind", .str handoffValidationRetryAnnotationKind), ("consumer", .str h.consumer),
      ("producer", .str h.producer), ("input", .str h.input)] ++ fields }

/-- `decideInvalidHandoff`: charge the producer's retry, unless there can be none. -/
def decideInvalidHandoff (b : RepassBudget) (h : InvalidHandoff) (maxRepasses : Nat) :
    RepassBudget × Event :=
  if h.unsupported ≠ "" then
    (b, h.event [("escalated", .bool true),
      ("reason", .str invalidHandoffUnsupportedTopologyReason), ("detail", .str h.unsupported)])
  else
    let synthetic : Gate :=
      { name := "handoff.validation:" ++ h.consumer
        branches := GoMap.put ∅ outcomeFail h.producer }
    let (b, charge) := b.charge synthetic outcomeFail h.producer h.reentry maxRepasses
    (b, h.event ([("target", .str h.producer), ("repassAttempt", .num charge.attempt),
        ("repassLimit", .num charge.bound)] ++
      if charge.exceeded then [("escalated", .bool true), ("reason", .str charge.escalationReason)]
      else []))

def reasonRemediationEvidenceNotInspected : String := "REMEDIATION_EVIDENCE_NOT_INSPECTED"

/-- The escalation that ends a loop of uninspected remediations; nothing is charged for it. -/
def uninspectedResult (g : Gate) (attempt : Nat) : Result :=
  { gate := g.name
    outcome := if structuredMechanicalEscalation g then Decision.escalate.text
      else Decision.needsChanges.text
    target := escalationTarget g, attempt := attempt, gateAttempt := attempt, escalated := true
    reason := reasonRemediationEvidenceNotInspected }

/--
What puts a verdict or a retry on record, and the resume that reads them. It is the resume
after a crash, which goes on in the same segment of the journal: no `run.resumed` and no
override is recorded, so the segment is the whole journal.
-/
inductive GateAct where
  | evaluate (e : Evaluation)
  /-- The decision of a human gate, which has a branch. -/
  | human (gate decision target : String)
  | uninspected (gate diffDigest : String)
  | handoff (h : InvalidHandoff)
  | resume

section
variable (gates : GateSet) (maxRepasses : Nat)

def Evaluator.act (ev : Evaluator) : GateAct → Evaluator
  | .evaluate e => (ev.evaluate gates maxRepasses e).1
  | .human gate decision target =>
    { ev with journal := ev.journal ++
        [verdictEvent { gate := gate, outcome := decision, target := target } ""] }
  | .uninspected gate diffDigest =>
    let g := gates.gate gate
    { ev with journal := ev.journal ++
        [verdictEvent (uninspectedResult g (ev.budget.attempts.count g.name)) diffDigest] }
  | .handoff h =>
    let (budget, event) := decideInvalidHandoff ev.budget h maxRepasses
    ⟨budget, ev.journal ++ [event]⟩
  | .resume => { ev with budget := seededBudget ev.journal }

def actAll (acts : List GateAct) : Evaluator := acts.foldl (Evaluator.act gates maxRepasses) {}

end

theorem targetRepassSeed_concat (events : List Event) (e : Event) :
    targetRepassSeed (events ++ [e]) = targetRepassStep (targetRepassSeed events) e := by
  simp [targetRepassSeed]

theorem targetRepassStep_verdictEvent (seed : Counters) (r : Result) (diffDigest : String) :
    targetRepassStep seed (verdictEvent r diffDigest) =
      if r.outcome = outcomeInfra ∨ r.outcome = outcomeTimeout then seed
      else
        let target :=
          if r.repassTarget = "" ∧ r.outcome ≠ outcomePass ∧ r.escalated = false then r.target
          else r.repassTarget
        if target = "" then seed else raise seed target r.attempt := by
  unfold targetRepassStep
  simp

theorem targetRepassStep_handoff (seed : Counters) (h : InvalidHandoff) (n bound : Nat)
    (more : List (String × RunnerValue)) :
    targetRepassStep seed (h.event ([("target", .str h.producer), ("repassAttempt", .num n),
        ("repassLimit", .num bound)] ++ more)) =
      if h.producer = "" then seed else raise seed h.producer n := by
  simp [targetRepassStep, isHandoffRetry, runnerCount, Event.runnerValue, Event.runnerString,
    InvalidHandoff.event, List.lookup_cons]

/-- The live count of every target is the one the journal seeds. -/
def RepassAgrees (ev : Evaluator) : Prop :=
  ∀ stage, stage ≠ "" →
    (targetRepassSeed ev.journal).count stage = ev.budget.repassAttempts.count stage

section
variable {ev : Evaluator} {seed live live' : Counters}

theorem count_verdict_zero (seed : Counters) {r : Result} (hattempt : r.attempt = 0)
    (diffDigest stage : String) :
    (targetRepassStep seed (verdictEvent r diffDigest)).count stage = seed.count stage := by
  rw [targetRepassStep_verdictEvent, hattempt]
  split
  · rfl
  · dsimp only
    generalize (if r.repassTarget = "" ∧ r.outcome ≠ outcomePass ∧ r.escalated = false then
      r.target else r.repassTarget) = target
    split
    · rfl
    · rw [count_raise]
      split <;> simp

theorem targetRepassStep_escalated (seed : Counters) {r : Result} (htarget : r.repassTarget = "")
    (hescalated : r.escalated = true) (diffDigest : String) :
    targetRepassStep seed (verdictEvent r diffDigest) = seed := by
  rw [targetRepassStep_verdictEvent]
  simp [htarget, hescalated]

variable {gates : GateSet} {maxRepasses : Nat}

/-- An evaluation keeps the live count equal to the one the journal seeds. -/
theorem RepassAgrees.resolveOutcome (h : RepassAgrees ev) (e : Evaluation) :
    RepassAgrees (ev.resolveOutcome gates maxRepasses e).1 := by
  cases hbranch : branchTarget (gates.gate e.gate) e.outcome with
  | none =>
    rw [resolveOutcome_of_none hbranch]
    exact h
  | some target =>
    rw [resolveOutcome_of_some hbranch]
    intro stage hstage
    obtain ⟨hlive, hretry, hfirst⟩ := ev.budget.charge_policy (gates.gate e.gate) e.outcome target
      e.reentry maxRepasses
    rw [targetRepassSeed_concat, hlive, ← h stage hstage]
    generalize (ev.budget.charge (gates.gate e.gate) e.outcome target e.reentry maxRepasses).2 = c
      at hretry hfirst ⊢
    have hinfra := chargedResult_outcome_iff (gates.gate e.gate) e target c (.inl rfl)
    have htimeout := chargedResult_outcome_iff (gates.gate e.gate) e target c (.inr rfl)
    by_cases hcharged : policyOutcome e.outcome = true ∧ e.reentry = true
    · obtain ⟨htarget, hattempt, -⟩ := hretry hcharged.1 hcharged.2
      obtain ⟨-, hi, hw⟩ := policyOutcome_iff.mp hcharged.1
      rw [targetRepassStep_verdictEvent,
        if_neg (by rw [hinfra, htimeout]; exact not_or.mpr ⟨hi, hw⟩)]
      have hname : (chargedResult (gates.gate e.gate) e target c).repassTarget = target := htarget
      have hcount : (chargedResult (gates.gate e.gate) e target c).attempt =
          ev.budget.repassAttempts.count target + 1 := hattempt
      have hshown : (if target = "" ∧
          (chargedResult (gates.gate e.gate) e target c).outcome ≠ outcomePass ∧
            (chargedResult (gates.gate e.gate) e target c).escalated = false then
          (chargedResult (gates.gate e.gate) e target c).target else target) = target := by
        split_ifs with hplain
        · have hesc := hplain.2.2
          unfold chargedResult at hesc ⊢
          dsimp only at hesc ⊢
          rw [hesc]
          rfl
        · rfl
      rw [hname, hshown]
      by_cases hne : target = ""
      · -- a branch without a stage is charged but not recorded; no stage has its name
        rw [if_pos hne, if_neg (fun hc => hstage (hc.2.2.trans hne))]
      · rw [if_neg hne, count_raise]
        by_cases hs : stage = target
        · rw [if_pos hs, if_pos ⟨hcharged.2, hcharged.1, hs⟩, h stage hstage, hs]
          omega
        · rw [if_neg hs, if_neg (fun hc => hs hc.2.2)]
    · rw [if_neg (fun hc => hcharged ⟨hc.2.1, hc.1⟩)]
      by_cases hi : e.outcome = outcomeInfra
      · rw [targetRepassStep_verdictEvent, if_pos (.inl (hinfra.mpr hi))]
      · exact count_verdict_zero _ (hfirst hi hcharged).2 _ _

theorem RepassAgrees.handoff (h : RepassAgrees ev) (i : InvalidHandoff) :
    RepassAgrees (ev.act gates maxRepasses (.handoff i)) := by
  intro stage hstage
  unfold Evaluator.act decideInvalidHandoff
  dsimp only
  split
  · rw [targetRepassSeed_concat]
    exact h stage hstage
  obtain ⟨hlive, hretry, hfirst⟩ := ev.budget.charge_policy
    { name := "handoff.validation:" ++ i.consumer
      branches := GoMap.put ∅ outcomeFail i.producer } outcomeFail i.producer i.reentry
    maxRepasses
  generalize ev.budget.charge _ outcomeFail i.producer i.reentry maxRepasses = r
    at hlive hretry hfirst ⊢
  rw [targetRepassSeed_concat, hlive, ← h stage hstage]
  have hclass : policyOutcome outcomeFail = true := by decide
  rw [targetRepassStep_handoff]
  by_cases hne : i.producer = ""
  · rw [if_pos hne, if_neg (fun hc => hstage (hc.2.2.trans hne))]
  rw [if_neg hne, count_raise]
  by_cases hs : stage = i.producer
  · subst hs
    cases hr : i.reentry with
    | true =>
      rw [(hretry hclass hr).2.1, h _ hstage]
      simp [hclass]
    | false =>
      rw [(hfirst (by decide) (by simp [hr])).2]
      simp
  · rw [if_neg hs, if_neg (fun hc => hs hc.2.2)]

/-- So does everything else a run does at its gates. -/
theorem RepassAgrees.act (h : RepassAgrees ev) (a : GateAct) :
    RepassAgrees (ev.act gates maxRepasses a) := by
  -- a crash resume seeds the count from the journal, so it agrees by definition
  cases a with
  | evaluate e =>
    unfold Evaluator.act Evaluator.evaluate Evaluator.recoverInterrupted
    dsimp only
    split
    · rename_i hrecovered
      split at hrecovered
      · cases hrecovered
      · cases hrecovered
        intro stage hstage
        rw [targetRepassSeed_concat, targetRepassStep_escalated _ rfl rfl]
        exact h stage hstage
    · refine RepassAgrees.resolveOutcome (fun stage hstage => ?_) e
      unfold Evaluator.recordStart
      rw [targetRepassSeed_concat]
      exact h stage hstage
  | human gate decision target =>
    intro stage hstage
    unfold Evaluator.act
    rw [targetRepassSeed_concat, count_verdict_zero _ rfl]
    exact h stage hstage
  | uninspected gate diffDigest =>
    intro stage hstage
    unfold Evaluator.act
    rw [targetRepassSeed_concat, targetRepassStep_escalated _ rfl rfl]
    exact h stage hstage
  | handoff i => exact h.handoff i
  | resume => exact fun _ _ => rfl

end

/--
**A resumed run keeps the repass count of every stage.** After any evaluations, human
decisions, invalid handoffs and resumes the journal gives every stage the count that
the live budget has.
-/
theorem repass_seed_exact (gates : GateSet) (maxRepasses : Nat) (acts : List GateAct)
    (stage : String) (hstage : stage ≠ "") :
    (targetRepassSeed (actAll gates maxRepasses acts).journal).count stage =
      (actAll gates maxRepasses acts).budget.repassAttempts.count stage := by
  have hall : ∀ ev : Evaluator, RepassAgrees ev →
      RepassAgrees (acts.foldl (Evaluator.act gates maxRepasses) ev) := by
    induction acts with
    | nil => exact fun _ h => h
    | cons a acts ih => exact fun ev h => ih _ (h.act a)
  exact hall {} (fun _ _ => rfl) stage hstage

def failingGates : GateSet where
  gate name := { name := name, branches := GoMap.put ∅ outcomeFail "implement" }
  named _ := rfl

def failingActs : List GateAct :=
  [.evaluate { gate := "ci", finding := .automated outcomeFail, reentry := true }, .resume,
   .evaluate { gate := "lint", finding := .automated outcomeFail, reentry := true },
   .handoff { consumer := "review", producer := "implement", reentry := true }]

/-- Two failed checks, a resume between them, and an invalid handoff send `implement` back. -/
theorem three_repasses_kept :
    (targetRepassSeed (actAll failingGates 0 failingActs).journal).count "implement" = 3 :=
  (repass_seed_exact failingGates 0 failingActs "implement" (by decide)).trans (by decide)

end Goobers.Gates
