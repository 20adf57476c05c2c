import Goobers.Gates.Seeds
import Goobers.Lib.Prefix

/-!
# What a restart does to the retry and polling budgets

A budget gives an infrastructure counter back whenever a gate that *declares* an
infrastructure branch to its target makes progress. The seed gives it back only if
that gate has itself *charged* the target before. The two agree as long as no gate
gives back a counter that another one has charged in its place, and that is the
whole difference between them: so it is for the polling counters too.
-/

namespace Goobers.Gates

open Lib Evaluation
open Journal (Event)

variable {gate : String} {kind : Evaluation → Bool} {p : List Evaluation} {e : Evaluation}

theorem count_raise (seed : Counters) (target : String) (n : Nat) (key : String) :
    (raise seed target n).count key
      = if key = target then max (seed.count key) n else seed.count key := by
  unfold raise
  by_cases hk : key = target
  · subst hk
    rw [if_pos rfl]
    split
    · rw [Counters.count_put, if_pos rfl]
      omega
    · omega
  · split
    · rw [Counters.count_put, if_neg hk]
    · rfl

namespace TargetSeed

theorem count_note (s : TargetSeed) (gate target : String) (n : Nat) (key : String) :
    (s.note gate target n).seed.count key
      = if key = target then max (s.seed.count key) n else s.seed.count key :=
  count_raise s.seed target n key

theorem gateTarget_note (s : TargetSeed) (gate target : String) (n : Nat) (gate' : String) :
    (s.note gate target n).gateTarget gate' =
      if gate' = gate then target else s.gateTarget gate' := by
  unfold gateTarget note
  rw [GoMap.get?_put]
  split <;> rfl

theorem count_reset (s : TargetSeed) (gate key : String) :
    (s.reset gate).seed.count key
      = if s.gateTarget gate ≠ "" ∧ key = s.gateTarget gate then 0 else s.seed.count key := by
  unfold reset
  by_cases hg : s.gateTarget gate = ""
  · simp [hg]
  · simp [hg, Counters.count_put]

theorem gateTarget_reset (s : TargetSeed) (gate gate' : String) :
    (s.reset gate).gateTarget gate' = s.gateTarget gate' := by
  unfold reset
  split <;> rfl

/--
The targets a seed remembers: those of the gates that have charged, each the branch
the gate declares. Nothing is counted under the empty target.
-/
structure Tracks (s : TargetSeed) (declared : String → Option String)
    (marked : String → Prop) : Prop where
  unnamed : s.seed.count "" = 0
  ofMarked : ∀ gate, marked gate → s.gateTarget gate = (declared gate).getD ""
  ofUnmarked : ∀ gate, ¬ marked gate → s.gateTarget gate = ""

variable {s : TargetSeed} {declared : String → Option String} {marked : String → Prop}

section
variable (h : s.Tracks declared marked)
include h

theorem Tracks.reset (gate : String) :
    (s.reset gate).Tracks declared marked where
  unnamed := by
    rw [count_reset, h.unnamed]
    split <;> rfl
  ofMarked gate' hm := (gateTarget_reset s gate gate').trans (h.ofMarked gate' hm)
  ofUnmarked gate' hm := (gateTarget_reset s gate gate').trans (h.ofUnmarked gate' hm)

theorem Tracks.note {target : String} (n : Nat) (hdeclared : declared gate = some target)
    (hne : target ≠ "") :
    (s.note gate target n).Tracks declared (fun gate' => gate' = gate ∨ marked gate') where
  unnamed := by
    rw [count_note, if_neg hne.symm, h.unnamed]
  ofMarked gate' hm := by
    rw [gateTarget_note]
    split_ifs with hg
    · rw [hg, hdeclared, Option.getD_some]
    · exact h.ofMarked gate' (hm.resolve_left hg)
  ofUnmarked gate' hm := by
    rw [not_or] at hm
    rw [gateTarget_note, if_neg hm.1]
    exact h.ofUnmarked gate' hm.2

theorem Tracks.mark_unnamed (hdeclared : (declared gate).getD "" = "") :
    s.Tracks declared (fun gate' => gate' = gate ∨ marked gate') where
  unnamed := h.unnamed
  ofMarked gate' hm := by
    by_cases hg : marked gate'
    · exact h.ofMarked gate' hg
    · rw [h.ofUnmarked gate' hg, hm.resolve_right hg, hdeclared]
  ofUnmarked gate' hm := h.ofUnmarked gate' (fun hg => hm (.inr hg))

/-- When giving a counter back keeps the seed equal to the live count. -/
theorem Tracks.reset_agrees_iff {live live' : Counters}
    (hlive : ∀ key, live'.count key = if declared gate = some key then 0 else live.count key)
    (heq : ∀ key, s.seed.count key = live.count key) :
    (∀ key, (s.reset gate).seed.count key = live'.count key) ↔
      ∀ target, declared gate = some target → live.count target = 0 ∨ marked gate := by
  constructor
  · intro hagree target hd
    by_cases hm : marked gate
    · exact .inr hm
    · have hkey := hagree target
      rw [count_reset, h.ofUnmarked gate hm, hlive, if_pos hd, heq] at hkey
      exact .inl hkey
  · intro hcond key
    rw [count_reset, hlive, heq]
    by_cases hd : declared gate = some key
    · rw [if_pos hd]
      rcases hcond key hd with hzero | hm
      · rw [hzero]
        split <;> rfl
      · have hgate : s.gateTarget gate = key := by rw [h.ofMarked gate hm, hd, Option.getD_some]
        by_cases hne : key = ""
        · rw [hgate, if_neg (fun hand => hand.1 hne), ← heq, hne, h.unnamed]
        · rw [hgate, if_pos ⟨hne, rfl⟩]
    · rw [if_neg hd, if_neg]
      -- a gate's target is the branch it declares, which `key` is not
      rintro ⟨hne, hkey⟩
      by_cases hm : marked gate
      · have hgate := h.ofMarked gate hm
        cases hd' : declared gate with
        | none => rw [hd'] at hgate; exact hne hgate
        | some t =>
          rw [hd', Option.getD_some] at hgate
          exact hd (by rw [hd', hkey, hgate])
      · exact hne (h.ofUnmarked gate hm)

/-- When charging it does. -/
theorem Tracks.charge_agrees_iff (gate : String) {target : String} {reentry : Bool}
    {live live' : Counters} {s' : TargetSeed}
    (hlive : ∀ key, live'.count key =
      if reentry = true ∧ key = target then live.count target + 1 else live.count key)
    (hnoted : target ≠ "" → reentry = true → s' = s.note gate target (live.count target + 1))
    (hunnamed : target = "" → s' = s)
    (hkept : reentry = false → ∀ key, s'.seed.count key = s.seed.count key)
    (heq : ∀ key, s.seed.count key = live.count key) :
    (∀ key, s'.seed.count key = live'.count key) ↔ (reentry = true → target ≠ "") := by
  constructor
  · rintro hagree hr rfl
    have hkey := hagree ""
    rw [hunnamed rfl, h.unnamed, hlive, if_pos ⟨hr, rfl⟩] at hkey
    omega
  · intro hcond key
    rw [hlive]
    cases hr : reentry with
    | false => rw [if_neg (by simp), hkept hr, heq]
    | true =>
      rw [hnoted (hcond hr) hr, count_note, heq]
      by_cases hk : key = target
      · rw [if_pos hk, if_pos ⟨rfl, hk⟩, hk]
        omega
      · rw [if_neg hk, if_neg (fun hand => hk hand.2)]

end

end TargetSeed

/-! ## Runs of charged evaluations -/

section
variable (gates : GateSet) (maxRepasses : Nat)

def chargeAll (evaluations : List Evaluation) : Evaluator :=
  evaluations.foldl (fun ev e => (ev.resolveOutcome gates maxRepasses e).1) {}

theorem chargeAll_concat (p : List Evaluation) (e : Evaluation) :
    chargeAll gates maxRepasses (p ++ [e])
      = ((chargeAll gates maxRepasses p).resolveOutcome gates maxRepasses e).1 := by
  unfold chargeAll
  rw [List.foldl_append]
  rfl

end

/-- An infrastructure failure whose record names its target. -/
def Evaluation.marksInfra (e : Evaluation) : Bool :=
  e.outcome = outcomeInfra && (e.reentry || !(e.duplicateDiff || e.forcedEscalation))

/-- A timeout whose record names its target. -/
def Evaluation.marksPoll (e : Evaluation) : Bool := e.outcome = outcomeTimeout && e.reentry

def Marked (kind : Evaluation → Bool) (p : List Evaluation) (gate : String) : Prop :=
  ∃ e ∈ p, e.gate = gate ∧ kind e = true

theorem marked_concat_iff :
    Marked kind (p ++ [e]) gate ↔ (gate = e.gate ∧ kind e = true) ∨ Marked kind p gate := by
  constructor
  · rintro ⟨x, hx, hg, hk⟩
    rcases List.mem_append.mp hx with hx | hx
    · exact .inr ⟨x, hx, hg, hk⟩
    · rw [List.mem_singleton] at hx
      subst hx
      exact .inl ⟨hg.symm, hk⟩
  · rintro (⟨hg, hk⟩ | ⟨x, hx, hg, hk⟩)
    · exact ⟨e, by simp, hg.symm, hk⟩
    · exact ⟨x, List.mem_append_left _ hx, hg, hk⟩

theorem marked_concat_of_kind (h : kind e = true) (p : List Evaluation) :
    Marked kind (p ++ [e]) = fun gate => gate = e.gate ∨ Marked kind p gate := by
  funext gate
  rw [marked_concat_iff, h]
  simp

theorem marked_concat_of_not_kind (h : kind e = false) (p : List Evaluation) :
    Marked kind (p ++ [e]) = Marked kind p := by
  funext gate
  rw [marked_concat_iff, h]
  simp

section
variable {gates : GateSet} {maxRepasses : Nat} {ev : Evaluator} {e : Evaluation} {target : String}

theorem infraLoop_concat (events : List Event) (event : Event) :
    infrastructureTargetRepassLoop (events ++ [event])
      = TargetSeed.step (some outcomeTimeout) outcomeInfra "repassTarget" "repassAttempt"
          (infrastructureTargetRepassLoop events) event := by
  unfold infrastructureTargetRepassLoop
  rw [List.foldl_append]
  rfl

theorem pollLoop_concat (events : List Event) (event : Event) :
    pollingTargetLoop (events ++ [event])
      = TargetSeed.step none outcomeTimeout "pollTarget" "pollAttempt"
          (pollingTargetLoop events) event := by
  unfold pollingTargetLoop
  rw [List.foldl_append]
  rfl

theorem infraLoop_resolveOutcome
    (h : branchTarget (gates.gate e.gate) e.outcome = some target) :
    let s := infrastructureTargetRepassLoop ev.journal
    infrastructureTargetRepassLoop (ev.resolveOutcome gates maxRepasses e).1.journal
      = if e.outcome = outcomeTimeout then s
        else if e.outcome = outcomeInfra then
          if e.marksInfra = true ∧ target ≠ "" then
            s.note e.gate target
              (if e.reentry then ev.budget.infrastructureRepassAttempts.count target + 1 else 0)
          else s
        else s.reset e.gate := by
  rw [resolveOutcome_of_some h]
  rw [infraLoop_concat]
  unfold TargetSeed.step
  simp only [verdictEvent_verdict, ne_eq, Option.some.injEq,
    chargedResult_outcome_iff _ _ _ _ (.inr rfl), chargedResult_outcome_iff _ _ _ _ (.inl rfl)]
  by_cases hw : e.outcome = outcomeTimeout
  · simp [hw]
  by_cases hi : e.outcome = outcomeInfra
  · obtain ⟨hretry, hfirst⟩ := ev.budget.charge_of_infra (gates.gate e.gate) target e.reentry
      maxRepasses
    rw [← hi] at hretry hfirst
    generalize (ev.budget.charge (gates.gate e.gate) e.outcome target e.reentry maxRepasses).2 = c
      at hretry hfirst ⊢
    cases hr : e.reentry with
    | true =>
      obtain ⟨htarget, hattempt⟩ := hretry hr
      by_cases hne : target = ""
      · cases hx : c.exceeded <;> cases hd : e.duplicateDiff <;> cases hf : e.forcedEscalation <;>
          simp [chargedResult, hi, hne, htarget, hx, hd, hf]
      · simp [chargedResult, marksInfra, gates.named, hi, hr, hne, htarget, hattempt]
    | false =>
      obtain ⟨htarget, hattempt, hexceeded⟩ := hfirst hr
      cases hd : e.duplicateDiff <;> cases hf : e.forcedEscalation <;>
        simp [chargedResult, marksInfra, gates.named, hi, hr, hd, hf, htarget,
          hattempt, hexceeded]
  · simp [hi, chargedResult, gates.named]

theorem pollLoop_resolveOutcome
    (h : branchTarget (gates.gate e.gate) e.outcome = some target) :
    let s := pollingTargetLoop ev.journal
    pollingTargetLoop (ev.resolveOutcome gates maxRepasses e).1.journal
      = if e.outcome = outcomeTimeout then
          if e.marksPoll = true ∧ target ≠ "" then
            s.note e.gate target (ev.budget.pollAttempts.count target + 1)
          else s
        else s.reset e.gate := by
  rw [resolveOutcome_of_some h]
  rw [pollLoop_concat]
  unfold TargetSeed.step
  simp only [verdictEvent_verdict, ne_eq, chargedResult_outcome_iff _ _ _ _ (.inr rfl)]
  by_cases hw : e.outcome = outcomeTimeout
  · obtain ⟨hpoll, hfirst⟩ := ev.budget.charge_of_timeout (gates.gate e.gate) target e.reentry
      maxRepasses
    rw [← hw] at hpoll hfirst
    generalize (ev.budget.charge (gates.gate e.gate) e.outcome target e.reentry maxRepasses).2 = c
      at hpoll hfirst ⊢
    cases hr : e.reentry with
    | true =>
      obtain ⟨htarget, hattempt⟩ := hpoll hr
      by_cases hne : target = ""
      · simp [chargedResult, hw, hne, htarget]
      · simp [chargedResult, marksPoll, gates.named, hw, hr, hne, htarget, hattempt]
    | false =>
      obtain ⟨htarget, _, _⟩ := hfirst hr
      simp [chargedResult, marksPoll, hw, hr, htarget]
  · simp [hw, chargedResult, gates.named]

end

/-! ## The seeds along a run -/

section
variable (gates : GateSet) (maxRepasses : Nat)

def declaredInfra (gate : String) : Option String := branchTarget (gates.gate gate) outcomeInfra

def declaredPoll (gate : String) : Option String := branchTarget (gates.gate gate) outcomeTimeout

theorem TargetSeed.Tracks.concat {declared : String → Option String} {s s' : TargetSeed}
    (h : s.Tracks declared (Marked kind p))
    (hs' : (s' = s ∧ (kind e = true → (declared e.gate).getD "" = "")) ∨
      (s' = s.reset e.gate ∧ kind e = false) ∨
      (∃ target n, s' = s.note e.gate target n ∧ kind e = true ∧
        declared e.gate = some target ∧ target ≠ "")) :
    s'.Tracks declared (Marked kind (p ++ [e])) := by
  rcases hs' with ⟨rfl, hkind⟩ | ⟨rfl, hkind⟩ | ⟨target, n, rfl, hkind, hdeclared, hne⟩
  · cases hk : kind e with
    | false =>
      rw [marked_concat_of_not_kind hk]
      exact h
    | true =>
      rw [marked_concat_of_kind hk]
      exact h.mark_unnamed (hkind hk)
  · rw [marked_concat_of_not_kind hkind]
    exact h.reset e.gate
  · rw [marked_concat_of_kind hkind]
    exact h.note n hdeclared hne

theorem Evaluation.outcome_of_marksInfra (h : e.marksInfra = true) : e.outcome = outcomeInfra := by
  unfold marksInfra at h
  rw [Bool.and_eq_true, decide_eq_true_eq] at h
  exact h.1

theorem Evaluation.outcome_of_marksPoll (h : e.marksPoll = true) : e.outcome = outcomeTimeout := by
  unfold marksPoll at h
  rw [Bool.and_eq_true, decide_eq_true_eq] at h
  exact h.1

/-- The loop over the journal follows the evaluations one by one. -/
theorem loop_tracks_step {loop : List Event → TargetSeed} {outcome : String}
    (hkind : ∀ e, kind e = true → e.outcome = outcome) {ev : Evaluator} {past : List Evaluation}
    (htracks : (loop ev.journal).Tracks
      (fun gate => branchTarget (gates.gate gate) outcome) (Marked kind past))
    (hloop : ∀ target, branchTarget (gates.gate e.gate) e.outcome = some target →
      (loop (ev.resolveOutcome gates maxRepasses e).1.journal = loop ev.journal ∧
        (kind e = true → target = "")) ∨
      (loop (ev.resolveOutcome gates maxRepasses e).1.journal = (loop ev.journal).reset e.gate ∧
        kind e = false) ∨
      (∃ n, loop (ev.resolveOutcome gates maxRepasses e).1.journal =
        (loop ev.journal).note e.gate target n ∧ kind e = true ∧ target ≠ "")) :
    (loop (ev.resolveOutcome gates maxRepasses e).1.journal).Tracks
      (fun gate => branchTarget (gates.gate gate) outcome) (Marked kind (past ++ [e])) := by
  refine htracks.concat ?_
  have hdeclared : kind e = true → branchTarget (gates.gate e.gate) outcome =
      branchTarget (gates.gate e.gate) e.outcome := by
    intro hk
    rw [hkind e hk]
  cases hbranch : branchTarget (gates.gate e.gate) e.outcome with
  | none =>
    rw [resolveOutcome_of_none hbranch]
    exact .inl ⟨rfl, fun hk => by rw [hdeclared hk, hbranch]; rfl⟩
  | some target =>
    rcases hloop target hbranch with ⟨heq, hunnamed⟩ | hreset | ⟨n, heq, hk, hne⟩
    · refine .inl ⟨heq, fun hk => ?_⟩
      rw [hdeclared hk, hbranch]
      exact hunnamed hk
    · exact .inr (.inl hreset)
    · exact .inr (.inr ⟨target, n, heq, hk, (hdeclared hk).trans hbranch, hne⟩)

/-- The seed of no events remembers no target. -/
theorem tracks_empty (declared : String → Option String) :
    TargetSeed.Tracks {} declared (Marked kind []) :=
  ⟨rfl, fun _ ⟨_, hx, _⟩ => (List.not_mem_nil hx).elim, fun _ _ => rfl⟩

section
variable {ev : Evaluator} {past : List Evaluation}

theorem infra_tracks_step (htracks : (infrastructureTargetRepassLoop ev.journal).Tracks
      (declaredInfra gates) (Marked marksInfra past)) (e : Evaluation) :
    (infrastructureTargetRepassLoop (ev.resolveOutcome gates maxRepasses e).1.journal).Tracks
      (declaredInfra gates) (Marked marksInfra (past ++ [e])) := by
  refine loop_tracks_step gates maxRepasses (fun e => outcome_of_marksInfra) htracks ?_
  intro target hbranch
  rw [infraLoop_resolveOutcome hbranch]
  by_cases hi : e.outcome = outcomeInfra
  · rw [if_neg (by rw [hi]; simp), if_pos hi]
    split
    · rename_i hm
      exact .inr (.inr ⟨_, rfl, hm⟩)
    · rename_i hm
      exact .inl ⟨rfl, fun hk => Classical.not_not.mp (fun hne => hm ⟨hk, hne⟩)⟩
  · have hk : e.marksInfra = false :=
      Bool.eq_false_iff.mpr fun hk => hi (outcome_of_marksInfra hk)
    by_cases hw : e.outcome = outcomeTimeout
    · rw [if_pos hw]
      exact .inl ⟨rfl, fun hm => by rw [hk] at hm; cases hm⟩
    · rw [if_neg hw, if_neg hi]
      exact .inr (.inl ⟨rfl, hk⟩)

theorem poll_tracks_step (htracks : (pollingTargetLoop ev.journal).Tracks
      (declaredPoll gates) (Marked marksPoll past)) (e : Evaluation) :
    (pollingTargetLoop (ev.resolveOutcome gates maxRepasses e).1.journal).Tracks
      (declaredPoll gates) (Marked marksPoll (past ++ [e])) := by
  refine loop_tracks_step gates maxRepasses (fun e => outcome_of_marksPoll) htracks ?_
  intro target hbranch
  rw [pollLoop_resolveOutcome hbranch]
  by_cases hw : e.outcome = outcomeTimeout
  · rw [if_pos hw]
    split_ifs with hm
    · exact .inr (.inr ⟨_, rfl, hm⟩)
    · exact .inl ⟨rfl, fun hk => Classical.not_not.mp (fun hne => hm ⟨hk, hne⟩)⟩
  · rw [if_neg hw]
    exact .inr (.inl ⟨rfl, Bool.eq_false_iff.mpr fun hk => hw (outcome_of_marksPoll hk)⟩)

end

theorem infra_tracks (p : List Evaluation) :
    (infrastructureTargetRepassLoop (chargeAll gates maxRepasses p).journal).Tracks
      (declaredInfra gates) (Marked marksInfra p) := by
  induction p using List.reverseRecOn with
  | nil => exact tracks_empty _
  | append_singleton p e ih =>
    rw [chargeAll_concat]
    exact infra_tracks_step gates maxRepasses ih e

theorem poll_tracks (p : List Evaluation) :
    (pollingTargetLoop (chargeAll gates maxRepasses p).journal).Tracks
      (declaredPoll gates) (Marked marksPoll p) := by
  induction p using List.reverseRecOn with
  | nil => exact tracks_empty _
  | append_singleton p e ih =>
    rw [chargeAll_concat]
    exact poll_tracks_step gates maxRepasses ih e

/-- The seed of the journal has the infrastructure counters of the budget. -/
def Evaluator.InfraSeeded (ev : Evaluator) : Prop :=
  ∀ target, (infrastructureTargetRepassSeed ev.journal).count target =
    ev.budget.infrastructureRepassAttempts.count target

/-- The seed of the journal has the polling counters of the budget. -/
def Evaluator.PollSeeded (ev : Evaluator) : Prop :=
  ∀ target, (pollingTargetSeed ev.journal).count target = ev.budget.pollAttempts.count target

def InfraAgrees (p : List Evaluation) : Prop := (chargeAll gates maxRepasses p).InfraSeeded

def PollAgrees (p : List Evaluation) : Prop := (chargeAll gates maxRepasses p).PollSeeded

/--
The evaluation gives no infrastructure counter back that other gates hold: if it is
progress, the counter of its gate's infrastructure branch is clear or the gate has put a
failure of its own on record among the `past` ones. A retry names the stage it enters again.
-/
def OwnsInfra (live : Counters) (past : List Evaluation) (e : Evaluation) : Prop :=
  ∀ target, branchTarget (gates.gate e.gate) e.outcome = some target →
    if e.outcome = outcomeInfra then e.reentry = true → target ≠ ""
    else e.outcome ≠ outcomeTimeout → ∀ own, declaredInfra gates e.gate = some own →
      live.count own = 0 ∨ Marked Evaluation.marksInfra past e.gate

/-- The same for the polling counter of the gate's timeout branch. -/
def OwnsPoll (live : Counters) (past : List Evaluation) (e : Evaluation) : Prop :=
  ∀ target, branchTarget (gates.gate e.gate) e.outcome = some target →
    if e.outcome = outcomeTimeout then e.reentry = true → target ≠ ""
    else ∀ own, declaredPoll gates e.gate = some own →
      live.count own = 0 ∨ Marked Evaluation.marksPoll past e.gate

/-- The next evaluation of the run gives no infrastructure counter back that others hold. -/
def InfraOwned (p : List Evaluation) (e : Evaluation) : Prop :=
  OwnsInfra gates (chargeAll gates maxRepasses p).budget.infrastructureRepassAttempts p e

/-- The next evaluation of the run gives no polling counter back that others hold. -/
def PollOwned (p : List Evaluation) (e : Evaluation) : Prop :=
  OwnsPoll gates (chargeAll gates maxRepasses p).budget.pollAttempts p e

section
variable {ev : Evaluator} {past : List Evaluation}

/-- **One charge keeps the infrastructure seed exactly if it gives back only its own.** -/
theorem infra_resolve_iff (htracks : (infrastructureTargetRepassLoop ev.journal).Tracks
      (declaredInfra gates) (Marked marksInfra past)) (hp : ev.InfraSeeded) :
    (ev.resolveOutcome gates maxRepasses e).1.InfraSeeded ↔
      OwnsInfra gates ev.budget.infrastructureRepassAttempts past e := by
  unfold Evaluator.InfraSeeded OwnsInfra at *
  cases hbranch : branchTarget (gates.gate e.gate) e.outcome with
  | none =>
    rw [resolveOutcome_of_none hbranch]
    exact iff_of_true hp (fun target h => nomatch h)
  | some target =>
    unfold infrastructureTargetRepassSeed
    rw [infraLoop_resolveOutcome hbranch, resolveOutcome_of_some hbranch]
    have hlive := ev.budget.charge_infrastructure (gates.gate e.gate) target e.reentry maxRepasses
      e.outcome
    simp only [Option.some.injEq, forall_eq']
    by_cases hi : e.outcome = outcomeInfra
    · have hw : e.outcome ≠ outcomeTimeout := by rw [hi]; simp
      simp only [if_neg hw, if_pos hi] at hlive ⊢
      refine htracks.charge_agrees_iff e.gate hlive ?_ ?_ ?_ hp
      · intro hne hr
        have hmarks : e.marksInfra = true := by simp [marksInfra, hi, hr]
        rw [if_pos ⟨hmarks, hne⟩, if_pos hr]
      · intro hne
        rw [if_neg (fun hand => hand.2 hne)]
      · intro hr key
        split
        · rw [hr, TargetSeed.count_note]
          split <;> simp
        · rfl
    · by_cases hw : e.outcome = outcomeTimeout
      · simp only [if_pos hw, if_neg hi] at hlive ⊢
        refine iff_of_true (fun key => ?_) (fun hne => absurd hw hne)
        rw [hlive]
        exact hp key
      · simp only [if_neg hw, if_neg hi] at hlive ⊢
        rw [htracks.reset_agrees_iff hlive hp]
        exact ⟨fun h _ => h, fun h => h hw⟩

theorem poll_resolve_iff (htracks : (pollingTargetLoop ev.journal).Tracks
      (declaredPoll gates) (Marked marksPoll past)) (hp : ev.PollSeeded) :
    (ev.resolveOutcome gates maxRepasses e).1.PollSeeded ↔
      OwnsPoll gates ev.budget.pollAttempts past e := by
  unfold Evaluator.PollSeeded OwnsPoll at *
  cases hbranch : branchTarget (gates.gate e.gate) e.outcome with
  | none =>
    rw [resolveOutcome_of_none hbranch]
    exact iff_of_true hp (fun target h => nomatch h)
  | some target =>
    unfold pollingTargetSeed
    rw [pollLoop_resolveOutcome hbranch, resolveOutcome_of_some hbranch]
    have hlive := ev.budget.charge_poll (gates.gate e.gate) target e.reentry maxRepasses e.outcome
    simp only [Option.some.injEq, forall_eq']
    by_cases hw : e.outcome = outcomeTimeout
    · simp only [if_pos hw] at hlive ⊢
      refine htracks.charge_agrees_iff e.gate hlive ?_ ?_ ?_ hp
      · intro hne hr
        have hmarks : e.marksPoll = true := by simp [marksPoll, hw, hr]
        rw [if_pos ⟨hmarks, hne⟩]
      · intro hne
        rw [if_neg (fun hand => hand.2 hne)]
      · intro hr key
        have hmarks : e.marksPoll = false := by simp [marksPoll, hr]
        rw [hmarks, if_neg (by simp)]
    · simp only [if_neg hw] at hlive ⊢
      exact htracks.reset_agrees_iff hlive hp

end

theorem infra_step_iff (hp : InfraAgrees gates maxRepasses p) :
    InfraAgrees gates maxRepasses (p ++ [e]) ↔ InfraOwned gates maxRepasses p e := by
  unfold InfraAgrees at *
  rw [chargeAll_concat]
  exact infra_resolve_iff gates maxRepasses (infra_tracks gates maxRepasses p) hp

theorem poll_step_iff (hp : PollAgrees gates maxRepasses p) :
    PollAgrees gates maxRepasses (p ++ [e]) ↔ PollOwned gates maxRepasses p e := by
  unfold PollAgrees at *
  rw [chargeAll_concat]
  exact poll_resolve_iff gates maxRepasses (poll_tracks gates maxRepasses p) hp

/--
**A restart keeps the infrastructure and polling budgets exactly if no evaluation
gives back a counter that only other gates have charged.**
-/
theorem target_seeds_agree_iff (evaluations : List Evaluation) :
    (∀ p, p <+: evaluations → InfraAgrees gates maxRepasses p ∧ PollAgrees gates maxRepasses p) ↔
      ∀ p e, p ++ [e] <+: evaluations →
        InfraOwned gates maxRepasses p e ∧ PollOwned gates maxRepasses p e := by
  refine forall_prefix_iff ⟨fun _ => rfl, fun _ => rfl⟩ (fun p e hp => ?_) evaluations
  exact and_congr (infra_step_iff gates maxRepasses hp.1) (poll_step_iff gates maxRepasses hp.2)

end

def retryingGates : GateSet where
  gate name :=
    { name := name
      branches := GoMap.put (GoMap.put (GoMap.put ∅ outcomeInfra "implement")
        outcomeTimeout "implement") outcomePass "merge" }
  named _ := rfl

/-- One gate sends the run back to `implement` twice, and another passes. -/
def sharedRetries : List Evaluation :=
  [{ gate := "ci", finding := .automated outcomeInfra, reentry := true },
   { gate := "ci", finding := .automated outcomeTimeout, reentry := true },
   { gate := "lint", finding := .automated outcomePass, reentry := false }]

/-- The pass cleared both live counters; the seeds still have the other gate's retries. -/
theorem sharedRetries_restart :
    let ev := chargeAll retryingGates 0 sharedRetries
    ev.budget.infrastructureRepassAttempts.count "implement" = 0 ∧
      (infrastructureTargetRepassSeed ev.journal).count "implement" = 1 ∧
      ev.budget.pollAttempts.count "implement" = 0 ∧
      (pollingTargetSeed ev.journal).count "implement" = 1 := by
  decide

end Goobers.Gates
