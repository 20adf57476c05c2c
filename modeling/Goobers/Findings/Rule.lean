import Goobers.Findings.Fold

/-!
# The rule that folding follows

An earlier finding goes when the verdict answers that instance of it, what the verdict raises
stands, and a pass raises nothing. `Stands` says so about ids, without the record that `fold`
writes; `FollowsRule` says that the record, read back alone or after the earlier ones, leaves the
same ids outstanding.

It does not always. The code's own condition is `Foldable`:

* a pass that a standing finding turns into needs-changes keeps its blocking notes, and a replay
  then takes them for raised findings;
* of two dispositions of one id only the last counts in `fold`, while either answers its instance;
* the policy is asked again about a finding that has its id by now;
* a record that is not the newest one of its head is not read, and before the first commit an
  older disposition of a newer instance hides the one that answers.
-/

namespace Goobers.Findings

open Lib List

variable (sum : Severity → FindingClass → String → String → List UInt8) (substantive : Substantive)
variable {prior : List Verdict} {next : Verdict} {f : Finding} {id : String}

def outstandingIDs (records : List Verdict) (head : String) : List String :=
  (outstanding sum records head substantive).map Finding.id

variable {sum substantive} in
theorem mem_outstandingIDs {records : List Verdict} {head : String} :
    id ∈ outstandingIDs sum substantive records head ↔
      (openInstance sum substantive records head id).isSome := by
  unfold outstandingIDs
  rw [mem_map]
  exact exists_outstanding_iff

/-- The rule: the id is outstanding on the head once `next` has been published there. -/
def Stands (prior : List Verdict) (next : Verdict) (id : String) : Prop :=
  (∃ f ∈ outstanding sum prior next.headSHA substantive, f.id = id ∧
    ¬ Answered next.dispositions f ∧ id ∉ ownRaised sum next substantive) ∨
  id ∈ ownRaised sum next substantive

/-- The folded record leaves what the rule says, read alone and read after the others. -/
structure FollowsRule (prior : List Verdict) (next : Verdict) : Prop where
  alone : ∀ id, id ∈ outstandingIDs sum substantive [(fold sum prior next substantive).1]
    next.headSHA ↔ Stands sum substantive prior next id
  after : ∀ id, id ∈ outstandingIDs sum substantive (prior ++ [(fold sum prior next substantive).1])
    next.headSHA ↔ id ∈ outstandingIDs sum substantive [(fold sum prior next substantive).1]
      next.headSHA
  pass : next.decision = .pass →
    ∀ id ∈ outstandingIDs sum substantive [(fold sum prior next substantive).1] next.headSHA,
      id ∈ outstandingIDs sum substantive prior next.headSHA

/-- What the earlier records and the verdict have to be for the record to follow the rule. -/
structure Foldable (prior : List Verdict) (next : Verdict) : Prop where
  /-- An earlier finding that the last of its dispositions does not answer is not answered by
  another one, and blocks under its id too. -/
  kept : ∀ f ∈ outstanding sum prior next.headSHA substantive,
    f.id ∉ ownRaised sum next substantive → answersHere next f = false →
      (allows substantive f = true ↔ ¬ Answered next.dispositions f)
  /-- The blocking notes of a pass that leaves something standing are notes on what stands. -/
  notes : next.decision = .pass → next.synthesized = false →
    (∃ f ∈ outstanding sum prior next.headSHA substantive, answersHere next f = false) →
    ∀ g ∈ next.findings, allows substantive g = true →
      ∃ f ∈ outstanding sum prior next.headSHA substantive,
        f.id = findingID sum g ∧ answersHere next f = false
  /-- A verdict older than a snapshot of its head has nothing to say. -/
  older : ∀ s ∈ latestSnapshot prior next.headSHA, next.ledgerGeneration < s.ledgerGeneration →
    (∀ f ∈ outstanding sum prior next.headSHA substantive,
      f.id ∉ ownRaised sum next substantive → ¬ Answered next.dispositions f) ∧
    ∀ id ∈ ownRaised sum next substantive, id ∈ outstandingIDs sum substantive prior next.headSHA
  /-- Before the first commit, the last disposition of an id names its newest instance. -/
  legacy : latestSnapshot prior next.headSHA = none → next.ledgerGeneration = 0 →
    ∀ f ∈ outstanding sum prior next.headSHA substantive, f.id ∉ ownRaised sum next substantive →
      Answered next.dispositions f →
      answersHere next f = true ∧
        ∀ d ∈ headDispositions prior next.headSHA ++ next.dispositions, d.answers = true →
          trimSpace d.findingID = f.id → d.findingGeneration ≤ f.ledgerGeneration

/-! ## The record alone -/

section
variable (prior : List Verdict) (next : Verdict)

def Opens (id : String) : Prop :=
  ((fold sum prior next substantive).1.opens sum substantive id).isSome

/-- The id is open once the folded record is read after the earlier ones. -/
def OpensAfter (id : String) : Prop :=
  (openInstance sum substantive (prior ++ [(fold sum prior next substantive).1]) next.headSHA
    id).isSome

/-- What `older` asks for, of a verdict that is not read. -/
def Silent : Prop :=
  (∀ f ∈ outstanding sum prior next.headSHA substantive,
    f.id ∉ ownRaised sum next substantive → ¬ Answered next.dispositions f) ∧
  ∀ id ∈ ownRaised sum next substantive, id ∈ outstandingIDs sum substantive prior next.headSHA

/-- What `legacy` asks for, of a verdict that is read after the others. -/
def ClosesNewest : Prop :=
  ∀ f ∈ outstanding sum prior next.headSHA substantive, f.id ∉ ownRaised sum next substantive →
    Answered next.dispositions f →
    answersHere next f = true ∧
      ∀ d ∈ headDispositions prior next.headSHA ++ next.dispositions, d.answers = true →
        trimSpace d.findingID = f.id → d.findingGeneration ≤ f.ledgerGeneration

end

variable {sum substantive}

theorem mem_standingAfter_of_not_own (hf : f ∈ outstanding sum prior next.headSHA substantive)
    (hown : f.id ∉ ownRaised sum next substantive) :
    f ∈ standingAfter sum prior next substantive ↔ answersHere next f = false := by
  have hagain : raisesAgain sum next substantive f = false := by simp [raisesAgain, hown]
  rw [mem_standingAfter]
  simp [hf, hagain]

theorem mem_standingAfter_of_pass (h : next.decision = .pass) :
    f ∈ standingAfter sum prior next substantive ↔
      f ∈ outstanding sum prior next.headSHA substantive ∧ answersHere next f = false := by
  have hown : f.id ∉ ownRaised sum next substantive := by simp [ownRaised, h]
  constructor
  · intro hf
    exact ⟨(mem_standingAfter.mp hf).1, (mem_standingAfter.mp hf).2.1⟩
  · rintro ⟨hf, hans⟩
    exact (mem_standingAfter_of_not_own hf hown).mpr hans

theorem opens_fold_isSome (h : next.headSHA ≠ "") : Opens sum substantive prior next id ↔
      id ∈ ownRaised sum next substantive ∨
      (∃ f ∈ standingAfter sum prior next substantive, allows substantive f = true ∧ f.id = id) ∨
      (next.decision = .pass ∧ next.synthesized = false ∧
        standingAfter sum prior next substantive ≠ [] ∧
        ∃ g ∈ next.findings, allows substantive g = true ∧ findingID sum g = id ∧
          ∀ f ∈ standingAfter sum prior next substantive, f.id ≠ id) := by
  have hstanding : (lastRaised sum substantive (standingAfter sum prior next substantive)
      id).isSome ↔
        ∃ f ∈ standingAfter sum prior next substantive, allows substantive f = true ∧
          f.id = id := by
    rw [Option.isSome_iff_exists]
    simp [lastRaised_standingAfter]
  rw [Opens, opens_fold h, Option.isSome_or, Bool.or_eq_true, hstanding, mem_ownRaised]
  unfold foldedFindings
  by_cases hpass : next.decision = .pass
  · rw [if_neg (not_not.mpr hpass)]
    simp only [hpass, ne_eq, not_true_eq_false, false_and, false_or, true_and]
    -- only a pass that is turned into needs-changes has findings of its own in the record
    split_ifs with hdown
    · rw [lastRaised_isSome_iff, or_comm]
      refine or_congr_right ?_
      simp only [mem_filter, decide_eq_true_eq, mem_map, not_exists, not_and, hdown.1,
        hdown.2, not_false_eq_true, true_and]
      constructor
      · intro ⟨g, ⟨hg, hnot⟩, hallow, hid⟩
        exact ⟨g, hg, hallow, hid, fun f hf heq => hnot f hf (heq.trans hid.symm)⟩
      · intro ⟨g, hg, hallow, hid, hnot⟩
        exact ⟨g, ⟨hg, fun f hf heq => hnot f hf (heq.trans hid)⟩, hallow, hid⟩
    · constructor
      · intro hc
        exact .inl (hc.resolve_left (by simp [lastRaised]))
      · intro hc
        refine .inr (hc.resolve_right ?_)
        intro ⟨hsynth, hne, _⟩
        exact hdown ⟨hne, hsynth⟩
  · simp [hpass]

/-- Read alone, the record follows the rule exactly when what is kept is kept rightly and a
downgraded pass brings no notes of its own. -/
theorem alone_iff (h : next.headSHA ≠ "") :
    (∀ id, Opens sum substantive prior next id ↔ Stands sum substantive prior next id) ↔
    (∀ f ∈ outstanding sum prior next.headSHA substantive,
      f.id ∉ ownRaised sum next substantive → answersHere next f = false →
        (allows substantive f = true ↔ ¬ Answered next.dispositions f)) ∧
    (next.decision = .pass → next.synthesized = false →
      (∃ f ∈ outstanding sum prior next.headSHA substantive, answersHere next f = false) →
      ∀ g ∈ next.findings, allows substantive g = true →
        ∃ f ∈ outstanding sum prior next.headSHA substantive,
          f.id = findingID sum g ∧ answersHere next f = false) := by
  constructor
  · intro hall
    refine ⟨?_, ?_⟩
    · intro f hf hown hans
      have hstand := (mem_standingAfter_of_not_own hf hown).mpr hans
      have hiff := hall f.id
      rw [opens_fold_isSome h] at hiff
      constructor
      · intro hallow
        rcases hiff.mp (.inr (.inl ⟨f, hstand, hallow, rfl⟩)) with ⟨g, hg, hid, hnot, _⟩ | hr
        · rwa [outstanding_unique hg hf hid] at hnot
        · exact absurd hr hown
      · intro hnot
        rcases hiff.mpr (.inl ⟨f, hf, rfl, hnot, hown⟩) with hr | ⟨g, hg, hallow, hid⟩ | hnote
        · exact absurd hr hown
        · rwa [standingAfter_unique hg hstand hid] at hallow
        · obtain ⟨_, _, _, _, _, _, _, hne⟩ := hnote
          exact absurd rfl (hne f hstand)
    · intro hpass hsynth hleft g hg hallow
      by_contra hnone
      have hne : standingAfter sum prior next substantive ≠ [] := by
        obtain ⟨f, hf, hans⟩ := hleft
        exact ne_nil_of_mem ((mem_standingAfter_of_pass hpass).mpr ⟨hf, hans⟩)
      have hother : ∀ f ∈ standingAfter sum prior next substantive, f.id ≠ findingID sum g := by
        intro f hf hid
        obtain ⟨hf, hans⟩ := (mem_standingAfter_of_pass hpass).mp hf
        exact hnone ⟨f, hf, hid, hans⟩
      have hopens := (opens_fold_isSome h).mpr
        (.inr (.inr ⟨hpass, hsynth, hne, g, hg, hallow, rfl, hother⟩))
      -- a note on a finding that the pass answers is not under the rule either
      rcases (hall _).mp hopens with ⟨f, hf, hid, hnot, _⟩ | hr
      · cases hans : answersHere next f with
        | false => exact hnone ⟨f, hf, hid, hans⟩
        | true => exact hnot (answered_of_answersHere hans)
      · exact (mem_ownRaised.mp hr).1 hpass
  · intro ⟨hkept, hnotes⟩ id
    rw [opens_fold_isSome h]
    by_cases hown : id ∈ ownRaised sum next substantive
    · exact ⟨fun _ => .inr hown, fun _ => .inl hown⟩
    constructor
    · intro hopens
      rcases hopens with hr | ⟨f, hf, hallow, rfl⟩ |
        ⟨hpass, hsynth, hne, g, hg, hallow, rfl, hother⟩
      · exact absurd hr hown
      · obtain ⟨hout, hans, _⟩ := mem_standingAfter.mp hf
        exact .inl ⟨f, hout, rfl, (hkept f hout hown hans).mp hallow, hown⟩
      · obtain ⟨f, hf⟩ := exists_mem_of_ne_nil _ hne
        have hleft := (mem_standingAfter_of_pass hpass).mp hf
        obtain ⟨f', hf', hid, hans⟩ := hnotes hpass hsynth ⟨f, hleft⟩ g hg hallow
        exact absurd hid (hother f' ((mem_standingAfter_of_pass hpass).mpr ⟨hf', hans⟩))
    · intro hstands
      rcases hstands with ⟨f, hf, rfl, hnot, _⟩ | hr
      · have hans : answersHere next f = false := by
          rw [← Bool.not_eq_true]
          exact fun hans => hnot (answered_of_answersHere hans)
        exact .inr (.inl ⟨f, (mem_standingAfter_of_not_own hf hown).mpr hans,
          (hkept f hf hown hans).mpr hnot, rfl⟩)
      · exact absurd hr hown

/-! ## The record after the earlier ones -/

section after

variable (hne : next.headSHA ≠ "")
variable (hrule : ∀ id, Opens sum substantive prior next id ↔ Stands sum substantive prior next id)
include hne

theorem openInstance_fold_newest (hgen : 0 < next.ledgerGeneration)
    (hnew : ∀ s ∈ latestSnapshot prior next.headSHA,
      s.ledgerGeneration ≤ next.ledgerGeneration) :
    openInstance sum substantive (prior ++ [(fold sum prior next substantive).1]) next.headSHA id =
      (fold sum prior next substantive).1.opens sum substantive id := by
  unfold openInstance
  rw [replay_append_newest hne fold_headSHA (by simpa using hgen) (by simpa using hnew),
    Ledger.get?_apply Ledger.ok_empty]
  exact Option.or_none

theorem openInstance_fold_legacy (hgen : next.ledgerGeneration = 0)
    (hnone : latestSnapshot prior next.headSHA = none) :
    openInstance sum substantive (prior ++ [(fold sum prior next substantive).1]) next.headSHA id =
      ((fold sum prior next substantive).1.opens sum substantive id).or
        ((openInstance sum substantive prior next.headSHA id).filter (fun f =>
          !decide (Answered (fold sum prior next substantive).1.dispositions f))) := by
  unfold openInstance
  rw [replay_append_legacy hnone hne fold_headSHA (by simpa using hgen),
    Ledger.get?_apply (replay_ok prior next.headSHA)]

include hrule

omit hne in
/-- Under a newer snapshot the folded record is not replayed, so it has to be silent. -/
theorem older_iff {s : Verdict} (hs : latestSnapshot prior next.headSHA = some s)
    (hold : next.ledgerGeneration < s.ledgerGeneration) :
    (∀ id, OpensAfter sum substantive prior next id ↔ Opens sum substantive prior next id) ↔
      Silent sum substantive prior next := by
  -- the replay stays with the newer snapshot
  have hsame : ∀ id, openInstance sum substantive
      (prior ++ [(fold sum prior next substantive).1]) next.headSHA id =
        openInstance sum substantive prior next.headSHA id := by
    intro id
    unfold openInstance
    rw [replay_append_older hs (by simpa using hold)]
  simp only [OpensAfter, hsame, hrule, ← mem_outstandingIDs]
  constructor
  · intro hall
    refine ⟨fun f hf hown hans => ?_, fun id hid => (hall id).mpr (.inr hid)⟩
    rcases (hall f.id).mp (mem_map_of_mem hf) with ⟨g, hg, hid, hnot, _⟩ | hr
    · rw [outstanding_unique hg hf hid] at hnot
      exact hnot hans
    · exact hown hr
  · intro ⟨hkept, hraised⟩ id
    constructor
    · intro hid
      obtain ⟨f, hf, rfl⟩ := mem_map.mp hid
      by_cases hown : f.id ∈ ownRaised sum next substantive
      · exact .inr hown
      · exact .inl ⟨f, hf, rfl, hkept f hf hown, hown⟩
    · intro hstands
      rcases hstands with ⟨f, hf, rfl, _⟩ | hr
      · exact mem_map_of_mem hf
      · exact hraised id hr

theorem legacy_iff (hgen : next.ledgerGeneration = 0)
    (hnone : latestSnapshot prior next.headSHA = none) :
    (∀ id, OpensAfter sum substantive prior next id ↔ Opens sum substantive prior next id) ↔
      ClosesNewest sum substantive prior next := by
  simp only [OpensAfter, openInstance_fold_legacy hne hgen hnone, Option.isSome_or, Bool.or_eq_true]
  constructor
  · intro hall f hf hown hans
    have hopen := mem_outstanding.mp hf
    -- the rule drops the instance, so the record's dispositions must close it
    have hclosed : Answered (fold sum prior next substantive).1.dispositions f := by
      by_contra hnot
      have hr := (hall f.id).mp (.inr (by simp [hopen, hnot]))
      rcases (hrule f.id).mp hr with ⟨g, hg, hid, hgnot, _⟩ | hr
      · rw [outstanding_unique hg hf hid] at hgnot
        exact hgnot hans
      · exact hown hr
    obtain ⟨_, hstanding, _, hmax⟩ := (answered_fold_iff hne).mp hclosed
    refine ⟨?_, hmax⟩
    rw [← Bool.not_eq_false]
    intro hhere
    exact hstanding (mem_map_of_mem ((mem_standingAfter_of_not_own hf hown).mpr hhere))
  · intro hall id
    refine ⟨fun hor => hor.elim (fun hr => hr) (fun hleft => ?_), .inl⟩
    obtain ⟨f, hf⟩ := Option.isSome_iff_exists.mp hleft
    obtain ⟨hopen, hnot⟩ := Option.filter_eq_some_iff.mp hf
    have hid := id_of_openInstance hopen
    have hout : f ∈ outstanding sum prior next.headSHA substantive :=
      mem_outstanding.mpr (by rw [hid]; exact hopen)
    refine (hrule id).mpr ?_
    rw [← hid]
    by_cases hown : f.id ∈ ownRaised sum next substantive
    · exact .inr hown
    refine .inl ⟨f, hout, rfl, fun hans => ?_, hown⟩
    obtain ⟨hhere, hmax⟩ := hall f hout hown hans
    have hstanding : f.id ∉ (standingAfter sum prior next substantive).map Finding.id := by
      intro hmem
      obtain ⟨g, hg, hgid⟩ := mem_map.mp hmem
      obtain ⟨hgout, hgans, _⟩ := mem_standingAfter.mp hg
      rw [outstanding_unique hgout hout hgid, hhere] at hgans
      cases hgans
    obtain ⟨d, hd, hcloses⟩ := hans
    have hclosed := (answered_fold_iff hne).mpr
      ⟨hown, hstanding, ⟨d, mem_append_right _ hd, hcloses⟩, hmax⟩
    simp [hclosed] at hnot

/-- When the ledger after the fold opens what the folded verdict opens. -/
theorem after_iff :
    (∀ id, OpensAfter sum substantive prior next id ↔ Opens sum substantive prior next id) ↔
    (∀ s ∈ latestSnapshot prior next.headSHA, next.ledgerGeneration < s.ledgerGeneration →
      Silent sum substantive prior next) ∧
    (latestSnapshot prior next.headSHA = none → next.ledgerGeneration = 0 →
      ClosesNewest sum substantive prior next) := by
  -- the record is replayed after the others, alone as the newest snapshot, or not at all
  cases hs : latestSnapshot prior next.headSHA with
  | none =>
    rcases Nat.eq_zero_or_pos next.ledgerGeneration with hgen | hgen
    · rw [legacy_iff hne hrule hgen hs]
      simp [hgen]
    · have hnew : ∀ s ∈ latestSnapshot prior next.headSHA,
          s.ledgerGeneration ≤ next.ledgerGeneration := by simp [hs]
      simp only [OpensAfter, Opens, openInstance_fold_newest hne hgen hnew]
      simp [Nat.ne_of_gt hgen]
  | some s =>
    have hpos := (latestSnapshot_mem hs).2.2.2
    rcases Nat.lt_or_ge next.ledgerGeneration s.ledgerGeneration with hold | hnew
    · rw [older_iff hrule hs hold]
      simp [hold]
    · have hall : ∀ t ∈ latestSnapshot prior next.headSHA,
          t.ledgerGeneration ≤ next.ledgerGeneration := by simpa [hs] using hnew
      simp only [OpensAfter, Opens,
        openInstance_fold_newest hne (Nat.lt_of_lt_of_le hpos hnew) hall]
      simp [Nat.not_lt.mpr hnew]

end after

/-! ## The rule -/

theorem outstandingIDs_no_head (records : List Verdict) :
    outstandingIDs sum substantive records "" = [] := rfl

theorem follows_rule_no_head (h : next.headSHA = "") :
    FollowsRule sum substantive prior next ↔ ownRaised sum next substantive = [] := by
  constructor
  · intro hrule
    rw [eq_nil_iff_forall_not_mem]
    intro id hid
    have hmem := (hrule.alone id).mpr (.inr hid)
    rw [h] at hmem
    cases hmem
  · intro hown
    refine ⟨fun id => ?_, fun id => ?_, fun _ id hid => ?_⟩
    · rw [h]
      refine ⟨nofun, fun hstands => ?_⟩
      rcases hstands with ⟨f, hf, _⟩ | hr
      · rw [h] at hf
        exact absurd hf not_mem_outstanding_no_head
      · rw [hown] at hr
        cases hr
    · rw [h, outstandingIDs_no_head, outstandingIDs_no_head]
    · rw [h] at hid
      cases hid

/-- The folded record follows the rule exactly when the verdict is foldable; a verdict without a
head is when it raises nothing. -/
theorem fold_follows_rule_iff (sum : Severity → FindingClass → String → String → List UInt8)
    (substantive : Substantive) (prior : List Verdict) (next : Verdict) :
    FollowsRule sum substantive prior next ↔
      (next.headSHA = "" ∧ ownRaised sum next substantive = []) ∨
      (next.headSHA ≠ "" ∧ Foldable sum substantive prior next) := by
  by_cases hne : next.headSHA = ""
  · rw [follows_rule_no_head hne]
    simp [hne]
  simp only [hne, false_and, ne_eq, not_false_eq_true, true_and, false_or]
  have halone : ∀ id, id ∈ outstandingIDs sum substantive [(fold sum prior next substantive).1]
      next.headSHA ↔ Opens sum substantive prior next id := by
    intro id
    rw [mem_outstandingIDs, openInstance_fold_alone hne, Opens]
  constructor
  · intro hrule
    have hopens : ∀ id, Opens sum substantive prior next id ↔
        Stands sum substantive prior next id := fun id => (halone id).symm.trans (hrule.alone id)
    obtain ⟨hkept, hnotes⟩ := (alone_iff hne).mp hopens
    obtain ⟨holder, hlegacy⟩ := (after_iff hne hopens).mp (fun id =>
      mem_outstandingIDs.symm.trans ((hrule.after id).trans (halone id)))
    exact ⟨hkept, hnotes, holder, hlegacy⟩
  · intro hfold
    have hopens := (alone_iff hne).mpr ⟨hfold.kept, hfold.notes⟩
    have hafter := (after_iff hne hopens).mpr ⟨hfold.older, hfold.legacy⟩
    refine ⟨fun id => (halone id).trans (hopens id),
      fun id => mem_outstandingIDs.trans ((hafter id).trans (halone id).symm), ?_⟩
    intro hpass id hid
    rcases (hopens id).mp ((halone id).mp hid) with ⟨f, hf, rfl, _⟩ | hr
    · exact mem_map_of_mem hf
    · exact absurd hpass (mem_ownRaised.mp hr).1

/-- A review raised "leak"; the next one passes without a word about it, and has a remark of its
own. The fold turns the pass into needs-changes and the remark into an outstanding finding. -/
def raisedLeak : Verdict :=
  { decision := .needsChanges, headSHA := "head", ledgerGeneration := 1
    findings := [{ id := "leak", ledgerGeneration := 1 }] }

def passWithRemark : Verdict :=
  { decision := .pass, headSHA := "head", ledgerGeneration := 2, findings := [{ id := "remark" }] }

theorem remark_of_pass_outstanding :
    outstandingIDs (fun _ _ _ _ => []) none [raisedLeak] "head" = ["leak"] ∧
    outstandingIDs (fun _ _ _ _ => []) none
      [(fold (fun _ _ _ _ => []) [raisedLeak] passWithRemark none).1] "head" =
        ["leak", "remark"] ∧
    ¬ FollowsRule (fun _ _ _ _ => []) none [raisedLeak] passWithRemark := by
  have hbefore : outstandingIDs (fun _ _ _ _ => []) none [raisedLeak] "head" = ["leak"] := by
    decide
  have hafter : outstandingIDs (fun _ _ _ _ => []) none
      [(fold (fun _ _ _ _ => []) [raisedLeak] passWithRemark none).1] "head" =
        ["leak", "remark"] := by
    decide
  refine ⟨hbefore, hafter, fun hrule => ?_⟩
  have hmem := hrule.pass rfl "remark" (by
    show "remark" ∈ outstandingIDs _ none _ "head"
    decide)
  have hnot : "remark" ∉ outstandingIDs (fun _ _ _ _ => []) none [raisedLeak] "head" := by
    decide
  exact hnot hmem

end Goobers.Findings
