import Mathlib.Data.List.Perm.Subperm
import Goobers.Findings.Rule

/-!
# Instances of a finding over the commits of a head

A publication stamps the findings of its candidate with a generation of its own and folds it
against the records it sees. It may see them in any order and miss older ones; the newest is
always among them. Since a committed record carries the whole ledger, what is outstanding is what
the newest record opens, and the rest of the view does not matter.

An open finding is then either one that was open before, unchanged and of the same generation, or
one that this commit raised, of the commit's generation. So a disposition that names an older
generation finds no instance to answer. The exception is a pass whose blocking notes a standing
finding turns into findings: they are never stamped.
-/

namespace Goobers.Findings

open Lib List

variable (sum : Severity → FindingClass → String → String → List UInt8) (substantive : Substantive)

/-! ## Histories -/

/-- What a reader may see of the records, newest first: some of them in any order, and the newest
one for sure. -/
structure View (records seen : List Verdict) : Prop where
  among : seen.Subperm records
  newest : ∀ r ∈ records.head?, r ∈ seen

/-- A commit that has seen a view of the records, with the next generation. -/
structure Commits (head : String) (records seen : List Verdict) (candidate : Verdict)
    (generation : Nat) : Prop where
  view : View records seen
  head : candidate.headSHA = head
  newer : ∀ r ∈ records, r.ledgerGeneration < generation

/-- The records that the submitted candidates and generations left on a head, newest first, where
every commit met the condition on what it saw and on its candidate. -/
inductive History (head : String) (condition : List Verdict → Verdict → Prop) :
    List (Verdict × Nat) → List Verdict → Prop
  | empty : History head condition [] []
  | commit {submitted : List (Verdict × Nat)} {records seen : List Verdict} {candidate : Verdict}
      {generation : Nat} (past : History head condition submitted records)
      (step : Commits head records seen candidate generation) (ok : condition seen candidate) :
      History head condition ((candidate, generation) :: submitted)
        ((Findings.commit sum seen candidate generation substantive).1 :: records)

/-- The blocking notes of a pass that leaves something standing are notes on what stands. -/
def QuietPass (seen : List Verdict) (candidate : Verdict) : Prop :=
  candidate.decision = .pass → candidate.synthesized = false →
  (∃ f ∈ outstanding sum seen candidate.headSHA substantive, answersHere candidate f = false) →
  ∀ g ∈ candidate.findings, allows substantive { g with ledgerGeneration := 0 } = true →
    ∃ f ∈ outstanding sum seen candidate.headSHA substantive,
      f.id = findingID sum g ∧ answersHere candidate f = false

variable {sum substantive}

/-! ## One commit -/

section stamp

variable {seen : List Verdict} {candidate : Verdict} {generation : Nat}

theorem sameFinding_self (f : Finding) : sameFinding f f = true := by
  simp [sameFinding]

theorem eq_of_sameFinding {a b : Finding} (h : sameFinding a b = true) :
    { b with ledgerGeneration := a.ledgerGeneration } = a := by
  unfold sameFinding at h
  rw [decide_eq_true_eq] at h
  cases a
  cases b
  simp only [Finding.mk.injEq] at h ⊢
  simp [h]

def IsInstance (open_ : List Finding) (generation : Nat) (g : Finding) : Prop :=
  g ∈ open_ ∨ (g.ledgerGeneration = generation ∧
    ∀ f ∈ open_, f.id = g.id → sameFinding f g = false)

theorem stampFinding_cases {open_ : List Finding} {decision : VerdictDecision} {f g : Finding}
    (huniq : ∀ a ∈ open_, ∀ b ∈ open_, a.id = b.id → a = b) (hpass : decision ≠ .pass)
    (hg : stampFinding sum open_ decision generation substantive f = g)
    (hallow : allows substantive g = true) :
    IsID g.id ∧ IsInstance open_ generation g := by
  unfold stampFinding at hg
  dsimp only at hg
  split_ifs at hg with hskip
  · have hnot : allows substantive { f with ledgerGeneration := 0 } = false := by
      simpa [hpass] using hskip
    rw [← hg, hnot] at hallow
    cases hallow
  · have hid : IsID (findingID sum { f with ledgerGeneration := 0 }) := isID_findingID _
    generalize findingID sum { f with ledgerGeneration := 0 } = id at hg hid
    split at hg
    · rename_i previous hfind
      have hmem := mem_of_find?_eq_some hfind
      have hpid := find?_some hfind
      rw [decide_eq_true_eq] at hpid
      split at hg
      · -- the candidate repeats the open instance
        rename_i hsame
        have heq := eq_of_sameFinding hsame
        rw [hg] at heq
        rw [heq]
        exact ⟨by rw [hpid]; exact hid, .inl hmem⟩
      · rename_i hsame
        rw [← hg]
        refine ⟨hid, .inr ⟨rfl, fun p hp hpid' => ?_⟩⟩
        rw [huniq p hp previous hmem (hpid'.trans hpid.symm)]
        simpa using hsame
    · rename_i hfind
      rw [← hg]
      refine ⟨hid, .inr ⟨rfl, fun p hp hpid => ?_⟩⟩
      have hnone := find?_eq_none.mp hfind p hp
      exact absurd hpid (by simpa using hnone)

theorem lastRaised_stamp {g : Finding} {id : String} (hpass : candidate.decision ≠ .pass)
    (h : lastRaised sum substantive (stamp sum seen candidate generation substantive).findings id =
      some g) :
    g ∈ (stamp sum seen candidate generation substantive).findings ∧
      allows substantive g = true ∧ findingID sum g = id ∧ g.id = id ∧
      IsInstance (outstanding sum seen candidate.headSHA substantive) generation g := by
  obtain ⟨g', hg', hallow, hid', heq⟩ := exists_of_lastRaised h
  obtain ⟨f, _, hstamp⟩ := mem_map.mp hg'
  obtain ⟨hID, hcases⟩ := stampFinding_cases (fun a ha b hb hab => outstanding_unique ha hb hab)
    hpass hstamp hallow
  have hid : g'.id = id := (findingID_eq hID).symm.trans hid'
  have hself : g = g' := by rw [heq, ← hid]
  subst hself
  exact ⟨hg', hallow, hid', hid, hcases⟩

/-- What a committed verdict opens, by way of the fold. -/
theorem opens_commit (hne : candidate.headSHA ≠ "")
    (hquiet : QuietPass sum substantive seen candidate) (id : String) :
    (commit sum seen candidate generation substantive).1.opens sum substantive id =
      (if candidate.decision ≠ .pass then
        lastRaised sum substantive (stamp sum seen candidate generation substantive).findings id
        else none).or
        (lastRaised sum substantive (standingAfter sum seen
          (stamp sum seen candidate generation substantive) substantive) id) := by
  unfold commit
  rw [opens_fold (by exact hne)]
  congr 1
  unfold foldedFindings
  by_cases hpass : candidate.decision = .pass
  · rw [if_neg (not_not.mpr (by exact hpass)), if_neg (not_not.mpr hpass)]
    rw [← Option.not_isSome_iff_eq_none, lastRaised_isSome_iff]
    split
    · -- a note that blocks and is on nothing that stands is what the condition excludes
      rename_i hdown
      intro ⟨g, hg, hallow, _⟩
      rw [mem_filter, decide_eq_true_eq] at hg
      obtain ⟨hg, hnot⟩ := hg
      obtain ⟨c, hc, hstamp⟩ := mem_map.mp hg
      have hzero : { c with ledgerGeneration := 0 } = g := by
        rw [← hstamp]
        unfold stampFinding
        rw [if_pos (.inl hpass)]
      obtain ⟨f, hf⟩ := exists_mem_of_ne_nil _ hdown.1
      have hleft := (mem_standingAfter_of_pass (by exact hpass)).mp hf
      obtain ⟨f', hf', hid, hans⟩ := hquiet hpass hdown.2 ⟨f, hleft⟩ c hc
        (by rw [hzero]; exact hallow)
      have hgid : findingID sum g = findingID sum c := by rw [← hzero]; rfl
      refine hnot (mem_map.mpr ⟨f', ?_, hid.trans hgid.symm⟩)
      exact (mem_standingAfter_of_pass (by exact hpass)).mpr ⟨hf', hans⟩
    · simp
  · rw [if_pos (by exact hpass), if_pos hpass]

end stamp

/-! ## The newest record is the ledger -/

variable (sum substantive) in
def carried (records : List Verdict) (head : String) : Ledger :=
  match records with
  | [] => {}
  | newest :: _ => replay sum [newest] head substantive

section history

variable {head : String} {condition : List Verdict → Verdict → Prop}
variable {submitted : List (Verdict × Nat)} {records seen : List Verdict} {candidate : Verdict}
variable {generation : Nat}

@[simp] theorem commit_headSHA :
    (commit sum seen candidate generation substantive).1.headSHA = candidate.headSHA :=
  fold_headSHA

@[simp] theorem commit_ledgerGeneration :
    (commit sum seen candidate generation substantive).1.ledgerGeneration = generation :=
  fold_ledgerGeneration

section
variable (h : History sum substantive head condition submitted records)
include h

theorem History.on_head :
    ∀ r ∈ records, r.headSHA = head := by
  induction h with
  | empty => exact nofun
  | commit past step ok ih =>
    exact forall_mem_cons.mpr ⟨by rw [commit_headSHA]; exact step.head, ih⟩

theorem History.decreasing :
    records.Pairwise (fun newer older => older.ledgerGeneration < newer.ledgerGeneration) := by
  induction h with
  | empty => exact List.Pairwise.nil
  | commit past step ok ih =>
    refine List.Pairwise.cons (fun r hr => ?_) ih
    rw [commit_ledgerGeneration]
    exact step.newer r hr

/-- Whichever view of the records a commit has seen, it replays the same ledger. -/
theorem History.replay_view (hview : View records seen) :
    replay sum seen head substantive = carried sum substantive records head := by
  by_cases hne : head = ""
  · have hempty : ∀ rs, replay sum rs head substantive = {} := by
      intro rs
      unfold replay
      rw [if_pos hne]
    unfold carried
    split
    · exact hempty seen
    · rw [hempty, hempty]
  cases records with
  | nil =>
    have hnil : seen = [] := subperm_nil.mp hview.among
    subst hnil
    unfold replay carried
    rw [if_neg hne]
    rfl
  | cons newest older =>
    have hmem : newest ∈ seen := hview.newest newest rfl
    have hlower := (pairwise_cons.mp h.decreasing).1
    have hnew := h.on_head newest mem_cons_self
    show replay sum seen head substantive = replay sum [newest] head substantive
    rw [replay_singleton hne hnew]
    rcases Nat.eq_zero_or_pos newest.ledgerGeneration with hzero | hpos
    · -- nothing is older than generation zero, so there is nothing else to see
      have hnone : older = [] := by
        rw [eq_nil_iff_forall_not_mem]
        intro r hr
        have := hlower r hr
        omega
      subst hnone
      have hseen : seen = [newest] :=
        (subperm_singleton_iff.mp hview.among).resolve_left (ne_nil_of_mem hmem)
      rw [hseen]
      exact replay_singleton hne hnew
    · -- the newest record is seen, and no other one has its generation
      obtain ⟨s, hs, hle⟩ := le_latestSnapshot hmem hne hnew hpos
      have hsmem := hview.among.subset (latestSnapshot_mem hs).1
      have hself : s = newest := by
        rcases mem_cons.mp hsmem with rfl | hold
        · rfl
        · have := hlower s hold
          omega
      rw [← hself]
      exact replay_of_latestSnapshot hs

end

theorem History.mem_outstanding (hne : head ≠ "") {record : Verdict}
    (h : History sum substantive head condition submitted (record :: records))
    {after : List Verdict} (hview : View (record :: records) after) {f : Finding} :
    f ∈ outstanding sum after head substantive ↔
      record.opens sum substantive f.id = some f := by
  rw [Findings.mem_outstanding]
  unfold openInstance
  rw [h.replay_view hview]
  show (replay sum [_] head substantive).open_.get? f.id = _ ↔ _
  rw [replay_singleton hne (h.on_head _ mem_cons_self), Ledger.get?_apply Ledger.ok_empty]
  rw [show ∀ o : Option Finding, o.or ((GoMap.get? ({} : Ledger).open_ f.id).filter _) = o from
    fun o => Option.or_none]

/-! ## Instances -/

variable (sum substantive) in
def submittedUnder (seen : List Verdict) (candidate : Verdict) (generation : Nat)
    (id : String) : List Finding :=
  if candidate.decision ≠ .pass then
    (stamp sum seen candidate generation substantive).findings.filter (fun g =>
      allows substantive g && findingID sum g = id)
  else []

variable (sum substantive) in
/-- What a commit does to the instances on its head; `after` is what is outstanding then. -/
structure KeepsInstances (head : String) (records seen : List Verdict)
    (candidate : Verdict) (generation : Nat) (after : List Finding) : Prop where
  /-- An id goes only by a disposition that names the generation of its open instance. -/
  answered : ∀ f ∈ outstanding sum seen head substantive, (∀ g ∈ after, g.id ≠ f.id) →
    Answered candidate.dispositions f
  /-- An open instance that is repeated unchanged, or neither answered nor raised, stays as it
  is, its generation included. -/
  kept : ∀ f ∈ outstanding sum seen head substantive,
    (∀ g ∈ submittedUnder sum substantive seen candidate generation f.id,
      sameFinding f g = true) →
    submittedUnder sum substantive seen candidate generation f.id ≠ [] ∨
      ¬ Answered candidate.dispositions f → f ∈ after
  /-- A finding that is raised after it was resolved or with another content has the generation
  of this commit. -/
  renewed : ∀ f ∈ after, submittedUnder sum substantive seen candidate generation f.id ≠ [] →
    (∀ g ∈ outstanding sum seen head substantive, g.id = f.id →
      ∀ c ∈ submittedUnder sum substantive seen candidate generation f.id,
        sameFinding g c = false) →
    f.ledgerGeneration = generation
  /-- So does everything else that was not open. -/
  opened : ∀ f ∈ after, f ∉ outstanding sum seen head substantive →
    f.ledgerGeneration = generation
  /-- What is raised is open. -/
  raised : head ≠ "" → ∀ id, submittedUnder sum substantive seen candidate generation id ≠ [] →
    ∃ f ∈ after, f.id = id ∧ f ∈ submittedUnder sum substantive seen candidate generation id
  /-- No instance before had this generation. -/
  fresh : ∀ r ∈ records, ∀ f ∈ outstanding sum [r] head substantive,
    f.ledgerGeneration < generation

theorem mem_submittedUnder {id : String} {g : Finding} :
    g ∈ submittedUnder sum substantive seen candidate generation id ↔
      candidate.decision ≠ .pass ∧ g ∈ (stamp sum seen candidate generation substantive).findings ∧
        allows substantive g = true ∧ findingID sum g = id := by
  unfold submittedUnder
  split_ifs with hpass
  · simp [hpass]
  · simp [not_not.mp hpass]

theorem opens_commit_raised (hne : candidate.headSHA ≠ "")
    (hquiet : QuietPass sum substantive seen candidate) {id : String}
    (h : submittedUnder sum substantive seen candidate generation id ≠ []) :
    ∃ g ∈ submittedUnder sum substantive seen candidate generation id, g.id = id ∧
      (commit sum seen candidate generation substantive).1.opens sum substantive id = some g ∧
      IsInstance (outstanding sum seen candidate.headSHA substantive) generation g := by
  obtain ⟨c, hc⟩ := exists_mem_of_ne_nil _ h
  obtain ⟨hpass, hmem, hallow, hid⟩ := mem_submittedUnder.mp hc
  have hsome : (lastRaised sum substantive
      (stamp sum seen candidate generation substantive).findings id).isSome :=
    lastRaised_isSome_iff.mpr ⟨c, hmem, hallow, hid⟩
  obtain ⟨g, hg⟩ := Option.isSome_iff_exists.mp hsome
  obtain ⟨hgmem, hgallow, hgid', hgid, hcases⟩ := lastRaised_stamp hpass hg
  refine ⟨g, mem_submittedUnder.mpr ⟨hpass, hgmem, hgallow, hgid'⟩, hgid, ?_, hcases⟩
  rw [opens_commit hne hquiet, if_pos hpass, hg]
  rfl

theorem opens_commit_other (hne : candidate.headSHA ≠ "")
    (hquiet : QuietPass sum substantive seen candidate) {id : String} {f : Finding}
    (h : submittedUnder sum substantive seen candidate generation id = []) :
    (commit sum seen candidate generation substantive).1.opens sum substantive id = some f ↔
      f ∈ outstanding sum seen candidate.headSHA substantive ∧ answersHere candidate f = false ∧
        allows substantive f = true ∧ f.id = id := by
  have hown : id ∉ ownRaised sum (stamp sum seen candidate generation substantive)
      substantive := by
    intro hid
    obtain ⟨hpass, hsome⟩ := mem_ownRaised.mp hid
    obtain ⟨c, hc, hallow, hcid⟩ := lastRaised_isSome_iff.mp hsome
    have hmem : c ∈ submittedUnder sum substantive seen candidate generation id :=
      mem_submittedUnder.mpr ⟨hpass, hc, hallow, hcid⟩
    -- nothing was submitted under the id, so what stands is what was carried over
    rw [h] at hmem
    cases hmem
  have hnone : (if candidate.decision ≠ .pass then
      lastRaised sum substantive (stamp sum seen candidate generation substantive).findings id
      else none) = none := by
    split_ifs with hpass
    · rw [← Option.not_isSome_iff_eq_none]
      exact fun hsome => hown (mem_ownRaised.mpr ⟨hpass, hsome⟩)
    · rfl
  rw [opens_commit hne hquiet, hnone, Option.none_or, lastRaised_standingAfter]
  constructor
  · intro ⟨hf, hallow, hid⟩
    obtain ⟨hout, hans, _⟩ := mem_standingAfter.mp hf
    exact ⟨hout, hans, hallow, hid⟩
  · intro ⟨hout, hans, hallow, hid⟩
    refine ⟨mem_standingAfter.mpr ⟨hout, hans, ?_⟩, hallow, hid⟩
    simp [raisesAgain, hid, hown]

/-! ## Every commit of a history -/

theorem Commits.exists_newest (hpast : History sum substantive head condition submitted records)
    (hstep : Commits head records seen candidate generation) {f : Finding}
    (hf : f ∈ outstanding sum seen head substantive) :
    ∃ r ∈ records, f ∈ outstanding sum [r] head substantive := by
  unfold outstanding at hf
  rw [hpast.replay_view hstep.view] at hf
  cases records with
  | nil => cases hf
  | cons newest older => exact ⟨newest, mem_cons_self, hf⟩

theorem view_newest (record : Verdict) (records : List Verdict) :
    View (record :: records) [record] :=
  ⟨(singleton_sublist.mpr mem_cons_self).subperm, fun r hr => by
    simp only [head?_cons, Option.mem_some_iff] at hr
    simp [hr]⟩

theorem History.sound
    (h : History sum substantive head (QuietPass sum substantive) submitted records) :
    ∀ r ∈ records, ∀ f ∈ outstanding sum [r] head substantive,
      allows substantive f = true ∧ f.ledgerGeneration ≤ r.ledgerGeneration := by
  induction h with
  | empty => exact nofun
  | @commit submitted records seen candidate generation past step ok ih =>
    intro r hr f hf
    rcases mem_cons.mp hr with rfl | hr
    · by_cases hne : head = ""
      · rw [hne] at hf
        exact absurd hf not_mem_outstanding_no_head
      have hopens := ((past.commit step ok).mem_outstanding hne (view_newest _ records)).mp hf
      have hne' : candidate.headSHA ≠ "" := by rw [step.head]; exact hne
      -- what was open is of a record before, and so of a lower generation
      have hbefore : ∀ g ∈ outstanding sum seen candidate.headSHA substantive,
          g.ledgerGeneration ≤ generation := by
        intro g hg
        rw [step.head] at hg
        obtain ⟨r, hr, hg⟩ := step.exists_newest past hg
        have := (ih r hr g hg).2
        have := step.newer r hr
        omega
      rw [commit_ledgerGeneration]
      by_cases hsub : submittedUnder sum substantive seen candidate generation f.id = []
      · obtain ⟨hout, _, hallow, _⟩ := (opens_commit_other hne' ok hsub).mp hopens
        exact ⟨hallow, hbefore f hout⟩
      · obtain ⟨g, hg, _, hgopens, hcases⟩ := opens_commit_raised hne' ok hsub
        rw [hopens] at hgopens
        injection hgopens with hgopens
        subst hgopens
        refine ⟨(mem_submittedUnder.mp hg).2.2.1, ?_⟩
        rcases hcases with hout | ⟨hgen, _⟩
        · exact hbefore f hout
        · exact hgen.le
    · exact ih r hr f hf

/-- One commit keeps every standing finding, unless it is answered or raised anew. -/
theorem commit_keepsInstances
    (hpast : History sum substantive head (QuietPass sum substantive) submitted records)
    (hstep : Commits head records seen candidate generation)
    (hquiet : QuietPass sum substantive seen candidate) {after : List Verdict}
    (hview : View ((commit sum seen candidate generation substantive).1 :: records) after) :
    KeepsInstances sum substantive head records seen candidate generation
      (outstanding sum after head substantive) := by
  have hfresh : ∀ r ∈ records, ∀ f ∈ outstanding sum [r] head substantive,
      f.ledgerGeneration < generation := by
    intro r hr f hf
    have := (hpast.sound r hr f hf).2
    have := hstep.newer r hr
    omega
  by_cases hne : head = ""
  · subst hne
    exact ⟨fun f hf => absurd hf not_mem_outstanding_no_head,
      fun f hf => absurd hf not_mem_outstanding_no_head,
      fun f hf => absurd hf not_mem_outstanding_no_head,
      fun f hf => absurd hf not_mem_outstanding_no_head, fun h => absurd rfl h, hfresh⟩
  have hhead := hstep.head
  subst hhead
  have hafter : ∀ f, f ∈ outstanding sum after candidate.headSHA substantive ↔ _ := fun f =>
    (hpast.commit hstep hquiet).mem_outstanding hne hview
  -- an id that the candidate raises, and one that it leaves alone
  have hraised : ∀ id, submittedUnder sum substantive seen candidate generation id ≠ [] →
      ∃ g ∈ outstanding sum after candidate.headSHA substantive, g.id = id ∧
        g ∈ submittedUnder sum substantive seen candidate generation id ∧
        IsInstance (outstanding sum seen candidate.headSHA substantive) generation g := by
    intro id hsub
    obtain ⟨g, hg, hid, hopens, hcases⟩ := opens_commit_raised hne hquiet hsub
    exact ⟨g, (hafter g).mpr (by rw [hid]; exact hopens), hid, hg, hcases⟩
  have hother : ∀ f ∈ outstanding sum seen candidate.headSHA substantive,
      submittedUnder sum substantive seen candidate generation f.id = [] →
      ¬ Answered candidate.dispositions f →
      f ∈ outstanding sum after candidate.headSHA substantive := by
    intro f hf hsub hnot
    obtain ⟨r, hr, hfr⟩ := hstep.exists_newest hpast hf
    have hans : answersHere candidate f = false := by
      rw [← Bool.not_eq_true]
      exact fun hans => hnot (answered_of_answersHere hans)
    exact (hafter f).mpr ((opens_commit_other hne hquiet hsub).mpr
      ⟨hf, hans, (hpast.sound r hr f hfr).1, rfl⟩)
  refine ⟨?_, ?_, ?_, ?_, ?_, hfresh⟩
  · intro f hf hgone
    by_contra hnot
    by_cases hsub : submittedUnder sum substantive seen candidate generation f.id = []
    · exact hgone f (hother f hf hsub hnot) rfl
    · obtain ⟨g, hg, hid, _⟩ := hraised f.id hsub
      exact hgone g hg hid
  · intro f hf hsame hor
    by_cases hsub : submittedUnder sum substantive seen candidate generation f.id = []
    · exact hother f hf hsub (hor.resolve_left (not_not.mpr hsub))
    · obtain ⟨g, hg, hid, hmem, hcases⟩ := hraised f.id hsub
      rcases hcases with hout | ⟨_, hdiffer⟩
      · rw [outstanding_unique hf hout hid.symm]
        exact hg
      · have hno := hdiffer f hf hid.symm
        rw [hsame g hmem] at hno
        cases hno
  · intro f hf hsub hdiffer
    obtain ⟨g, hg, hid, hmem, hcases⟩ := hraised f.id hsub
    have heq : f = g := outstanding_unique hf hg hid.symm
    subst heq
    rcases hcases with hout | ⟨hgen, _⟩
    · have hno := hdiffer f hout rfl f hmem
      rw [sameFinding_self] at hno
      cases hno
    · exact hgen
  · intro f hf hnew
    by_cases hsub : submittedUnder sum substantive seen candidate generation f.id = []
    · exact absurd ((opens_commit_other hne hquiet hsub).mp ((hafter f).mp hf)).1 hnew
    · obtain ⟨g, hg, hid, _, hcases⟩ := hraised f.id hsub
      rw [← outstanding_unique hf hg hid.symm] at hcases
      exact (hcases.resolve_left hnew).1
  · intro _ id hsub
    obtain ⟨g, hg, hid, hmem, _⟩ := hraised id hsub
    exact ⟨g, hg, hid, hmem⟩

/-! ## What is seen does not matter -/

/-- A commit depends on what it has seen only through the replayed ledger. -/
theorem commit_congr {seen' : List Verdict}
    (h : replay sum seen candidate.headSHA substantive =
      replay sum seen' candidate.headSHA substantive) :
    { (commit sum seen candidate generation substantive).1 with dispositions := [] } =
      { (commit sum seen' candidate generation substantive).1 with dispositions := [] } := by
  have hout : outstanding sum seen candidate.headSHA substantive =
      outstanding sum seen' candidate.headSHA substantive := by
    unfold outstanding
    rw [h]
  have hstamp : stamp sum seen candidate generation substantive =
      stamp sum seen' candidate generation substantive := by
    unfold stamp
    rw [hout]
  unfold commit
  rw [hstamp]
  have hstanding : standingAfter sum seen (stamp sum seen' candidate generation substantive)
      substantive = standingAfter sum seen' (stamp sum seen' candidate generation substantive)
        substantive := by
    unfold standingAfter
    rw [show (stamp sum seen' candidate generation substantive).headSHA = candidate.headSHA from
      rfl, hout]
  unfold fold
  dsimp only
  rw [hstanding]
  split_ifs <;> rfl

theorem replay_singleton_congr {r r' : Verdict} (hhead : r.headSHA = head)
    (h : { r with dispositions := [] } = { r' with dispositions := [] }) :
    replay sum [r] head substantive = replay sum [r'] head substantive := by
  by_cases hne : head = ""
  · unfold replay
    rw [if_pos hne, if_pos hne]
  cases r
  cases r'
  obtain ⟨rfl, rfl, rfl, rfl, rfl, _, rfl, rfl⟩ := h
  rw [replay_singleton hne hhead, replay_singleton hne (by exact hhead)]
  unfold Ledger.apply
  rw [Ledger.close_empty, Ledger.close_empty]

theorem History.carried_congr {condition' : List Verdict → Verdict → Prop}
    {records' : List Verdict} (h : History sum substantive head condition submitted records)
    (h' : History sum substantive head condition' submitted records') :
    carried sum substantive records head = carried sum substantive records' head := by
  induction h generalizing records' with
  | empty =>
    cases h'
    rfl
  | @commit _ _ _ candidate _ past step ok ih =>
    cases h' with
    | commit past' step' ok' =>
      -- both commits find the ledger their pasts carry, and these carry the same one
      have hseen := past.replay_view step.view
      rw [ih past', ← past'.replay_view step'.view, ← step.head] at hseen
      exact replay_singleton_congr (by rw [commit_headSHA, step.head]) (commit_congr hseen)

theorem History.outstanding_congr {condition' : List Verdict → Verdict → Prop}
    {records' seen' : List Verdict} (h : History sum substantive head condition submitted records)
    (h' : History sum substantive head condition' submitted records') (hview : View records seen)
    (hview' : View records' seen') :
    outstanding sum seen head substantive = outstanding sum seen' head substantive := by
  unfold outstanding
  rw [h.replay_view hview, h'.replay_view hview', h.carried_congr h']

end history

/-- In a history of quiet passes every commit keeps the instances, and what is outstanding after
it is the same for every order and choice of the records that it and the commits before it saw. -/
theorem disposition_answers_its_instance
    {sum : Severity → FindingClass → String → String → List UInt8} {substantive : Substantive}
    {head : String} {submitted : List (Verdict × Nat)} {records seen after : List Verdict}
    {candidate : Verdict} {generation : Nat}
    (hpast : History sum substantive head (QuietPass sum substantive) submitted records)
    (hstep : Commits head records seen candidate generation)
    (hquiet : QuietPass sum substantive seen candidate)
    (hview : View ((commit sum seen candidate generation substantive).1 :: records) after) :
    KeepsInstances sum substantive head records seen candidate generation
      (outstanding sum after head substantive) ∧
    ∀ records' after', History sum substantive head (fun _ _ => True)
      ((candidate, generation) :: submitted) records' → View records' after' →
      outstanding sum after' head substantive = outstanding sum after head substantive := by
  refine ⟨commit_keepsInstances hpast hstep hquiet hview, fun records' after' h' hview' => ?_⟩
  exact h'.outstanding_congr (.commit hpast hstep hquiet) hview' hview

/-! ## A leak and a remark -/

section runs

/-- Any sum will do: the findings carry their ids. -/
def noSum : Severity → FindingClass → String → String → List UInt8 := fun _ _ _ _ => []

def leakRaised : Verdict :=
  { decision := .needsChanges, headSHA := "head", findings := [{ id := "leak" }] }

/-- Answers the instance of generation 1. -/
def leakResolved : Verdict :=
  { decision := .needsChanges, headSHA := "head"
    dispositions := [{ findingID := "leak", findingGeneration := 1, outcome := .resolved,
                       evidence := "closed in the handler" }] }

def leak1 : Verdict := (commit noSum [] leakRaised 1 none).1
def leak2 : Verdict := (commit noSum [leak1] leakResolved 2 none).1
def leak3 : Verdict := (commit noSum [leak2] leakRaised 3 none).1
def leak4 : Verdict := (commit noSum [leak1, leak3] leakResolved 4 none).1

theorem view_nil : View [] [] := ⟨List.Subperm.refl _, nofun⟩

theorem quietPass_of_decision {seen : List Verdict} {candidate : Verdict}
    {substantive : Substantive}
    (h : candidate.decision ≠ .pass) : QuietPass noSum substantive seen candidate :=
  fun hpass => absurd hpass h

theorem leakHistory : History noSum none "head" (QuietPass noSum none)
    [(leakRaised, 3), (leakResolved, 2), (leakRaised, 1)] [leak3, leak2, leak1] := by
  have h1 : History noSum none "head" (QuietPass noSum none) [(leakRaised, 1)] [leak1] :=
    .commit .empty ⟨view_nil, rfl, nofun⟩ (quietPass_of_decision (by decide))
  have h2 : History noSum none "head" (QuietPass noSum none)
      [(leakResolved, 2), (leakRaised, 1)] [leak2, leak1] :=
    .commit h1 ⟨view_newest leak1 [], rfl, by decide⟩ (quietPass_of_decision (by decide))
  exact .commit h2 ⟨view_newest leak2 [leak1], rfl, by decide⟩
    (quietPass_of_decision (by decide))

theorem old_disposition_leaves_leak :
    outstanding noSum [leak4] "head" none = [{ id := "leak", ledgerGeneration := 3 }] ∧
    KeepsInstances noSum none "head" [leak3, leak2, leak1] [leak1, leak3] leakResolved 4
      (outstanding noSum [leak4] "head" none) := by
  refine ⟨by decide, (disposition_answers_its_instance leakHistory ⟨⟨?_, ?_⟩, rfl, ?_⟩
    (quietPass_of_decision (by decide)) (view_newest leak4 _)).1⟩
  · exact ((List.Perm.swap _ _ _).subperm.trans
      ((List.Sublist.cons_cons leak3 (List.Sublist.cons leak2 (List.Sublist.refl _))).subperm))
  · intro r hr
    simp only [head?_cons, Option.mem_some_iff] at hr
    simp [hr]
  · decide

def remarkResolved : Verdict :=
  { decision := .needsChanges, headSHA := "head"
    dispositions := [{ findingID := "remark", outcome := .resolved, evidence := "reworded" }] }

def remarkPassed : Verdict :=
  { decision := .pass, headSHA := "head", findings := [{ id := "remark" }] }

def remark2 : Verdict := (commit noSum [leak1] remarkPassed 2 none).1
def remark3 : Verdict := (commit noSum [remark2] remarkResolved 3 none).1
def remark4 : Verdict := (commit noSum [remark3] remarkPassed 4 none).1
def remark5 : Verdict := (commit noSum [remark4] remarkResolved 5 none).1

theorem remarkHistory : History noSum none "head" (fun _ _ => True)
    [(remarkPassed, 4), (remarkResolved, 3), (remarkPassed, 2), (leakRaised, 1)]
    [remark4, remark3, remark2, leak1] := by
  have h1 : History noSum none "head" (fun _ _ => True) [(leakRaised, 1)] [leak1] :=
    .commit .empty ⟨view_nil, rfl, nofun⟩ trivial
  have h2 : History noSum none "head" (fun _ _ => True)
      [(remarkPassed, 2), (leakRaised, 1)] [remark2, leak1] :=
    .commit h1 ⟨view_newest leak1 [], rfl, by decide⟩ trivial
  have h3 : History noSum none "head" (fun _ _ => True)
      [(remarkResolved, 3), (remarkPassed, 2), (leakRaised, 1)] [remark3, remark2, leak1] :=
    .commit h2 ⟨view_newest remark2 [leak1], rfl, by decide⟩ trivial
  exact .commit h3 ⟨view_newest remark3 [remark2, leak1], rfl, by decide⟩ trivial

/-- The remark of a pass becomes an instance of generation 0. It is resolved, comes back with the
same generation, and the disposition of the first instance answers the second. -/
theorem old_disposition_answers_remark :
    History noSum none "head" (fun _ _ => True)
      [(remarkPassed, 4), (remarkResolved, 3), (remarkPassed, 2), (leakRaised, 1)]
      [remark4, remark3, remark2, leak1] ∧
    outstanding noSum [remark2] "head" none =
      [{ id := "leak", ledgerGeneration := 1 }, { id := "remark" }] ∧
    outstanding noSum [remark3] "head" none = [{ id := "leak", ledgerGeneration := 1 }] ∧
    outstanding noSum [remark4] "head" none =
      [{ id := "leak", ledgerGeneration := 1 }, { id := "remark" }] ∧
    outstanding noSum [remark5] "head" none = [{ id := "leak", ledgerGeneration := 1 }] ∧
    ¬ KeepsInstances noSum none "head" [remark3, remark2, leak1] [remark3] remarkPassed 4
      (outstanding noSum [remark4] "head" none) := by
  have h3 : outstanding noSum [remark3] "head" none =
      [{ id := "leak", ledgerGeneration := 1 }] := by
    decide
  have h4 : outstanding noSum [remark4] "head" none =
      [{ id := "leak", ledgerGeneration := 1 }, { id := "remark" }] := by
    decide
  refine ⟨remarkHistory, by decide, h3, h4, by decide, fun hkeeps => ?_⟩
  have hgen := hkeeps.opened { id := "remark" } (by decide) (by decide)
  cases hgen

end runs

end Goobers.Findings
