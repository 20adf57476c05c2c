import Goobers.Lib.FirstCome
import Goobers.Lib.Runs
import Goobers.Scheduler.Conditions
import Mathlib.Data.Prod.Lex
import Mathlib.Data.String.Basic

/-!
# Waiting parents are not overtaken

The live claims are a queue ordered by when a parent began to wait. What stands
against a parent is the claims before its own: all of them for the slots of its
workflow, and for the slots of the instance those their own workflows have room for
(`Lib.FirstCome`). A parent that can resume is itself such a claim to everybody who
comes later, so a start or a resume that is granted leaves its slot.

Claims before it that expire and slots that are released may let another claim use the
instance. That claim then counts against the parent where it did not count before;
but as many are counted as there are claims and room, so the sum does not grow.
-/

namespace Goobers.Scheduler

open Lib FirstCome Finset GoMap

variable {limits : WorkflowIdentity → ReadinessConditions}

variable {c c' : Conditions} {now : Int} {run : String}

/-! ## The queue -/

abbrev Waiter := String × ContinuationClaim

variable {x : Waiter}

/-- The order of the queue. -/
def place (x : Waiter) : ℤ ×ₗ String := toLex (x.2.since, x.1)

def workflowOf (x : Waiter) : WorkflowIdentity := x.2.identity

theorem olderThan_iff {y : Waiter} :
    Conditions.olderThan x.2 x.1 y.2 y.1 = true ↔ place x < place y := by
  simp [Conditions.olderThan, place, Prod.Lex.toLex_lt_toLex]

theorem place_le_place {y : Waiter} (hrun : x.1 = y.1) (hsince : x.2.since ≤ y.2.since) :
    place x ≤ place y := by
  rw [place, place, Prod.Lex.toLex_le_toLex]
  rcases hsince.lt_or_eq with h | h
  · exact .inl h
  · exact .inr ⟨h, hrun.le⟩

namespace Conditions

def waiting (c : Conditions) (now : Int) : Finset Waiter :=
  c.claims.rows.toFinset.filter (fun x => now < x.2.until_)

theorem mem_waiting : x ∈ c.waiting now ↔ c.claims.get? x.1 = some x.2 ∧ now < x.2.until_ := by
  rw [waiting, mem_filter, List.mem_toFinset, ← mem_rows]

theorem waiting_unique {y : Waiter} (hx : x ∈ c.waiting now) (hy : y ∈ c.waiting now)
    (hrun : x.1 = y.1) : x = y := by
  have hclaim := (mem_waiting.mp hx).1
  rw [hrun] at hclaim
  exact Prod.ext hrun (Option.mem_unique hclaim (mem_waiting.mp hy).1)

theorem place_injOn (c : Conditions) (now : Int) : Set.InjOn place (c.waiting now) :=
  fun _ hx _ hy he => waiting_unique hx hy (congrArg Prod.snd (toLex_inj.mp he))

theorem get?_pruneClaims {claim : ContinuationClaim} :
    (c.pruneClaims now).claims.get? run = some claim ↔ (run, claim) ∈ c.waiting now := by
  rw [mem_waiting, pruneClaims, get?_sift, Option.bind_eq_some_iff]
  constructor
  · rintro ⟨claim', hget, hlive⟩
    split at hlive
    · rename_i h
      obtain rfl := Option.some.inj hlive
      exact ⟨hget, h⟩
    · cases hlive
  · rintro ⟨hget, hlive⟩
    exact ⟨claim, hget, if_pos hlive⟩

theorem length_filter_rows (c : Conditions) (now : Int) (p : Waiter → Bool) :
    ((c.pruneClaims now).claims.rows.filter p).length =
      #((c.waiting now).filter (fun x => p x = true)) := by
  have hnodup : (c.pruneClaims now).claims.rows.Nodup := (nodup_rows _).of_map
  rw [← List.toFinset_card_of_nodup (hnodup.filter p), List.toFinset_filter]
  refine congrArg card (Finset.ext fun x => ?_)
  rw [mem_filter, mem_filter, List.mem_toFinset, ← get?_pruneClaims, ← mem_rows]

/-- The slots a workflow has left, claims aside. -/
def room (limits : WorkflowIdentity → ReadinessConditions) (c : Conditions)
    (identity : WorkflowIdentity) : ℕ :=
  (maxConcurrentRuns (limits identity) - c.activeOf identity).toNat

/-- The claims that can use the instance. -/
def usable (limits : WorkflowIdentity → ReadinessConditions) (c : Conditions)
    (S : Finset Waiter) : Finset Waiter :=
  served place workflowOf (c.room limits) S

/-- What holds of the claims: no run is without an ID, a claim has its workflow's cap, and it was
not made in the future. -/
def Sound (limits : WorkflowIdentity → ReadinessConditions) (c : Conditions) (now : Int) : Prop :=
  ∀ run claim, c.claims.get? run = some claim →
    run ≠ "" ∧ claim.maxConcurrent = maxConcurrentRuns (limits claim.identity) ∧ claim.since ≤ now

variable {c : Conditions} {now : Int} {identity : WorkflowIdentity} {run : String}

theorem claimCanUseInstance_iff (hs : c.Sound limits now) (hx : x ∈ c.waiting now) :
    (c.pruneClaims now).claimCanUseInstance x.1 x.2 = true ↔
      #(ahead place workflowOf (c.waiting now) x) < c.room limits (workflowOf x) := by
  have hcap := (hs x.1 x.2 (mem_waiting.mp hx).1).2.1
  have hahead : (c.waiting now).filter (fun y =>
      (y.1 ≠ x.1 && y.2.identity = x.2.identity && olderThan y.2 y.1 x.2 x.1) = true) =
      ahead place workflowOf (c.waiting now) x := by
    refine filter_congr fun y hy => ?_
    simp only [Bool.and_eq_true, decide_eq_true_eq, olderThan_iff]
    constructor
    · exact fun h => ⟨h.1.2, h.2⟩
    · -- a claim is not older than itself
      rintro ⟨hid, hlt⟩
      refine ⟨⟨fun hrun => ?_, hid⟩, hlt⟩
      exact absurd hlt (by rw [waiting_unique hy hx hrun]; exact lt_irrefl _)
  unfold claimCanUseInstance
  dsimp only
  rw [length_filter_rows, hahead, hcap, decide_eq_true_iff, room]
  show c.activeOf (workflowOf x) + _ < maxConcurrentRuns (limits (workflowOf x)) ↔ _
  omega

/-- The two counts of the source's loop are sizes of sets of waiters. -/
theorem heldByClaims_eq (hs : c.Sound limits now) {D : Finset Waiter}
    (hsub : D ⊆ c.waiting now)
    (hlower : ∀ x ∈ D, ahead place workflowOf D x = ahead place workflowOf (c.waiting now) x)
    (hD : ∀ x ∈ c.waiting now, x ∈ D ↔ x.1 ≠ run ∧
      ∀ own, (run, own) ∈ c.waiting now → place x < place (run, own)) :
    (c.pruneClaims now).heldByClaims identity run =
      (#(D.filter (fun x => workflowOf x = identity)), #(c.usable limits D)) := by
  -- the test the source's loop makes of each claim
  have hhold : ∀ x ∈ c.waiting now,
      (x.1 ≠ run && ((c.pruneClaims now).claims.get? run).all
        (fun own => olderThan x.2 x.1 own run)) = true ↔ x ∈ D := by
    intro x hx
    rw [hD x hx, Bool.and_eq_true, decide_eq_true_iff, Option.all_eq_true_iff_get]
    refine and_congr_right fun _ => ⟨fun h own hown => ?_, fun h hsome => ?_⟩
    · have hget := get?_pruneClaims.mpr hown
      have := h (by rw [hget]; rfl)
      simp only [hget] at this
      exact (olderThan_iff (y := (run, own))).mp this
    · obtain ⟨own, hown⟩ := Option.isSome_iff_exists.mp hsome
      have := h own (get?_pruneClaims.mp hown)
      simp only [hown]
      exact (olderThan_iff (y := (run, own))).mpr this
  unfold heldByClaims
  simp only [List.filter_filter, length_filter_rows]
  rw [Prod.mk.injEq]
  refine ⟨congrArg card (Finset.ext fun x => ?_), congrArg card (Finset.ext fun x => ?_)⟩
  · rw [mem_filter, mem_filter, Bool.and_eq_true, decide_eq_true_iff]
    constructor
    · rintro ⟨hx, hid, hh⟩
      exact ⟨(hhold x hx).mp hh, hid⟩
    · rintro ⟨hx, hid⟩
      exact ⟨hsub hx, hid, (hhold x (hsub hx)).mpr hx⟩
  · rw [mem_filter, usable, served, mem_filter, Bool.and_eq_true]
    constructor
    · rintro ⟨hx, huse, hh⟩
      have hxD := (hhold x hx).mp hh
      rw [hlower x hxD]
      exact ⟨hxD, (claimCanUseInstance_iff hs hx).mp huse⟩
    · rintro ⟨hx, huse⟩
      rw [hlower x hx] at huse
      exact ⟨hsub hx, (claimCanUseInstance_iff hs (hsub hx)).mpr huse,
        (hhold x (hsub hx)).mpr hx⟩

def against (c : Conditions) (now : Int) (run : String) : Finset Waiter :=
  match (c.pruneClaims now).claims.get? run with
  | some own => before place (c.waiting now) (run, own)
  | none => c.waiting now

theorem against_free (hrun : ∀ own, (run, own) ∉ c.waiting now) :
    c.against now run = c.waiting now := by
  unfold against
  split
  · rename_i own hown
    exact absurd (get?_pruneClaims.mp hown) (hrun own)
  · rfl

theorem against_claiming {own : ContinuationClaim} (hown : (run, own) ∈ c.waiting now) :
    c.against now run = before place (c.waiting now) (run, own) := by
  unfold against
  rw [get?_pruneClaims.mpr hown]

/-- For a run, the claims that count are those it does not outrank. -/
theorem heldByClaims_against (hs : c.Sound limits now) :
    (c.pruneClaims now).heldByClaims identity run =
      (#((c.against now run).filter (fun x => workflowOf x = identity)),
        #(c.usable limits (c.against now run))) := by
  by_cases hrun : ∃ own, (run, own) ∈ c.waiting now
  · -- the claims before its own
    obtain ⟨own, hown⟩ := hrun
    rw [against_claiming hown]
    refine heldByClaims_eq hs (fun x hx => (mem_before.mp hx).1)
      (fun x hx => ahead_before (mem_before.mp hx).2.le) fun x hx => ?_
    rw [mem_before]
    constructor
    · rintro ⟨_, hlt⟩
      refine ⟨fun he => ?_, fun claim hclaim => waiting_unique hclaim hown rfl ▸ hlt⟩
      exact absurd hlt (by rw [waiting_unique hx hown he]; exact lt_irrefl _)
    · rintro ⟨_, h⟩
      exact ⟨hx, h own hown⟩
  · have hfree : ∀ own, (run, own) ∉ c.waiting now := fun own hown => hrun ⟨own, hown⟩
    rw [against_free hfree]
    refine heldByClaims_eq hs (Subset.refl _) (fun _ _ => rfl) fun x hx => ?_
    exact iff_of_true hx ⟨fun he => hfree x.2 (he ▸ hx), fun own hown => absurd hown (hfree own)⟩

/-! ## Slots -/

/-- Behind these claims there is a slot of the workflow and a slot of the instance. -/
def Free (limits : WorkflowIdentity → ReadinessConditions) (c : Conditions)
    (identity : WorkflowIdentity) (D : Finset Waiter) : Prop :=
  c.activeOf identity + #(D.filter (fun x => workflowOf x = identity)) <
      maxConcurrentRuns (limits identity) ∧
    (0 < c.instanceMaxParallel → c.totalActive + #(c.usable limits D) < c.instanceMaxParallel)

/-- The same slots are taken, under the same limit. -/
structure SameSlots (c c' : Conditions) : Prop where
  active : c'.active = c.active
  totalActive : c'.totalActive = c.totalActive
  limit : c'.instanceMaxParallel = c.instanceMaxParallel

theorem SameSlots.refl (c : Conditions) : SameSlots c c := ⟨rfl, rfl, rfl⟩

variable {c' : Conditions} {D E : Finset Waiter}

theorem SameSlots.activeOf (h : SameSlots c c') (i : WorkflowIdentity) :
    c'.activeOf i = c.activeOf i := by
  unfold Conditions.activeOf
  rw [h.active]

theorem Free.subset (h : c.Free limits identity D) (hinj : Set.InjOn place D) (hsub : E ⊆ D)
    (hsame : SameSlots c c') : c'.Free limits identity E := by
  obtain ⟨hw, hi⟩ := h
  have hcard : #(E.filter (fun x => workflowOf x = identity)) ≤
      #(D.filter (fun x => workflowOf x = identity)) :=
    card_le_card (filter_subset_filter _ hsub)
  have hserved : #(c'.usable limits E) ≤ #(c.usable limits D) := by
    refine card_served_mono hinj hsub fun j => ?_
    rw [room, room, hsame.activeOf]
  refine ⟨?_, fun hlim => ?_⟩
  · rw [hsame.activeOf]
    omega
  · rw [hsame.limit] at hlim ⊢
    rw [hsame.totalActive]
    omega

theorem activeOf_take (c : Conditions) (i j : WorkflowIdentity) :
    (c.take i).activeOf j = c.activeOf j + if j = i then 1 else 0 := by
  unfold take activeOf
  rw [get?_put]
  split_ifs with h
  · rw [h]
    rfl
  · simp

/-- Granting a slot behind all waiters leaves one for each waiter that had one. -/
theorem Free.take (hgrant : c.Free limits identity D) (hinj : Set.InjOn place D) {p : Waiter}
    (hp : p ∈ D) (h : c.Free limits (workflowOf p) (before place D p)) :
    (c.take identity).Free limits (workflowOf p) (before place D p) := by
  obtain ⟨hw, hi⟩ := h
  have hactive := activeOf_take c identity (workflowOf p)
  -- the claim counts against whoever was granted the slot
  have hmine : p ∈ c.usable limits D := by
    refine mem_filter.mpr ⟨hp, ?_⟩
    have hahead : ahead place workflowOf D p =
        (before place D p).filter (fun x => workflowOf x = workflowOf p) := by
      ext x
      simp only [ahead, before, mem_filter]
      tauto
    rw [hahead, room]
    omega
  have hfewer : #((c.take identity).usable limits (before place D p)) ≤
      #(c.usable limits (before place D p)) := by
    refine card_served_mono (hinj.mono (filter_subset _ _)) (Subset.refl _) fun j => ?_
    have := activeOf_take c identity j
    unfold room
    split at this <;> omega
  refine ⟨?_, fun hlim => ?_⟩
  · split_ifs at hactive with heq
    · have hlt : #((before place D p).filter (fun x => workflowOf x = workflowOf p)) <
          #(D.filter (fun x => workflowOf x = workflowOf p)) := by
        refine card_lt_card ((ssubset_iff_of_subset ?_).mpr ⟨p, ?_, ?_⟩)
        · exact filter_subset_filter _ (filter_subset _ _)
        · exact mem_filter.mpr ⟨hp, rfl⟩
        · exact fun hin => lt_irrefl _ (mem_before.mp (mem_of_mem_filter p hin)).2
      have := hgrant.1
      rw [← heq] at this
      omega
    · omega
  · have hserved := card_served_before_lt hmine
    have := hgrant.2 hlim
    show c.totalActive + 1 + _ < c.instanceMaxParallel
    unfold usable at hfewer this ⊢
    omega

theorem activeOf_release (c : Conditions) (i j : WorkflowIdentity) :
    (c.releaseWorkflow i).activeOf j =
      c.activeOf j - if 0 < c.activeOf i ∧ j = i then 1 else 0 := by
  unfold releaseWorkflow
  split
  · rename_i hpos
    unfold activeOf
    rw [get?_put]
    by_cases h : j = i
    · subst h
      have hpos' : 0 < (c.active.get? j).getD 0 := hpos
      simp [hpos']
    · simp [h]
  · rename_i hpos
    simp [hpos]

/-- A release only frees slots. -/
theorem Free.release (h : c.Free limits identity D) (hinj : Set.InjOn place D)
    (i : WorkflowIdentity) : (c.releaseWorkflow i).Free limits identity D := by
  obtain ⟨hw, hi⟩ := h
  by_cases hpos : 0 < c.activeOf i
  · have hserved : #((c.releaseWorkflow i).usable limits D) ≤ #(c.usable limits D) + 1 := by
      refine card_served_le_succ hinj i fun j => ?_
      have := activeOf_release c i j
      unfold room
      by_cases hj : j = i
      · rw [if_pos hj]
        omega
      · rw [if_neg (fun h => hj h.2)] at this
        omega
    have hactive := activeOf_release c i identity
    refine ⟨?_, ?_⟩
    · split at hactive <;> omega
    · unfold releaseWorkflow at hserved ⊢
      rw [if_pos hpos] at hserved ⊢
      intro hlim
      have := hi hlim
      dsimp only
      omega
  · unfold releaseWorkflow
    rw [if_neg hpos]
    exact ⟨hw, hi⟩

/-! ## What an operation decides -/

theorem workflowFull_iff (hs : c.Sound limits now) (identity : WorkflowIdentity)
    (run : String) :
    (c.pruneClaims now).workflowFull identity (limits identity) run = false ↔
      c.activeOf identity + #((c.against now run).filter (fun x => workflowOf x = identity)) <
        maxConcurrentRuns (limits identity) := by
  unfold workflowFull
  rw [heldByClaims_against hs, decide_eq_false_iff_not, not_le]
  rfl

theorem instanceFull_iff (hs : c.Sound limits now) (identity : WorkflowIdentity)
    (run : String) :
    (c.pruneClaims now).instanceFull identity run = false ↔
      (0 < c.instanceMaxParallel →
        c.totalActive + #(c.usable limits (c.against now run)) < c.instanceMaxParallel) := by
  unfold instanceFull
  rw [heldByClaims_against hs, Bool.and_eq_false_iff, decide_eq_false_iff_not,
    decide_eq_false_iff_not, not_le, imp_iff_not_or]
  rfl

/-- A continuation is granted if there is a slot behind what stands against it; a refusal is one
for capacity and changes nothing. -/
theorem reserveContinuationFor_cases (hs : c.Sound limits now) (identity : WorkflowIdentity)
    (run : String) :
    (c.Free limits identity (c.against now run) ∧
      (c.pruneClaims now).reserveContinuationFor identity (limits identity) run =
        ((c.pruneClaims now).take identity, .ok ())) ∨
    (¬ c.Free limits identity (c.against now run) ∧
      ∃ reason, (reason = reasonMaxParallel ∨ reason = reasonInstanceMaxParallel) ∧
        (c.pruneClaims now).reserveContinuationFor identity (limits identity) run =
          (c.pruneClaims now, .error reason)) := by
  have hw := workflowFull_iff hs identity run
  have hi := instanceFull_iff hs identity run
  unfold reserveContinuationFor
  by_cases hwf : (c.pruneClaims now).workflowFull identity (limits identity) run = true
  · refine .inr ⟨fun hfree => ?_, reasonMaxParallel, .inl rfl, by rw [if_pos hwf]⟩
    exact absurd hwf (by rw [hw.mpr hfree.1]; decide)
  · by_cases hin : (c.pruneClaims now).instanceFull identity run = true
    · refine .inr ⟨fun hfree => ?_, reasonInstanceMaxParallel, .inr rfl,
        by rw [if_neg hwf, if_pos hin]⟩
      exact absurd hin (by rw [hi.mpr hfree.2]; decide)
    · exact .inl ⟨⟨hw.mp (by simpa using hwf), hi.mp (by simpa using hin)⟩,
        by rw [if_neg hwf, if_neg hin]⟩

theorem sameSlots_pruneClaims (c : Conditions) (now : Int) : SameSlots c (c.pruneClaims now) :=
  ⟨rfl, rfl, rfl⟩

theorem sameSlots_take_pruneClaims (c : Conditions) (now : Int) :
    SameSlots (c.take identity) ((c.pruneClaims now).take identity) :=
  ⟨rfl, rfl, rfl⟩

/-- What a start or a continuation does to the slots: nothing, or it takes one that is free behind
the claims against it. -/
def Decided (limits : WorkflowIdentity → ReadinessConditions) (c c' : Conditions) (now : Int)
    (identity : WorkflowIdentity) (run : String) : Prop :=
  SameSlots c c' ∨
    (c.Free limits identity (c.against now run) ∧ SameSlots (c.take identity) c')

theorem reserveContinuation_spec (hs : c.Sound limits now) (identity : WorkflowIdentity) :
    Decided limits c (c.reserveContinuation now identity (limits identity)).1 now identity "" ∧
      (c.reserveContinuation now identity (limits identity)).1.claims =
        (c.pruneClaims now).claims := by
  unfold reserveContinuation
  rcases reserveContinuationFor_cases hs identity "" with
    ⟨hfree, h⟩ | ⟨_, reason, _, h⟩
  · rw [h]
    exact ⟨.inr ⟨hfree, sameSlots_take_pruneClaims c now⟩, rfl⟩
  · rw [h]
    exact ⟨.inl (sameSlots_pruneClaims c now), rfl⟩

/-- A granted resume ends the claim, a refused one makes or renews it. -/
theorem reserveParentContinuation_spec (hs : c.Sound limits now) (identity : WorkflowIdentity)
    (run : String) :
    (c.Free limits identity (c.against now run) ∧
      c.reserveParentContinuation now run identity (limits identity) =
        (((c.pruneClaims now).take identity).clearContinuationClaim run, .ok ())) ∨
    (¬ c.Free limits identity (c.against now run) ∧
      ∃ reason, c.reserveParentContinuation now run identity (limits identity) =
        ((c.pruneClaims now).markContinuationWaiting run identity
          (maxConcurrentRuns (limits identity)) now, .error reason)) := by
  unfold reserveParentContinuation
  rcases reserveContinuationFor_cases hs identity run with
    ⟨hfree, h⟩ | ⟨hfull, reason, hreason, h⟩
  · exact .inl ⟨hfree, by rw [h]⟩
  · exact .inr ⟨hfull, reason, by rw [h]; simp [hreason]⟩

theorem startRefusal_none {gates : Gates} {r : ReadinessConditions}
    (h : c.startRefusal identity gates r = none) : c.workflowFull identity r "" = false := by
  unfold startRefusal at h
  split at h
  · cases h
  · rename_i hfull
    simpa using hfull

theorem poolRefusal_none {gates : Gates} (h : c.poolRefusal identity gates = none) :
    c.instanceFull identity "" = false := by
  unfold poolRefusal at h
  split at h
  · cases h
  · rename_i hfull
    simpa using hfull

theorem admitProviderWorkflow_spec (hs : c.Sound limits now) (identity : WorkflowIdentity)
    (gates : Gates) (startedAt : Int) (bypass : Bool) :
    Decided limits c
        (c.admitProviderWorkflow now identity gates (limits identity) startedAt bypass).1
        now identity "" ∧
      ((c.admitProviderWorkflow now identity gates (limits identity) startedAt bypass).1.claims =
          c.claims ∨
        (c.admitProviderWorkflow now identity gates (limits identity) startedAt bypass).1.claims =
          (c.pruneClaims now).claims) := by
  unfold admitProviderWorkflow
  split
  · exact ⟨.inl (SameSlots.refl c), .inl rfl⟩
  dsimp only
  split
  · exact ⟨.inl (sameSlots_pruneClaims c now), .inr rfl⟩
  rename_i hstart
  split
  · exact ⟨.inl ⟨rfl, rfl, rfl⟩, .inr rfl⟩
  split
  · exact ⟨.inl (sameSlots_pruneClaims c now), .inr rfl⟩
  rename_i hpool
  refine ⟨.inr ⟨⟨?_, ?_⟩, ⟨rfl, rfl, rfl⟩⟩, .inr rfl⟩
  · exact (workflowFull_iff hs identity "").mp (startRefusal_none hstart)
  · exact (instanceFull_iff hs identity "").mp (poolRefusal_none hpool)

end Conditions

/-! ## Steps -/

open Conditions

variable {w : World} {p : Waiter}

/-- The parent's resume would be granted. -/
def World.CanResume (limits : WorkflowIdentity → ReadinessConditions) (w : World) (p : Waiter) :
    Prop :=
  p ∈ w.conditions.waiting w.now ∧
    w.conditions.Free limits (workflowOf p) (before place (w.conditions.waiting w.now) p)

theorem resume_ok_iff (hs : w.conditions.Sound limits w.now)
    (hp : p ∈ w.conditions.waiting w.now) :
    (w.conditions.reserveParentContinuation w.now p.1 p.2.identity (limits p.2.identity)).2 =
        .ok () ↔ w.CanResume limits p := by
  have hagainst := against_claiming hp
  rcases reserveParentContinuation_spec hs p.2.identity p.1 with
    ⟨hfree, h⟩ | ⟨hfull, reason, h⟩
  · rw [h]
    rw [hagainst] at hfree
    exact iff_of_true rfl ⟨hp, hfree⟩
  · rw [h]
    rw [hagainst] at hfull
    exact iff_of_false (by simp) (fun hcan => hfull hcan.2)

/-- The run began to wait after the parent: its claim is younger, or it has none yet. -/
def Younger (p : Waiter) (w : World) (run : String) : Prop :=
  (∃ own, (run, own) ∈ w.conditions.waiting w.now ∧ place p < place (run, own)) ∨
    ((∀ own, (run, own) ∉ w.conditions.waiting w.now) ∧ p.2.since < w.now)

/-- The operation is not one of the waiting parent, nor of a parent before it. -/
def Yields (p : Waiter) (w : World) : Op → Prop
  | .resume run _ => Younger p w run.id
  | .clear run => run.id ≠ p.1
  | _ => True

/-! ### The claims after an operation -/

/-- No claim is new or changed. -/
def Fewer (c c' : Conditions) : Prop :=
  ∀ run claim, c'.claims.get? run = some claim → c.claims.get? run = some claim

theorem fewer_of_eq (h : c'.claims = c.claims) : Fewer c c' := by
  intro run claim hget
  rwa [h] at hget

theorem fewer_of_eq_prune (h : c'.claims = (c.pruneClaims now).claims) : Fewer c c' := by
  intro run claim hget
  rw [h] at hget
  exact (mem_waiting.mp (get?_pruneClaims.mp hget)).1

theorem fewer_clear (run : String) : Fewer c (c.clearContinuationClaim run) := by
  intro run' claim hget
  unfold clearContinuationClaim at hget
  rw [get?_del] at hget
  split at hget
  · cases hget
  · exact hget

theorem Fewer.sound {now' : Int} (h : Fewer c c') (hnow : now ≤ now') (hs : c.Sound limits now) :
    c'.Sound limits now' := by
  intro run claim hget
  obtain ⟨hne, hcap, hsince⟩ := hs run claim (h run claim hget)
  exact ⟨hne, hcap, hsince.trans hnow⟩

theorem Fewer.waiting {now' : Int} (h : Fewer c c') (hnow : now ≤ now') :
    c'.waiting now' ⊆ c.waiting now := by
  intro x hx
  rw [mem_waiting] at hx ⊢
  exact ⟨h x.1 x.2 hx.1, lt_of_le_of_lt hnow hx.2⟩

theorem get?_markContinuationWaiting {cap : Int} {identity : WorkflowIdentity}
    (h : (c.markContinuationWaiting run identity cap now).claims.get? x.1 = some x.2) :
    (x.1 ≠ run ∧ c.claims.get? x.1 = some x.2) ∨
      (x.1 = run ∧ x.2.identity = identity ∧ x.2.maxConcurrent = cap ∧
        (x.2.since = now ∨ ∃ own, c.claims.get? run = some own ∧ x.2.since = own.since)) := by
  unfold markContinuationWaiting at h
  rw [get?_put] at h
  split_ifs at h with hrun
  · refine .inr ⟨hrun, ?_⟩
    rw [← Option.some.inj h]
    refine ⟨rfl, rfl, ?_⟩
    split
    · rename_i own hown
      split
      · exact .inr ⟨own, hown, rfl⟩
      · exact .inl rfl
    · exact .inl rfl
  · exact .inl ⟨hrun, h⟩

theorem sound_mark (hs : c.Sound limits now) (run : RunID) (identity : WorkflowIdentity) :
    ((c.pruneClaims now).markContinuationWaiting run.id identity
      (maxConcurrentRuns (limits identity)) now).Sound limits now := by
  have hfewer : Fewer c (c.pruneClaims now) := fewer_of_eq_prune rfl
  have hs' : (c.pruneClaims now).Sound limits now := hfewer.sound le_rfl hs
  intro run' claim hget
  rcases get?_markContinuationWaiting (x := (run', claim)) hget with
    ⟨_, hold⟩ | ⟨hrun, hid, hcap, hsince⟩
  · exact hs' run' claim hold
  · refine ⟨fun he => run.nonempty (hrun.symm.trans he), by rw [hid]; exact hcap, ?_⟩
    rcases hsince with hsince | ⟨own, hown, hsince⟩
    · exact hsince.le
    · exact hsince.trans_le (hs' run.id own hown).2.2

/-- Every operation keeps the claims sound. -/
theorem sound_step (hs : w.conditions.Sound limits w.now) (op : Op) :
    (w.step limits op).conditions.Sound limits (w.step limits op).now := by
  cases op with
  | admitWorkflow identity gates now bypass =>
    rcases (admitProviderWorkflow_spec hs identity gates now bypass).2 with h | h
    · exact (fewer_of_eq h).sound le_rfl hs
    · exact (fewer_of_eq_prune h).sound le_rfl hs
  | reserve identity =>
    exact (fewer_of_eq_prune (reserveContinuation_spec hs identity).2).sound le_rfl hs
  | resume run identity =>
    rcases reserveParentContinuation_spec hs identity run.id with ⟨_, h⟩ | ⟨_, reason, h⟩
    · simp only [World.step, h]
      have hfewer : Fewer w.conditions ((w.conditions.pruneClaims w.now).take identity) :=
        fewer_of_eq_prune rfl
      exact (fewer_clear run.id).sound le_rfl (hfewer.sound le_rfl hs)
    · simp only [World.step, h]
      exact sound_mark hs run identity
  | release identity =>
    refine (fewer_of_eq ?_).sound le_rfl hs
    simp only [World.step, releaseWorkflow]
    split <;> rfl
  | clear run => exact (fewer_clear run.id).sound le_rfl hs
  | advance d =>
    refine (fewer_of_eq rfl).sound ?_ hs
    show w.now ≤ w.now + d
    omega

/-! ### What stands against others stands after it -/

/-- The waiter comes before the run. -/
structure Outranks (p : Waiter) (w : World) (run : String) : Prop where
  mem : p ∈ w.conditions.against w.now run
  before_eq : before place (w.conditions.against w.now run) p =
    before place (w.conditions.waiting w.now) p
  injOn : Set.InjOn place (w.conditions.against w.now run)

theorem outranks_start (hs : w.conditions.Sound limits w.now)
    (hp : p ∈ w.conditions.waiting w.now) : Outranks p w "" := by
  have hfree : w.conditions.against w.now "" = w.conditions.waiting w.now :=
    against_free fun own hown => (hs "" own (mem_waiting.mp hown).1).1 rfl
  refine ⟨?_, ?_, ?_⟩ <;> rw [hfree]
  · exact hp
  · exact place_injOn _ _

theorem Younger.outranks (hy : Younger p w run) (hp : p ∈ w.conditions.waiting w.now) :
    Outranks p w run := by
  rcases hy with ⟨own, hown, hlt⟩ | ⟨hfree, _⟩
  · have heq := against_claiming hown
    refine ⟨?_, ?_, ?_⟩ <;> rw [heq]
    · exact mem_before.mpr ⟨hp, hlt⟩
    · exact before_before hlt
    · exact (place_injOn _ _).mono (filter_subset _ _)
  · have heq := against_free hfree
    refine ⟨?_, ?_, ?_⟩ <;> rw [heq]
    · exact hp
    · exact place_injOn _ _

theorem Younger.ne (hy : Younger p w run) (hp : p ∈ w.conditions.waiting w.now) : p.1 ≠ run := by
  intro he
  subst he
  rcases hy with ⟨own, hown, hlt⟩ | ⟨hfree, _⟩
  · rw [← waiting_unique hp hown rfl] at hlt
    exact lt_irrefl _ hlt
  · exact hfree p.2 hp

theorem World.CanResume.decided (h : w.CanResume limits p) {identity : WorkflowIdentity}
    (hout : Outranks p w run) (hdec : Decided limits w.conditions c' w.now identity run)
    (hp : p ∈ c'.waiting w.now) (hsub : before place (c'.waiting w.now) p ⊆
      before place (w.conditions.waiting w.now) p) :
    World.CanResume limits { w with conditions := c' } p := by
  have hinj : Set.InjOn place (before place (w.conditions.waiting w.now) p) :=
    (place_injOn _ _).mono (filter_subset _ _)
  refine ⟨hp, ?_⟩
  rcases hdec with hsame | ⟨hgrant, hsame⟩
  · exact h.2.subset hinj hsub hsame
  have htaken := hgrant.take hout.injOn hout.mem (hout.before_eq ▸ h.2)
  rw [hout.before_eq] at htaken
  exact htaken.subset hinj hsub hsame

theorem before_subset_of_fewer {now' : Int} (h : Fewer c c') (hnow : now ≤ now') :
    before place (c'.waiting now') p ⊆ before place (c.waiting now) p :=
  filter_subset_filter _ (h.waiting hnow)

theorem Younger.place_lt (hs : w.conditions.Sound limits w.now) (hy : Younger p w run)
    (hrun : x.1 = run) (hsince : x.2.since = w.now ∨
      ∃ own, (w.conditions.pruneClaims w.now).claims.get? run = some own ∧
        x.2.since = own.since) : place p < place x := by
  rcases hy with ⟨own, hown, hlt⟩ | ⟨hfree, hnow⟩
  · have hlater : own.since ≤ x.2.since := by
      rcases hsince with hsince | ⟨own', hown', hsince⟩
      · rw [hsince]
        exact (hs run own (mem_waiting.mp hown).1).2.2
      · rw [get?_pruneClaims.mpr hown] at hown'
        rw [hsince, Option.some.inj hown']
    refine hlt.trans_le (place_le_place hrun.symm hlater)
  · have hsince : x.2.since = w.now :=
      hsince.resolve_right fun ⟨own, hown, _⟩ => hfree own (get?_pruneClaims.mp hown)
    exact Prod.Lex.toLex_lt_toLex.mpr (.inl (by rw [hsince]; exact hnow))

theorem before_subset_mark (hs : w.conditions.Sound limits w.now) (hy : Younger p w run)
    (identity : WorkflowIdentity) (cap : Int) :
    before place (((w.conditions.pruneClaims w.now).markContinuationWaiting run identity cap
        w.now).waiting w.now) p ⊆
      before place (w.conditions.waiting w.now) p := by
  intro x hx
  obtain ⟨hx, hlt⟩ := mem_before.mp hx
  rcases get?_markContinuationWaiting (mem_waiting.mp hx).1 with
    ⟨_, hold⟩ | ⟨hrun, _, _, hsince⟩
  · exact mem_before.mpr ⟨get?_pruneClaims.mp hold, hlt⟩
  · exact absurd hlt (lt_asymm (hy.place_lt hs hrun hsince))

/-- An operation that yields to the parent leaves it its slot. -/
theorem canResume_step (hs : w.conditions.Sound limits w.now) (h : w.CanResume limits p) {op : Op}
    (hy : Yields p w op) (hlive : (w.step limits op).now < p.2.until_) :
    (w.step limits op).CanResume limits p := by
  have hp := h.1
  obtain ⟨hget, _⟩ := mem_waiting.mp hp
  cases op with
  | admitWorkflow identity gates now bypass =>
    obtain ⟨hdec, hclaims⟩ :=
      admitProviderWorkflow_spec hs identity gates now bypass
    refine h.decided (outranks_start hs hp) hdec ?_ ?_
    · rcases hclaims with hclaims | hclaims
      · exact mem_waiting.mpr ⟨by rw [hclaims]; exact hget, hlive⟩
      · exact mem_waiting.mpr ⟨by rw [hclaims]; exact get?_pruneClaims.mpr hp, hlive⟩
    · rcases hclaims with hclaims | hclaims
      · exact before_subset_of_fewer (fewer_of_eq hclaims) le_rfl
      · exact before_subset_of_fewer (fewer_of_eq_prune hclaims) le_rfl
  | reserve identity =>
    obtain ⟨hdec, hclaims⟩ := reserveContinuation_spec hs identity
    refine h.decided (outranks_start hs hp) hdec ?_
      (before_subset_of_fewer (fewer_of_eq_prune hclaims) le_rfl)
    exact mem_waiting.mpr ⟨by rw [hclaims]; exact get?_pruneClaims.mpr hp, hlive⟩
  | resume run identity =>
    -- a younger parent, granted its slot or put behind the others
    have hne : p.1 ≠ run.id := Younger.ne hy hp
    rcases reserveParentContinuation_spec hs identity run.id with ⟨hfree, hres⟩ | ⟨_, _, hres⟩
    · have hfewer : Fewer w.conditions
          (((w.conditions.pruneClaims w.now).take identity).clearContinuationClaim run.id) := by
        intro run' claim hc
        exact fewer_of_eq_prune rfl run' claim (fewer_clear run.id run' claim hc)
      simp only [World.step, hres]
      refine h.decided (Younger.outranks hy hp) (.inr ⟨hfree, ⟨rfl, rfl, rfl⟩⟩) ?_
        (before_subset_of_fewer hfewer le_rfl)
      refine mem_waiting.mpr ⟨?_, hlive⟩
      unfold clearContinuationClaim
      rw [get?_del_of_ne _ hne]
      exact get?_pruneClaims.mpr hp
    · simp only [World.step, hres]
      have hdec : Decided limits w.conditions
          ((w.conditions.pruneClaims w.now).markContinuationWaiting run.id identity
            (maxConcurrentRuns (limits identity)) w.now) w.now identity run.id :=
        .inl ⟨rfl, rfl, rfl⟩
      refine h.decided (Younger.outranks hy hp) hdec ?_ (before_subset_mark hs hy identity _)
      refine mem_waiting.mpr ⟨?_, hlive⟩
      unfold markContinuationWaiting
      rw [get?_put_of_ne _ hne]
      exact get?_pruneClaims.mpr hp
  | release identity =>
    -- the same claims wait, with more room for them
    have hclaims : (w.conditions.releaseWorkflow identity).claims = w.conditions.claims := by
      unfold releaseWorkflow
      split <;> rfl
    have hwaiting : (w.conditions.releaseWorkflow identity).waiting w.now =
        w.conditions.waiting w.now := by
      unfold Conditions.waiting
      rw [hclaims]
    refine ⟨hwaiting ▸ hp, ?_⟩
    show (w.conditions.releaseWorkflow identity).Free limits (workflowOf p)
      (before place ((w.conditions.releaseWorkflow identity).waiting w.now) p)
    rw [hwaiting]
    exact h.2.release ((place_injOn _ _).mono (filter_subset _ _)) identity
  | clear run =>
    have hne : p.1 ≠ run.id := fun he => hy he.symm
    refine ⟨mem_waiting.mpr ⟨?_, hlive⟩, h.2.subset ((place_injOn _ _).mono (filter_subset _ _))
      (before_subset_of_fewer (fewer_clear run.id) le_rfl) ⟨rfl, rfl, rfl⟩⟩
    show (w.conditions.claims.del run.id).get? p.1 = some p.2
    rw [get?_del_of_ne _ hne]
    exact hget
  | advance d =>
    have hnow : w.now ≤ w.now + d := by omega
    exact ⟨mem_waiting.mpr ⟨hget, hlive⟩,
      h.2.subset ((place_injOn _ _).mono (filter_subset _ _))
        (before_subset_of_fewer (fewer_of_eq rfl) hnow) (SameSlots.refl _)⟩

/-! ## Every run -/

theorem now_le_step (w : World) (op : Op) : w.now ≤ (w.step limits op).now := by
  cases op with
  | advance d =>
    show w.now ≤ w.now + d
    omega
  | _ => exact le_rfl

theorem sound_run (hs : w.conditions.Sound limits w.now) (ops : List Op) :
    (w.run limits ops).conditions.Sound limits (w.run limits ops).now := by
  induction ops generalizing w with
  | nil => exact hs
  | cons op ops ih => exact ih (sound_step hs op)

/-- So does a run of them, while the claim lasts. -/
theorem canResume_run (hs : w.conditions.Sound limits w.now) (h : w.CanResume limits p)
    {ops : List Op} (hyields : Along (World.step limits) (Yields p) w ops)
    (hlive : (w.run limits ops).now < p.2.until_) : (w.run limits ops).CanResume limits p := by
  have hstep : ∀ w op, Yields p w op →
      (w.conditions.Sound limits w.now ∧ (w.now < p.2.until_ → w.CanResume limits p)) →
      (w.step limits op).conditions.Sound limits (w.step limits op).now ∧
        ((w.step limits op).now < p.2.until_ → (w.step limits op).CanResume limits p) := by
    rintro w op hy ⟨hs, h⟩
    refine ⟨sound_step hs op, fun hlive => ?_⟩
    exact canResume_step hs (h ((now_le_step w op).trans_lt hlive)) hy hlive
  exact (Along.inv hstep ⟨hs, fun _ => h⟩ hyields).2 hlive

/--
**Waiting parents are not overtaken.** After any operations on a tracker whose limits are fixed, a
parked parent has a live claim and its resume would be granted. Then it is still granted after new
starts, plain continuations, resumes of parents that began to wait later (granted or refused),
releases, ended claims of others and the passing of time, in any number and order, as long as the
claim is live.
-/
theorem parent_not_overtaken (limits : WorkflowIdentity → ReadinessConditions) (c : Conditions)
    (hstart : c.claims = ∅) (now : Int) (ops later : List Op) (run : RunID)
    (claim : ContinuationClaim)
    (hclaim : (World.run limits ⟨now, c⟩ ops).conditions.claims.get? run.id = some claim)
    (hlive : (World.run limits ⟨now, c⟩ ops).now < claim.until_)
    (hcan : ((World.run limits ⟨now, c⟩ ops).conditions.reserveParentContinuation
      (World.run limits ⟨now, c⟩ ops).now run.id claim.identity
      (limits claim.identity)).2 = .ok ())
    (hlater : Along (World.step limits) (Yields (run.id, claim)) (World.run limits ⟨now, c⟩ ops)
      later)
    (hstill : (World.run limits ⟨now, c⟩ (ops ++ later)).now < claim.until_) :
    ((World.run limits ⟨now, c⟩ (ops ++ later)).conditions.reserveParentContinuation
      (World.run limits ⟨now, c⟩ (ops ++ later)).now run.id claim.identity
      (limits claim.identity)).2 = .ok () := by
  have hempty : c.Sound limits now := by
    intro run claim hget
    rw [hstart] at hget
    cases hget
  have hsplit : World.run limits ⟨now, c⟩ (ops ++ later) =
      (World.run limits ⟨now, c⟩ ops).run limits later := by
    simp [World.run]
  rw [hsplit] at hstill ⊢
  have hs := sound_run (w := ⟨now, c⟩) hempty ops
  generalize World.run limits ⟨now, c⟩ ops = w at *
  have hp : (run.id, claim) ∈ w.conditions.waiting w.now := mem_waiting.mpr ⟨hclaim, hlive⟩
  have hend := canResume_run hs ((resume_ok_iff hs hp).mp hcan) hlater hstill
  exact (resume_ok_iff (sound_run hs later) hend.1).mpr hend

/-! ## Two parents -/

def parentRun : RunID := ⟨"parent", by decide⟩

def laterRun : RunID := ⟨"later", by decide⟩

def building : WorkflowIdentity := { gaggle := "g", workflow := "build" }

def reviewing : WorkflowIdentity := { gaggle := "g", workflow := "review" }

/-- Two slots, one run of each workflow. The first parent is refused while `building` is full, the
second a nanosecond later while `reviewing` is, and then the slot of `building` is released. -/
def parkedOps : List Op :=
  [.admitWorkflow building {} 0 false, .admitWorkflow reviewing {} 0 false,
   .resume parentRun building, .advance 1, .resume laterRun reviewing, .release building]

/-- A new start and a plain continuation are refused; the second parent is granted the slot that
`reviewing` gives back. -/
def laterOps : List Op :=
  [.admitWorkflow { workflow := "other" } {} 1 false, .reserve building, .release reviewing,
   .resume laterRun reviewing, .advance 5]

def parkedStart : World := ⟨0, { instanceMaxParallel := 2 }⟩

def parentClaim : ContinuationClaim :=
  { identity := building, maxConcurrent := 1, since := 0, until_ := continuationClaimTTL }

theorem parent_not_overtaken_parked :
    ((parkedStart.run (fun _ => {}) (parkedOps ++ laterOps)).conditions.activeOf reviewing = 1) ∧
      ((parkedStart.run (fun _ => {}) (parkedOps ++ laterOps)).conditions.reserveParentContinuation
        (parkedStart.run (fun _ => {}) (parkedOps ++ laterOps)).now parentRun.id building {}).2 =
          .ok () := by
  refine ⟨by decide, ?_⟩
  refine parent_not_overtaken (fun _ => {}) { instanceMaxParallel := 2 } rfl 0 parkedOps laterOps
    parentRun parentClaim (by decide) (by decide) (by decide) ?_
    (by decide)
  refine ⟨trivial, trivial, trivial, .inl ⟨?_, ?_, ?_⟩, trivial, trivial⟩
  · exact { identity := reviewing, maxConcurrent := 1, since := 1
            until_ := continuationClaimTTL + 1 }
  · exact mem_waiting.mpr (by decide)
  · exact Prod.Lex.toLex_lt_toLex.mpr (.inl (by decide))

end Goobers.Scheduler
