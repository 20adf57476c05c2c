import Goobers.Claims.Revocation

/-!
# Does a renewal need a lease?

A renewal is a claim by the run that holds the lease, on the path that any claim takes. The
path asks whether somebody else is in the way, not whether the caller was there before: on a
key that is free, or whose last lease of another run ran out, the renewal is a new grant. So a
holder that goes on renewing after its claim was released, reaped or reassigned has it back as
soon as nobody else does.

What the renewal should check is whether the key is held by the run. Where that is so, or the
claim path refuses for a reason of its own, a run without a lease stays without.
-/

namespace Goobers.Claims

open Lib
open SharedClaim (Owner Record)

def ClaimEntry.renewalKey (e : ClaimEntry) : Except LedgerError String :=
  if e.gaggle = "" ∨ e.provider = "" then .ok e.itemID
  else ({ gaggle := e.gaggle, provider := e.provider, externalID := e.externalID } :
    ClaimKey).storageKey

def Table.HeldBy (t : Table) (storageKey runID : String) : Prop :=
  ∃ e, t.entries.get? storageKey = some e ∧ e.runID = runID

instance (t : Table) (storageKey runID : String) : Decidable (t.HeldBy storageKey runID) :=
  inferInstanceAs (Decidable (∃ e ∈ t.entries.get? storageKey, e.runID = runID))

def ClaimEntry.Blocks (e : ClaimEntry) (now : Int) : Prop :=
  e.transitionPending = true ∨ e.expired now = false

instance (e : ClaimEntry) (now : Int) : Decidable (e.Blocks now) :=
  inferInstanceAs (Decidable (_ ∨ _))

/-- What a local claim by a run without an entry under the key needs to go through. -/
structure Claimable (t : Table) (now : Int) (storageKey legacyStorageKey runID : String) :
    Prop where
  /-- A scoped claim finds no item-only lease of its item. -/
  legacy : legacyStorageKey ≠ "" → ∀ e, t.entries.get? legacyStorageKey = some e → ¬ e.Blocks now
  free : ∀ e, t.entries.get? storageKey = some e → ¬ e.Blocks now
  unshared : ∀ e, t.entries.get? storageKey = some e → e.sharedDeadline = 0
  unrevoked : t.revokedOn runID storageKey = false

/-- The item-only key a renewal of the entry looks at besides its own. -/
def ClaimEntry.renewalLegacyKey (e : ClaimEntry) : String :=
  if e.gaggle = "" ∨ e.provider = "" then "" else e.externalID

def RenewalOpen (t : Table) (now : Int) (entry : ClaimEntry) (leaseDuration : Int) : Prop :=
  entry.isPublicationClaim = false ∧ 0 < leaseDuration ∧
    ∃ k, entry.renewalKey = .ok k ∧ Claimable t now k entry.renewalLegacyKey entry.runID

def RenewalHeld (t : Table) (entry : ClaimEntry) : Prop :=
  ∃ k, entry.renewalKey = .ok k ∧ t.HeldBy k entry.runID

/-! ## A claim on a key the run does not have -/

section
variable {t next undone : Table} {now : Int} {effect : Effect}

theorem filter_blocks_eq_none {o : Option ClaimEntry} :
    o.filter (fun e => e.transitionPending || !e.expired now) = none ↔
      ∀ e, o = some e → ¬ e.Blocks now := by
  cases o with
  | none => simp
  | some e => simp [ClaimEntry.Blocks]

/-- A run that does not hold the key gets it exactly when it is `Claimable`. -/
theorem claimAt_writes_iff {storageKey legacyStorageKey runID workflow : String} {key : ClaimKey}
    {leaseDuration : Int} (hheld : ¬ t.HeldBy storageKey runID) :
    (∃ next undone effect, claimAt t now storageKey legacyStorageKey key runID workflow
        leaseDuration 0 {} = .write next undone effect) ↔
      0 < leaseDuration ∧ Claimable t now storageKey legacyStorageKey runID := by
  -- without an entry of its own, the run meets every live entry as another's
  have hother : ∀ e, t.entries.get? storageKey = some e →
      ((e.transitionPending ||
        (!e.expired now && (e.runID ≠ runID || e.isPublicationClaim))) = false ↔
          ¬ e.Blocks now) := by
    intro e he
    have hrun : e.runID ≠ runID := fun heq => hheld ⟨e, he, heq⟩
    simp [ClaimEntry.Blocks, hrun]
  constructor
  · -- what is left after the refusals of `claimAt`, in its order, is `Claimable`
    rintro ⟨next, undone, effect, h⟩
    unfold claimAt at h
    split at h
    · cases h
    rename_i hlease
    dsimp only at h
    rw [if_pos rfl] at h
    split at h
    · cases h
    split at h
    · cases h
    rename_i hlegacy
    split at h
    · cases h
    rename_i hfree
    split at h
    · cases h
    rename_i hrevoked
    split at h
    · cases h
    rename_i hshared
    refine ⟨by simpa using hlease, ?_, ?_, ?_, by simpa using hrevoked⟩
    · intro hne e he
      rw [if_pos hne] at hlegacy
      exact filter_blocks_eq_none.mp hlegacy e he
    · intro e he
      exact (hother e he).mp (filter_eq_none hfree e he)
    · intro e he
      rw [he] at hshared
      simpa using hshared
  · rintro ⟨hlease, hok⟩
    have hlegacy : (if legacyStorageKey ≠ "" then t.entries.get? legacyStorageKey else none).filter
        (fun e => e.transitionPending || !e.expired now) = none := by
      split_ifs with hne
      · exact filter_blocks_eq_none.mpr (hok.legacy hne)
      · rfl
    have hfree : (t.entries.get? storageKey).filter (fun e => e.transitionPending ||
        (!e.expired now && (e.runID ≠ runID || e.isPublicationClaim))) = none := by
      cases he : t.entries.get? storageKey with
      | none => rfl
      | some e =>
        have hpass := (hother e he).mpr (hok.free e he)
        simp only [Option.filter, hpass]
        rfl
    -- an entry that does not block has expired, so its owner does not matter
    have hwas : ((t.entries.get? storageKey).getD {}).sharedDeadline = 0 ∧
        (((t.entries.get? storageKey).getD {}).sharedOwner = {} ∨
          ((t.entries.get? storageKey).getD {}).expired now = true) := by
      cases he : t.entries.get? storageKey with
      | none => exact ⟨rfl, .inl rfl⟩
      | some e =>
        refine ⟨hok.unshared e he, .inr ?_⟩
        have hnot := hok.free e he
        simpa using (not_or.mp hnot).2
    unfold claimAt
    rw [if_neg (by omega)]
    dsimp only
    rw [if_neg (by omega), hlegacy]
    rw [hfree]
    rw [hok.unrevoked, if_neg (by simp), if_neg (by simp [hwas.1]), if_neg]
    · exact ⟨_, _, _, rfl⟩
    · rintro ⟨howner, _, hlive⟩
      rcases hwas.2 with hempty | hexpired
      · exact howner hempty
      · rw [hexpired] at hlive
        cases hlive

/-- **A run without an entry under the key renews exactly where anyone may claim.** -/
theorem renewEntry_writes_iff {entry : ClaimEntry} {leaseDuration : Int}
    (hheld : ¬ RenewalHeld t entry) :
    (∃ next undone effect, renewEntry t now entry leaseDuration = .write next undone effect) ↔
      RenewalOpen t now entry leaseDuration := by
  unfold renewEntry RenewalOpen
  cases hpub : entry.isPublicationClaim with
  | true => simp
  | false =>
    rw [if_neg (by simp)]
    by_cases hitem : entry.gaggle = "" ∨ entry.provider = ""
    · have hkey : entry.renewalKey = .ok entry.itemID := if_pos hitem
      have hlegacy : entry.renewalLegacyKey = "" := if_pos hitem
      rw [if_pos hitem, hkey, hlegacy]
      unfold claim
      rw [claimAt_writes_iff (fun h => hheld ⟨_, hkey, h⟩)]
      simp
    · have hkey : entry.renewalKey =
          ({ gaggle := entry.gaggle, provider := entry.provider, externalID := entry.externalID } :
            ClaimKey).storageKey := if_neg hitem
      have hlegacy : entry.renewalLegacyKey = entry.externalID := if_neg hitem
      rw [if_neg hitem, hkey, hlegacy]
      unfold claimScoped
      cases hstored :
          ({ gaggle := entry.gaggle, provider := entry.provider, externalID := entry.externalID } :
            ClaimKey).storageKey with
      | error e => simp
      | ok k =>
        rw [claimAt_writes_iff (fun h => hheld ⟨k, hkey.trans hstored, h⟩)]
        simp

end

/-! ## Runs of renewals -/

def Effect.Hands (effect : Effect) (storageKey runID : String) : Prop :=
  effect.Gives storageKey runID ∨
    ∃ moves, effect = .migrated moves ∧ ∃ expiresAt, ⟨storageKey, runID, expiresAt⟩ ∈ moves

section
variable (encodedSize : String → Record → Nat) (K R : String)

def StepRenews (l : Ledger) (s : Step) : Prop :=
  match s.action with
  | .call (.renewEntry entry leaseDuration) =>
    entry.renewalKey = .ok K → entry.runID = R → ∀ t, l.handle = some t →
      RenewalHeld t entry ∨ ¬ RenewalOpen t s.now entry leaseDuration
  | _ => ∀ effect, (l.step encodedSize s).2.wrote = some effect → ¬ effect.Hands K R

def RunRenews : Ledger → List Step → Prop
  | _, [] => True
  | l, s :: steps => StepRenews encodedSize K R l s ∧ RunRenews (l.step encodedSize s).1 steps

end

section
variable {encodedSize : String → Record → Nat} {K R : String} {l : Ledger} {s : Step}
  {t next undone : Table} {now : Int} {effect : Effect} {c : Call}

theorem Change.given {key : String} {e record : ClaimEntry}
    (h : Change encodedSize c t now key (some e) record effect) (hheld : ¬ t.HeldBy key e.runID) :
    effect.Gives key e.runID := by
  cases h with
  | grant | finish => exact .inl (granted_one_grants.mpr ⟨rfl, rfl⟩)
  | reserveNew => exact .inr rfl
  | reserve held _ _ change | verify held change => exact absurd ⟨_, held, by rw [change]⟩ hheld
  | revoke _ _ held _ change =>
    refine absurd ⟨_, held, ?_⟩ hheld
    rw [change]
    split <;> rfl

theorem Changes.given (h : Changes encodedSize c t now next undone effect) (hheld : ¬ t.HeldBy K R)
    (hnext : next.HeldBy K R) : effect.Gives K R := by
  obtain ⟨e, he, hrun⟩ := hnext
  cases h with
  | @one key undoRun entry record _ update undo =>
    rw [Table.recordHistory_entries, Table.get?_setEntry] at he
    split_ifs at he with hk
    · subst hk he hrun
      exact update.given hheld
    · exact absurd ⟨e, he, hrun⟩ hheld
  | give =>
    rcases get?_giveAll_cases he with hold | ⟨p, hp, hkey, hentry⟩
    · exact absurd ⟨e, hold, hrun⟩ hheld
    refine .inl ⟨_, rfl, e.expiresAt, List.mem_map.mpr ⟨p, hp, ?_⟩⟩
    rw [hentry, hkey, ← hrun]
    rfl
  | drop => exact absurd ⟨e, get?_dropAll_some he, hrun⟩ hheld

/-- A run that holds the key now and did not before was handed it by this call. -/
theorem attempt_hands (h : c.attempt encodedSize t now = .write next undone effect)
    (hheld : ¬ t.HeldBy K R) (hnext : next.HeldBy K R) : effect.Hands K R := by
  rcases attempt_cases h with hchanges | ⟨_, ms, _, _, hms, _, heffect⟩
  · exact .inl (hchanges.given hheld hnext)
  subst hms heffect
  obtain ⟨e, he, hrun⟩ := hnext
  rcases get?_moveAll_cases he with hold | ⟨m, hm, hkey, hentry⟩
  · exact absurd ⟨e, hold, hrun⟩ hheld
  refine .inr ⟨_, rfl, e.expiresAt, List.mem_map.mpr ⟨m, hm, ?_⟩⟩
  rw [hentry, hkey, ← hrun]
  rfl

theorem attempt_undone_entries (h : c.attempt encodedSize t now = .write next undone effect)
    (k : String) :
    undone.entries.get? k = t.entries.get? k := by
  rcases attempt_cases h with hchanges | ⟨_, _, _, _, _, hundone, _⟩
  · exact hchanges.undone_entries k
  · rw [hundone]

theorem claimAt_effect {storageKey legacyStorageKey runID workflow : String} {key : ClaimKey}
    {leaseDuration deadline : Int} {owner : Owner}
    (h : claimAt t now storageKey legacyStorageKey key runID workflow leaseDuration deadline owner
      = .write next undone effect) :
    ∃ e : ClaimEntry, e.runID = runID ∧ effect = .granted [grantOf storageKey e] := by
  unfold claimAt at h
  split at h
  · cases h
  dsimp only at h
  generalize (if deadline = 0 then now + leaseDuration else deadline) = expires at h
  repeat'
    split at h
    · cases h
  obtain ⟨claimedAt, renewedAt, verification, heq⟩ := continueLease_eq
    (t.entries.get? storageKey)
    { itemID := key.externalID, gaggle := key.gaggle, provider := key.provider,
      externalID := key.externalID, runID := runID, workflow := workflow,
      claimedAt := now, expiresAt := expires, sharedDeadline := deadline,
      sharedOwner := owner } now
  rw [heq] at h
  injection h with _ _ h
  exact ⟨_, rfl, h.symm⟩

section
variable {entry : ClaimEntry} {leaseDuration : Int}
  (h : renewEntry t now entry leaseDuration = .write next undone effect)
include h

theorem renewEntry_effect :
    ∃ k e, entry.renewalKey = .ok k ∧ e.runID = entry.runID ∧ effect = .granted [grantOf k e] := by
  unfold renewEntry at h
  split at h
  · cases h
  split_ifs at h with hitem
  · obtain ⟨e, hrun, heffect⟩ := claimAt_effect h
    exact ⟨_, e, if_pos hitem, hrun, heffect⟩
  · unfold claimScoped at h
    split at h
    · cases h
    rename_i k hkey
    obtain ⟨e, hrun, heffect⟩ := claimAt_effect h
    exact ⟨k, e, (if_neg hitem).trans hkey, hrun, heffect⟩

theorem renewEntry_hands (hhands : effect.Hands K R) :
    entry.renewalKey = .ok K ∧ entry.runID = R := by
  obtain ⟨k, e, hkey, hrun, heffect⟩ := renewEntry_effect h
  subst heffect
  rcases hhands with (hgrants | hreserved) | ⟨_, hmigrated, _⟩
  · obtain ⟨hk, hr⟩ := granted_one_grants.mp hgrants
    exact ⟨hk ▸ hkey, hrun.symm.trans hr⟩
  · cases hreserved
  · cases hmigrated

end

/-- A step that renews only what is held, or hands nothing to `R`, leaves the key unheld by `R`. -/
theorem step_unheld (h : l.All (fun t => ¬ t.HeldBy K R)) (hs : StepRenews encodedSize K R l s) :
    (l.step encodedSize s).1.All (fun t => ¬ t.HeldBy K R) := by
  refine step_all h (fun _ ht => ht) ?_ ?_
  · rintro t hload hfile ⟨e, he, hrun⟩
    rw [load_entries hload, Option.map_eq_some_iff] at he
    obtain ⟨old, hold, heq⟩ := he
    refine hfile ⟨old, by rw [← l.file.entries_eq, hold], ?_⟩
    rw [← hrun, ← heq]
    rfl
  · intro c t next undone effect hc ht hheld hattempt hcommit
    refine ⟨fun hio hnext => ?_, fun hundone => hheld ?_⟩
    · have hhands : effect.Hands K R := attempt_hands hattempt hheld hnext
      have hwrote : (l.step encodedSize s).2.wrote = some effect := by
        rw [hcommit]
        exact commit_wrote hio
      unfold StepRenews at hs
      rw [hc] at hs
      cases c with
      | renewEntry entry leaseDuration =>
        obtain ⟨hkey, hrun⟩ := renewEntry_hands hattempt hhands
        -- the run is without an entry, so the renewal went through as a new claim
        have hnot : ¬ RenewalHeld t entry := by
          rintro ⟨k, hk, hh⟩
          rw [hkey] at hk
          injection hk with hk
          exact hheld (hk ▸ hrun ▸ hh)
        rcases hs hkey hrun t ht with hh | hclosed
        · exact hnot hh
        · exact hclosed ((renewEntry_writes_iff hnot).mp ⟨next, undone, effect, hattempt⟩)
      | _ => exact hs effect hwrote hhands
    · obtain ⟨e, he, hrun⟩ := hundone
      rw [attempt_undone_entries hattempt] at he
      exact ⟨e, he, hrun⟩

theorem run_unheld {steps : List Step} (h : l.All (fun t => ¬ t.HeldBy K R))
    (hs : RunRenews encodedSize K R l steps) :
    (l.run encodedSize steps).All (fun t => ¬ t.HeldBy K R) := by
  induction steps generalizing l with
  | nil => exact h
  | cons s steps ih => exact ih (step_unheld h hs.1) hs.2

end

/-- The step reports a renewal that went through. -/
def Renewed (encodedSize : String → Record → Nat) (l : Ledger) (s : Step) : Prop :=
  ∃ effect, (l.step encodedSize s).2.told = .ok (.effect effect)

/--
A renewal that is reported to have gone through found its own run under the key, exactly if it
did or the key was not there for any run to take. And in a run that hands the key to a run at
renewals only, all of them like that, a run that is without the key stays without it.
-/
theorem renewal_needs_lease (encodedSize : String → Record → Nat) (l : Ledger) :
    (∀ t entry leaseDuration now clock, l.handle = some t →
      ((Renewed encodedSize l ⟨.call (.renewEntry entry leaseDuration), now, .ok, clock⟩ →
          RenewalHeld t entry) ↔
        (RenewalHeld t entry ∨ ¬ RenewalOpen t now entry leaseDuration))) ∧
    ∀ K R steps, l.All (fun t => ¬ t.HeldBy K R) → RunRenews encodedSize K R l steps →
      (l.run encodedSize steps).All (fun t => ¬ t.HeldBy K R) := by
  refine ⟨fun t entry leaseDuration now clock ht => ?_, fun K R steps => run_unheld⟩
  have hrenewed : Renewed encodedSize l ⟨.call (.renewEntry entry leaseDuration), now, .ok, clock⟩ ↔
      ∃ next undone effect, renewEntry t now entry leaseDuration = .write next undone effect := by
    unfold Renewed Ledger.step
    simp only [ht, Call.attempt]
    cases ha : renewEntry t now entry leaseDuration with
    | done answer =>
      cases answer <;> simp [Attempt.commit, Except.map]
    | write next undone effect => simp [Attempt.commit]
  rw [hrenewed]
  by_cases hheld : RenewalHeld t entry
  · simp [hheld]
  · rw [renewEntry_writes_iff hheld]
    simp [hheld]

/-! ## A released and a reassigned claim -/

def releasedRun : List Step :=
  [⟨.openLedger, 1, .ok, 1⟩,
   ⟨.call (.claim "42" "run-a" "work" 100), 10, .ok, 10⟩,
   ⟨.call (.release "42" "run-a" "finished"), 20, .ok, 20⟩]

/-- The old holder renews all the same. -/
def lateRenewal (now : Int) : Step :=
  ⟨.call (.renewEntry { itemID := "42", runID := "run-a", workflow := "work" } 100), now, .ok, now⟩

theorem released_renewed :
    let l := ({} : Ledger).run (fun _ _ => 0) releasedRun
    l.All (fun t => ¬ t.HeldBy "42" "run-a") ∧
      (l.step (fun _ _ => 0) (lateRenewal 30)).2.told.toOption =
        some (.effect (.granted [⟨"42", "run-a", 130⟩])) ∧
      (l.step (fun _ _ => 0) (lateRenewal 30)).1.All (fun t => t.HeldBy "42" "run-a") := by
  decide

def reassignedRun : List Step :=
  releasedRun ++ [⟨.call (.claim "42" "run-b" "work" 100), 25, .ok, 25⟩]

/-- While the other run's lease is live, the old holder may renew as often as it likes. -/
theorem reassigned_not_renewed :
    ((({} : Ledger).run (fun _ _ => 0) reassignedRun).run (fun _ _ => 0)
      [lateRenewal 30, lateRenewal 40]).All (fun t => ¬ t.HeldBy "42" "run-a") := by
  refine (renewal_needs_lease (fun _ _ => 0) _).2 "42" "run-a" _ (by decide) ?_
  -- both renewals meet the other run's entry
  refine ⟨fun _ _ t ht => .inr ?_, fun _ _ t ht => .inr ?_, trivial⟩
  · rintro ⟨_, _, k, hk, hok⟩
    injection hk with hk
    subst hk
    have hblocked : ∀ u ∈ (({} : Ledger).run (fun _ _ => 0) reassignedRun).handle,
        ∃ e ∈ u.entries.get? "42", e.Blocks 30 := by decide
    obtain ⟨e, he, hblocks⟩ := hblocked t ht
    exact hok.free e he hblocks
  · rintro ⟨_, _, k, hk, hok⟩
    injection hk with hk
    subst hk
    have hblocked : ∀ u ∈ (({} : Ledger).run (fun _ _ => 0)
        (reassignedRun ++ [lateRenewal 30])).handle,
        ∃ e ∈ u.entries.get? "42", e.Blocks 40 := by decide
    obtain ⟨e, he, hblocks⟩ := hblocked t ht
    exact hok.free e he hblocks

end Goobers.Claims
