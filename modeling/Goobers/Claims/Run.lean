import Goobers.Claims.Ops

/-!
# Runs of the ledger

A ledger is its file and, while it is open, the maps in memory. A call on the
open ledger ends in one rewrite of the file at most. The rewrite stages a
temporary file, renames it over the old one and syncs the directory; it can fail
before the rename, with the file as it was, or after it, with the new file in
place and the change undone in memory all the same.

A `Report` keeps apart what the caller is told and what reached the file.
-/

namespace Goobers.Claims

open Lib
open SharedClaim (Owner Record)

/-- The ledger's methods, with their arguments. -/
inductive Call where
  | claim (itemID runID workflow : String) (leaseDuration : Int)
  | claimScoped (key : ClaimKey) (runID workflow : String) (leaseDuration : Int)
  | claimScopedUntil (key : ClaimKey) (runID workflow : String) (deadline : Int) (owner : Owner)
  | reclaimAll (entries : List ClaimEntry) (runID workflow : String) (leaseDuration : Int)
  | renewEntry (entry : ClaimEntry) (leaseDuration : Int)
  | release (itemID runID reasonCode : String)
  | releaseScoped (key : ClaimKey) (runID reasonCode : String)
  | releaseSharedScoped (key : ClaimKey) (owner : Owner) (reasonCode : String)
  | releaseEntry (entry : ClaimEntry) (runID reasonCode : String)
  | forceRelease (itemID : String)
  | forceReleaseEntry (entry : ClaimEntry) (actor : String)
  | forceReleasePublicationEntry (entry : ClaimEntry) (actor reason : String) (audit : Audit)
  | forceReleaseShared (key : ClaimKey) (owner : Owner) (actor : String)
  | recoverExpired
  | beginSharedAdmission (key : ClaimKey) (owner : Owner) (workflow : String)
  | finishSharedAdmission (expected : ClaimEntry) (deadline : Int)
  | beginProviderRelease (expected : ClaimEntry)
  | beginSharedRelease (expected : ClaimEntry) (expiredAt : Int)
  | finishProviderRelease (expected : ClaimEntry)
  | revokeSharedExecution (key : ClaimKey) (owner : Owner) (actor : String)
  | recordClaimVerification (expected : ClaimEntry) (observation : ClaimVerification)
  | migrateLegacyClaims (resolve : ClaimEntry → Resolved)

def Call.isMigration : Call → Bool
  | .migrateLegacyClaims _ => true
  | _ => false

def Call.attempt (encodedSize : String → Record → Nat) (t : Table) (now : Int) : Call → Attempt
  | .claim itemID runID workflow lease => Claims.claim t now itemID runID workflow lease
  | .claimScoped key runID workflow lease => Claims.claimScoped t now key runID workflow lease
  | .claimScopedUntil key runID workflow deadline owner =>
    Claims.claimScopedUntil encodedSize t now key runID workflow deadline owner
  | .reclaimAll entries runID workflow lease => Claims.reclaimAll t now entries runID workflow lease
  | .renewEntry entry lease => Claims.renewEntry t now entry lease
  | .release itemID runID code => Claims.release t now itemID runID code
  | .releaseScoped key runID code => Claims.releaseScoped t now key runID code
  | .releaseSharedScoped key owner code => Claims.releaseSharedScoped t now key owner code
  | .releaseEntry entry runID code => Claims.releaseEntry t now entry runID code
  | .forceRelease itemID => Claims.forceRelease t now itemID
  | .forceReleaseEntry entry actor => Claims.forceReleaseEntry t now entry actor
  | .forceReleasePublicationEntry entry actor reason audit =>
    Claims.forceReleasePublicationEntry t now entry actor reason audit
  | .forceReleaseShared key owner actor => Claims.forceReleaseShared t now key owner actor
  | .recoverExpired => Claims.recoverExpired t now
  | .beginSharedAdmission key owner workflow =>
    Claims.beginSharedAdmission encodedSize t now key owner workflow
  | .finishSharedAdmission expected deadline => Claims.finishSharedAdmission t now expected deadline
  | .beginProviderRelease expected => Claims.beginProviderRelease t expected
  | .beginSharedRelease expected expiredAt => Claims.beginSharedRelease t expected expiredAt
  | .finishProviderRelease expected => Claims.finishProviderRelease t now expected
  | .revokeSharedExecution key owner actor => Claims.revokeSharedExecution t now key owner actor
  | .recordClaimVerification expected observation =>
    Claims.recordClaimVerification t now expected observation
  | .migrateLegacyClaims resolve => Claims.migrateLegacyClaims t resolve

inductive Action where
  | openLedger
  | closeLedger
  | call (c : Call)

def Action.isMigration : Action → Bool
  | .call c => c.isMigration
  | _ => false

/-- How the rewrite of the file goes. -/
inductive Persist where
  | ok
  /-- It fails and the old file stays. -/
  | unchanged
  /-- It fails after the rename: the new file is in place. -/
  | renamed
  deriving DecidableEq, Repr

/-- An action with its instant, what the file system does, and the clock that prunes. -/
structure Step where
  action : Action
  now : Int
  io : Persist := .ok
  /-- The clock as the rewrite reads it, for the age of history. -/
  clock : Int := now

/-- What a caller can be told other than an error. -/
inductive Told where
  | opened
  | closed
  | answer (answer : Answer)
  | effect (effect : Effect)
  deriving DecidableEq, Repr

/-- What the caller is told, and what reached the file. -/
structure Report where
  told : Except LedgerError Told
  /-- What reached the file. -/
  wrote : Option Effect := none

/-- The file, and the table of the process that has it open. -/
structure Ledger where
  file : ClaimsFile := .absent
  handle : Option Table := none
  deriving DecidableEq

/-- `persist`, and the undo if it fails. -/
def Attempt.commit (l : Ledger) (io : Persist) (clock : Int) : Attempt → Ledger × Report
  | .done answer => (l, { told := answer.map Told.answer })
  | .write next undone effect =>
    let stored := next.retained clock
    let file := ClaimsFile.state claimLedgerSchema stored
    match io with
    | .ok => (⟨file, some stored⟩, { told := .ok (.effect effect), wrote := some effect })
    | .unchanged => ({ l with handle := some undone }, { told := .error .persist })
    | .renamed => (⟨file, some undone⟩, { told := .error .persist, wrote := some effect })

section
variable (encodedSize : String → Record → Nat)

def Ledger.step (l : Ledger) (s : Step) : Ledger × Report :=
  match s.action with
  | .openLedger =>
    match load encodedSize l.file s.now with
    | .error e => ({ l with handle := none }, { told := .error e })
    | .ok t => ({ l with handle := some t }, { told := .ok .opened })
  | .closeLedger => ({ l with handle := none }, { told := .ok .closed })
  | .call c =>
    match l.handle with
    | none => (l, { told := .error .closed })
    | some t => (c.attempt encodedSize t s.now).commit l s.io s.clock

def Ledger.run : Ledger → List Step → Ledger
  | l, [] => l
  | l, s :: steps => (l.step encodedSize s).1.run steps

def Ledger.reports : Ledger → List Step → List Report
  | _, [] => []
  | l, s :: steps => (l.step encodedSize s).2 :: (l.step encodedSize s).1.reports steps

theorem Ledger.run_append (l : Ledger) (steps rest : List Step) :
    l.run encodedSize (steps ++ rest) = (l.run encodedSize steps).run encodedSize rest := by
  induction steps generalizing l with
  | nil => rfl
  | cons s steps ih => exact ih _

end

section
variable {encodedSize : String → Record → Nat} {l : Ledger} {s : Step}

/-- Everything a step can do; every invariant of the ledger is proved through it. -/
@[elab_as_elim]
theorem step_elim {motive : Ledger × Report → Prop} (encodedSize : String → Record → Nat)
    (l : Ledger) (s : Step)
    (opened : ∀ t, load encodedSize l.file s.now = .ok t →
      motive ({ l with handle := some t }, { told := .ok .opened }))
    (shut : ∀ told, (told = .ok .closed ∨ ∃ e, told = .error e) →
      motive ({ l with handle := none }, { told := told }))
    (kept : ∀ told, ((∃ e, told = .error e) ∨ ∃ c t answer, s.action = .call c ∧
      l.handle = some t ∧ c.attempt encodedSize t s.now = .done (.ok answer) ∧
      told = .ok (.answer answer)) → motive (l, { told := told }))
    (written : ∀ c t next undone effect, s.action = .call c → l.handle = some t →
      c.attempt encodedSize t s.now = .write next undone effect →
      l.step encodedSize s = (Attempt.write next undone effect).commit l s.io s.clock →
      motive ((Attempt.write next undone effect).commit l s.io s.clock)) :
    motive (l.step encodedSize s) := by
  unfold Ledger.step at written ⊢
  cases hs : s.action with
  | openLedger =>
    cases hload : load encodedSize l.file s.now with
    | error e => exact shut _ (Or.inr ⟨e, rfl⟩)
    | ok t => exact opened t hload
  | closeLedger => exact shut _ (Or.inl rfl)
  | call c =>
    cases hh : l.handle with
    | none => exact kept _ (Or.inl ⟨_, rfl⟩)
    | some t =>
      dsimp only
      cases ha : c.attempt encodedSize t s.now with
      | done answer =>
        cases answer with
        | error e => exact kept _ (Or.inl ⟨e, rfl⟩)
        | ok answer => exact kept _ (Or.inr ⟨c, t, answer, hs, hh, ha, rfl⟩)
      | write next undone effect =>
        refine written c t next undone effect hs hh ha ?_
        rw [hs, hh]
        dsimp only
        rw [ha]

theorem commit_wrote {io : Persist} (hio : io ≠ .unchanged) {next undone : Table} {effect : Effect}
    {clock : Int} :
    ((Attempt.write next undone effect).commit l io clock).2.wrote = some effect := by
  cases io with
  | ok | renamed => rfl
  | unchanged => exact absurd rfl hio

theorem step_wrote {effect : Effect} (h : (l.step encodedSize s).2.wrote = some effect) :
    ∃ c t next undone, s.action = .call c ∧ l.handle = some t ∧
      c.attempt encodedSize t s.now = .write next undone effect := by
  revert h
  refine step_elim encodedSize l s (fun _ _ => nofun) (fun _ _ => nofun) (fun _ _ => nofun) ?_
  intro c t next undone effect' hs ht hattempt _ h
  have heq : effect' = effect := by
    by_cases hio : s.io = .unchanged
    · rw [hio] at h
      cases h
    · rw [commit_wrote hio] at h
      injection h
  exact ⟨c, t, next, undone, hs, ht, heq ▸ hattempt⟩

/-! ## Invariants of the maps -/

/-- The file's maps and, while it is open, the maps in memory. -/
def Ledger.All (P : Table → Prop) (l : Ledger) : Prop :=
  P l.file.table ∧ ∀ t, l.handle = some t → P t

instance (P : Table → Prop) [DecidablePred P] (l : Ledger) : Decidable (l.All P) :=
  inferInstanceAs (Decidable (P l.file.table ∧ ∀ t ∈ l.handle, P t))

theorem all_empty {P : Table → Prop} (h : P {}) : ({} : Ledger).All P :=
  ⟨h, fun t ht => by cases ht⟩

/--
**One step keeps an invariant of the maps**, or brings it from `P` to a weaker `Q`, if reading
the file, a write and the undo of a write do.
-/
theorem step_all {P Q : Table → Prop} (h : l.All P) (hle : ∀ t, P t → Q t)
    (hload : ∀ t, load encodedSize l.file s.now = .ok t → P l.file.table → Q t)
    (hwrite : ∀ c t next undone effect, s.action = .call c → l.handle = some t → P t →
      c.attempt encodedSize t s.now = .write next undone effect →
      l.step encodedSize s = (Attempt.write next undone effect).commit l s.io s.clock →
      (s.io ≠ .unchanged → Q (next.retained s.clock)) ∧ Q undone) :
    (l.step encodedSize s).1.All Q := by
  refine step_elim encodedSize l s ?opened ?shut ?kept ?written
  case opened =>
    refine fun t ht => ⟨hle _ h.1, fun u hu => ?_⟩
    injection hu with hu
    exact hu ▸ hload t ht h.1
  case shut => exact fun _ _ => ⟨hle _ h.1, fun t ht => by cases ht⟩
  case kept => exact fun _ _ => ⟨hle _ h.1, fun t ht => hle t (h.2 t ht)⟩
  case written =>
    intro c t next undone effect hs ht hattempt heq
    obtain ⟨hnext, hundone⟩ := hwrite c t next undone effect hs ht (h.2 t ht) hattempt heq
    -- the file takes the new maps unless the rewrite fails before the rename
    cases hio : s.io with
    | ok =>
      have hnext := hnext (by rw [hio]; simp)
      refine ⟨hnext, fun u hu => ?_⟩
      injection hu with hu
      exact hu ▸ hnext
    | unchanged =>
      refine ⟨hle _ h.1, fun u hu => ?_⟩
      injection hu with hu
      exact hu ▸ hundone
    | renamed =>
      refine ⟨hnext (by rw [hio]; simp), fun u hu => ?_⟩
      injection hu with hu
      exact hu ▸ hundone

end

/-! ## What a call can write -/

/-- What every grant of an entry outside the shared admission has checked and set. -/
structure GrantOk (t : Table) (now : Int) (key : String) (e : ClaimEntry) : Prop where
  /-- Nobody else's live lease, and no custody. -/
  free : ∀ old, t.entries.get? key = some old →
    old.transitionPending = false ∧ (old.expired now = true ∨ old.runID = e.runID)
  unrevoked : t.revokedOn e.runID key = false
  idle : e.transitionPending = false
  clean : e.sharedRevoked = false
  deadline : e.sharedDeadline ≠ 0 → e.expiresAt = e.sharedDeadline
  owner : e.sharedOwner ≠ {} → e.sharedOwner.run = e.runID
  named : e.sharedDeadline ≠ 0 ∨ e.sharedOwner ≠ {} → e.gaggle ≠ ""

/-- What a new reservation for remote admission has checked and set. -/
structure ReserveOk (t : Table) (now : Int) (key : String) (e : ClaimEntry) : Prop where
  free : ∀ old, t.entries.get? key = some old → old.transitionPending = false ∧
    (old.expired now = true ∨ old.runID = e.runID)
  unrevoked : t.revokedOn e.runID key = false
  pending : e.sharedAdmissionPending = true
  clean : e.sharedRevoked = false
  deadline : e.expiresAt = e.sharedDeadline
  owner : e.sharedOwner.run = e.runID
  named : e.gaggle ≠ ""

end Goobers.Claims
