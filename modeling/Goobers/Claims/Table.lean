import Goobers.Claims.Entry

/-!
# The ledger's two maps

Active ownership by storage key, and the claims every run was assigned by run and
storage key. Both go to the file in one rewrite. History of a run without active
entries is forgotten after a while, except that a revocation is kept for good.

A failed write is undone in memory entry by entry. The undo gives back the same
maps up to what a lookup can see, which is `Table.Same`.
-/

namespace Goobers.Claims

open Lib GoMap
open SharedClaim (Record)

abbrev Entries := GoMap String ClaimEntry

abbrev History := GoMap String Entries

/-- The ledger in memory: the leases, and the records of ended ones by run. -/
structure Table where
  entries : Entries := ∅
  history : History := ∅
  deriving DecidableEq

def claimHistoryTTL : Int := 30 * 24 * 3600 * 1000000000

namespace Table

def historyEntry (t : Table) (runID storageKey : String) : Option ClaimEntry :=
  (t.history.get? runID).bind (fun h => h.get? storageKey)

def recordHistory (t : Table) (storageKey : String) (entry : ClaimEntry) : Table :=
  let ofRun : Entries := (t.history.get? entry.runID).getD ∅
  { t with history := t.history.put entry.runID (ofRun.put storageKey entry) }

def recordReleasedHistory (t : Table) (storageKey : String) (entry : ClaimEntry)
    (releasedAt : Int) : Table :=
  t.recordHistory storageKey { entry with releasedAt := some releasedAt }

/-- Put back what `recordHistory` replaced. -/
def restoreHistory (t : Table) (runID storageKey : String) (previous : Option ClaimEntry) : Table :=
  let ofRun : Entries := (t.history.get? runID).getD ∅
  match previous with
  | some entry => { t with history := t.history.put runID (ofRun.put storageKey entry) }
  | none =>
    let rest := ofRun.del storageKey
    if rest.rows = [] then { t with history := t.history.del runID }
    else { t with history := t.history.put runID rest }

def setEntry (t : Table) (storageKey : String) (entry : Option ClaimEntry) : Table :=
  match entry with
  | some e => { t with entries := t.entries.put storageKey e }
  | none => { t with entries := t.entries.del storageKey }

/-- The latest activity among a run's retained claims. -/
def newestActivity (ofRun : Entries) : Int :=
  ofRun.rows.foldl (fun newest r =>
    let activity := r.2.releasedAt.getD r.2.lastGrantedAt
    if newest < activity then activity else newest) 0

/-- What is kept of one run's history. -/
def retainRun (active : Bool) (cutoff : Int) (ofRun : Entries) : Option Entries :=
  if active ∨ cutoff < newestActivity ofRun then some ofRun
  else
    let revoked := ofRun.sift (fun _ e => if e.sharedRevoked then some e else none)
    if revoked.rows = [] then none else some revoked

def retainedHistory (t : Table) (now : Int) : History :=
  t.history.sift (fun runID ofRun =>
    retainRun (t.entries.rows.any (fun r => r.2.runID = runID)) (now - claimHistoryTTL) ofRun)

def retained (t : Table) (now : Int) : Table := { t with history := t.retainedHistory now }

/-! ## Reading it back -/

section
variable (encodedSize : String → Record → Nat)

def validateSharedClaims (t : Table) : Bool :=
  t.entries.rows.all (fun r => validateSharedClaimEntry encodedSize r.1 r.2) &&
    t.history.rows.all (fun h => h.2.rows.all (fun r =>
      validateSharedClaimEntry encodedSize r.1 r.2 && (r.2.sharedOwner = {} || r.2.runID = h.1)))

end

/-- Entries of older versions name their item by the key alone. -/
def fillItem (storageKey : String) (e : ClaimEntry) : ClaimEntry :=
  let itemID := if e.itemID = "" then storageKey else e.itemID
  { e with itemID := itemID, externalID := if e.externalID = "" then itemID else e.externalID }

def fillItems (t : Table) : Table :=
  { t with entries := t.entries.sift (fun k e => some (fillItem k e)) }

end Table

def claimLedgerSchema : String := "goobers.dev/scheduler/claims/v1"

/-- The ledger's file: absent or empty, unreadable, the item-only format, or a state. -/
inductive ClaimsFile where
  | absent
  | garbage
  | legacy (entries : Entries)
  | state (schema : String) (table : Table)
  deriving DecidableEq

/-- `OpenClaimLedger`: decode, fill in, validate, then forget old history. -/
def load (encodedSize : String → Record → Nat) (file : ClaimsFile) (now : Int) :
    Except LedgerError Table :=
  let decoded : Except LedgerError Table :=
    match file with
    | .absent => .ok {}
    | .garbage => .error .ledgerText
    | .legacy entries => .ok { entries := entries }
    | .state schema table =>
      if schema ≠ claimLedgerSchema then .error .ledgerSchema else .ok table
  match decoded with
  | .error e => .error e
  | .ok t =>
    let filled := t.fillItems
    if filled.validateSharedClaims encodedSize then .ok (filled.retained now)
    else .error .ledgerShared

/-- The maps a file holds. -/
def ClaimsFile.table : ClaimsFile → Table
  | .absent | .garbage => {}
  | .legacy entries => { entries := entries }
  | .state _ table => table

/-- What a load makes of a file it accepts: item fields filled in, old history dropped. -/
theorem load_ok {encodedSize : String → Record → Nat} {file : ClaimsFile} {now : Int} {t : Table}
    (h : load encodedSize file now = .ok t) :
    t = file.table.fillItems.retained now ∧
      file.table.fillItems.validateSharedClaims encodedSize = true := by
  unfold load at h
  dsimp only at h
  split at h
  · cases h
  rename_i decoded hdecoded
  have htable : decoded = file.table := by
    cases file with
    | absent | legacy entries => injection hdecoded with hdecoded; exact hdecoded.symm
    | garbage => cases hdecoded
    | state schema table =>
      dsimp only at hdecoded
      split at hdecoded
      · cases hdecoded
      · injection hdecoded with hdecoded
        exact hdecoded.symm
  rw [htable] at h
  split at h
  · rename_i hvalid
    injection h with h
    exact ⟨h.symm, hvalid⟩
  · cases h

theorem load_eq {encodedSize : String → Record → Nat} {file : ClaimsFile} {now : Int} {t : Table}
    (h : load encodedSize file now = .ok t) : t = file.table.fillItems.retained now :=
  (load_ok h).1

namespace Table

/-! ## What a lookup sees -/

/-- The two tables answer every lookup alike. -/
structure Same (t u : Table) : Prop where
  entries : ∀ k, t.entries.get? k = u.entries.get? k
  history : ∀ r k, t.historyEntry r k = u.historyEntry r k

@[simp] theorem recordHistory_entries (t : Table) (k : String) (e : ClaimEntry) :
    (t.recordHistory k e).entries = t.entries := rfl

@[simp] theorem recordReleasedHistory_entries (t : Table) (k : String) (e : ClaimEntry)
    (at_ : Int) :
    (t.recordReleasedHistory k e at_).entries = t.entries := rfl

@[simp] theorem retained_entries (t : Table) (now : Int) :
    (t.retained now).entries = t.entries := rfl

@[simp] theorem restoreHistory_entries (t : Table) (r k : String) (previous : Option ClaimEntry) :
    (t.restoreHistory r k previous).entries = t.entries := by
  unfold restoreHistory
  cases previous with
  | some e => rfl
  | none =>
    dsimp only
    split <;> rfl

@[simp] theorem setEntry_historyEntry (t : Table) (k : String) (e : Option ClaimEntry)
    (r k' : String) : (t.setEntry k e).historyEntry r k' = t.historyEntry r k' := by
  cases e <;> rfl

theorem get?_setEntry (t : Table) (k : String) (e : Option ClaimEntry) (k' : String) :
    (t.setEntry k e).entries.get? k' = if k' = k then e else t.entries.get? k' := by
  cases e with
  | none => exact get?_del _ _ _
  | some e => exact get?_put _ _ _ _

theorem historyEntry_recordHistory (t : Table) (k : String) (e : ClaimEntry) (r k' : String) :
    (t.recordHistory k e).historyEntry r k'
      = if r = e.runID ∧ k' = k then some e else t.historyEntry r k' := by
  unfold recordHistory historyEntry
  simp only [get?_put]
  by_cases hr : r = e.runID
  · subst hr
    simp only [if_true, Option.bind_some, get?_put]
    by_cases hk : k' = k
    · simp [hk]
    cases t.history.get? e.runID with
    | none => simp
    | some h => simp
  · simp [hr]

/-- Restoring touches one record of the history. -/
theorem historyEntry_restoreHistory (t : Table) (r k : String) (previous : Option ClaimEntry)
    (r' k' : String) :
    (t.restoreHistory r k previous).historyEntry r' k'
      = if r' = r ∧ k' = k then previous else t.historyEntry r' k' := by
  have hrun : ∀ k'', ((t.history.get? r).getD ∅).get? k'' = t.historyEntry r k'' := by
    intro k''
    unfold historyEntry
    cases t.history.get? r <;> simp
  unfold restoreHistory
  cases previous with
  | some e =>
    simp only [historyEntry, get?_put]
    by_cases hr : r' = r
    · subst hr
      simp only [if_true, Option.bind_some, get?_put, hrun]
      by_cases hk : k' = k <;> simp [historyEntry]
    · simp [hr]
  | none =>
    dsimp only
    split
    · rename_i hempty
      simp only [historyEntry, get?_del]
      by_cases hr : r' = r
      · subst hr
        by_cases hk : k' = k
        · simp [hk]
        -- the run had this claim only
        have hgone : (((t.history.get? r').getD ∅).del k).get? k' = none := by
          cases hget : (((t.history.get? r').getD ∅).del k).get? k' with
          | none => rfl
          | some e =>
            have hmem := mem_rows.mpr hget
            rw [hempty] at hmem
            cases hmem
        rw [get?_del_of_ne _ hk, hrun] at hgone
        simp only [hk]
        exact hgone.symm
      · simp [hr]
    · simp only [historyEntry, get?_put]
      by_cases hr : r' = r
      · subst hr
        simp only [if_true, Option.bind_some, get?_del, hrun]
        by_cases hk : k' = k <;> simp [historyEntry]
      · simp [hr]

end Table

end Goobers.Claims
