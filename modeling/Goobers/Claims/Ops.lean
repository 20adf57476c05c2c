import Mathlib.Data.List.Sort
import Goobers.Claims.Table

/-!
# Operations of the claim ledger

Every operation holds the ledger's mutex, decides on the maps in memory, changes
them and rewrites the file; if the rewrite fails it undoes its change in memory
and returns the error. So an operation is an `Attempt`: an answer that writes
nothing, or the maps to write, the maps its undo leaves, and the answer if the
write succeeds.

The remote half of a shared claim runs outside the mutex. `ClaimSharedScoped` is
`claimScopedUntil` after a remote acquire, `ReleaseCoordinatedShared` is
`releaseSharedScoped` after a remote release, and `ForceReleaseCoordinatedShared`
is `revokeSharedExecution`, a remote release and `forceReleaseShared`.
-/

namespace Goobers.Claims

open Lib
open SharedClaim (Owner Record)

/-- A lease given or extended: the key, the run and the expiry that was set. -/
structure Grant where
  storageKey : String
  runID : String
  expiresAt : Int
  deriving DecidableEq, Repr

structure Custody where
  storageKey : String
  runID : String
  deriving DecidableEq, Repr

/-- What an operation answers when it writes nothing. -/
inductive Answer where
  /-- Not the caller's to take; `holder` is who has it. -/
  | refused (holder : String)
  | noop
  /-- The reservation asked for was there already. -/
  | alreadyReserved (custody : Custody)
  | alreadyRevoked (custody : Custody)
  deriving DecidableEq, Repr

/-- What a rewrite of the file brings about. -/
inductive Effect where
  | granted (grants : List Grant)
  /-- Custody reserved for provider cleanup or for a remote admission. -/
  | reserved (custody : Custody)
  /-- A lease ended by its holder, an operator, or finished provider cleanup. -/
  | released (custody : Custody)
  /-- Expired leases dropped by the recovery pass. -/
  | recovered (entries : List ClaimEntry)
  | revoked (custody : Custody)
  | verified
  /-- Item-only entries moved to scoped keys. -/
  | migrated (moves : List Grant)
  deriving DecidableEq, Repr

/-- An operation up to its write. -/
inductive Attempt where
  | done (answer : Except LedgerError Answer)
  | write (next undone : Table) (effect : Effect)

def Table.replace (t : Table) (storageKey : String) (entry : Option ClaimEntry)
    (record : ClaimEntry) (undoRun : String) (effect : Effect) : Attempt :=
  let next := (t.setEntry storageKey entry).recordHistory storageKey record
  let undone := (next.setEntry storageKey (t.entries.get? storageKey)).restoreHistory undoRun
    storageKey (t.historyEntry undoRun storageKey)
  .write next undone effect

def grantOf (storageKey : String) (e : ClaimEntry) : Grant := ⟨storageKey, e.runID, e.expiresAt⟩

def custodyOf (storageKey : String) (e : ClaimEntry) : Custody := ⟨storageKey, e.runID⟩

def Table.revokedOn (t : Table) (runID storageKey : String) : Bool :=
  match t.historyEntry runID storageKey with
  | some historical => historical.sharedRevoked
  | none => false

/-! ## Claiming -/

def storeClaim (t : Table) (storageKey : String) (entry : ClaimEntry) : Attempt :=
  t.replace storageKey (some entry) entry entry.runID (.granted [grantOf storageKey entry])

/-- `claim`; a zero `deadline` is a local lease of `leaseDuration`. -/
def claimAt (t : Table) (now : Int) (storageKey legacyStorageKey : String) (key : ClaimKey)
    (runID workflow : String) (leaseDuration deadline : Int) (owner : Owner) : Attempt :=
  if leaseDuration ≤ 0 ∧ deadline = 0 then .done (.error .leaseDuration)
  else
    let expires := if deadline = 0 then now + leaseDuration else deadline
    if expires ≤ now then .done (.error .deadlineExpired)
    else
      let legacy := if legacyStorageKey ≠ "" then t.entries.get? legacyStorageKey else none
      match legacy.filter (fun e => e.transitionPending || !e.expired now) with
      | some existing => .done (.ok (.refused existing.runID))
      | none =>
        let prev := t.entries.get? storageKey
        match prev.filter (fun e => e.transitionPending ||
            (!e.expired now && (e.runID ≠ runID || e.isPublicationClaim))) with
        | some existing => .done (.ok (.refused existing.runID))
        | none =>
          let was := prev.getD {}
          if t.revokedOn runID storageKey then .done (.error .revoked)
          else if deadline = 0 ∧ was.sharedDeadline ≠ 0 then
            .done (.error .needsRemoteAdmission)
          else if was.sharedOwner ≠ {} ∧ was.sharedOwner ≠ owner ∧ !was.expired now then
            .done (.ok (.refused was.runID))
          else
            let entry : ClaimEntry :=
              { itemID := key.externalID, gaggle := key.gaggle, provider := key.provider,
                externalID := key.externalID, runID := runID, workflow := workflow,
                claimedAt := now, expiresAt := expires, sharedDeadline := deadline,
                sharedOwner := owner }
            storeClaim t storageKey (continueLease prev entry now)

def claim (t : Table) (now : Int) (itemID runID workflow : String) (leaseDuration : Int) :
    Attempt :=
  claimAt t now itemID "" { externalID := itemID } runID workflow leaseDuration 0 {}

def claimScoped (t : Table) (now : Int) (key : ClaimKey) (runID workflow : String)
    (leaseDuration : Int) : Attempt :=
  match key.storageKey with
  | .error e => .done (.error e)
  | .ok storageKey =>
    claimAt t now storageKey key.externalID key runID workflow leaseDuration 0 {}

/-- A claim bounded by a shared admission deadline that is already established. -/
def claimScopedUntil (encodedSize : String → Record → Nat) (t : Table) (now : Int) (key : ClaimKey)
    (runID workflow : String) (deadline : Int) (owner : Owner) : Attempt :=
  if deadline = 0 then .done (.error .deadlineRequired)
  else if owner.run ≠ runID then .done (.error .ownerRunMismatch)
  else if !encodes encodedSize key.externalID
      { version := 1, owner := owner, expiresAt := deadline } then
    .done (.error .sharedEncoding)
  else
    match key.storageKey with
    | .error e => .done (.error e)
    | .ok storageKey =>
      claimAt t now storageKey key.externalID key runID workflow 0 deadline owner

def renewEntry (t : Table) (now : Int) (entry : ClaimEntry) (leaseDuration : Int) : Attempt :=
  if entry.isPublicationClaim then .done (.ok .noop)
  else if entry.gaggle = "" ∨ entry.provider = "" then
    claim t now entry.itemID entry.runID entry.workflow leaseDuration
  else
    claimScoped t now
      { gaggle := entry.gaggle, provider := entry.provider, externalID := entry.externalID }
      entry.runID entry.workflow leaseDuration

/-! ## Reclaiming a set -/

structure PlannedClaim where
  storageKey : String
  legacyStorageKey : String
  key : ClaimKey
  deriving DecidableEq, Repr

/-- The claims `ReclaimAll` plans; publication custody and merge locks are not reclaimed. -/
def planClaims : List ClaimEntry → List String → Except LedgerError (List PlannedClaim)
  | [], _ => .ok []
  | entry :: entries, seen =>
    if entry.isPublicationClaim then planClaims entries seen
    else
      let itemID := if entry.externalID = "" then entry.itemID else entry.externalID
      if hasPrefix itemID mergeLockItemIDPrefix then planClaims entries seen
      else if entry.sharedDeadline ≠ 0 then .error .needsRemoteAdmission
      else if itemID = "" then .error .itemIDRequired
      else if (entry.gaggle = "") ≠ (entry.provider = "") then .error .namespaceIncomplete
      else
        let key : ClaimKey :=
          { gaggle := entry.gaggle, provider := entry.provider, externalID := itemID }
        let stored := if entry.gaggle ≠ "" then key.storageKey else .ok itemID
        match stored with
        | .error e => .error e
        | .ok storageKey =>
          if storageKey ∈ seen then .error .duplicateReclaim
          else
            match planClaims entries (storageKey :: seen) with
            | .error e => .error e
            | .ok planned =>
              .ok (⟨storageKey, if entry.gaggle ≠ "" then itemID else "", key⟩ :: planned)

/-- `refusePlannedClaims`: the first claim of the set that cannot be taken. -/
def refusePlannedClaims (t : Table) (runID : String) (now : Int) :
    List PlannedClaim → Option (Except LedgerError String)
  | [] => none
  | c :: rest =>
    let existing := t.entries.get? c.storageKey
    let was := existing.getD {}
    let blocks (e : ClaimEntry) : Bool :=
      e.transitionPending || (!e.expired now && e.runID ≠ runID)
    if was.transitionPending then some (.ok was.runID)
    else if t.revokedOn runID c.storageKey then some (.error .revoked)
    else if was.sharedDeadline ≠ 0 then some (.error .sharedClaim)
    else
      let legacy := if c.legacyStorageKey ≠ "" then t.entries.get? c.legacyStorageKey else none
      match legacy.filter blocks with
      | some held => some (.ok held.runID)
      | none =>
        match existing.filter blocks with
        | some held => some (.ok held.runID)
        | none => refusePlannedClaims t runID now rest

/-- The entry a planned claim is given; `t` holds the maps before the batch. -/
def reclaimedEntry (t : Table) (runID workflow : String) (leaseDuration now : Int)
    (c : PlannedClaim) : ClaimEntry :=
  continueLease (t.entries.get? c.storageKey)
    { itemID := c.key.externalID, gaggle := c.key.gaggle, provider := c.key.provider,
      externalID := c.key.externalID, runID := runID, workflow := workflow, claimedAt := now,
      expiresAt := now + leaseDuration } now

def reclaimAll (t : Table) (now : Int) (entries : List ClaimEntry) (runID workflow : String)
    (leaseDuration : Int) : Attempt :=
  if leaseDuration ≤ 0 then .done (.error .leaseDuration)
  else if entries = [] then .done (.ok .noop)
  else
    match planClaims entries [] with
    | .error e => .done (.error e)
    | .ok unsorted =>
      let planned := unsorted.insertionSort (fun a b => ¬ b.storageKey < a.storageKey)
      match refusePlannedClaims t runID now planned with
      | some (.error e) => .done (.error e)
      | some (.ok holder) => .done (.ok (.refused holder))
      | none =>
        let give (u : Table) (c : PlannedClaim) : Table :=
          let entry := reclaimedEntry t runID workflow leaseDuration now c
          (u.setEntry c.storageKey (some entry)).recordHistory c.storageKey entry
        let next := planned.foldl give t
        let history :=
          match t.history.get? runID with
          | some previous => next.history.put runID previous
          | none => next.history.del runID
        .write next { entries := t.entries, history := history }
          (.granted (planned.map (fun c =>
            grantOf c.storageKey (reclaimedEntry t runID workflow leaseDuration now c))))

/-! ## Releasing -/

/-- `release`; the empty `owner` is a local release. -/
def releaseAt (t : Table) (now : Int) (storageKey runID : String) (owner : Owner)
    (reasonCode : String) : Attempt :=
  match t.entries.get? storageKey with
  | none => .done (.ok .noop)
  | some entry =>
    if owner ≠ {} ∧ entry.sharedOwner ≠ owner then .done (.error .notOwner)
    else if entry.runID ≠ runID then .done (.ok .noop)
    else if entry.transitionPending then .done (.error .releasePending)
    else if entry.isPublicationClaim ∧ reasonCode ≠ publicationLockReleaseCode then
      .done (.error .publicationCustody)
    else if entry.sharedDeadline ≠ 0 ∧ owner = {} then .done (.error .needsHandoff)
    else
      t.replace storageKey none { entry with releasedAt := some now } runID
        (.released (custodyOf storageKey entry))

def release (t : Table) (now : Int) (itemID runID reasonCode : String) : Attempt :=
  releaseAt t now itemID runID {} reasonCode

def releaseScoped (t : Table) (now : Int) (key : ClaimKey) (runID reasonCode : String) : Attempt :=
  match key.storageKey with
  | .error e => .done (.error e)
  | .ok storageKey => releaseAt t now storageKey runID {} reasonCode

def releaseSharedScoped (t : Table) (now : Int) (key : ClaimKey) (owner : Owner)
    (reasonCode : String) : Attempt :=
  if owner.instance_ = "" ∨ owner.run = "" ∨ owner.token = "" then .done (.error .ownerIncomplete)
  else
    match key.storageKey with
    | .error e => .done (.error e)
    | .ok storageKey => releaseAt t now storageKey owner.run owner reasonCode

def releaseEntry (t : Table) (now : Int) (entry : ClaimEntry) (runID reasonCode : String) :
    Attempt :=
  if entry.gaggle = "" ∨ entry.provider = "" then release t now entry.itemID runID reasonCode
  else
    releaseScoped t now
      { gaggle := entry.gaggle, provider := entry.provider, externalID := entry.externalID }
      runID reasonCode

/-- What the audit journal does with a publication override. -/
inductive Audit where
  | absent
  | refuses
  | recorded
  deriving DecidableEq, Repr

/-- `forceRelease`; an empty `publicationReason` leaves publication custody alone. -/
def forceReleaseAt (t : Table) (now : Int) (storageKey actor : String) (owner : Owner)
    (publicationReason : String) (audit : Audit) : Attempt :=
  if actor = "" then .done (.error .actorRequired)
  else
    match t.entries.get? storageKey with
    | none => .done (.ok .noop)
    | some entry =>
      if entry.isPublicationClaim ∧ publicationReason = "" then .done (.ok .noop)
      else if entry.transitionPending then .done (.error .releasePending)
      else if owner ≠ {} ∧ entry.sharedOwner ≠ owner then .done (.error .notOwner)
      else if entry.sharedDeadline ≠ 0 ∧ owner = {} then .done (.error .needsCoordination)
      else if entry.isPublicationClaim ∧ audit ≠ .recorded then .done (.error .audit)
      else
        t.replace storageKey none { entry with releasedAt := some now } entry.runID
          (.released (custodyOf storageKey entry))

def forceReleaseActorCLI : String := "cli"

def forceRelease (t : Table) (now : Int) (itemID : String) : Attempt :=
  forceReleaseAt t now itemID forceReleaseActorCLI {} "" .absent

def forceReleaseEntry (t : Table) (now : Int) (entry : ClaimEntry) (actor : String) : Attempt :=
  if entry.gaggle = "" ∨ entry.provider = "" then
    forceReleaseAt t now entry.itemID actor {} "" .absent
  else
    match ({ gaggle := entry.gaggle, provider := entry.provider, externalID := entry.externalID } :
        ClaimKey).storageKey with
    | .error e => .done (.error e)
    | .ok storageKey => forceReleaseAt t now storageKey actor {} "" .absent

/-- `strings.TrimSpace(s) == ""`. -/
def isBlank (s : String) : Bool :=
  s.toList.all (fun c => c.isWhitespace || c.toNat = 0x0B || c.toNat = 0x0C || c.toNat = 0x85 ||
    c.toNat = 0xA0 || c.toNat = 0x1680 || (0x2000 ≤ c.toNat && c.toNat ≤ 0x200A) ||
    c.toNat = 0x2028 || c.toNat = 0x2029 || c.toNat = 0x202F || c.toNat = 0x205F ||
    c.toNat = 0x3000)

def forceReleasePublicationEntry (t : Table) (now : Int) (entry : ClaimEntry)
    (actor reason : String) (audit : Audit) : Attempt :=
  if !entry.isPublicationClaim || isBlank reason || isBlank actor then
    .done (.error .overrideIncomplete)
  else
    let stored :=
      if entry.gaggle ≠ "" ∧ entry.provider ≠ "" then
        ({ gaggle := entry.gaggle, provider := entry.provider, externalID := entry.externalID } :
          ClaimKey).storageKey
      else .ok entry.itemID
    match stored with
    | .error e => .done (.error e)
    | .ok storageKey => forceReleaseAt t now storageKey actor {} reason audit

def forceReleaseShared (t : Table) (now : Int) (key : ClaimKey) (owner : Owner) (actor : String) :
    Attempt :=
  match key.storageKey with
  | .error e => .done (.error e)
  | .ok storageKey => forceReleaseAt t now storageKey actor owner "" .absent

/-- The recovery pass: expired leases outside any custody are dropped. -/
def recoverExpired (t : Table) (now : Int) : Attempt :=
  let released := t.entries.rows.filter (fun r =>
    r.2.sharedDeadline = 0 && !r.2.transitionPending && r.2.expired now)
  if released = [] then .done (.ok .noop)
  else
    let drop (u : Table) (r : String × ClaimEntry) : Table :=
      (u.recordReleasedHistory r.1 r.2 now).setEntry r.1 none
    -- the keys differ, so the history the loop saves is the one before it
    let undo (u : Table) (r : String × ClaimEntry) : Table :=
      (u.setEntry r.1 (some r.2)).restoreHistory r.2.runID r.1 (t.historyEntry r.2.runID r.1)
    let next := released.foldl drop t
    .write next (released.foldl undo next) (.recovered (released.map Prod.snd))

/-! ## Custody transitions -/

def beginSharedAdmission (encodedSize : String → Record → Nat) (t : Table) (now : Int)
    (key : ClaimKey) (owner : Owner) (workflow : String) : Attempt :=
  if isPublicationClaimKey key.externalID then .done (.error .publicationCustody)
  else
    match key.storageKey with
    | .error e => .done (.error e)
    | .ok storageKey =>
      if !encodes encodedSize key.externalID
          { version := 1, owner := owner, expiresAt := now } then
        .done (.error .sharedEncoding)
      else if t.revokedOn owner.run storageKey then .done (.error .revoked)
      else
        match (t.entries.get? key.externalID).filter
            (fun e => e.transitionPending || !e.expired now) with
        | some legacy => .done (.ok (.refused legacy.runID))
        | none =>
          let held := t.entries.get? storageKey
          match held.filter (fun e => e.releasePending || e.sharedRevoked ||
              (e.sharedOwner ≠ {} && e.sharedOwner ≠ owner) ||
              (!e.expired now && e.runID ≠ owner.run)) with
          | some current => .done (.ok (.refused current.runID))
          | none =>
            let current := held.getD {}
            if current.sharedAdmissionPending then
              .done (.ok (.alreadyReserved (custodyOf storageKey current)))
            else
              -- a local-only lease does not survive conversion to remote admission
              let reserved : ClaimEntry :=
                if held = none ∨ current.sharedOwner = {} then
                  { itemID := key.externalID, externalID := key.externalID,
                    gaggle := key.gaggle, provider := key.provider, runID := owner.run,
                    workflow := workflow, claimedAt := now, expiresAt := now,
                    sharedDeadline := now, sharedOwner := owner }
                else current
              let reserved := { reserved with sharedAdmissionPending := true }
              t.replace storageKey (some reserved) reserved owner.run
                (.reserved (custodyOf storageKey reserved))

/-- The two snapshots are one incarnation of a lease. -/
def ClaimEntry.sameIncarnation (current expected : ClaimEntry) : Bool :=
  current.runID = expected.runID && current.sharedOwner = expected.sharedOwner &&
    current.claimedAt = expected.claimedAt

def finishSharedAdmission (t : Table) (now : Int) (expected : ClaimEntry) (deadline : Int) :
    Attempt :=
  match claimEntryStorageKey expected with
  | .error e => .done (.error e)
  | .ok storageKey =>
    match t.entries.get? storageKey with
    | none => .done (.ok (.refused ""))
    | some current =>
      if !current.sameIncarnation expected || !current.sharedAdmissionPending ||
          current.releasePending then
        .done (.ok (.refused current.runID))
      else if current.sharedRevoked then .done (.error .revoked)
      else if deadline ≤ now then .done (.error .deadlineExpired)
      else
        storeClaim t storageKey
          { current with
            sharedAdmissionPending := false
            sharedDeadline := deadline
            expiresAt := deadline }

/-- `beginProviderRelease`; a nonzero `expiredAt` asks that the lease has expired by then. -/
def beginReleaseAt (t : Table) (expected : ClaimEntry) (shared : Bool) (expiredAt : Int) :
    Attempt :=
  if expected.isPublicationClaim then .done (.error .publicationCustody)
  else
    match claimEntryStorageKey expected with
    | .error e => .done (.error e)
    | .ok storageKey =>
      match t.entries.get? storageKey with
      | none => .done (.ok .noop)
      | some current =>
        if !current.sameIncarnation expected then .done (.ok .noop)
        else if expiredAt ≠ 0 ∧ expiredAt < current.expiresAt then .done (.ok .noop)
        else if (current.sharedDeadline ≠ 0) ≠ shared then .done (.error .needsCoordination)
        else if current.releasePending then
          .done (.ok (.alreadyReserved (custodyOf storageKey current)))
        else
          let updated :=
            { current with releasePending := true, sharedAdmissionPending := false }
          t.replace storageKey (some updated) updated current.runID
            (.reserved (custodyOf storageKey updated))

def beginProviderRelease (t : Table) (expected : ClaimEntry) : Attempt :=
  beginReleaseAt t expected false 0

def beginSharedRelease (t : Table) (expected : ClaimEntry) (expiredAt : Int) : Attempt :=
  if expected.sharedOwner = {} ∨ expected.sharedDeadline = 0 then .done (.error .needsHandoff)
  else beginReleaseAt t expected true expiredAt

def finishProviderRelease (t : Table) (now : Int) (expected : ClaimEntry) : Attempt :=
  match claimEntryStorageKey expected with
  | .error e => .done (.error e)
  | .ok storageKey =>
    match t.entries.get? storageKey with
    | none => .done (.ok .noop)
    | some current =>
      if !current.sameIncarnation expected || !current.releasePending then .done (.ok .noop)
      else if current.isPublicationClaim then .done (.error .publicationCustody)
      else
        t.replace storageKey none
          { current with releasePending := false, releasedAt := some now } current.runID
          (.released (custodyOf storageKey current))

/-! ## Administration -/

def revokeSharedExecution (t : Table) (now : Int) (key : ClaimKey) (owner : Owner)
    (actor : String) : Attempt :=
  match key.storageKey with
  | .error e => .done (.error e)
  | .ok storageKey =>
    if actor = "" ∨ owner = {} then .done (.error .actorRequired)
    else
      match t.entries.get? storageKey with
      | none => .done (.ok .noop)
      | some entry =>
        if entry.isPublicationClaim then .done (.ok .noop)
        else if entry.sharedOwner ≠ owner ∨ entry.sharedDeadline = 0 then
          .done (.error .notOwner)
        else if entry.sharedRevoked then
          .done (.ok (.alreadyRevoked (custodyOf storageKey entry)))
        else
          let revoked := { entry with sharedRevoked := true }
          let revoked :=
            if now < revoked.sharedDeadline then
              { revoked with sharedDeadline := now, expiresAt := now }
            else revoked
          t.replace storageKey (some revoked) revoked entry.runID
            (.revoked (custodyOf storageKey entry))

def validateClaimVerification (expected : ClaimEntry) (o : ClaimVerification) (now : Int) : Bool :=
  if o.state ≠ "verified" ∧ o.state ≠ "missing" ∧ o.state ≠ "contended" ∧
      o.state ≠ "ownership-mismatch" ∧ o.state ≠ "unavailable" then false
  else if o.providerRunID.utf8ByteSize > 1024 then false
  else if o.observedAt = 0 ∨ o.observedAt < expected.claimedAt then false
  else if (o.state = "verified" ∧ o.providerRunID ≠ expected.runID) ∨
      ((o.state = "contended" ∨ o.state = "ownership-mismatch") ∧
        (o.providerRunID = "" ∨ o.providerRunID = expected.runID)) ∨
      ((o.state = "missing" ∨ o.state = "unavailable") ∧ o.providerRunID ≠ "") then false
  else o.observedAt ≤ now

def recordClaimVerification (t : Table) (now : Int) (expected : ClaimEntry)
    (observation : ClaimVerification) : Attempt :=
  match claimEntryStorageKey expected with
  | .error e => .done (.error e)
  | .ok storageKey =>
    if !validateClaimVerification expected observation now then
      .done (.error .invalidVerification)
    else
      match t.entries.get? storageKey with
      | none => .done (.ok .noop)
      | some current =>
        if current.runID ≠ expected.runID ∨ current.claimedAt ≠ expected.claimedAt ∨
            current.expired now ∨ current.releasedAt ≠ none then .done (.ok .noop)
        else if current.verification.observedAt ≠ 0 ∧
            observation.observedAt ≤ current.verification.observedAt then .done (.ok .noop)
        else
          let updated := { current with verification := observation }
          t.replace storageKey (some updated) updated current.runID .verified

/-! ## Migration -/

/-- What the resolver says about an item-only claim. -/
inductive Resolved where
  | owner (gaggle provider : String)
  | unresolved
  | failed
  deriving DecidableEq, Repr

structure Migration where
  legacyKey : String
  scopedKey : String
  entry : ClaimEntry
  deriving DecidableEq, Repr

/-- The item-only claims `MigrateLegacyClaims` looks at. -/
def legacyClaims (t : Table) : List (String × ClaimEntry) :=
  t.entries.rows.filter (fun r =>
    r.2.gaggle = "" && r.2.provider = "" && !r.2.transitionPending)

def planMigrations (t : Table) (resolve : ClaimEntry → Resolved) :
    List (String × ClaimEntry) → List String → Except LedgerError (List Migration)
  | [], _ => .ok []
  | (legacyKey, entry) :: rest, planned =>
    match resolve entry with
    | .unresolved => planMigrations t resolve rest planned
    | .failed => .error .resolver
    | .owner gaggle provider =>
      match ({ gaggle := gaggle, provider := provider, externalID := entry.itemID } :
          ClaimKey).storageKey with
      | .error e => .error e
      | .ok scopedKey =>
        if (t.entries.get? scopedKey).isSome then .error .scopedClaimExists
        else if scopedKey ∈ planned then .error .duplicateLegacyClaim
        else
          match planMigrations t resolve rest (scopedKey :: planned) with
          | .error e => .error e
          | .ok migrations =>
            .ok (⟨legacyKey, scopedKey, { entry with
              gaggle := gaggle
              provider := provider
              externalID := entry.itemID }⟩ :: migrations)

def Table.move (t : Table) (m : Migration) : Table :=
  (t.setEntry m.legacyKey none).setEntry m.scopedKey (some m.entry)

def migrateLegacyClaims (t : Table) (resolve : ClaimEntry → Resolved) : Attempt :=
  match planMigrations t resolve (legacyClaims t) [] with
  | .error e => .done (.error e)
  | .ok [] => .done (.ok .noop)
  | .ok migrations =>
    .write (migrations.foldl Table.move t) t
      (.migrated (migrations.map (fun m => grantOf m.scopedKey m.entry)))

end Goobers.Claims
