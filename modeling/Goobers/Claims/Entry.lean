import Goobers.Lib.GoMap
import Goobers.SharedClaim.Lease

/-!
# Entries of the claim ledger

A lease is one `ClaimEntry` under a storage key. An item-only claim of an older
version is stored under its item id; a scoped claim under the escaped gaggle,
provider and external id. What an entry says about a lease is its run, its
expiry, and the custody flags that outlive the expiry: a release reserved for
provider cleanup, and a shared admission whose remote half is not known yet.

Instants are nanoseconds, `0` for the zero time. Why a lease ended is only
reported, never read back, and is left out. The length of a record's JSON text
depends on the time zone of its deadline, which is not modelled either: it is
the parameter `encodedSize`.
-/

namespace Goobers.Claims

open Lib
open SharedClaim (Owner Record validIdentityText validateRecord)

inductive LedgerError where
  | keyIncomplete
  | leaseDuration
  | deadlineRequired
  | ownerRunMismatch
  | sharedEncoding
  | deadlineExpired
  | revoked
  | needsRemoteAdmission
  | itemIDRequired
  | namespaceIncomplete
  | duplicateReclaim
  | notOwner
  | releasePending
  | publicationCustody
  | needsHandoff
  | ownerIncomplete
  | actorRequired
  | needsCoordination
  | overrideIncomplete
  | audit
  | sharedClaim
  | invalidVerification
  | resolver
  | scopedClaimExists
  | duplicateLegacyClaim
  | persist
  | ledgerText
  | ledgerSchema
  | ledgerShared
  | closed
  deriving DecidableEq, Repr

/-! ## Keys -/

/-- An item, with the gaggle and the provider that scope it. -/
structure ClaimKey where
  gaggle : String := ""
  provider : String := ""
  externalID : String := ""
  deriving DecidableEq, Repr

/-- The bytes `url.QueryEscape` leaves alone. -/
def isUnreserved (b : UInt8) : Bool :=
  (0x30 ≤ b && b ≤ 0x39) || (0x41 ≤ b && b ≤ 0x5A) || (0x61 ≤ b && b ≤ 0x7A) ||
    b = 0x2D || b = 0x5F || b = 0x2E || b = 0x7E

def hexDigit (n : Nat) : Char :=
  if n < 10 then Char.ofNat (0x30 + n) else Char.ofNat (0x41 + (n - 10))

def escapeByte (b : UInt8) : List Char :=
  if isUnreserved b then [Char.ofNat b.toNat]
  else if b = 0x20 then ['+']
  else ['%', hexDigit (b.toNat / 16), hexDigit (b.toNat % 16)]

/-- Go's `url.QueryEscape`. -/
def queryEscape (s : String) : String :=
  String.ofList (s.toList.flatMap (fun c => (String.utf8EncodeChar c).flatMap escapeByte))

def ClaimKey.storageKey (k : ClaimKey) : Except LedgerError String :=
  if k.gaggle = "" ∨ k.provider = "" ∨ k.externalID = "" then .error .keyIncomplete
  else .ok ("v2|" ++ queryEscape k.gaggle ++ "|" ++ queryEscape k.provider ++ "|"
    ++ queryEscape k.externalID)

def hasPrefix (s pre : String) : Bool := pre.toList.isPrefixOf s.toList

def mergeLockItemIDPrefix : String := "merge-lock/"

def publicationLockItemIDPrefix : String := "publication-lock/"

def publicationLockReleaseCode : String := "verdict_publication_closed"

/-- Fixed-duration custody. The older nested shape has provider, owner and repository. -/
def isPublicationClaimKey (id : String) : Bool :=
  let legacyPrefix := mergeLockItemIDPrefix ++ "publication/"
  hasPrefix id publicationLockItemIDPrefix ||
    (hasPrefix id legacyPrefix &&
      2 ≤ (id.toList.drop legacyPrefix.toList.length).count '/')

/-! ## Entries -/

/-- The last provider observation for this exact lease. -/
structure ClaimVerification where
  state : String := ""
  observedAt : Int := 0
  providerRunID : String := ""
  deriving DecidableEq, Repr

/-- One lease of the ledger. -/
structure ClaimEntry where
  verification : ClaimVerification := {}
  itemID : String := ""
  gaggle : String := ""
  provider : String := ""
  externalID : String := ""
  runID : String := ""
  workflow : String := ""
  /-- When this incarnation was first granted; a live renewal keeps it. -/
  claimedAt : Int := 0
  renewedAt : Int := 0
  expiresAt : Int := 0
  /-- Provider cleanup is running; only `finishProviderRelease` discards the entry. -/
  releasePending : Bool := false
  /-- Remote admission is uncertain; the entry carries no authority of its own. -/
  sharedAdmissionPending : Bool := false
  sharedDeadline : Int := 0
  sharedOwner : Owner := {}
  sharedRevoked : Bool := false
  releasedAt : Option Int := none
  deriving DecidableEq, Repr

namespace ClaimEntry

/-- The lease is no longer live at `now`. -/
def expired (e : ClaimEntry) (now : Int) : Bool := e.expiresAt ≤ now

def transitionPending (e : ClaimEntry) : Bool := e.releasePending || e.sharedAdmissionPending

def isPublicationClaim (e : ClaimEntry) : Bool :=
  if e.externalID ≠ "" then isPublicationClaimKey e.externalID else isPublicationClaimKey e.itemID

def lastGrantedAt (e : ClaimEntry) : Int :=
  if e.claimedAt < e.renewedAt then e.renewedAt else e.claimedAt

end ClaimEntry

/-- A live lease of the same run carries its incarnation into the renewal. -/
def continueLease (prev : Option ClaimEntry) (entry : ClaimEntry) (now : Int) : ClaimEntry :=
  match prev with
  | none => entry
  | some p =>
    if p.runID ≠ entry.runID ∨ p.expired now ∨ p.releasedAt ≠ none then entry
    else
      { entry with claimedAt := p.claimedAt, renewedAt := now, verification := p.verification }

def claimEntryStorageKey (e : ClaimEntry) : Except LedgerError String :=
  if e.gaggle = "" ∧ e.provider = "" then .ok e.itemID
  else ({ gaggle := e.gaggle, provider := e.provider, externalID := e.externalID } :
    ClaimKey).storageKey

/-! ## Shared ownership -/

/-- The bound on a coordination record's JSON text. -/
def maxRecordBytes : Nat := 4096

section
variable (encodedSize : String → Record → Nat)

/-- Whether `sharedclaim.Encode` accepts the record for the key. -/
def encodes (key : String) (record : Record) : Bool :=
  validIdentityText key 1024 && (validateRecord record matches .ok ()) &&
    encodedSize key record ≤ maxRecordBytes

def validateSharedClaimEntry (storageKey : String) (e : ClaimEntry) : Bool :=
  if e.sharedOwner = {} ∧ e.sharedDeadline = 0 then !e.sharedAdmissionPending
  else if e.sharedOwner = {} ∨ e.sharedDeadline = 0 ∨ e.sharedOwner.run ≠ e.runID then false
  else
    match ({ gaggle := e.gaggle, provider := e.provider, externalID := e.externalID } :
        ClaimKey).storageKey with
    | .error _ => false
    | .ok expected =>
      if expected ≠ storageKey ∨ e.itemID ≠ e.externalID then false
      else if e.expiresAt ≠ e.sharedDeadline then false
      else encodes encodedSize e.externalID
        { version := 1, owner := e.sharedOwner, expiresAt := e.sharedDeadline }

end

/-- A renewal differs from the entry it continues in its own dates and observation only. -/
theorem continueLease_eq (prev : Option ClaimEntry) (entry : ClaimEntry) (now : Int) :
    ∃ claimedAt renewedAt verification, continueLease prev entry now =
      { entry with
        claimedAt := claimedAt
        renewedAt := renewedAt
        verification := verification } := by
  unfold continueLease
  split
  · exact ⟨entry.claimedAt, entry.renewedAt, entry.verification, rfl⟩
  · split
    · exact ⟨entry.claimedAt, entry.renewedAt, entry.verification, rfl⟩
    · exact ⟨_, _, _, rfl⟩

end Goobers.Claims
