import Mathlib.Data.List.Basic

/-!
# Owner-scoped lease transitions

What one instance computes from one observation of the shared record: whether it
may acquire, with which expiry, and what it writes to release. The provider's own
clock decides whether another owner's lease has run out; a release writes a
tombstone with an empty owner, so the revision advances and is never reused.

Instants are nanoseconds, `0` for the zero time. Revision `0` is the empty
revision of an absent record.
-/

namespace Goobers.SharedClaim

/-- One incarnation of a claim. The empty owner marks a tombstone. -/
structure Owner where
  instance_ : String := ""
  run : String := ""
  token : String := ""
  deriving DecidableEq, Repr

/-- The shared record, as the provider stores it. -/
structure Record where
  version : Int := 0
  owner : Owner := {}
  expiresAt : Int := 0
  deriving DecidableEq, Repr

/-- A record bound to its provider revision and the provider's clock. -/
structure Observation where
  record : Record
  revision : Nat
  now : Int
  deriving DecidableEq, Repr

inductive ClaimError where
  | invalid
  | noClock
  | unversioned
  | unsupported
  | tombstoneDeadline
  | invalidOwnership
  | held
  | conflict
  | notOwner
  deriving DecidableEq, Repr

/-- One second, in nanoseconds: the precision of the provider's clock. -/
def second : Int := 1000000000

/-- The longest lease: 24 hours. -/
def maxTTL : Int := 24 * 3600 * second

/-! ## Validation -/

/-- `unicode.IsControl`. -/
def isControl (c : Char) : Bool := c.toNat < 0x20 || (0x7F ≤ c.toNat && c.toNat < 0xA0)

def validIdentityText (value : String) (limit : Nat) : Bool :=
  value ≠ "" && value.utf8ByteSize ≤ limit && value.toList.all (fun c => !isControl c)

def validOwner (owner : Owner) : Bool :=
  validIdentityText owner.instance_ 256 && validIdentityText owner.run 256 &&
    validIdentityText owner.token 256

def validateRecord (record : Record) : Except ClaimError Unit :=
  if record.version ≠ 1 then .error .unsupported
  else if record.owner = {} then
    if record.expiresAt ≠ 0 then .error .tombstoneDeadline else .ok ()
  else if !validOwner record.owner || record.expiresAt = 0 then .error .invalidOwnership
  else .ok ()

def validateObservation (observed : Observation) : Except ClaimError Unit :=
  if observed.now = 0 then .error .noClock
  else if observed.revision = 0 then
    if observed.record ≠ {} then .error .unversioned else .ok ()
  else validateRecord observed.record

/-- By the provider's clock, some owner still holds the lease. -/
def Observation.Held (observed : Observation) : Prop :=
  observed.record.owner ≠ {} ∧ observed.now < observed.record.expiresAt

instance (observed : Observation) : Decidable observed.Held :=
  inferInstanceAs (Decidable (_ ∧ _))

/-! ## Transitions -/

/-- The record `Acquire` asks the store to swap in after this observation. -/
def acquireRecord (owner : Owner) (ttl : Int) (observed : Observation) :
    Except ClaimError Record :=
  match validateObservation observed with
  | .error e => .error e
  | .ok () =>
    if observed.Held ∧ observed.record.owner ≠ owner then .error .held
    else
      let expires := observed.now + ttl
      -- the same incarnation's lease is never shortened
      let expires :=
        if observed.record.owner = owner ∧ expires < observed.record.expiresAt then
          observed.record.expiresAt
        else expires
      .ok { version := 1, owner := owner, expiresAt := expires }

/-- The record `Release` asks the store to swap in; `none` if there is nothing to release. -/
def releaseRecord (owner : Owner) (observed : Observation) : Except ClaimError (Option Record) :=
  match validateObservation observed with
  | .error e => .error e
  | .ok () =>
    if observed.record.owner = {} then .ok none
    else if observed.record.owner ≠ owner then .error .notOwner
    else .ok (some { version := 1 })

/-- `ConfirmOwnerGone`: read-only evidence that the record names someone else. -/
def confirmOwnerGone (owner : Owner) (observed : Observation) : Except ClaimError Unit :=
  match validateObservation observed with
  | .error e => .error e
  | .ok () => if observed.record.owner = owner then .error .conflict else .ok ()

/-- The arguments `acquireUntil` and `Acquire` accept. -/
def ValidAcquire (owner : Owner) (ttl : Int) : Prop :=
  validOwner owner ∧ second < ttl ∧ ttl ≤ maxTTL

instance (owner : Owner) (ttl : Int) : Decidable (ValidAcquire owner ttl) :=
  inferInstanceAs (Decidable (_ ∧ _))

/-! ## What a transition promises -/

theorem validOwner_ne_empty {owner : Owner} (h : validOwner owner) : owner ≠ {} := by
  intro he
  subst he
  cases h

/-- What `Acquire` writes, given that it writes. -/
structure AcquireSpec (owner : Owner) (ttl : Int) (observed : Observation) (next : Record) :
    Prop where
  taken : next.owner = owner
  /-- Nobody else held the lease. -/
  free : observed.record.owner = {} ∨ observed.record.owner = owner ∨
    observed.record.expiresAt ≤ observed.now
  long : observed.now + ttl ≤ next.expiresAt
  /-- The same incarnation's lease is not shortened. -/
  kept : observed.record.owner = owner → observed.record.expiresAt ≤ next.expiresAt

/-- What `Acquire` writes meets its promise. -/
theorem acquireRecord_spec {owner : Owner} {ttl : Int} {observed : Observation} {next : Record}
    (h : acquireRecord owner ttl observed = .ok next) : AcquireSpec owner ttl observed next := by
  unfold acquireRecord at h
  split at h
  · cases h
  split at h
  · cases h
  rename_i hheld
  have hfree : observed.record.owner = {} ∨ observed.record.owner = owner ∨
      observed.record.expiresAt ≤ observed.now := by
    by_cases he : observed.record.owner = {}
    · exact Or.inl he
    by_cases ho : observed.record.owner = owner
    · exact Or.inr (Or.inl ho)
    refine Or.inr (Or.inr ?_)
    by_contra hlt
    exact hheld ⟨⟨he, by omega⟩, ho⟩
  injection h with h
  subst h
  refine ⟨rfl, hfree, ?_, ?_⟩
  · dsimp only
    split <;> omega
  · intro ho
    dsimp only
    split_ifs with hnot
    · omega
    by_contra hlt
    exact hnot ⟨ho, by omega⟩

/-- Only the owner's own record is replaced, and by a tombstone. -/
theorem releaseRecord_spec {owner : Owner} {observed : Observation} {next : Record}
    (h : releaseRecord owner observed = .ok (some next)) :
    observed.record.owner = owner ∧ next.owner = {} := by
  unfold releaseRecord at h
  split at h
  · cases h
  split at h
  · cases h
  split at h
  · cases h
  rename_i ho
  injection h with h
  injection h with h
  subst h
  exact ⟨by simpa using ho, rfl⟩

end Goobers.SharedClaim
