import Goobers.Claims.Run
import Goobers.Lib.Latest

/-!
# Every write of the ledger, by cases

Each operation is inverted once: if it writes, then it makes one `Change`, or a
batch of grants, or drops expired leases; a migration moves item-only entries.
The invariants are proved from `Changes` and never look at an operation again.
-/

namespace Goobers.Claims

open Lib List
open SharedClaim (Owner Record)

variable {key : ClaimKey} {entry expected : ClaimEntry}
  {storageKey runID workflow reasonCode actor : String} {owner : Owner}
  {deadline leaseDuration : Int}

/-- The batch `ReclaimAll` gives, entry by entry. -/
def giveAll (t : Table) (entryOf : PlannedClaim → ClaimEntry) (cs : List PlannedClaim) : Table :=
  cs.foldl (fun u c => (u.setEntry c.storageKey (some (entryOf c))).recordHistory c.storageKey
    (entryOf c)) t

def dropAll (t : Table) (now : Int) (rs : List (String × ClaimEntry)) : Table :=
  rs.foldl (fun u r => (u.recordReleasedHistory r.1 r.2 now).setEntry r.1 none) t

/-- Its undo; `t` holds the maps before the batch. -/
def undropAll (t u : Table) (rs : List (String × ClaimEntry)) : Table :=
  rs.foldl (fun u r => (u.setEntry r.1 (some r.2)).restoreHistory r.2.runID r.1
    (t.historyEntry r.2.runID r.1)) u

section
variable (entryOf : PlannedClaim → ClaimEntry) (cs : List PlannedClaim)
  (rs : List (String × ClaimEntry)) (ms : List Migration) (now : Int) (t u : Table) (r k : String)

theorem giveAll_entry :
    ((giveAll u entryOf cs).entries.get? k = u.entries.get? k ∧ ∀ p ∈ cs, p.storageKey ≠ k) ∨
      ∃ p ∈ cs, p.storageKey = k ∧ (giveAll u entryOf cs).entries.get? k = some (entryOf p) :=
  foldl_place_cases (fun u k => u.entries.get? k) PlannedClaim.storageKey
    (fun p => some (entryOf p)) (fun u p k => by exact Table.get?_setEntry u _ _ k) cs u k

theorem giveAll_history :
    ((giveAll u entryOf cs).historyEntry r k = u.historyEntry r k ∧
        ∀ p ∈ cs, ((entryOf p).runID, p.storageKey) ≠ (r, k)) ∨
      ∃ p ∈ cs, ((entryOf p).runID, p.storageKey) = (r, k) ∧
        (giveAll u entryOf cs).historyEntry r k = some (entryOf p) :=
  foldl_place_cases (fun u (x : String × String) => u.historyEntry x.1 x.2)
    (fun p => ((entryOf p).runID, p.storageKey)) (fun p => some (entryOf p))
    (fun u p x => by simp [Table.historyEntry_recordHistory, Prod.ext_iff]) cs u (r, k)

theorem dropAll_entry :
    ((dropAll u now rs).entries.get? k = u.entries.get? k ∧ ∀ x ∈ rs, x.1 ≠ k) ∨
      ∃ x ∈ rs, x.1 = k ∧ (dropAll u now rs).entries.get? k = none :=
  foldl_place_cases (fun u k => u.entries.get? k) Prod.fst (fun _ => none)
    (fun u x k => by exact Table.get?_setEntry _ x.1 none k) rs u k

/-- A dropped entry is in the history with the instant it was released; the rest is untouched. -/
theorem dropAll_history :
    ((dropAll u now rs).historyEntry r k = u.historyEntry r k ∧
        ∀ x ∈ rs, (x.2.runID, x.1) ≠ (r, k)) ∨
      ∃ x ∈ rs, (x.2.runID, x.1) = (r, k) ∧
        (dropAll u now rs).historyEntry r k = some { x.2 with releasedAt := some now } :=
  foldl_place_cases (fun u (x : String × String) => u.historyEntry x.1 x.2)
    (fun x => (x.2.runID, x.1)) (fun x => some { x.2 with releasedAt := some now })
    (fun u x y => by
      simp [Table.recordReleasedHistory, Table.historyEntry_recordHistory, Prod.ext_iff])
    rs u (r, k)

theorem undropAll_entry :
    ((undropAll t u rs).entries.get? k = u.entries.get? k ∧ ∀ x ∈ rs, x.1 ≠ k) ∨
      ∃ x ∈ rs, x.1 = k ∧ (undropAll t u rs).entries.get? k = some x.2 :=
  foldl_place_cases (fun u k => u.entries.get? k) Prod.fst (fun x => some x.2)
    (fun u x k => by rw [Table.restoreHistory_entries, Table.get?_setEntry]) rs u k

theorem undropAll_history :
    ((undropAll t u rs).historyEntry r k = u.historyEntry r k ∧
        ∀ x ∈ rs, (x.2.runID, x.1) ≠ (r, k)) ∨
      ∃ x ∈ rs, (x.2.runID, x.1) = (r, k) ∧
        (undropAll t u rs).historyEntry r k = t.historyEntry x.2.runID x.1 :=
  foldl_place_cases (fun u (x : String × String) => u.historyEntry x.1 x.2)
    (fun x => (x.2.runID, x.1)) (fun x => t.historyEntry x.2.runID x.1)
    (fun u x y => by simp [Table.historyEntry_restoreHistory, Prod.ext_iff]) rs u (r, k)

/-- A key is untouched by the moves, left by one of them, or reached by one. -/
theorem moveAll_entry :
    ((ms.foldl Table.move u).entries.get? k = u.entries.get? k ∧
        ∀ m ∈ ms, m.legacyKey ≠ k ∧ m.scopedKey ≠ k) ∨
      ∃ m ∈ ms, (m.legacyKey = k ∧ (ms.foldl Table.move u).entries.get? k = none) ∨
        (m.scopedKey = k ∧ (ms.foldl Table.move u).entries.get? k = some m.entry) := by
  -- a move is two writes, and the migration writes them one after the other
  have hwrites : ms.foldl Table.move u = (ms.flatMap (fun m =>
      [(m.legacyKey, none), (m.scopedKey, some m.entry)])).foldl
        (fun u w => u.setEntry w.1 w.2) u := by
    rw [foldl_flatMap]
    rfl
  rw [hwrites]
  rcases foldl_place_cases (fun u k => u.entries.get? k) Prod.fst Prod.snd
    (fun u w k => Table.get?_setEntry u w.1 w.2 k) _ u k with ⟨hsame, hother⟩ | ⟨w, hw, hkey, hput⟩
  · exact .inl ⟨hsame, fun m hm => ⟨hother (m.legacyKey, none) (mem_flatMap.mpr ⟨m, hm, by simp⟩),
      hother (m.scopedKey, some m.entry) (mem_flatMap.mpr ⟨m, hm, by simp⟩)⟩⟩
  · obtain ⟨m, hm, hw⟩ := mem_flatMap.mp hw
    rcases mem_pair.mp hw with rfl | rfl
    · exact .inr ⟨m, hm, .inl ⟨hkey, hput⟩⟩
    · exact .inr ⟨m, hm, .inr ⟨hkey, hput⟩⟩

end

/-! ## What a call changes -/

def ClaimEntry.Placed (e : ClaimEntry) (key : String) : Prop :=
  (e.gaggle = "" ∧ e.provider = "" ∧ e.itemID = key ∧ e.externalID = key) ∨
    (e.itemID = e.externalID ∧
      ({ gaggle := e.gaggle, provider := e.provider, externalID := e.externalID } :
        ClaimKey).storageKey = .ok key)

def ClaimEntry.reclaimID (e : ClaimEntry) : String :=
  if e.externalID = "" then e.itemID else e.externalID

def Call.itemOnly : Call → List (String × String)
  | .claim itemID runID _ _ => [(itemID, runID)]
  | .renewEntry entry _ =>
    if !entry.isPublicationClaim ∧ (entry.gaggle = "" ∨ entry.provider = "") then
      [(entry.itemID, entry.runID)]
    else []
  | .reclaimAll entries runID _ _ =>
    (entries.filter (fun e => e.gaggle = "" && !e.isPublicationClaim &&
      !hasPrefix e.reclaimID mergeLockItemIDPrefix)).map (fun e => (e.reclaimID, runID))
  | _ => []

section
variable (encodedSize : String → Record → Nat)

/-- All a grant has checked and set. -/
structure GrantMade (t : Table) (now : Int) (key : String) (e : ClaimEntry) : Prop
    extends GrantOk t now key e where
  placed : e.Placed key
  /-- A scoped lease is given only if no other run's item-only lease is live. -/
  alone : e.gaggle ≠ "" → ∀ old, t.entries.get? e.itemID = some old →
    old.expired now = true ∨ old.runID = e.runID
  valid : validateSharedClaimEntry encodedSize key e = true

/-- All a new reservation for remote admission has checked and set. -/
structure ReserveMade (t : Table) (now : Int) (key : String) (e : ClaimEntry) : Prop
    extends ReserveOk t now key e where
  placed : e.Placed key
  ended : e.expired now = true
  /-- At the zero time the empty owner passes for a tombstone. -/
  valid : now ≠ 0 → validateSharedClaimEntry encodedSize key e = true

/-- One key's new entry and the history record that goes with it, for a call that writes. -/
inductive Change (c : Call) (t : Table) (now : Int) (key : String) :
    Option ClaimEntry → ClaimEntry → Effect → Prop
  | grant {e : ClaimEntry} (ok : GrantMade encodedSize t now key e)
      (asked : e.gaggle = "" → (e.itemID, e.runID) ∈ c.itemOnly) :
      Change c t now key (some e) e (.granted [grantOf key e])
  | finish {old e expected : ClaimEntry} {deadline : Int}
      (call : c = .finishSharedAdmission expected deadline)
      (named : claimEntryStorageKey expected = .ok key) (held : t.entries.get? key = some old)
      (pending : old.sharedAdmissionPending = true) (unrevoked : old.sharedRevoked = false)
      (later : now < deadline)
      (change : e = { old with
        sharedAdmissionPending := false
        sharedDeadline := deadline
        expiresAt := deadline })
      (free : old.releasePending = false) :
      Change c t now key (some e) e (.granted [grantOf key e])
  | reserveNew {e : ClaimEntry} {claimKey : ClaimKey} {owner : Owner} {workflow : String}
      (call : c = .beginSharedAdmission claimKey owner workflow)
      (ok : ReserveMade encodedSize t now key e) :
      Change c t now key (some e) e (.reserved (custodyOf key e))
  | reserve {old e : ClaimEntry} {release admission : Bool}
      (held : t.entries.get? key = some old) (pending : (release || admission) = true)
      (owned : admission = true → old.sharedOwner ≠ {})
      (change : e = { old with releasePending := release, sharedAdmissionPending := admission })
      (free : old.releasePending = false) :
      Change c t now key (some e) e (.reserved (custodyOf key e))
  | release {old record : ClaimEntry} {pending : Bool} (held : t.entries.get? key = some old)
      (change : record = { old with releasePending := pending, releasedAt := some now })
      (free : old.transitionPending = false ∨ ∃ expected, c = .finishProviderRelease expected ∧
        claimEntryStorageKey expected = .ok key ∧ old.sameIncarnation expected = true) :
      Change c t now key none record (.released (custodyOf key old))
  | revoke {old e : ClaimEntry} {claimKey : ClaimKey} {owner : Owner} {actor : String}
      (call : c = .revokeSharedExecution claimKey owner actor)
      (named : claimKey.storageKey = .ok key) (held : t.entries.get? key = some old)
      (shared : old.sharedDeadline ≠ 0)
      (change : e = if now < old.sharedDeadline then
          { old with sharedRevoked := true, sharedDeadline := now, expiresAt := now }
        else { old with sharedRevoked := true }) :
      Change c t now key (some e) e (.revoked (custodyOf key old))
  | verify {old e : ClaimEntry} {observation : ClaimVerification}
      (held : t.entries.get? key = some old)
      (change : e = { old with verification := observation }) :
      Change c t now key (some e) e .verified

/-- What a call that is no migration writes, and what undoes it. -/
inductive Changes (c : Call) (t : Table) (now : Int) : Table → Table → Effect → Prop
  | one {key undoRun : String} {entry : Option ClaimEntry} {record : ClaimEntry} {effect : Effect}
      (change : Change encodedSize c t now key entry record effect)
      (undo : undoRun = record.runID ∨
        (record.sharedOwner ≠ {} ∧ undoRun = record.sharedOwner.run)) :
      Changes c t now ((t.setEntry key entry).recordHistory key record)
        ((((t.setEntry key entry).recordHistory key record).setEntry key
          (t.entries.get? key)).restoreHistory undoRun key (t.historyEntry undoRun key)) effect
  | give {cs : List PlannedClaim} {entryOf : PlannedClaim → ClaimEntry} {runID : String}
      {expiresAt : Int} (run : ∀ p ∈ cs, (entryOf p).runID = runID)
      (expires : ∀ p ∈ cs, (entryOf p).expiresAt = expiresAt)
      (oks : ∀ p ∈ cs, GrantMade encodedSize t now p.storageKey (entryOf p))
      (asked : ∀ p ∈ cs, (entryOf p).gaggle = "" →
        ((entryOf p).itemID, (entryOf p).runID) ∈ c.itemOnly) :
      Changes c t now (giveAll t entryOf cs)
        { entries := t.entries
          history := match t.history.get? runID with
            | some previous => (giveAll t entryOf cs).history.put runID previous
            | none => (giveAll t entryOf cs).history.del runID }
        (.granted (cs.map (fun p => grantOf p.storageKey (entryOf p))))
  | drop {rs : List (String × ClaimEntry)} (nodup : (rs.map Prod.fst).Nodup)
      (held : ∀ r ∈ rs, t.entries.get? r.1 = some r.2)
      (idle : ∀ r ∈ rs, r.2.transitionPending = false ∧ r.2.expired now = true) :
      Changes c t now (dropAll t now rs) (undropAll t (dropAll t now rs) rs)
        (.recovered (rs.map Prod.snd))

end

/-! ## Inverting the operations -/

variable {encodedSize : String → Record → Nat} {c : Call} {t next undone : Table} {now : Int}
  {effect : Effect}

theorem filter_eq_none {α : Type} {o : Option α} {p : α → Bool} (h : o.filter p = none) :
    ∀ a, o = some a → p a = false := by
  intro a ha
  subst ha
  cases hp : p a with
  | false => rfl
  | true => simp [hp] at h

/-- Whatever the attempt writes is one of the changes. -/
def Sound (encodedSize : String → Record → Nat) (c : Call) (t : Table) (now : Int)
    (a : Attempt) : Prop :=
  ∀ ⦃next undone effect⦄, a = .write next undone effect →
    Changes encodedSize c t now next undone effect

theorem sound_if {p : Prop} [Decidable p] {answer : Except LedgerError Answer} {a : Attempt}
    (h : ¬ p → Sound encodedSize c t now a) :
    Sound encodedSize c t now (if p then .done answer else a) := by
  split
  · exact nofun
  · exact h ‹_›

theorem sound_key {k : Except LedgerError String} {f : String → Attempt} :
    (∀ storageKey, k = .ok storageKey → Sound encodedSize c t now (f storageKey)) →
      Sound encodedSize c t now (match k with
        | .error e => .done (.error e)
        | .ok storageKey => f storageKey) := by
  intro h
  split
  · exact nofun
  · exact h _ rfl

theorem sound_held {held : Option ClaimEntry} {answer : Except LedgerError Answer}
    {f : ClaimEntry → Attempt} :
    (∀ e, held = some e → Sound encodedSize c t now (f e)) →
      Sound encodedSize c t now (match held with
        | none => .done answer
        | some e => f e) := by
  intro h
  split
  · exact nofun
  · exact h _ rfl

theorem sound_free {held : Option ClaimEntry} {answer : ClaimEntry → Except LedgerError Answer}
    {a : Attempt} :
    (held = none → Sound encodedSize c t now a) →
      Sound encodedSize c t now (match held with
        | some e => .done (answer e)
        | none => a) := by
  intro h
  split
  · exact nofun
  · exact h rfl

/-- Every operation that replaces one entry goes through this: a change, and what undoes it. -/
theorem replace_sound {key undoRun : String} {entry : Option ClaimEntry} {record : ClaimEntry}
    {r : Effect} (change : Change encodedSize c t now key entry record r)
    (undo : undoRun = record.runID ∨
      (record.sharedOwner ≠ {} ∧ undoRun = record.sharedOwner.run)) :
    Sound encodedSize c t now (t.replace key entry record undoRun r) := by
  intro next undone effect h
  injection h with h1 h2 h3
  subst h1 h2 h3
  exact .one change undo

theorem storageKey_parts (h : key.storageKey = .ok storageKey) :
    key.gaggle ≠ "" ∧ key.provider ≠ "" ∧ key.externalID ≠ "" := by
  unfold ClaimKey.storageKey at h
  split at h
  · cases h
  rename_i hne
  rw [not_or, not_or] at hne
  exact hne

theorem storageKey_gaggle (h : key.storageKey = .ok storageKey) : key.gaggle ≠ "" :=
  (storageKey_parts h).1

/-- What a claim asks of its arguments: where the lease goes and who is to own it. -/
structure ClaimArgs (encodedSize : String → Record → Nat) (storageKey legacyStorageKey : String)
    (key : ClaimKey) (runID : String) (deadline : Int) (owner : Owner) : Prop where
  place : (key.gaggle = "" ∧ key.provider = "" ∧ key.externalID = storageKey) ∨
    (key.storageKey = .ok storageKey ∧ legacyStorageKey = key.externalID)
  shared : (deadline = 0 ∧ owner = {}) ∨
    (deadline ≠ 0 ∧ owner.run = runID ∧ key.storageKey = .ok storageKey ∧
      encodes encodedSize key.externalID { version := 1, owner := owner, expiresAt := deadline })

theorem owner_of_encodes {key : String} (hdl : deadline ≠ 0)
    (h : encodes encodedSize key { version := 1, owner := owner, expiresAt := deadline } = true) :
    owner ≠ {} := by
  intro heq
  subst heq
  simp [encodes, SharedClaim.validateRecord, hdl] at h

theorem validateSharedClaimEntry_local {key : String} {e : ClaimEntry} (howner : e.sharedOwner = {})
    (hdl : e.sharedDeadline = 0) (hpending : e.sharedAdmissionPending = false) :
    validateSharedClaimEntry encodedSize key e = true := by
  unfold validateSharedClaimEntry
  rw [if_pos ⟨howner, hdl⟩, hpending]
  rfl

/-- What the check at load demands of a shared lease. -/
structure ClaimEntry.SharedOk (encodedSize : String → Record → Nat) (key : String)
    (e : ClaimEntry) : Prop where
  run : e.sharedOwner.run = e.runID
  place : ({ gaggle := e.gaggle, provider := e.provider, externalID := e.externalID } :
    ClaimKey).storageKey = .ok key
  item : e.itemID = e.externalID
  expires : e.expiresAt = e.sharedDeadline
  deadline : e.sharedDeadline ≠ 0
  fits : encodes encodedSize e.externalID
    { version := 1, owner := e.sharedOwner, expiresAt := e.sharedDeadline } = true

theorem ClaimEntry.SharedOk.validate {key : String} {e : ClaimEntry}
    (h : e.SharedOk encodedSize key) : validateSharedClaimEntry encodedSize key e = true := by
  have howner := owner_of_encodes h.deadline h.fits
  unfold validateSharedClaimEntry
  rw [if_neg (fun hc => howner hc.1), if_neg, h.place]
  · simp [h.item, h.expires, h.fits]
  · rintro (h1 | h1 | h1)
    · exact howner h1
    · exact h.deadline h1
    · exact h1 h.run

/-- An entry passes the check as a local one, or with everything a shared one needs. -/
theorem validateSharedClaimEntry_iff {key : String} {e : ClaimEntry} :
    validateSharedClaimEntry encodedSize key e = true ↔
      (e.sharedOwner = {} ∧ e.sharedDeadline = 0 ∧ e.sharedAdmissionPending = false) ∨
        e.SharedOk encodedSize key := by
  constructor
  · intro h
    unfold validateSharedClaimEntry at h
    split at h
    · rename_i hlocal
      exact .inl ⟨hlocal.1, hlocal.2, by simpa using h⟩
    split at h
    · cases h
    rename_i hshared
    rw [not_or, not_or, not_not] at hshared
    split at h
    · cases h
    rename_i expected hkey
    split at h
    · cases h
    rename_i hplace
    rw [not_or, not_not, not_not] at hplace
    split at h
    · cases h
    rename_i hexpires
    refine .inr ⟨hshared.2.2, ?_, hplace.2, not_not.mp hexpires, hshared.2.1, h⟩
    rw [hkey, hplace.1]
  · rintro (⟨howner, hdl, hpending⟩ | h)
    · exact validateSharedClaimEntry_local howner hdl hpending
    · exact h.validate

/-- `claimAt` grants a lease in the one way `Change.grant` describes, or writes nothing. -/
theorem claimAt_sound {legacyStorageKey : String}
    (hargs : ClaimArgs encodedSize storageKey legacyStorageKey key runID deadline owner)
    (hasked : key.gaggle = "" → (key.externalID, runID) ∈ c.itemOnly) :
    Sound encodedSize c t now (claimAt t now storageKey legacyStorageKey key runID workflow
      leaseDuration deadline owner) := by
  refine sound_if fun _ => ?_
  dsimp only
  generalize hexp : (if deadline = 0 then now + leaseDuration else deadline) = expires
  refine sound_if fun _ => sound_free fun hlegacy => sound_free fun hfree =>
    sound_if fun hrevoked => sound_if fun _ => sound_if fun _ => ?_
  obtain ⟨claimedAt, renewedAt, verification, heq⟩ := continueLease_eq
    (t.entries.get? storageKey)
    { itemID := key.externalID, gaggle := key.gaggle, provider := key.provider,
      externalID := key.externalID, runID := runID, workflow := workflow,
      claimedAt := now, expiresAt := expires, sharedDeadline := deadline,
      sharedOwner := owner } now
  rw [heq]
  -- what is left are the conditions of `GrantMade`
  refine replace_sound (.grant ⟨⟨?_, ?_, rfl, rfl, ?_, ?_, ?_⟩, ?_, ?_, ?_⟩ hasked) (.inl rfl)
  · intro old hold
    have hblock := filter_eq_none hfree old hold
    simp only [Bool.or_eq_false_iff, Bool.and_eq_false_iff, Bool.not_eq_false',
      decide_eq_false_iff_not, not_not] at hblock
    refine ⟨hblock.1, ?_⟩
    rcases hblock.2 with hexpired | hrun
    · exact Or.inl hexpired
    · exact Or.inr hrun.1
  · simpa using hrevoked
  · intro hdl
    rw [if_neg hdl] at hexp
    exact hexp.symm
  · intro howner
    rcases hargs.shared with ⟨_, hempty⟩ | ⟨_, hrun, _⟩
    · exact absurd hempty howner
    · exact hrun
  · intro hshared
    rcases hargs.shared with ⟨hdl, hempty⟩ | ⟨_, _, hkey, _⟩
    · rcases hshared with hne | hne
      · exact absurd hdl hne
      · exact absurd hempty hne
    · exact storageKey_gaggle hkey
  · rcases hargs.place with ⟨hgaggle, hprovider, hkey⟩ | ⟨hkey, _⟩
    · exact .inl ⟨hgaggle, hprovider, hkey, hkey⟩
    · exact .inr ⟨rfl, hkey⟩
  · intro hgaggle old hold
    rcases hargs.place with ⟨hempty, _⟩ | ⟨hkey, hlegacyKey⟩
    · exact absurd hempty hgaggle
    rw [hlegacyKey, if_pos (storageKey_parts hkey).2.2] at hlegacy
    have hblock := filter_eq_none hlegacy old hold
    simp only [Bool.or_eq_false_iff, Bool.not_eq_false'] at hblock
    exact .inl hblock.2
  · rcases hargs.shared with ⟨hdl, hempty⟩ | ⟨hdl, hrun, hkey, henc⟩
    · exact validateSharedClaimEntry_local hempty hdl rfl
    · refine ClaimEntry.SharedOk.validate ⟨hrun, hkey, rfl, ?_, hdl, henc⟩
      rw [if_neg hdl] at hexp
      exact hexp.symm

theorem claim_sound {itemID : String} (hasked : (itemID, runID) ∈ c.itemOnly) :
    Sound encodedSize c t now (claim t now itemID runID workflow leaseDuration) :=
  claimAt_sound ⟨.inl ⟨rfl, rfl, rfl⟩, .inl ⟨rfl, rfl⟩⟩ (fun _ => hasked)

theorem claimScoped_sound :
    Sound encodedSize c t now (claimScoped t now key runID workflow leaseDuration) :=
  sound_key fun _ hkey => claimAt_sound ⟨.inr ⟨hkey, rfl⟩, .inl ⟨rfl, rfl⟩⟩
    (fun hgaggle => absurd hgaggle (storageKey_gaggle hkey))

theorem claimScopedUntil_sound :
    Sound encodedSize c t now
      (claimScopedUntil encodedSize t now key runID workflow deadline owner) := by
  refine sound_if fun hdl => sound_if fun hrun => sound_if fun henc => sound_key fun _ hkey => ?_
  refine claimAt_sound ⟨.inr ⟨hkey, rfl⟩, .inr ⟨hdl, not_not.mp hrun, hkey, ?_⟩⟩
    (fun hgaggle => absurd hgaggle (storageKey_gaggle hkey))
  simpa using henc

theorem renewEntry_sound :
    Sound encodedSize (.renewEntry entry leaseDuration) t now
      (renewEntry t now entry leaseDuration) := by
  refine sound_if fun hpub => ?_
  split_ifs with hlegacy
  · have hasked : (Call.renewEntry entry leaseDuration).itemOnly = [(entry.itemID, entry.runID)] :=
      if_pos ⟨by simpa using hpub, hlegacy⟩
    refine claim_sound ?_
    rw [hasked]
    exact mem_singleton.mpr rfl
  · exact claimScoped_sound

/-- A planned claim is item-only and asked for, or scoped with its item-only key beside it. -/
theorem mem_planClaims {entries : List ClaimEntry} {seen : List String} {ps : List PlannedClaim}
    (runID workflow : String) (leaseDuration : Int) (h : planClaims entries seen = .ok ps)
    {p : PlannedClaim} (hp : p ∈ ps) :
    (p.key.gaggle = "" ∧ p.key.provider = "" ∧ p.key.externalID = p.storageKey ∧
      (p.key.externalID, runID) ∈ (Call.reclaimAll entries runID workflow leaseDuration).itemOnly) ∨
    (p.key.storageKey = .ok p.storageKey ∧ p.legacyStorageKey = p.key.externalID) := by
  -- on the entries; each is planned under the scheme its key has
  induction entries generalizing seen ps with
  | nil =>
    injection h with h
    rw [← h] at hp
    cases hp
  | cons entry entries ih =>
    -- what a later entry asks for, the whole list asks for
    have hlater : ∀ {seen ps}, planClaims entries seen = .ok ps → p ∈ ps →
        (p.key.gaggle = "" ∧ p.key.provider = "" ∧ p.key.externalID = p.storageKey ∧
          (p.key.externalID, runID) ∈
            (Call.reclaimAll (entry :: entries) runID workflow leaseDuration).itemOnly) ∨
        (p.key.storageKey = .ok p.storageKey ∧ p.legacyStorageKey = p.key.externalID) := by
      intro seen ps h hp
      rcases ih h hp with ⟨h1, h2, h3, h4⟩ | hscoped
      · refine .inl ⟨h1, h2, h3, ?_⟩
        obtain ⟨e, he, heq⟩ := mem_map.mp h4
        refine mem_map.mpr ⟨e, ?_, heq⟩
        rw [mem_filter] at he ⊢
        exact ⟨mem_cons_of_mem _ he.1, he.2⟩
      · exact .inr hscoped
    unfold planClaims at h
    split at h
    · exact hlater h hp
    rename_i hpub
    dsimp only at h
    generalize hitem : (if entry.externalID = "" then entry.itemID else entry.externalID) = item
      at h
    change entry.reclaimID = item at hitem
    split at h
    · exact hlater h hp
    rename_i hmerge
    split at h
    · cases h
    split at h
    · cases h
    split at h
    · cases h
    rename_i hnamespace
    split at h
    · cases h
    rename_i storageKey hstored
    split at h
    · cases h
    split at h
    · cases h
    rename_i planned hplan
    injection h with h
    rw [← h] at hp
    rcases mem_cons.mp hp with rfl | hp
    · by_cases hgaggle : entry.gaggle = ""
      · have hprovider : entry.provider = "" := by
          simpa [hgaggle] using hnamespace
        simp only [hgaggle] at hstored
        injection hstored with hstored
        refine .inl ⟨hgaggle, hprovider, hstored, ?_⟩
        refine mem_map.mpr ⟨entry, ?_, by rw [hitem]⟩
        rw [mem_filter, hitem]
        refine ⟨mem_cons_self, ?_⟩
        simp only [hgaggle, Bool.and_eq_true]
        exact ⟨⟨by simp, by simpa using hpub⟩, by simpa using hmerge⟩
      · rw [if_pos hgaggle] at hstored
        exact .inr ⟨hstored, if_pos hgaggle⟩
    · exact hlater hplan hp

/-- What no refusal was found for is free for the run. -/
theorem free_of_refusePlannedClaims {cs : List PlannedClaim}
    (h : refusePlannedClaims t runID now cs = none) {p : PlannedClaim} (hp : p ∈ cs) :
    t.revokedOn runID p.storageKey = false ∧
      (∀ old, t.entries.get? p.storageKey = some old → old.transitionPending = false ∧
        (old.expired now = true ∨ old.runID = runID)) ∧
      (p.legacyStorageKey ≠ "" → ∀ old, t.entries.get? p.legacyStorageKey = some old →
        old.expired now = true ∨ old.runID = runID) := by
  -- on the planned claims; none of them was refused
  induction cs with
  | nil => cases hp
  | cons c cs ih =>
    unfold refusePlannedClaims at h
    dsimp only at h
    split at h
    · cases h
    split at h
    · cases h
    rename_i hrevoked
    split at h
    · cases h
    split at h
    · cases h
    rename_i hlegacy
    split at h
    · cases h
    rename_i hfree
    rcases mem_cons.mp hp with rfl | hp
    · refine ⟨by simpa using hrevoked, fun old hold => ?_, fun hne old hold => ?_⟩
      · have hblock := filter_eq_none hfree old hold
        simp only [Bool.or_eq_false_iff, Bool.and_eq_false_iff, Bool.not_eq_false',
          decide_eq_false_iff_not, not_not] at hblock
        exact hblock
      · rw [if_pos hne] at hlegacy
        have hblock := filter_eq_none hlegacy old hold
        simp only [Bool.or_eq_false_iff, Bool.and_eq_false_iff, Bool.not_eq_false',
          decide_eq_false_iff_not, not_not] at hblock
        exact hblock.2
    · exact ih h hp

theorem reclaimedEntry_eq (t : Table) (runID workflow : String) (leaseDuration now : Int)
    (p : PlannedClaim) :
    ∃ claimedAt renewedAt verification,
      reclaimedEntry t runID workflow leaseDuration now p =
        { itemID := p.key.externalID, gaggle := p.key.gaggle, provider := p.key.provider,
          externalID := p.key.externalID, runID := runID, workflow := workflow,
          claimedAt := claimedAt, renewedAt := renewedAt, verification := verification,
          expiresAt := now + leaseDuration } := by
  obtain ⟨claimedAt, renewedAt, verification, heq⟩ := continueLease_eq
    (t.entries.get? p.storageKey)
    { itemID := p.key.externalID, gaggle := p.key.gaggle, provider := p.key.provider,
      externalID := p.key.externalID, runID := runID, workflow := workflow,
      claimedAt := now, expiresAt := now + leaseDuration } now
  exact ⟨claimedAt, renewedAt, verification, heq⟩

theorem reclaimAll_sound {entries : List ClaimEntry} :
    Sound encodedSize (.reclaimAll entries runID workflow leaseDuration) t now
      (reclaimAll t now entries runID workflow leaseDuration) := by
  refine sound_if fun _ => sound_if fun _ => ?_
  intro next undone effect h
  split at h
  · cases h
  rename_i unsorted hplan
  dsimp only at h
  split at h
  · cases h
  · cases h
  rename_i hrefuse
  injection h with h1 h2 h3
  subst h1 h2 h3
  have hmem : ∀ p, p ∈ unsorted.insertionSort (fun a b => ¬ b.storageKey < a.storageKey) →
      p ∈ unsorted := fun p hp => (mem_insertionSort _).mp hp
  have hlease : ∀ p, (reclaimedEntry t runID workflow leaseDuration now p).runID = runID ∧
      (reclaimedEntry t runID workflow leaseDuration now p).expiresAt
        = now + leaseDuration := by
    intro p
    obtain ⟨claimedAt, renewedAt, verification, heq⟩ :=
      reclaimedEntry_eq t runID workflow leaseDuration now p
    rw [heq]
    exact ⟨rfl, rfl⟩
  -- a batch gives each planned key to the run; its keys were all checked before
  refine .give (fun p _ => (hlease p).1) (fun p _ => (hlease p).2)
    (fun p hp => ?_) (fun p hp => ?_)
  all_goals
    obtain ⟨claimedAt, renewedAt, verification, heq⟩ :=
      reclaimedEntry_eq t runID workflow leaseDuration now p
    have hplace := mem_planClaims runID workflow leaseDuration hplan (hmem p hp)
  · obtain ⟨hrevoked, hfree, hlegacy⟩ := free_of_refusePlannedClaims hrefuse hp
    rw [heq]
    refine ⟨⟨hfree, hrevoked, rfl, rfl, fun hdl => absurd rfl hdl,
      fun hne => absurd rfl hne, by simp⟩, ?_, ?_,
      validateSharedClaimEntry_local rfl rfl rfl⟩
    · rcases hplace with ⟨hgaggle, hprovider, hkey, _⟩ | ⟨hkey, _⟩
      · exact .inl ⟨hgaggle, hprovider, hkey, hkey⟩
      · exact .inr ⟨rfl, hkey⟩
    · intro hgaggle old hold
      rcases hplace with ⟨hempty, _⟩ | ⟨hkey, hlegacyKey⟩
      · exact absurd hempty hgaggle
      · rw [hlegacyKey] at hlegacy
        exact hlegacy (storageKey_parts hkey).2.2 old hold
  · rw [heq]
    intro hgaggle
    rcases hplace with ⟨_, _, _, hasked⟩ | ⟨hkey, _⟩
    · exact hasked
    · exact absurd hgaggle (storageKey_gaggle hkey)

theorem releaseAt_sound :
    Sound encodedSize c t now (releaseAt t now storageKey runID owner reasonCode) :=
  sound_held fun _ hheld => sound_if fun _ => sound_if fun hrun => sound_if fun hidle =>
    sound_if fun _ => sound_if fun _ => replace_sound
      (.release hheld rfl (.inl (by simpa using hidle))) (.inl (not_not.mp hrun).symm)

theorem releaseScoped_sound :
    Sound encodedSize c t now (releaseScoped t now key runID reasonCode) :=
  sound_key fun _ _ => releaseAt_sound

theorem releaseSharedScoped_sound :
    Sound encodedSize c t now (releaseSharedScoped t now key owner reasonCode) :=
  sound_if fun _ => sound_key fun _ _ => releaseAt_sound

theorem releaseEntry_sound :
    Sound encodedSize c t now (releaseEntry t now entry runID reasonCode) := by
  unfold releaseEntry
  split
  · exact releaseAt_sound
  · exact releaseScoped_sound

theorem forceReleaseAt_sound {publicationReason : String} {audit : Audit} :
    Sound encodedSize c t now
      (forceReleaseAt t now storageKey actor owner publicationReason audit) :=
  sound_if fun _ => sound_held fun _ hheld => sound_if fun _ => sound_if fun hidle =>
    sound_if fun _ => sound_if fun _ => sound_if fun _ =>
      replace_sound (.release hheld rfl (.inl (by simpa using hidle))) (.inl rfl)

theorem forceReleaseEntry_sound :
    Sound encodedSize c t now (forceReleaseEntry t now entry actor) := by
  unfold forceReleaseEntry
  split
  · exact forceReleaseAt_sound
  · exact sound_key fun _ _ => forceReleaseAt_sound

theorem forceReleasePublicationEntry_sound {reason : String} {audit : Audit} :
    Sound encodedSize c t now
      (forceReleasePublicationEntry t now entry actor reason audit) :=
  sound_if fun _ => sound_key fun _ _ => forceReleaseAt_sound

theorem forceReleaseShared_sound :
    Sound encodedSize c t now (forceReleaseShared t now key owner actor) :=
  sound_key fun _ _ => forceReleaseAt_sound

theorem recoverExpired_sound : Sound encodedSize c t now (recoverExpired t now) := by
  refine sound_if fun _ => ?_
  intro next undone effect h
  injection h with h1 h2 h3
  subst h1 h2 h3
  refine .drop ?_ ?_ ?_
  · exact (filter_sublist.map Prod.fst).nodup (GoMap.nodup_rows t.entries)
  · intro r hr
    exact GoMap.mem_rows.mp (mem_filter.mp hr).1
  · intro r hr
    have hcond := (mem_filter.mp hr).2
    simp only [Bool.and_eq_true, Bool.not_eq_true', decide_eq_true_eq] at hcond
    exact ⟨hcond.1.2, hcond.2⟩

theorem beginSharedAdmission_sound :
    Sound encodedSize (.beginSharedAdmission key owner workflow) t now
      (beginSharedAdmission encodedSize t now key owner workflow) := by
  refine sound_if fun _ => sound_key fun storageKey hkey => sound_if fun hencodes =>
    sound_if fun hrevoked => sound_free fun _ => sound_free fun hfree =>
    sound_if fun hpending => ?_
  have hblock := filter_eq_none hfree
  simp only [Bool.or_eq_false_iff, Bool.and_eq_false_iff, Bool.not_eq_false',
    decide_eq_false_iff_not, not_not] at hblock
  split_ifs with hnew
  · refine replace_sound (.reserveNew rfl
      ⟨⟨?_, ?_, rfl, rfl, rfl, rfl, storageKey_gaggle hkey⟩, .inr ⟨rfl, hkey⟩,
        by simp [ClaimEntry.expired], fun hnow => ?_⟩) (.inl rfl)
    · intro old hold
      obtain ⟨⟨⟨hrel, _⟩, _⟩, hexp⟩ := hblock old hold
      have hadm : old.sharedAdmissionPending = false := by
        simpa [hold] using hpending
      exact ⟨by simp [ClaimEntry.transitionPending, hrel, hadm], hexp⟩
    · simpa using hrevoked
    · exact ClaimEntry.SharedOk.validate
        ⟨rfl, hkey, rfl, rfl, hnow, by simpa using hencodes⟩
  · cases hheld : t.entries.get? storageKey with
    | none => exact absurd (Or.inl hheld) hnew
    | some old =>
      rw [hheld] at hnew
      have howner : old.sharedOwner ≠ {} := fun heq => hnew (.inr heq)
      obtain ⟨⟨⟨hrel, _⟩, hown⟩, _⟩ := hblock old hheld
      have hsame : old.sharedOwner = owner := by
        rcases hown with hempty | hsame
        · exact absurd hempty howner
        · exact hsame
      have hpend : (old.releasePending || true) = true := Bool.or_true _
      exact replace_sound (.reserve hheld hpend (fun _ => howner) rfl hrel)
        (.inr ⟨howner, by rw [Option.getD_some, hsame]⟩)

theorem finishSharedAdmission_sound :
    Sound encodedSize (.finishSharedAdmission expected deadline) t now
      (finishSharedAdmission t now expected deadline) := by
  refine sound_key fun _ hkey => sound_held fun current hheld => sound_if fun hmatch =>
    sound_if fun hrevoked => sound_if fun hlate => ?_
  simp only [Bool.or_eq_true, not_or] at hmatch
  have hpending : current.sharedAdmissionPending = true := by simpa using hmatch.1.2
  have hfree : current.releasePending = false := by simpa using hmatch.2
  exact replace_sound
    (.finish rfl hkey hheld hpending (by simpa using hrevoked) (by omega) rfl hfree) (.inl rfl)

theorem beginReleaseAt_sound {shared : Bool} {expiredAt : Int} :
    Sound encodedSize c t now (beginReleaseAt t expected shared expiredAt) :=
  sound_if fun _ => sound_key fun _ _ => sound_held fun _ hheld => sound_if fun _ =>
    sound_if fun _ => sound_if fun _ => sound_if fun hfree =>
      replace_sound (.reserve hheld rfl (fun hf => by cases hf) rfl (by simpa using hfree))
        (.inl rfl)

theorem beginSharedRelease_sound {expiredAt : Int} :
    Sound encodedSize c t now (beginSharedRelease t expected expiredAt) :=
  sound_if fun _ => beginReleaseAt_sound

theorem finishProviderRelease_sound :
    Sound encodedSize (.finishProviderRelease expected) t now
      (finishProviderRelease t now expected) := by
  refine sound_key fun _ hkey => sound_held fun _ hheld => sound_if fun hsame => sound_if fun _ =>
    replace_sound (.release hheld rfl (.inr ⟨expected, rfl, hkey, ?_⟩)) (.inl rfl)
  simp only [Bool.or_eq_true, not_or, Bool.not_eq_true'] at hsame
  simpa using hsame.1

theorem revokeSharedExecution_sound :
    Sound encodedSize (.revokeSharedExecution key owner actor) t now
      (revokeSharedExecution t now key owner actor) := by
  refine sound_key fun _ hkey => sound_if fun _ => sound_held fun entry hheld =>
    sound_if fun _ => sound_if fun howned => sound_if fun _ => ?_
  have hshared : entry.sharedDeadline ≠ 0 := fun heq => howned (Or.inr heq)
  refine replace_sound (.revoke rfl hkey hheld hshared rfl) (.inl ?_)
  split <;> rfl

theorem recordClaimVerification_sound {observation : ClaimVerification} :
    Sound encodedSize c t now (recordClaimVerification t now expected observation) :=
  sound_key fun _ _ => sound_if fun _ => sound_held fun _ hheld => sound_if fun _ =>
    sound_if fun _ => replace_sound (.verify hheld rfl) (.inl rfl)

theorem migrateLegacyClaims_writes {resolve : ClaimEntry → Resolved}
    (h : migrateLegacyClaims t resolve = .write next undone effect) :
    ∃ ms, planMigrations t resolve (legacyClaims t) [] = .ok ms ∧ next = ms.foldl Table.move t ∧
      undone = t ∧ effect = .migrated (ms.map (fun m => grantOf m.scopedKey m.entry)) := by
  unfold migrateLegacyClaims at h
  split at h
  · cases h
  · cases h
  rename_i ms _ hplan
  injection h with h1 h2 h3
  exact ⟨ms, hplan, h1.symm, h2.symm, h3.symm⟩

/-- **What a call can write**, a migration apart. -/
theorem attempt_changes (hc : c.isMigration = false)
    (h : c.attempt encodedSize t now = .write next undone effect) :
    Changes encodedSize c t now next undone effect := by
  cases c with
  | claim => exact claim_sound (mem_singleton.mpr rfl) h
  | claimScoped => exact claimScoped_sound h
  | claimScopedUntil => exact claimScopedUntil_sound h
  | reclaimAll => exact reclaimAll_sound h
  | renewEntry => exact renewEntry_sound h
  | release => exact releaseAt_sound h
  | releaseScoped => exact releaseScoped_sound h
  | releaseSharedScoped => exact releaseSharedScoped_sound h
  | releaseEntry => exact releaseEntry_sound h
  | forceRelease =>
    unfold Call.attempt forceRelease at h
    exact forceReleaseAt_sound h
  | forceReleaseEntry => exact forceReleaseEntry_sound h
  | forceReleasePublicationEntry => exact forceReleasePublicationEntry_sound h
  | forceReleaseShared => exact forceReleaseShared_sound h
  | recoverExpired => exact recoverExpired_sound h
  | beginSharedAdmission => exact beginSharedAdmission_sound h
  | finishSharedAdmission => exact finishSharedAdmission_sound h
  | beginProviderRelease => exact beginReleaseAt_sound h
  | beginSharedRelease => exact beginSharedRelease_sound h
  | finishProviderRelease => exact finishProviderRelease_sound h
  | revokeSharedExecution => exact revokeSharedExecution_sound h
  | recordClaimVerification => exact recordClaimVerification_sound h
  | migrateLegacyClaims => cases hc

/-- All that a call can write: one of the `Changes`, or a migration. -/
theorem attempt_cases (h : c.attempt encodedSize t now = .write next undone effect) :
    Changes encodedSize c t now next undone effect ∨
      ∃ resolve ms, c = .migrateLegacyClaims resolve ∧
        planMigrations t resolve (legacyClaims t) [] = .ok ms ∧ next = ms.foldl Table.move t ∧
        undone = t ∧ effect = .migrated (ms.map (fun m => grantOf m.scopedKey m.entry)) := by
  cases hc : c.isMigration with
  | false => exact .inl (attempt_changes hc h)
  | true =>
    cases c with
    | migrateLegacyClaims resolve =>
      obtain ⟨ms, hplan, hrest⟩ := migrateLegacyClaims_writes h
      exact .inr ⟨resolve, ms, rfl, hplan, hrest⟩
    | _ => cases hc

end Goobers.Claims
