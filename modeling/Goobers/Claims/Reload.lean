import Goobers.Claims.KeySchemes
import Mathlib.Algebra.GroupWithZero.Nat

/-!
# The ledger's own file

`OpenClaimLedger` refuses a file with an entry that `validateSharedClaimEntry` refuses, active or
in a run's history, and then nothing of the ledger can be used. So no operation may write such an
entry. Each of them rewrites some of the fields the check relates: owner and run, deadline and
expiry, and the record that has to fit the coordination store.

The last is the one that two operations do not look at. A reservation is encoded with the time it
is made at; finishing it replaces that time by the deadline, and revoking replaces the deadline by
the time of the revocation, without encoding the record again. Where the new instant takes more
characters than the old one, a record at the limit is over it.
-/

namespace Goobers.Claims

open Lib Table
open SharedClaim (Owner Record)

section
variable (encodedSize : String → Record → Nat)

/-- What the check at load demands of a record of the history. -/
structure HistoryOk (runID key : String) (e : ClaimEntry) : Prop where
  valid : validateSharedClaimEntry encodedSize key e = true
  owned : e.sharedOwner ≠ {} → e.runID = runID

/-- Maps that are accepted once they are in the file. -/
structure Loadable (t : Table) : Prop where
  placed : t.Placed
  shaped : t.Shaped
  valid : ∀ k e, t.entries.get? k = some e → validateSharedClaimEntry encodedSize k e = true
  history : ∀ r k e, t.historyEntry r k = some e → HistoryOk encodedSize r k e

structure Call.Encodes (c : Call) (t : Table) (now : Int) : Prop where
  /-- The deadline an admission is finished with. -/
  finish : ∀ expected deadline, c = .finishSharedAdmission expected deadline →
    ∀ k old, claimEntryStorageKey expected = .ok k → t.entries.get? k = some old →
      old.sharedAdmissionPending = true →
      encodes encodedSize old.externalID
        { version := 1, owner := old.sharedOwner, expiresAt := deadline } = true
  /-- The time of a revocation that ends a lease early. -/
  revoke : ∀ key owner actor, c = .revokeSharedExecution key owner actor →
    ∀ k old, key.storageKey = .ok k → t.entries.get? k = some old → now < old.sharedDeadline →
      encodes encodedSize old.externalID
        { version := 1, owner := old.sharedOwner, expiresAt := now } = true
  /-- A reservation is not made at the zero time. -/
  reserve : ∀ key owner workflow, c = .beginSharedAdmission key owner workflow → now ≠ 0

def StepEncodes (l : Ledger) (s : Step) : Prop :=
  ∀ c t, s.action = .call c → l.handle = some t → c.Encodes encodedSize t s.now

def RunEncodes : Ledger → List Step → Prop
  | _, [] => True
  | l, s :: steps => StepEncodes encodedSize l s ∧ RunEncodes (l.step encodedSize s).1 steps

end

section
variable {encodedSize : String → Record → Nat} {c : Call} {t next undone : Table} {now : Int}
  {effect : Effect} {k : String} {e record : ClaimEntry}

/-! ## What the check reads -/

theorem sharedOk_of_valid (h : validateSharedClaimEntry encodedSize k e = true)
    (hshared : e.sharedOwner ≠ {} ∨ e.sharedDeadline ≠ 0 ∨ e.sharedAdmissionPending = true) :
    e.SharedOk encodedSize k := by
  rcases validateSharedClaimEntry_iff.mp h with ⟨howner, hdl, hpending⟩ | hok
  · rcases hshared with h1 | h1 | h1
    · exact absurd howner h1
    · exact absurd hdl h1
    · rw [hpending] at h1
      cases h1
  · exact hok

theorem deadline_of_encodes {key : String} {owner : Owner} {deadline : Int} (howner : owner ≠ {})
    (h : encodes encodedSize key { version := 1, owner := owner, expiresAt := deadline } = true) :
    deadline ≠ 0 := by
  intro heq
  subst heq
  simp [encodes, SharedClaim.validateRecord, howner] at h

theorem ClaimEntry.SharedOk.owner (h : e.SharedOk encodedSize k) : e.sharedOwner ≠ {} :=
  owner_of_encodes h.deadline h.fits

theorem ClaimEntry.SharedOk.extend {old : ClaimEntry} {instant : Int}
    (h : old.SharedOk encodedSize k)
    (henc : encodes encodedSize old.externalID
      { version := 1, owner := old.sharedOwner, expiresAt := instant } = true)
    (hplace : e.Continues { old with expiresAt := instant })
    (howner : e.sharedOwner = old.sharedOwner) (hdl : e.sharedDeadline = instant) :
    e.SharedOk encodedSize k := by
  have hne : instant ≠ 0 := deadline_of_encodes h.owner henc
  refine ⟨?_, ?_, ?_, ?_, ?_, ?_⟩
  · rw [howner, hplace.runID]
    exact h.run
  · rw [hplace.gaggle, hplace.provider, hplace.externalID]
    exact h.place
  · rw [hplace.itemID, hplace.externalID]
    exact h.item
  · rw [hplace.expiresAt, hdl]
  · rw [hdl]
    exact hne
  · rw [hplace.externalID, howner, hdl]
    exact henc

/-- The check does not look at the flags of an entry with an owner, or at the dates of any. -/
theorem validateSharedClaimEntry_congr {old : ClaimEntry}
    (h : validateSharedClaimEntry encodedSize k old = true) (hplace : e.Continues old)
    (howner : e.sharedOwner = old.sharedOwner) (hdl : e.sharedDeadline = old.sharedDeadline)
    (hpending : e.sharedAdmissionPending = true →
      old.sharedAdmissionPending = true ∨ old.sharedOwner ≠ {}) :
    validateSharedClaimEntry encodedSize k e = true := by
  rcases validateSharedClaimEntry_iff.mp h with ⟨hempty, hzero, hidle⟩ | hok
  · refine validateSharedClaimEntry_local (howner.trans hempty) (hdl.trans hzero) ?_
    cases hflag : e.sharedAdmissionPending with
    | false => rfl
    | true =>
      rcases hpending hflag with hp | hp
      · rw [hidle] at hp
        cases hp
      · exact absurd hempty hp
  · refine (hok.extend hok.fits ?_ howner hdl).validate
    exact ⟨hplace.gaggle, hplace.provider, hplace.itemID, hplace.externalID, hplace.runID,
      hplace.expiresAt.trans hok.expires⟩

/-! ## One change -/

/-- Every lease a call writes passes the check the next load makes. -/
theorem Change.valid (h : Change encodedSize c t now k (some e) record effect)
    (hok : Loadable encodedSize t) (henc : c.Encodes encodedSize t now) :
    validateSharedClaimEntry encodedSize k e = true := by
  cases h with
  | grant made => exact made.valid
  | finish call named held pending unrevoked later change =>
    -- the check was made with the time of the reservation, which the deadline replaces
    have hold := sharedOk_of_valid (hok.valid _ _ held) (.inr (.inr pending))
    subst change
    exact ClaimEntry.SharedOk.validate (hold.extend
      (henc.finish _ _ call k _ named held pending) ⟨rfl, rfl, rfl, rfl, rfl, rfl⟩ rfl rfl)
  | reserveNew call made => exact made.valid (henc.reserve _ _ _ call)
  | reserve held pending owned change =>
    subst change
    exact validateSharedClaimEntry_congr (hok.valid _ _ held) ⟨rfl, rfl, rfl, rfl, rfl, rfl⟩ rfl
      rfl (fun hadmission => .inr (owned hadmission))
  | revoke call named held shared change =>
    have hold := sharedOk_of_valid (hok.valid _ _ held) (.inr (.inl shared))
    -- a revocation cuts a deadline that is still to come, and leaves one that has passed
    split_ifs at change with hearly
    · subst change
      exact ClaimEntry.SharedOk.validate (hold.extend
        (henc.revoke _ _ _ call k _ named held hearly) ⟨rfl, rfl, rfl, rfl, rfl, rfl⟩ rfl rfl)
    · subst change
      exact validateSharedClaimEntry_congr (hok.valid _ _ held) ⟨rfl, rfl, rfl, rfl, rfl, rfl⟩
        rfl rfl .inl
  | verify held change =>
    subst change
    exact validateSharedClaimEntry_congr (hok.valid _ _ held) ⟨rfl, rfl, rfl, rfl, rfl, rfl⟩ rfl
      rfl .inl

theorem Change.record_valid {entry : Option ClaimEntry}
    (h : Change encodedSize c t now k entry record effect) (hok : Loadable encodedSize t)
    (henc : c.Encodes encodedSize t now) :
    validateSharedClaimEntry encodedSize k record = true := by
  cases entry with
  | some e =>
    have hrecord := h.record_eq
    subst hrecord
    exact h.valid hok henc
  | none =>
    cases h with
    | release held change =>
      subst change
      exact validateSharedClaimEntry_congr (hok.valid _ _ held)
        ⟨rfl, rfl, rfl, rfl, rfl, rfl⟩ rfl rfl .inl

/-! ## The histories -/

theorem historyEntry_retained {clock : Int} {r : String}
    (h : (t.retained clock).historyEntry r k = some e) : t.historyEntry r k = some e := by
  unfold historyEntry retained retainedHistory at h
  simp only [GoMap.get?_sift] at h
  unfold historyEntry
  cases hrun : t.history.get? r with
  | none => simp [hrun] at h
  | some ofRun =>
    rw [hrun, Option.bind_some] at h
    obtain ⟨kept, hkept, hget⟩ := Option.bind_eq_some_iff.mp h
    unfold retainRun at hkept
    -- a run keeps all of its history, only what is revoked in it, or nothing
    split at hkept
    · exact hkept ▸ hget
    · dsimp only at hkept
      split at hkept
      · cases hkept
      injection hkept with hkept
      rw [← hkept, GoMap.get?_sift] at hget
      obtain ⟨e', he', hrevoked⟩ := Option.bind_eq_some_iff.mp hget
      split at hrevoked
      · exact hrevoked ▸ he'
      · cases hrevoked

/-! ## One call -/

/-- So does every record it leaves in the history. -/
theorem Changes.history (h : Changes encodedSize c t now next undone effect)
    (hok : Loadable encodedSize t) (henc : c.Encodes encodedSize t now) {r : String}
    (he : next.historyEntry r k = some e) : HistoryOk encodedSize r k e := by
  cases h with
  | @one key undoRun entry record _ change undo =>
    rw [historyEntry_recordHistory, setEntry_historyEntry] at he
    split_ifs at he with hsame
    · injection he with he
      obtain ⟨hrun, hkey⟩ := hsame
      subst he hkey
      exact ⟨change.record_valid hok henc, fun _ => hrun.symm⟩
    · exact hok.history r k e he
  | give run expires oks asked =>
    rcases giveAll_history _ _ t r k with ⟨hsame, _⟩ | ⟨p, hp, hplace, hput⟩
    · exact hok.history r k e (hsame.symm.trans he)
    · obtain rfl := Option.some.inj (hput.symm.trans he)
      injection hplace with hrun hkey
      exact ⟨hkey ▸ (oks p hp).valid, fun _ => hrun⟩
  | drop nodup held idle =>
    rcases dropAll_history _ now t r k with ⟨hsame, _⟩ | ⟨x, hx, hplace, hput⟩
    · exact hok.history r k e (hsame.symm.trans he)
    obtain rfl := Option.some.inj (hput.symm.trans he)
    injection hplace with hrun hkey
    subst hkey
    refine ⟨?_, fun _ => hrun⟩
    exact validateSharedClaimEntry_congr (hok.valid _ _ (held x hx))
      ⟨rfl, rfl, rfl, rfl, rfl, rfl⟩ rfl rfl .inl

theorem moveAll_valid {resolve : ClaimEntry → Resolved} {ms : List Migration}
    (hplan : planMigrations t resolve (legacyClaims t) [] = .ok ms) (hok : Loadable encodedSize t)
    (he : (ms.foldl move t).entries.get? k = some e) :
    validateSharedClaimEntry encodedSize k e = true := by
  rcases get?_moveAll_cases he with hold | ⟨m, hm, hkey, hentry⟩
  · exact hok.valid k e hold
  obtain ⟨old, gaggle, provider, hold, hgaggle, _, hmoved⟩ := mem_migrations hplan hm
  have hlocal : old.sharedOwner = {} ∧ old.sharedDeadline = 0 ∧
      old.sharedAdmissionPending = false := by
    rcases validateSharedClaimEntry_iff.mp (hok.valid _ _ hold) with hlocal | hshared
    · exact hlocal
    · -- a shared entry has a gaggle
      exact absurd hgaggle (storageKey_gaggle hshared.place)
  rw [← hentry, hmoved]
  exact validateSharedClaimEntry_local hlocal.1 hlocal.2.1 hlocal.2.2

/-- A file that loads still loads after any call, and after the call is undone. -/
theorem attempt_loadable (h : c.attempt encodedSize t now = .write next undone effect)
    (hok : Loadable encodedSize t) (henc : c.Encodes encodedSize t now) :
    Loadable encodedSize next ∧ Loadable encodedSize undone := by
  -- the undo puts the entries back, so only its histories are in question
  have hentries := attempt_undone_entries h
  have hundone : (∀ r k, undone.historyEntry r k = t.historyEntry r k) →
      Loadable encodedSize undone := by
    intro hhistory
    refine ⟨fun k e he => ?_, fun k e he => ?_, fun k e he => ?_, fun r k e he => ?_⟩
    · exact hok.placed k e (hentries k ▸ he)
    · exact hok.shaped k e (hentries k ▸ he)
    · exact hok.valid k e (hentries k ▸ he)
    · exact hok.history r k e (hhistory r k ▸ he)
  have hplaced := attempt_placed h hok.placed
  have hshaped := attempt_shaped h hok.shaped
  rcases attempt_cases h with hchanges | ⟨_, ms, _, hplan, hms, hsame, _⟩
  · refine ⟨⟨hplaced, hshaped, fun k e he => ?_, fun r k e he => hchanges.history hok henc he⟩,
      hundone (hchanges.undone_history (fun k e he => (hok.shaped k e he).owner))⟩
    rcases hchanges.entry_cases he with hold | ⟨_, _, hchange⟩
    · exact hok.valid k e hold
    · exact hchange.valid hok henc
  · subst hms
    refine ⟨⟨hplaced, hshaped, fun k e he => moveAll_valid hplan hok he, fun r k e he => ?_⟩,
      hundone (fun _ _ => by rw [hsame])⟩
    rw [historyEntry_moveAll] at he
    exact hok.history r k e he

theorem Loadable.retained (h : Loadable encodedSize t) (clock : Int) :
    Loadable encodedSize (t.retained clock) :=
  ⟨h.placed, h.shaped, h.valid, fun r k e he => h.history r k e (historyEntry_retained he)⟩

/-! ## Reading the file back -/

/-- `load` accepts such a table at any time. -/
theorem Loadable.load (h : Loadable encodedSize t) (time : Int) :
    ∃ u, Claims.load encodedSize (.state claimLedgerSchema t) time = .ok u := by
  -- reading back fills in no item of a placed entry, so the check sees the entries of the file
  have hfill : ∀ k e, t.fillItems.entries.get? k = some e → t.entries.get? k = some e := by
    intro k e he
    unfold fillItems at he
    rw [GoMap.get?_sift] at he
    obtain ⟨old, hold, heq⟩ := Option.bind_eq_some_iff.mp he
    rw [(h.placed k old hold).fillItem] at heq
    exact heq ▸ hold
  have hvalid : t.fillItems.validateSharedClaims encodedSize = true := by
    unfold validateSharedClaims
    rw [Bool.and_eq_true, List.all_eq_true, List.all_eq_true]
    refine ⟨fun r hr => ?_, fun x hx => ?_⟩
    · exact h.valid r.1 r.2 (hfill _ _ (GoMap.mem_rows.mp hr))
    · rw [List.all_eq_true]
      intro r hr
      have hentry : t.historyEntry x.1 r.1 = some r.2 := by
        have hrun : t.history.get? x.1 = some x.2 := GoMap.mem_rows.mp hx
        unfold historyEntry
        rw [hrun]
        exact GoMap.mem_rows.mp hr
      obtain ⟨hv, howned⟩ := h.history _ _ _ hentry
      rw [hv, Bool.true_and, Bool.or_eq_true, decide_eq_true_eq, decide_eq_true_eq]
      by_cases hempty : r.2.sharedOwner = {}
      · exact .inl hempty
      · exact .inr (howned hempty)
  refine ⟨t.fillItems.retained time, ?_⟩
  unfold Claims.load
  simp [hvalid]

theorem loadable_empty : Loadable encodedSize {} := by
  refine ⟨fun k e he => ?_, fun k e he => ?_, fun k e he => ?_, fun r k e he => ?_⟩
  · cases he
  · cases he
  · cases he
  · cases he

theorem load_loadable {file : ClaimsFile} (h : load encodedSize file now = .ok t)
    (hok : Loadable encodedSize file.table) : Loadable encodedSize t := by
  have hentries := load_entries_of_placed h hok.placed
  refine ⟨fun k e he => ?_, fun k e he => ?_, fun k e he => ?_, fun r k e he => ?_⟩
  · exact hok.placed k e (hentries k ▸ he)
  · exact hok.shaped k e (hentries k ▸ he)
  · exact hok.valid k e (hentries k ▸ he)
  · rw [load_eq h] at he
    have hfilled : file.table.fillItems.historyEntry r k = some e := historyEntry_retained he
    exact hok.history r k e hfilled

/-! ## Runs -/

def ClaimsFile.Ours (file : ClaimsFile) : Prop :=
  file = .absent ∨ ∃ t, file = .state claimLedgerSchema t

theorem step_ours {l : Ledger} {s : Step} (h : l.file.Ours) :
    (l.step encodedSize s).1.file.Ours := by
  refine step_elim encodedSize l s (fun _ _ => h) (fun _ _ => h) (fun _ _ => h) ?_
  intro c t next undone effect _ _ _ _
  cases s.io with
  | ok | renamed => exact .inr ⟨_, rfl⟩
  | unchanged => exact h

theorem step_loadable {l : Ledger} {s : Step} (h : l.All (Loadable encodedSize))
    (hs : StepEncodes encodedSize l s) :
    (l.step encodedSize s).1.All (Loadable encodedSize) := by
  refine step_all h (fun _ ht => ht) (fun t hload hfile => load_loadable hload hfile) ?_
  intro c t next undone effect hc ht hok hattempt _
  obtain ⟨hnext, hundone⟩ := attempt_loadable hattempt hok (hs c t hc ht)
  exact ⟨fun _ => hnext.retained s.clock, hundone⟩

theorem run_loadable {l : Ledger} {steps : List Step} (hours : l.file.Ours)
    (h : l.All (Loadable encodedSize)) (hs : RunEncodes encodedSize l steps) :
    (l.run encodedSize steps).file.Ours ∧
      (l.run encodedSize steps).All (Loadable encodedSize) := by
  induction steps generalizing l with
  | nil => exact ⟨hours, h⟩
  | cons s steps ih => exact ih (step_ours hours) (step_loadable h hs.1) hs.2

end

/--
**The ledger accepts its own file, if what it writes encodes.** After any calls from the empty
ledger whose new instants encode for their owner, the file is accepted whenever it is read. So
are the maps in memory once they are persisted, and each entry there passes the check and is
under its own storage key.
-/
theorem ledger_accepts_own_file (encodedSize : String → Record → Nat) (steps : List Step)
    (hrun : RunEncodes encodedSize {} steps) :
    let l := ({} : Ledger).run encodedSize steps
    (∀ time, ∃ u, load encodedSize l.file time = .ok u) ∧
      ∀ t, l.handle = some t →
        (∀ clock time, ∃ u,
          load encodedSize (.state claimLedgerSchema (t.retained clock)) time = .ok u) ∧
        ∀ k e, t.entries.get? k = some e →
          validateSharedClaimEntry encodedSize k e = true ∧ claimEntryStorageKey e = .ok k := by
  obtain ⟨hours, hfile, hhandle⟩ := run_loadable (.inl rfl) (all_empty loadable_empty) hrun
  refine ⟨fun time => ?_, fun t ht => ⟨fun clock time => ?_, fun k e he => ?_⟩⟩
  · rcases hours with habsent | ⟨t, hstate⟩
    · rw [habsent]
      exact ⟨({} : Table).fillItems.retained time, rfl⟩
    · rw [hstate] at hfile ⊢
      exact hfile.load time
  · exact ((hhandle t ht).retained clock).load time
  · exact ⟨(hhandle t ht).valid k e he, ((hhandle t ht).placed k e he).storageKey⟩

/-! ## A record at the limit -/

/-- The bytes of a character in a JSON text. -/
def jsonCharSize (c : Char) : Nat :=
  if c = '"' ∨ c = '\\' then 2
  else if c = '<' ∨ c = '>' ∨ c = '&' ∨ c.toNat = 0x2028 ∨ c.toNat = 0x2029 then 6
  else c.utf8Size

def jsonTextSize (s : String) : Nat := (s.toList.map jsonCharSize).sum

/-- The length of an instant's RFC 3339 text in UTC: trailing zeros of the fraction are left out. -/
def instantSize (instant : Int) : Nat :=
  let ns := (instant % 1000000000).toNat
  20 + if ns = 0 then 0 else 10 - ((List.range 9).filter (fun i => ns % 10 ^ (i + 1) = 0)).length

/-- The length of a coordination record of version 1; the names and the protocol are 128 bytes. -/
def recordSize (key : String) (record : Record) : Nat :=
  128 + jsonTextSize key + jsonTextSize record.owner.instance_ + jsonTextSize record.owner.run +
    jsonTextSize record.owner.token + instantSize record.expiresAt

/-- A text of characters that take six bytes each. -/
def angles (n : Nat) : String := String.ofList (List.replicate n '<')

theorem angles_size (n : Nat) : (angles n).utf8ByteSize = n := by
  induction n with
  | zero => rfl
  | succ n ih =>
    unfold angles at ih ⊢
    rw [List.replicate_succ, String.ofList_cons, String.utf8ByteSize_append, ih]
    show 1 + n = n + 1
    omega

theorem validIdentityText_angles {n limit : Nat} (hpos : 0 < n) (hle : n ≤ limit) :
    SharedClaim.validIdentityText (angles n) limit = true := by
  have hne : n ≠ 0 := by omega
  unfold SharedClaim.validIdentityText
  rw [angles_size]
  simp [angles, SharedClaim.isControl, hle, hne]

theorem jsonTextSize_angles (n : Nat) : jsonTextSize (angles n) = 6 * n := by
  unfold jsonTextSize angles
  rw [String.toList_ofList, List.map_replicate, List.sum_replicate_nat]
  show n * 6 = 6 * n
  omega

/-- An owner whose record is just below the limit. -/
def longOwner : Owner := { instance_ := angles 256, run := angles 256, token := angles 145 }

theorem recordSize_longOwner (instant : Int) :
    recordSize "42" { version := 1, owner := longOwner, expiresAt := instant } =
      4072 + instantSize instant := by
  have hkey : jsonTextSize "42" = 2 := by decide
  unfold recordSize longOwner
  rw [hkey, jsonTextSize_angles, jsonTextSize_angles]

theorem encodes_longOwner {instant : Int} (hne : instant ≠ 0) :
    encodes recordSize "42" { version := 1, owner := longOwner, expiresAt := instant } =
      decide (4072 + instantSize instant ≤ 4096) := by
  have howner : SharedClaim.validOwner longOwner = true := by
    unfold SharedClaim.validOwner longOwner
    rw [validIdentityText_angles (by omega) (by omega),
      validIdentityText_angles (by omega) (by omega)]
    rfl
  have hrecord : SharedClaim.validateRecord
      { version := 1, owner := longOwner, expiresAt := instant } = .ok () := by
    unfold SharedClaim.validateRecord
    rw [if_neg (by simp), if_neg (SharedClaim.validOwner_ne_empty howner),
      if_neg (by simp [howner, hne])]
  unfold encodes
  rw [hrecord, recordSize_longOwner]
  rfl

def admissionKey : ClaimKey := { gaggle := "g", provider := "github", externalID := "42" }

theorem admissionKey_storageKey : admissionKey.storageKey = .ok "v2|g|github|42" := by rfl

/-- The reservation an owner makes at two seconds, or the lease it becomes. -/
def admission (owner : Owner) (deadline : Int) (pending : Bool) : ClaimEntry :=
  { itemID := "42", gaggle := "g", provider := "github", externalID := "42", runID := owner.run,
    workflow := "work", claimedAt := 2000000000, expiresAt := deadline,
    sharedDeadline := deadline, sharedOwner := owner, sharedAdmissionPending := pending }

def admissionRun (owner : Owner) (deadline : Int) : List Step :=
  [⟨.openLedger, 1000000000, .ok, 1000000000⟩,
   ⟨.call (.beginSharedAdmission admissionKey owner "work"), 2000000000, .ok, 2000000000⟩,
   ⟨.call (.finishSharedAdmission (admission owner 2000000000 true) deadline), 3000000000, .ok,
      3000000000⟩]

theorem begin_admission {owner : Owner}
    (h : encodes recordSize "42" { version := 1, owner := owner, expiresAt := 2000000000 } = true) :
    beginSharedAdmission recordSize {} 2000000000 admissionKey owner "work" =
      ({} : Table).replace "v2|g|github|42" (some (admission owner 2000000000 true))
        (admission owner 2000000000 true) owner.run
        (.reserved ⟨"v2|g|github|42", owner.run⟩) := by
  unfold beginSharedAdmission
  rw [show admissionKey.externalID = "42" from rfl, h]
  rfl

theorem finish_admission {owner : Owner} {t : Table} {deadline : Int}
    (hlater : 3000000000 < deadline)
    (h : t.entries.get? "v2|g|github|42" = some (admission owner 2000000000 true)) :
    finishSharedAdmission t 3000000000 (admission owner 2000000000 true) deadline =
      storeClaim t "v2|g|github|42" (admission owner deadline false) := by
  have hkey : claimEntryStorageKey (admission owner 2000000000 true) = .ok "v2|g|github|42" := by
    unfold claimEntryStorageKey
    exact admissionKey_storageKey
  have hsame : (admission owner 2000000000 true).sameIncarnation
      (admission owner 2000000000 true) = true := by
    simp [ClaimEntry.sameIncarnation]
  unfold finishSharedAdmission
  rw [hkey]
  dsimp only
  rw [h]
  dsimp only
  rw [hsame, if_neg (by simp [admission]), if_neg (by simp [admission]), if_neg (by omega)]
  rfl

def Table.stored (t : Table) (e : ClaimEntry) (clock : Int) : Table :=
  ((t.setEntry "v2|g|github|42" (some e)).recordHistory "v2|g|github|42" e).retained clock

@[simp] theorem Table.get?_stored (t : Table) (e : ClaimEntry) (clock : Int) :
    (t.stored e clock).entries.get? "v2|g|github|42" = some e := by
  unfold stored
  rw [retained_entries, recordHistory_entries, get?_setEntry, if_pos rfl]

theorem admissionRun_file {owner : Owner} {deadline : Int} (hlater : 3000000000 < deadline)
    (h : encodes recordSize "42" { version := 1, owner := owner, expiresAt := 2000000000 } = true) :
    (({} : Ledger).run recordSize (admissionRun owner deadline)).file =
      .state claimLedgerSchema
        ((({} : Table).stored (admission owner 2000000000 true) 2000000000).stored
          (admission owner deadline false) 3000000000) := by
  generalize hreserved : ({} : Table).stored (admission owner 2000000000 true) 2000000000 = t
  have hget : t.entries.get? "v2|g|github|42" = some (admission owner 2000000000 true) := by
    rw [← hreserved, get?_stored]
  have hopen : (({} : Ledger).step recordSize ⟨.openLedger, 1000000000, .ok, 1000000000⟩).1 =
      ⟨.absent, some {}⟩ := rfl
  have hbegin : ((⟨.absent, some {}⟩ : Ledger).step recordSize
      ⟨.call (.beginSharedAdmission admissionKey owner "work"), 2000000000, .ok, 2000000000⟩).1 =
        ⟨.state claimLedgerSchema t, some t⟩ := by
    unfold Ledger.step
    dsimp only [Call.attempt]
    rw [begin_admission h, ← hreserved]
    rfl
  unfold admissionRun
  rw [Ledger.run, hopen, Ledger.run, hbegin, Ledger.run]
  unfold Ledger.step
  dsimp only [Call.attempt]
  rw [finish_admission hlater hget]
  rfl

theorem valid_of_load {encodedSize : String → Record → Nat} {file : ClaimsFile} {u : Table}
    {time : Int} (h : load encodedSize file time = .ok u) {k : String} {e : ClaimEntry}
    (he : file.table.fillItems.entries.get? k = some e) :
    validateSharedClaimEntry encodedSize k e = true := by
  have hvalid := (load_ok h).2
  unfold validateSharedClaims at hvalid
  rw [Bool.and_eq_true, List.all_eq_true] at hvalid
  exact hvalid.1 (k, e) (GoMap.mem_rows.mpr he)

/--
The owner's record fits with the time of the reservation and does not with the deadline, whose
fraction takes more characters. After the admission is finished the file is refused.
-/
theorem admissionRun_refused :
    (load recordSize (({} : Ledger).run recordSize (admissionRun longOwner 5123456789)).file
      4000000000).toOption = none := by
  have hfits : encodes recordSize "42"
      { version := 1, owner := longOwner, expiresAt := 2000000000 } = true := by
    rw [encodes_longOwner (by decide)]
    decide
  have hover : encodes recordSize "42"
      { version := 1, owner := longOwner, expiresAt := 5123456789 } = false := by
    rw [encodes_longOwner (by decide)]
    decide
  rw [admissionRun_file (by decide) hfits]
  -- if the file were accepted, the record of the lease would fit
  cases hload : load recordSize _ 4000000000 with
  | error e => rfl
  | ok u =>
    have hvalid : validateSharedClaimEntry recordSize "v2|g|github|42"
        (admission longOwner 5123456789 false) = true := by
      refine valid_of_load hload ?_
      unfold fillItems ClaimsFile.table
      rfl
    have hfit := (sharedOk_of_valid hvalid (.inr (.inl (by decide)))).fits
    change encodes recordSize "42"
      { version := 1, owner := longOwner, expiresAt := 5123456789 } = true at hfit
    rw [hover] at hfit
    cases hfit

/-- An owner with an ordinary identity. -/
def shortOwner : Owner := { instance_ := "host-1", run := "run-a", token := "t1" }

theorem admissionRun_accepted :
    ∃ u, load recordSize (({} : Ledger).run recordSize (admissionRun shortOwner 5123456789)).file
      4000000000 = .ok u := by
  refine (ledger_accepts_own_file recordSize (admissionRun shortOwner 5123456789) ?_).1 4000000000
  refine ⟨?_, ?_, ?_, trivial⟩
  · intro c t hc
    cases hc
  · intro c t hc _
    cases hc
    refine ⟨fun _ _ hcall => ?_, fun _ _ _ hcall => ?_, fun _ _ _ _ => by decide⟩
    · cases hcall
    · cases hcall
  · intro c t hc ht
    cases hc
    refine ⟨fun expected deadline hcall k old hkey hold _ => ?_, fun _ _ _ hcall => ?_,
      fun _ _ _ hcall => ?_⟩
    · cases hcall
      have hplace : ∀ u ∈ (({} : Ledger).run recordSize
          ((admissionRun shortOwner 5123456789).take 2)).handle,
          ∀ k ∈ (claimEntryStorageKey (admission shortOwner 2000000000 true)).toOption,
          ∀ old ∈ u.entries.get? k, encodes recordSize old.externalID
            { version := 1, owner := old.sharedOwner, expiresAt := 5123456789 } = true := by
        decide
      exact hplace t ht k (by rw [hkey]; rfl) old hold
    · cases hcall
    · cases hcall

end Goobers.Claims
