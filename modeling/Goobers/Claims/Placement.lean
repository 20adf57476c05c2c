import Goobers.Claims.Renewal

/-!
# Where an entry is

An item-only entry is under its item id, a scoped one under the escaped gaggle, provider and
external id. Nothing in the maps says so: a lookup trusts the key it computes, and an entry that
reached another key would be out of reach of every release. So that an entry is *placed* is an
invariant of every operation, and the one the results on the two key schemes and on reading the
file back start from.
-/

namespace Goobers.Claims

open Lib
open SharedClaim (Owner Record)

/-- Every entry is under its own key. -/
def Table.Placed (t : Table) : Prop := ∀ k e, t.entries.get? k = some e → e.Placed k

/-- Every entry's fields hang together. -/
def Table.Shaped (t : Table) : Prop := ∀ k e, t.entries.get? k = some e → e.Shaped

namespace ClaimEntry.Placed

variable {k : String} {e : ClaimEntry}

theorem storageKey (h : e.Placed k) : claimEntryStorageKey e = .ok k := by
  unfold claimEntryStorageKey
  rcases h with ⟨hgaggle, hprovider, hitem, _⟩ | ⟨_, hkey⟩
  · rw [if_pos ⟨hgaggle, hprovider⟩, hitem]
  · -- a key with a storage key has a gaggle
    rw [if_neg (fun hc => (storageKey_parts hkey).1 hc.1), hkey]

theorem item_of_unscoped (h : e.Placed k) (hgaggle : e.gaggle = "") : e.itemID = k := by
  rcases h with ⟨_, _, hitem, _⟩ | ⟨_, hkey⟩
  · exact hitem
  · exact absurd hgaggle (storageKey_gaggle hkey)

theorem fillItem (h : e.Placed k) : Table.fillItem k e = e := by
  have hitem : (if e.itemID = "" then k else e.itemID) = e.itemID := by
    split_ifs with hempty
    · rcases h with ⟨_, _, hk, _⟩ | ⟨hsame, hkey⟩
      · exact hk.symm
      · exact absurd (hsame.symm.trans hempty) (storageKey_parts hkey).2.2
    · rfl
  have hext : (if e.externalID = "" then e.itemID else e.externalID) = e.externalID := by
    split_ifs with hempty
    · rcases h with ⟨_, _, hk, hk'⟩ | ⟨_, hkey⟩
      · rw [hk, hk']
      · exact absurd hempty (storageKey_parts hkey).2.2
    · rfl
  unfold Table.fillItem
  dsimp only
  rw [hitem, hext]

end ClaimEntry.Placed

theorem ClaimEntry.Placed.congr {k : String} {e old : ClaimEntry} (h : old.Placed k)
    (hgaggle : e.gaggle = old.gaggle) (hprovider : e.provider = old.provider)
    (hitem : e.itemID = old.itemID) (hext : e.externalID = old.externalID) : e.Placed k := by
  unfold ClaimEntry.Placed
  rw [hgaggle, hprovider, hitem, hext]
  exact h

/-! ## What a change leaves of the lease that was there -/

section
variable {encodedSize : String → Record → Nat} {c : Call} {t next undone : Table} {now : Int}
  {effect : Effect} {k : String} {e record : ClaimEntry}

/-- A lease with the same names, run and expiry as the one before. -/
structure ClaimEntry.Continues (e old : ClaimEntry) : Prop where
  gaggle : e.gaggle = old.gaggle
  provider : e.provider = old.provider
  itemID : e.itemID = old.itemID
  externalID : e.externalID = old.externalID
  runID : e.runID = old.runID
  expiresAt : e.expiresAt = old.expiresAt

theorem Change.lease_cases (h : Change encodedSize c t now k (some e) record effect) :
    (GrantMade encodedSize t now k e ∧ (e.gaggle = "" → (e.itemID, e.runID) ∈ c.itemOnly)) ∨
    (∃ expected deadline old, c = .finishSharedAdmission expected deadline ∧
      claimEntryStorageKey expected = .ok k ∧ t.entries.get? k = some old ∧
      old.sharedAdmissionPending = true ∧ e = { old with
        sharedAdmissionPending := false
        sharedDeadline := deadline
        expiresAt := deadline }) ∨
    e.expired now = true ∨ ∃ old, t.entries.get? k = some old ∧ e.Continues old := by
  cases h with
  | grant ok asked => exact .inl ⟨ok, asked⟩
  | finish call named held pending unrevoked later change =>
    exact .inr (.inl ⟨_, _, _, call, named, held, pending, change⟩)
  | reserveNew _ ok => exact .inr (.inr (.inl ok.ended))
  | reserve held pending owned change | verify held change =>
    subst change
    exact .inr (.inr (.inr ⟨_, held, rfl, rfl, rfl, rfl, rfl, rfl⟩))
  | revoke call named held shared change =>
    split at change
    · subst change
      refine .inr (.inr (.inl ?_))
      simp [ClaimEntry.expired]
    · subst change
      exact .inr (.inr (.inr ⟨_, held, rfl, rfl, rfl, rfl, rfl, rfl⟩))

/-- A lease is written under the key its own fields spell. -/
theorem Change.placed (h : Change encodedSize c t now k (some e) record effect)
    (hplaced : t.Placed) : e.Placed k := by
  cases h with
  | grant ok | reserveNew _ ok => exact ok.placed
  | finish _ _ held _ _ _ change | reserve held _ _ change | verify held change =>
    subst change
    exact (hplaced _ _ held).congr rfl rfl rfl rfl
  | revoke _ _ held _ change =>
    split at change
    all_goals
      subst change
      exact (hplaced _ _ held).congr rfl rfl rfl rfl

/-! ## What a call leaves under a key -/

theorem Changes.entry_cases (h : Changes encodedSize c t now next undone effect)
    (he : next.entries.get? k = some e) :
    t.entries.get? k = some e ∨
      ∃ record effect', Change encodedSize c t now k (some e) record effect' := by
  cases h with
  | @one key undoRun entry record _ change undo =>
    rw [Table.recordHistory_entries, Table.get?_setEntry] at he
    split_ifs at he with hk
    · subst hk he
      exact .inr ⟨_, _, change⟩
    · exact .inl he
  | give run expires oks asked =>
    rcases get?_giveAll_cases he with hold | ⟨p, hp, hkey, hentry⟩
    · exact .inl hold
    · subst hkey hentry
      exact .inr ⟨_, _, .grant (oks p hp) (asked p hp)⟩
  | drop => exact .inl (get?_dropAll_some he)

theorem Changes.new_run (h : Changes encodedSize c t now next undone effect) {k' : String}
    {e' : ClaimEntry} (he : next.entries.get? k = some e) (he' : next.entries.get? k' = some e')
    (hnew : t.entries.get? k ≠ some e) (hnew' : t.entries.get? k' ≠ some e') :
    e.runID = e'.runID := by
  cases h with
  | @one key undoRun entry record _ change undo =>
    rw [Table.recordHistory_entries, Table.get?_setEntry] at he he'
    by_cases hk : k = key
    · by_cases hk' : k' = key
      · rw [if_pos hk] at he
        rw [if_pos hk', he] at he'
        injection he' with he'
        rw [he']
      · rw [if_neg hk'] at he'
        exact absurd he' hnew'
    · rw [if_neg hk] at he
      exact absurd he hnew
  | give run expires oks asked =>
    rcases get?_giveAll_cases he with hold | ⟨p, hp, _, hentry⟩
    · exact absurd hold hnew
    · rcases get?_giveAll_cases he' with hold' | ⟨p', hp', _, hentry'⟩
      · exact absurd hold' hnew'
      · rw [← hentry, ← hentry', run p hp, run p' hp']
  | drop => exact absurd (get?_dropAll_some he) hnew

/-! ## A migration -/

theorem mem_migrations {resolve : ClaimEntry → Resolved} {ms : List Migration}
    (hplan : planMigrations t resolve (legacyClaims t) [] = .ok ms) {m : Migration} (hm : m ∈ ms) :
    ∃ old gaggle provider, t.entries.get? m.legacyKey = some old ∧ old.gaggle = "" ∧
      ({ gaggle := gaggle, provider := provider, externalID := old.itemID } : ClaimKey).storageKey
        = .ok m.scopedKey ∧
      m.entry = { old with gaggle := gaggle, provider := provider, externalID := old.itemID } := by
  obtain ⟨r, hr, hkey, gaggle, provider, _, hscoped, hentry, _⟩ := mem_planMigrations hplan hm
  have hrow := List.mem_filter.mp hr
  simp only [Bool.and_eq_true, decide_eq_true_eq] at hrow
  exact ⟨r.2, gaggle, provider, by rw [hkey]; exact GoMap.mem_rows.mp hrow.1, hrow.2.1.1, hscoped,
    hentry⟩

theorem get?_moveAll_legacy {ms : List Migration} {u : Table}
    (h : (ms.foldl Table.move u).entries.get? k = some e) (hk : ∃ m ∈ ms, m.legacyKey = k) :
    ∃ m ∈ ms, m.scopedKey = k ∧ m.entry = e := by
  rcases moveAll_entry ms u k with ⟨_, hother⟩ | ⟨m, hm, ⟨_, hput⟩ | ⟨hkey, hput⟩⟩
  · obtain ⟨m, hm, hkey⟩ := hk
    exact absurd hkey (hother m hm).1
  · cases hput.symm.trans h
  · exact ⟨m, hm, hkey, Option.some.inj (hput.symm.trans h)⟩

section
variable (h : c.attempt encodedSize t now = .write next undone effect)
include h

/-- Where an entry comes from: it was there, a call made it, or a migration moved it. -/
theorem attempt_entry_cases (he : next.entries.get? k = some e) :
    t.entries.get? k = some e ∨
      (∃ record effect', Change encodedSize c t now k (some e) record effect') ∨
      ∃ k' old gaggle provider, t.entries.get? k' = some old ∧
        ({ gaggle := gaggle, provider := provider, externalID := old.itemID } :
          ClaimKey).storageKey = .ok k ∧
        e = { old with gaggle := gaggle, provider := provider, externalID := old.itemID } := by
  rcases attempt_cases h with hchanges | ⟨_, ms, _, hplan, hms, _⟩
  · rcases hchanges.entry_cases he with hold | hchange
    · exact .inl hold
    · exact .inr (.inl hchange)
  · subst hms
    rcases get?_moveAll_cases he with hold | ⟨m, hm, hkey, hentry⟩
    · exact .inl hold
    · obtain ⟨old, gaggle, provider, hold, _, hscoped, hmoved⟩ := mem_migrations hplan hm
      exact .inr (.inr ⟨m.legacyKey, old, gaggle, provider, hold, hkey ▸ hscoped, hentry ▸ hmoved⟩)

theorem attempt_placed (hplaced : t.Placed) : next.Placed := by
  intro k e he
  rcases attempt_entry_cases h he with hold | ⟨_, _, hchange⟩ | ⟨_, _, _, _, _, hscoped, rfl⟩
  · exact hplaced k e hold
  · exact hchange.placed hplaced
  · exact .inr ⟨rfl, hscoped⟩

theorem attempt_shaped (hshaped : t.Shaped) : next.Shaped := by
  intro k e he
  rcases attempt_entry_cases h he with hold | ⟨_, _, hchange⟩ | ⟨_, _, _, _, hwas, hscoped, rfl⟩
  · exact hshaped k e hold
  · exact hchange.shaped hshaped
  · -- only the names change, and the new ones have a gaggle
    have hold := hshaped _ _ hwas
    exact ⟨hold.owner, hold.deadline, fun _ => storageKey_gaggle hscoped⟩

theorem attempt_owned (howned : t.Owned) : next.Owned := by
  intro k e he howner
  rcases attempt_entry_cases h he with hold | ⟨_, _, hchange⟩ | ⟨_, _, _, _, hwas, _, rfl⟩
  · exact howned k e hold howner
  · obtain rfl := hchange.record_eq
    exact hchange.record_owner howned howner
  · have hold := howned _ _ hwas
    exact hold howner

end

theorem load_entries_of_placed {file : ClaimsFile} (h : load encodedSize file now = .ok t)
    (hplaced : file.table.Placed) (k : String) :
    t.entries.get? k = file.table.entries.get? k := by
  rw [load_entries h, file.entries_eq]
  cases hget : file.table.entries.get? k with
  | none => rfl
  | some e => exact congrArg some (hplaced k e hget).fillItem

end

end Goobers.Claims
