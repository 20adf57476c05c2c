import Goobers.Claims.Exclusive

/-!
# A revocation is for good

A revocation lives in two places: the bit on the entry while the entry is there,
and the bit on the run's history of the key, which retention never drops. The
invariant is that the two agree: an entry is revoked exactly if its own run's
history of its key is. Every operation then reads the right answer wherever it
looks, so a revoked run gets no new lease on the key, and the one it had ended
at the revocation.

The one operation that reads neither is `MigrateLegacyClaims`: it moves a run's
item-only lease onto the scoped key without asking whether the run was revoked
there. The results below are about runs whose migrations do not do that.
-/

namespace Goobers.Claims

open Lib List Table
open SharedClaim (Owner Record)

variable {K R : String} {T : Int} {t next undone : Table} {now : Int} {effect : Effect}

variable {u : Table} {k : String} {e : ClaimEntry} {entryOf : PlannedClaim → ClaimEntry}
  {cs : List PlannedClaim} {rs : List (String × ClaimEntry)} {ms : List Migration}
  {encodedSize : String → Record → Nat} {c : Call} {steps : List Step}

/-! ## The bit in the history -/

theorem revokedOn_eq (t : Table) (r k : String) :
    t.revokedOn r k = ((t.historyEntry r k).map ClaimEntry.sharedRevoked).getD false := by
  unfold revokedOn
  cases t.historyEntry r k <;> rfl

theorem revokedOn_congr {t : Table} {r : String} (h : t.historyEntry r k = u.historyEntry r k) :
    t.revokedOn r k = u.revokedOn r k := by
  unfold revokedOn
  rw [h]

theorem revokedOn_recordHistory (t : Table) (k : String) (e : ClaimEntry) (r k' : String) :
    (t.recordHistory k e).revokedOn r k'
      = if r = e.runID ∧ k' = k then e.sharedRevoked else t.revokedOn r k' := by
  rw [revokedOn_eq, historyEntry_recordHistory]
  split_ifs with h
  · rfl
  · rw [revokedOn_eq]

@[simp] theorem revokedOn_setEntry (t : Table) (k : String) (e : Option ClaimEntry)
    (r k' : String) :
    (t.setEntry k e).revokedOn r k' = t.revokedOn r k' :=
  revokedOn_congr (setEntry_historyEntry t k e r k')

/-- Pruning the history forgets no revocation. -/
theorem retainRun_revoked (active : Bool) (cutoff : Int) (ofRun : Entries) (k : String) :
    (((retainRun active cutoff ofRun).bind (fun h => h.get? k)).map
        ClaimEntry.sharedRevoked).getD false
      = ((ofRun.get? k).map ClaimEntry.sharedRevoked).getD false := by
  have hsift := GoMap.get?_sift ofRun (fun _ e => if e.sharedRevoked then some e else none) k
  have hkept : (((ofRun.sift (fun _ e => if e.sharedRevoked then some e else none)).get? k).map
        ClaimEntry.sharedRevoked).getD false
      = ((ofRun.get? k).map ClaimEntry.sharedRevoked).getD false := by
    rw [hsift]
    cases ofRun.get? k with
    | none => rfl
    | some e => cases hrev : e.sharedRevoked <;> simp [hrev]
  unfold retainRun
  split
  · rfl
  dsimp only
  split
  · -- nothing of the run is kept, so nothing of it was revoked
    rename_i hempty
    rw [← hkept]
    cases hget : (ofRun.sift (fun _ e => if e.sharedRevoked then some e else none)).get? k with
    | none => rfl
    | some e =>
      have hmem := GoMap.mem_rows.mpr hget
      rw [hempty] at hmem
      cases hmem
  · exact hkept

/-- **Retention keeps every revocation**, and adds none. -/
@[simp] theorem revokedOn_retained (t : Table) (clock : Int) (r k : String) :
    (t.retained clock).revokedOn r k = t.revokedOn r k := by
  rw [revokedOn_eq, revokedOn_eq]
  unfold historyEntry retained retainedHistory
  simp only [GoMap.get?_sift]
  cases hrun : t.history.get? r with
  | none => rfl
  | some ofRun => exact retainRun_revoked _ _ ofRun k

/-! ## The invariant -/

def ClaimEntry.IsShared (e : ClaimEntry) : Prop :=
  e.sharedRevoked = true ∨ e.sharedDeadline ≠ 0 ∨ e.sharedOwner ≠ {} ∨
    e.sharedAdmissionPending = true

/-- How the fields of an entry hang together. -/
structure ClaimEntry.Shaped (e : ClaimEntry) : Prop where
  owner : e.sharedOwner ≠ {} → e.sharedOwner.run = e.runID
  deadline : e.sharedDeadline ≠ 0 → e.expiresAt = e.sharedDeadline
  /-- A shared claim is under a scoped key. -/
  named : e.IsShared → e.gaggle ≠ ""

/--
`R`'s entry of `K` carries the bit of `R`'s history of `K`, and if that is set,
it has ended by `T`.
-/
structure TableOk (K R : String) (T : Int) (t : Table) : Prop where
  shaped : ∀ k e, t.entries.get? k = some e → e.Shaped
  marked : ∀ e, t.entries.get? K = some e → e.runID = R → e.sharedRevoked = t.revokedOn R K
  ended : ∀ e, t.entries.get? K = some e → e.runID = R → t.revokedOn R K = true →
    e.expiresAt ≤ T

theorem TableOk.congr (h : TableOk K R T t) (hentries : ∀ k, u.entries.get? k = t.entries.get? k)
    (hrevoked : u.revokedOn R K = t.revokedOn R K) : TableOk K R T u := by
  refine ⟨fun k e he => ?_, fun e he hrun => ?_, fun e he hrun hrev => ?_⟩
  · rw [hentries] at he
    exact h.shaped k e he
  · rw [hentries] at he
    rw [hrevoked]
    exact h.marked e he hrun
  · rw [hentries] at he
    rw [hrevoked] at hrev
    exact h.ended e he hrun hrev

theorem TableOk.retained (h : TableOk K R T t) (clock : Int) : TableOk K R T (t.retained clock) :=
  h.congr (fun _ => rfl) (revokedOn_retained t clock R K)

/--
Entries that are new under their key keep the invariant if they are shaped and, for
`R` under `K`, marked and ended as it asks.
-/
theorem TableOk.of_new (h : TableOk K R T t) (hrevoked : next.revokedOn R K = t.revokedOn R K)
    (hnew : ∀ k e, next.entries.get? k = some e → t.entries.get? k = some e ∨
      (e.Shaped ∧ (k = K → e.runID = R → e.sharedRevoked = false ∧ t.revokedOn R K = false))) :
    TableOk K R T next := by
  refine ⟨fun k e he => ?_, fun e he hrun => ?_, fun e he hrun hrev => ?_⟩
  · rcases hnew k e he with hold | ⟨hshaped, _⟩
    · exact h.shaped k e hold
    · exact hshaped
  · rw [hrevoked]
    rcases hnew K e he with hold | ⟨_, hclear⟩
    · exact h.marked e hold hrun
    · obtain ⟨hrev, hbit⟩ := hclear rfl hrun
      rw [hrev, hbit]
  · rw [hrevoked] at hrev
    rcases hnew K e he with hold | ⟨_, hclear⟩
    · exact h.ended e hold hrun hrev
    · rw [(hclear rfl hrun).2] at hrev
      cases hrev

/-! ## One update -/

theorem GrantOk.shaped {key : String} (ok : GrantOk t now key e) : e.Shaped := by
  refine ⟨ok.owner, ok.deadline, fun hshared => ?_⟩
  rcases hshared with hrev | hdl | howner | hpending
  · rw [ok.clean] at hrev
    cases hrev
  · exact ok.named (Or.inl hdl)
  · exact ok.named (Or.inr howner)
  · have hidle := ok.idle
    simp [ClaimEntry.transitionPending, hpending] at hidle

section
variable {key : String} {entry : Option ClaimEntry} {record : ClaimEntry}

theorem Change.record_eq (h : Change encodedSize c t now key (some e) record effect) :
    record = e := by
  cases h <;> rfl

theorem Change.shaped (h : Change encodedSize c t now key (some e) record effect)
    (hok : ∀ k e, t.entries.get? k = some e → e.Shaped) : e.Shaped := by
  cases h with
  | grant ok => exact ok.shaped
  | finish _ _ held pending unrevoked _ change =>
    have hold := hok _ _ held
    have hnamed := hold.named (Or.inr (Or.inr (Or.inr pending)))
    rw [change]
    exact ⟨hold.owner, fun _ => rfl, fun _ => hnamed⟩
  | reserveNew _ ok => exact ⟨fun _ => ok.owner, fun _ => ok.deadline, fun _ => ok.named⟩
  | reserve held pending owned change =>
    have hold := hok _ _ held
    rw [change]
    refine ⟨hold.owner, hold.deadline, fun hshared => ?_⟩
    rcases hshared with hrev | hdl | howner | hpending
    · exact hold.named (Or.inl hrev)
    · exact hold.named (Or.inr (Or.inl hdl))
    · exact hold.named (Or.inr (Or.inr (Or.inl howner)))
    · exact hold.named (Or.inr (Or.inr (Or.inl (owned hpending))))
  | revoke _ _ held shared change =>
    have hold := hok _ _ held
    have hnamed := hold.named (Or.inr (Or.inl shared))
    rw [change]
    split
    · exact ⟨hold.owner, fun _ => rfl, fun _ => hnamed⟩
    · exact ⟨hold.owner, hold.deadline, fun _ => hnamed⟩
  | verify held change =>
    have hold := hok _ _ held
    rw [change]
    exact ⟨hold.owner, hold.deadline, hold.named⟩

def Table.Owned (t : Table) : Prop :=
  ∀ k e, t.entries.get? k = some e → e.sharedOwner ≠ {} → e.sharedOwner.run = e.runID

theorem Change.record_owner (h : Change encodedSize c t now key entry record effect) (hok : t.Owned)
    (howner : record.sharedOwner ≠ {}) : record.sharedOwner.run = record.runID := by
  cases h with
  | grant ok => exact ok.owner howner
  | reserveNew _ ok => exact ok.owner
  | finish _ _ held _ _ _ change | reserve held _ _ change | verify held change
  | release held change =>
    have hold := hok _ _ held
    rw [change] at howner ⊢
    exact hold howner
  | revoke _ _ held _ change =>
    have hold := hok _ _ held
    rw [change] at howner ⊢
    split at howner
    · rw [if_pos ‹_›]
      exact hold howner
    · rw [if_neg ‹_›]
      exact hold howner

theorem Change.record_revoked (h : Change encodedSize c t now K entry record effect)
    (hok : TableOk K R T t)
    (hrun : record.runID = R) (hrev : t.revokedOn R K = true) : record.sharedRevoked = true := by
  cases h with
  | grant ok | reserveNew _ ok =>
    have hun := ok.unrevoked
    rw [hrun, hrev] at hun
    cases hun
  | finish _ _ held pending unrevoked _ change =>
    rw [change] at hrun
    rw [hok.marked _ held hrun, hrev] at unrevoked
    cases unrevoked
  | reserve held _ _ change | verify held change | release held change =>
    rw [change] at hrun ⊢
    exact (hok.marked _ held hrun).trans hrev
  | revoke _ _ held shared change =>
    rw [change]
    split <;> rfl

/-- An entry of the revoked run that a change leaves revoked has ended by `T`. -/
theorem Change.entry_ended (h : Change encodedSize c t now K (some e) record effect)
    (hok : TableOk K R T t)
    (hT : t.revokedOn R K = true ∨ now ≤ T) (hrun : e.runID = R) (hrev : e.sharedRevoked = true) :
    e.expiresAt ≤ T := by
  cases h with
  | grant ok | reserveNew _ ok =>
    rw [ok.clean] at hrev
    cases hrev
  | finish _ _ held pending unrevoked _ change =>
    rw [change] at hrev
    rw [unrevoked] at hrev
    cases hrev
  | reserve held pending owned change | verify held change =>
    rw [change] at hrun hrev ⊢
    have hended := hok.ended _ held hrun ((hok.marked _ held hrun).symm.trans hrev)
    exact hended
  | @revoke old _ _ _ _ _ _ held shared change =>
    have hsame : old.runID = R := by
      rw [change] at hrun
      split at hrun <;> exact hrun
    have hdl := (hok.shaped _ _ held).deadline shared
    have hended : t.revokedOn R K = true → old.expiresAt ≤ T := hok.ended _ held hsame
    rw [change]
    split
    · show now ≤ T
      rcases hT with hbit | hle
      · have := hended hbit
        omega
      · exact hle
    · show old.expiresAt ≤ T
      rcases hT with hbit | hle
      · exact hended hbit
      · omega

theorem Change.keeps (h : Change encodedSize c t now key entry record effect)
    (hok : TableOk K R T t)
    (hrev : t.revokedOn R K = true) :
    ((t.setEntry key entry).recordHistory key record).revokedOn R K = true := by
  rw [revokedOn_recordHistory]
  split_ifs with hsame
  · obtain ⟨hrun, hkey⟩ := hsame
    subst hkey
    exact h.record_revoked hok hrun.symm hrev
  · rw [revokedOn_setEntry]
    exact hrev

/-- One change keeps what the table says about the revocation. -/
theorem Change.tableOk (h : Change encodedSize c t now key entry record effect)
    (hok : TableOk K R T t)
    (hT : t.revokedOn R K = true ∨ now ≤ T) :
    TableOk K R T ((t.setEntry key entry).recordHistory key record) := by
  have hget : ∀ k e, ((t.setEntry key entry).recordHistory key record).entries.get? k = some e →
      (k = key ∧ entry = some e) ∨ (k ≠ key ∧ t.entries.get? k = some e) := by
    intro k e he
    rw [recordHistory_entries, get?_setEntry] at he
    split_ifs at he with hk
    · exact Or.inl ⟨hk, he⟩
    · exact Or.inr ⟨hk, he⟩
  have hbit : ∀ e, entry = some e → K = key → e.runID = R →
      ((t.setEntry key entry).recordHistory key record).revokedOn R K = e.sharedRevoked := by
    intro e hentry hkey hrun
    subst hentry
    rw [revokedOn_recordHistory, h.record_eq, if_pos ⟨hrun.symm, hkey⟩]
  have hother : K ≠ key →
      ((t.setEntry key entry).recordHistory key record).revokedOn R K = t.revokedOn R K := by
    intro hkey
    rw [revokedOn_recordHistory, if_neg (fun hc => hkey hc.2), revokedOn_setEntry]
  refine ⟨fun k e he => ?_, fun e he hrun => ?_, fun e he hrun hrev => ?_⟩
  · rcases hget k e he with ⟨_, hentry⟩ | ⟨_, hold⟩
    · subst hentry
      exact h.shaped hok.shaped
    · exact hok.shaped k e hold
  · rcases hget K e he with ⟨hkey, hentry⟩ | ⟨hkey, hold⟩
    · exact (hbit e hentry hkey hrun).symm
    · rw [hother hkey]
      exact hok.marked e hold hrun
  · rcases hget K e he with ⟨hkey, hentry⟩ | ⟨hkey, hold⟩
    · rw [hbit e hentry hkey hrun] at hrev
      subst hentry hkey
      exact h.entry_ended hok hT hrun hrev
    · rw [hother hkey] at hrev
      exact hok.ended e hold hrun hrev

end

/-! ## The batches -/

theorem get?_giveAll_cases (h : (giveAll u entryOf cs).entries.get? k = some e) :
    u.entries.get? k = some e ∨ ∃ c ∈ cs, c.storageKey = k ∧ entryOf c = e := by
  rcases giveAll_entry entryOf cs u k with ⟨hsame, _⟩ | ⟨c, hc, hkey, hput⟩
  · exact Or.inl (hsame.symm.trans h)
  · exact Or.inr ⟨c, hc, hkey, Option.some.inj (hput.symm.trans h)⟩

theorem revokedOn_of_history {r : String} (h : t.historyEntry r k = some e) :
    t.revokedOn r k = e.sharedRevoked := by
  rw [revokedOn_eq, h]
  rfl

theorem revokedOn_giveAll (h : ∀ c ∈ cs, c.storageKey = K → (entryOf c).runID = R →
      (entryOf c).sharedRevoked = u.revokedOn R K) :
    (giveAll u entryOf cs).revokedOn R K = u.revokedOn R K := by
  rcases giveAll_history entryOf cs u R K with ⟨hsame, _⟩ | ⟨c, hc, hplace, hput⟩
  · exact revokedOn_congr hsame
  · injection hplace with hrun hkey
    exact (revokedOn_of_history hput).trans (h c hc hkey hrun)

theorem get?_dropAll_some (h : (dropAll u now rs).entries.get? k = some e) :
    u.entries.get? k = some e := by
  rcases dropAll_entry rs now u k with ⟨hsame, _⟩ | ⟨_, _, _, hput⟩
  · exact hsame.symm.trans h
  · cases hput.symm.trans h

theorem revokedOn_dropAll
    (h : ∀ r ∈ rs, r.1 = K → r.2.runID = R → r.2.sharedRevoked = u.revokedOn R K) :
    (dropAll u now rs).revokedOn R K = u.revokedOn R K := by
  rcases dropAll_history rs now u R K with ⟨hsame, _⟩ | ⟨r, hr, hplace, hput⟩
  · exact revokedOn_congr hsame
  · injection hplace with hrun hkey
    exact (revokedOn_of_history hput).trans (h r hr hkey hrun)

/-! ## The undo -/

section
variable (h : Changes encodedSize c t now next undone effect)
include h

theorem Changes.undone_history (howned : t.Owned) (r k : String) :
    undone.historyEntry r k = t.historyEntry r k := by
  cases h with
  | @one key undoRun entry record effect update undo =>
    have hundo : undoRun = record.runID := by
      rcases undo with hsame | ⟨howner, hrun⟩
      · exact hsame
      · exact hrun.trans (update.record_owner howned howner)
    subst hundo
    rw [historyEntry_restoreHistory, setEntry_historyEntry,
      historyEntry_recordHistory, setEntry_historyEntry]
    split_ifs with hsame
    · rw [hsame.1, hsame.2]
    · rfl
  | @give cs entryOf runID expiresAt run expires oks _ =>
    by_cases hr : r = runID
    -- the history of the run is put back as a whole
    · subst hr
      unfold historyEntry
      cases hget : t.history.get? r with
      | some previous =>
        rw [GoMap.get?_put_self]
      | none =>
        rw [GoMap.get?_del_self]
    · have hsame : (giveAll t entryOf cs).historyEntry r k = t.historyEntry r k := by
        rcases giveAll_history entryOf cs t r k with ⟨hsame, _⟩ | ⟨c, hc, hplace, _⟩
        · exact hsame
        · injection hplace with hrun
          exact absurd (hrun.symm.trans (run c hc)) hr
      refine Eq.trans ?_ hsame
      unfold historyEntry
      cases hget : t.history.get? runID with
      | some previous =>
        rw [GoMap.get?_put_of_ne _ hr]
      | none =>
        rw [GoMap.get?_del_of_ne _ hr]
  | @drop rs =>
    -- each dropped record is put back one by one
    rcases undropAll_history rs t (dropAll t now rs) r k with ⟨hsame, hother⟩ | ⟨x, _, hplace, hput⟩
    · rcases dropAll_history rs now t r k with ⟨hkept, _⟩ | ⟨x, hx, hplace, _⟩
      · exact hsame.trans hkept
      · exact absurd hplace (hother x hx)
    · injection hplace with hrun hkey
      rw [hput, hrun, hkey]

theorem Changes.undone_revoked (howned : t.Owned) (r k : String) :
    undone.revokedOn r k = t.revokedOn r k :=
  revokedOn_congr (h.undone_history howned r k)

/-! ## One write -/

theorem Changes.keeps (hok : TableOk K R T t) (hrev : t.revokedOn R K = true) :
    next.revokedOn R K = true := by
  cases h with
  | one update undo => exact update.keeps hok hrev
  | give run expires oks =>
    rw [revokedOn_giveAll, hrev]
    intro c hc hkey hrun
    have hun := (oks c hc).unrevoked
    rw [hkey, hrun, hrev] at hun
    cases hun
  | drop nodup held idle =>
    rw [revokedOn_dropAll, hrev]
    intro r hr hkey hrun
    exact hok.marked _ (hkey ▸ held r hr) hrun

theorem Changes.tableOk (hok : TableOk K R T t) (hT : t.revokedOn R K = true ∨ now ≤ T) :
    TableOk K R T next := by
  cases h with
  | one update undo => exact update.tableOk hok hT
  | @give cs entryOf runID expiresAt run expires oks _ =>
    have hclear : ∀ c ∈ cs, c.storageKey = K → (entryOf c).runID = R →
        (entryOf c).sharedRevoked = false ∧ t.revokedOn R K = false := by
      intro c hc hkey hrun
      have hun := (oks c hc).unrevoked
      rw [hkey, hrun] at hun
      exact ⟨(oks c hc).clean, hun⟩
    refine hok.of_new (revokedOn_giveAll (fun c hc hkey hrun => ?_)) (fun k e he => ?_)
    · obtain ⟨hclean, hun⟩ := hclear c hc hkey hrun
      rw [hclean, hun]
    · rcases get?_giveAll_cases he with hold | ⟨c, hc, hkey, rfl⟩
      · exact Or.inl hold
      · exact Or.inr ⟨(oks c hc).shaped, fun hk hrun => hclear c hc (hkey.trans hk) hrun⟩
  | drop nodup held idle =>
    refine hok.of_new (revokedOn_dropAll (fun r hr hkey hrun => ?_)) (fun k e he => ?_)
    · exact hok.marked _ (hkey ▸ held r hr) hrun
    · exact Or.inl (get?_dropAll_some he)

end

/-! ## A migration -/

/-- The migration puts no lease of the run under the key it is revoked on. -/
def MovesClean (K R : String) (t : Table) (resolve : ClaimEntry → Resolved) : Prop :=
  t.revokedOn R K = true → ∀ r ∈ legacyClaims t, r.2.runID = R → ∀ gaggle provider,
    resolve r.2 = .owner gaggle provider →
      ({ gaggle := gaggle, provider := provider, externalID := r.2.itemID } : ClaimKey).storageKey
        ≠ .ok K

theorem mem_planMigrations {resolve : ClaimEntry → Resolved} {planned : List String}
    (h : planMigrations t resolve rs planned = .ok ms) {m : Migration} (hm : m ∈ ms) :
    ∃ r ∈ rs, m.legacyKey = r.1 ∧ ∃ gaggle provider, resolve r.2 = .owner gaggle provider ∧
      ({ gaggle := gaggle, provider := provider, externalID := r.2.itemID } : ClaimKey).storageKey
        = .ok m.scopedKey ∧
      m.entry = { r.2 with gaggle := gaggle, provider := provider, externalID := r.2.itemID } ∧
      t.entries.get? m.scopedKey = none := by
  induction rs generalizing planned ms with
  | nil =>
    injection h with h
    rw [← h] at hm
    cases hm
  | cons r rs ih =>
    unfold planMigrations at h
    split at h
    · obtain ⟨r', hr', hrest⟩ := ih h hm
      exact ⟨r', mem_cons_of_mem _ hr', hrest⟩
    · cases h
    · rename_i gaggle provider hresolve
      split at h
      · cases h
      rename_i scopedKey hkey
      split at h
      · cases h
      rename_i hnone
      split at h
      · cases h
      split at h
      · cases h
      rename_i migrations hplan
      injection h with h
      rw [← h] at hm
      rcases mem_cons.mp hm with rfl | hm
      · exact ⟨r, mem_cons_self, rfl, gaggle, provider, hresolve, hkey, rfl, by simpa using hnone⟩
      · obtain ⟨r', hr', hrest⟩ := ih hplan hm
        exact ⟨r', mem_cons_of_mem _ hr', hrest⟩

theorem get?_moveAll_cases (h : (ms.foldl move u).entries.get? k = some e) :
    u.entries.get? k = some e ∨ ∃ m ∈ ms, m.scopedKey = k ∧ m.entry = e := by
  rcases moveAll_entry ms u k with ⟨hsame, _⟩ | ⟨m, hm, ⟨_, hput⟩ | ⟨hkey, hput⟩⟩
  · exact Or.inl (hsame.symm.trans h)
  · cases hput.symm.trans h
  · exact Or.inr ⟨m, hm, hkey, Option.some.inj (hput.symm.trans h)⟩

theorem historyEntry_moveAll (ms : List Migration) (u : Table) (r k : String) :
    (ms.foldl move u).historyEntry r k = u.historyEntry r k := by
  induction ms generalizing u with
  | nil => rfl
  | cons m ms ih =>
    refine (ih _).trans ?_
    unfold move
    rw [setEntry_historyEntry, setEntry_historyEntry]

theorem ClaimEntry.Shaped.local_of_unnamed (h : e.Shaped) (hgaggle : e.gaggle = "") :
    e.sharedRevoked = false ∧ e.sharedDeadline = 0 ∧ e.sharedOwner = {} := by
  refine ⟨?_, ?_, ?_⟩
  · cases hrev : e.sharedRevoked with
    | false => rfl
    | true => exact absurd hgaggle (h.named (Or.inl hrev))
  · by_contra hdl
    exact h.named (Or.inr (Or.inl hdl)) hgaggle
  · by_contra howner
    exact h.named (Or.inr (Or.inr (Or.inl howner))) hgaggle

theorem moveAll_tableOk {resolve : ClaimEntry → Resolved}
    (hplan : planMigrations t resolve (legacyClaims t) [] = .ok ms) (hok : TableOk K R T t)
    (hclean : MovesClean K R t resolve) : TableOk K R T (ms.foldl move t) := by
  refine hok.of_new (revokedOn_congr (historyEntry_moveAll ms t R K)) (fun k e he => ?_)
  rcases get?_moveAll_cases he with hold | ⟨m, hm, hkey, rfl⟩
  · exact Or.inl hold
  obtain ⟨r, hr, _, gaggle, provider, hresolve, hscoped, hentry, _⟩ := mem_planMigrations hplan hm
  have hrow := mem_filter.mp hr
  simp only [Bool.and_eq_true, decide_eq_true_eq] at hrow
  have hshaped := hok.shaped r.1 r.2 (GoMap.mem_rows.mp hrow.1)
  obtain ⟨hrev, hdl, howner⟩ := hshaped.local_of_unnamed hrow.2.1.1
  rw [hentry]
  refine Or.inr ⟨⟨hshaped.owner, hshaped.deadline, fun _ => storageKey_gaggle hscoped⟩, ?_⟩
  intro hk hrun
  refine ⟨hrev, ?_⟩
  cases hbit : t.revokedOn R K with
  | false => rfl
  | true =>
    rw [hkey, hk] at hscoped
    exact absurd hscoped (hclean hbit r hr hrun gaggle provider hresolve)

/-! ## One call -/

theorem attempt_tableOk {c : Call} (h : c.attempt encodedSize t now = .write next undone effect)
    (hok : TableOk K R T t) (hT : t.revokedOn R K = true ∨ now ≤ T)
    (hclean : ∀ resolve, c = .migrateLegacyClaims resolve → MovesClean K R t resolve) :
    TableOk K R T next ∧ (t.revokedOn R K = true → next.revokedOn R K = true) ∧
      TableOk K R T undone ∧ undone.revokedOn R K = t.revokedOn R K := by
  rcases attempt_cases h with hchanges | ⟨resolve, ms, hcall, hplan, hnext, hundone, _⟩
  · have hw := hchanges
    have hundone := hw.undone_revoked (fun k e he => (hok.shaped k e he).owner) R K
    exact ⟨hw.tableOk hok hT, hw.keeps hok, hok.congr hw.undone_entries hundone, hundone⟩
  · subst hnext hundone
    refine ⟨moveAll_tableOk hplan hok (hclean resolve hcall), fun hrev => ?_, hok, rfl⟩
    exact (revokedOn_congr (historyEntry_moveAll ms _ R K)).trans hrev

/-! ## The open ledger and its file -/

theorem load_revokedOn {file : ClaimsFile} (h : load encodedSize file now = .ok t) (r k : String) :
    t.revokedOn r k = file.table.revokedOn r k := by
  rw [load_eq h, revokedOn_retained]
  rfl

theorem load_tableOk {file : ClaimsFile} (h : load encodedSize file now = .ok t)
    (hok : TableOk K R T file.table) : TableOk K R T t := by
  -- reading an entry back fills in what names its item, which the invariant does not read
  have hget : ∀ k e, t.entries.get? k = some e → ∃ stored,
      file.table.entries.get? k = some stored ∧ fillItem k stored = e := by
    intro k e he
    rw [load_entries h, file.entries_eq] at he
    exact Option.map_eq_some_iff.mp he
  refine ⟨fun k e he => ?_, fun e he hrun => ?_, fun e he hrun hrev => ?_⟩
  · obtain ⟨stored, hstored, rfl⟩ := hget k e he
    have hold := hok.shaped k stored hstored
    exact ⟨hold.owner, hold.deadline, hold.named⟩
  · obtain ⟨stored, hstored, rfl⟩ := hget K e he
    rw [load_revokedOn h]
    exact hok.marked stored hstored hrun
  · obtain ⟨stored, hstored, rfl⟩ := hget K e he
    rw [load_revokedOn h] at hrev
    exact hok.ended stored hstored hrun hrev

/-- The table's invariant, in memory and in the file. -/
structure LedgerOk (K R : String) (T : Int) (l : Ledger) : Prop where
  file : TableOk K R T l.file.table
  handle : ∀ t, l.handle = some t → TableOk K R T t
  /-- The file knows every revocation the memory knows. -/
  known : ∀ t, l.handle = some t → t.revokedOn R K = true → l.file.table.revokedOn R K = true

/-- The run was revoked, as memory and file both say. -/
structure Denied (K R : String) (T : Int) (l : Ledger) : Prop extends LedgerOk K R T l where
  fileRevoked : l.file.table.revokedOn R K = true
  handleRevoked : ∀ t, l.handle = some t → t.revokedOn R K = true

def StepClean (K R : String) (l : Ledger) (s : Step) : Prop :=
  ∀ t resolve, l.handle = some t → s.action = .call (.migrateLegacyClaims resolve) →
    MovesClean K R t resolve

section
variable (encodedSize : String → Record → Nat)

def RunClean (K R : String) : Ledger → List Step → Prop
  | _, [] => True
  | l, s :: steps => StepClean K R l s ∧ RunClean K R (l.step encodedSize s).1 steps

theorem RunClean.append {l : Ledger} {rest : List Step} :
    RunClean encodedSize K R l (steps ++ rest) ↔
      RunClean encodedSize K R l steps ∧
        RunClean encodedSize K R (l.run encodedSize steps) rest := by
  induction steps generalizing l with
  | nil => exact ⟨fun h => ⟨trivial, h⟩, fun h => h.2⟩
  | cons s steps ih =>
    refine ⟨fun h => ?_, fun h => ?_⟩
    · obtain ⟨hsteps, hrest⟩ := ih.mp h.2
      exact ⟨⟨h.1, hsteps⟩, hrest⟩
    · exact ⟨h.1.1, ih.mpr ⟨h.1.2, h.2⟩⟩

end

section
variable {encodedSize : String → Record → Nat} {l : Ledger} {s : Step}

/-- One step keeps it in memory and in the file. -/
theorem step_ledgerOk (hok : LedgerOk K R T l)
    (hT : (∀ t, l.handle = some t → t.revokedOn R K = true) ∨ s.now ≤ T)
    (hclean : StepClean K R l s) : LedgerOk K R T (l.step encodedSize s).1 := by
  have hcall : ∀ c t next undone effect, s.action = .call c → l.handle = some t →
      c.attempt encodedSize t s.now = .write next undone effect →
      TableOk K R T next ∧ (t.revokedOn R K = true → next.revokedOn R K = true) ∧
        TableOk K R T undone ∧ undone.revokedOn R K = t.revokedOn R K :=
    fun c t next undone effect hs ht hattempt => attempt_tableOk hattempt (hok.handle t ht)
      (hT.imp_left (fun h => h t ht)) (fun resolve hc => hclean t resolve ht (hc ▸ hs))
  have hall : (l.step encodedSize s).1.All (TableOk K R T) := by
    refine step_all ⟨hok.file, hok.handle⟩ (fun _ h => h) (fun t hload => load_tableOk hload) ?_
    intro c t next undone effect hs ht _ hattempt _
    obtain ⟨hnext, _, hundone, _⟩ := hcall c t next undone effect hs ht hattempt
    exact ⟨fun _ => hnext.retained s.clock, hundone⟩
  refine ⟨hall.1, hall.2, ?_⟩
  -- what the memory knows after the step, the file knows
  refine step_elim encodedSize l s ?opened (fun _ _ => nofun) (fun _ _ => hok.known) ?written
  case opened =>
    rintro t hload _ ⟨⟩ hrev
    rw [load_revokedOn hload] at hrev
    exact hrev
  case written =>
    intro c t next undone effect hs ht hattempt _
    obtain ⟨_, hkeeps, _, hbit⟩ := hcall c t next undone effect hs ht hattempt
    intro u hu hrev
    cases hio : s.io with
    | ok =>
      rw [hio] at hu
      injection hu with hu
      rw [← hu] at hrev
      exact hrev
    | unchanged =>
      rw [hio] at hu
      injection hu with hu
      rw [← hu] at hrev
      exact hok.known t ht (hbit.symm.trans hrev)
    | renamed =>
      rw [hio] at hu
      injection hu with hu
      rw [← hu] at hrev
      exact (revokedOn_retained next s.clock R K).trans (hkeeps (hbit.symm.trans hrev))

theorem step_denied (h : Denied K R T l) (hclean : StepClean K R l s) :
    Denied K R T (l.step encodedSize s).1 := by
  have hall : (l.step encodedSize s).1.All (fun t => t.revokedOn R K = true) := by
    refine step_all ⟨h.fileRevoked, h.handleRevoked⟩ (fun _ hrev => hrev)
      (fun t hload hrev => (load_revokedOn hload R K).trans hrev) ?_
    intro c t next undone effect hs ht hbit hattempt _
    obtain ⟨_, hkeeps, _, hundone⟩ := attempt_tableOk hattempt (h.handle t ht) (Or.inl hbit)
      (fun resolve hc => hclean t resolve ht (hc ▸ hs))
    exact ⟨fun _ => (revokedOn_retained next s.clock R K).trans (hkeeps hbit), hundone.trans hbit⟩
  exact ⟨step_ledgerOk h.toLedgerOk (Or.inl h.handleRevoked) hclean, hall.1, hall.2⟩

theorem run_ledgerOk (hok : LedgerOk K R T l) (hT : ∀ s ∈ steps, s.now ≤ T)
    (hclean : RunClean encodedSize K R l steps) : LedgerOk K R T (l.run encodedSize steps) := by
  induction steps generalizing l with
  | nil => exact hok
  | cons s steps ih =>
    have hstep : LedgerOk K R T (l.step encodedSize s).1 :=
      step_ledgerOk hok (Or.inr (hT s mem_cons_self)) hclean.1
    exact ih hstep (fun s' hs' => hT s' (mem_cons_of_mem _ hs')) hclean.2

theorem run_denied (h : Denied K R T l) (hclean : RunClean encodedSize K R l steps) :
    Denied K R T (l.run encodedSize steps) := by
  induction steps generalizing l with
  | nil => exact h
  | cons s steps ih => exact ih (step_denied h hclean.1) hclean.2

end

/-! ## The revocation itself -/

/-- A revocation takes effect at once: the lease ends now, and the history says so. -/
theorem Changes.denies (h : Changes encodedSize c t now next undone (.revoked ⟨K, R⟩))
    (hok : TableOk K R T t) :
    TableOk K R now next ∧ next.revokedOn R K = true := by
  generalize hcustody : (⟨K, R⟩ : Custody) = custody at h
  cases h with
  | @one key undoRun entry record _ update undo =>
    have hshaped : ∀ {e}, entry = some e → e.Shaped := by
      intro e hentry
      subst hentry
      exact update.shaped hok.shaped
    cases update with
    | @revoke old e _ _ _ _ _ held shared change =>
      injection hcustody with hkey hrun
      subst hkey
      have hdl := (hok.shaped _ _ held).deadline shared
      have hsame : record.runID = R := by
        rw [change, hrun]
        split <;> rfl
      have hrev : record.sharedRevoked = true := by
        rw [change]
        split <;> rfl
      -- a lease that has run out keeps its expiry
      have hend : record.expiresAt ≤ now := by
        rw [change]
        split
        · exact Int.le_refl now
        show old.expiresAt ≤ now
        omega
      have hbit : ((t.setEntry K (some record)).recordHistory K record).revokedOn R K = true := by
        rw [revokedOn_recordHistory, if_pos ⟨hsame.symm, rfl⟩]
        exact hrev
      have hget : ∀ e, ((t.setEntry K (some record)).recordHistory K record).entries.get? K
          = some e → e = record := by
        intro e he
        rw [recordHistory_entries, get?_setEntry, if_pos rfl] at he
        exact (Option.some.inj he).symm
      refine ⟨⟨fun k e he => ?_, fun e he _ => ?_, fun e he _ _ => ?_⟩, hbit⟩
      · rw [recordHistory_entries, get?_setEntry] at he
        split_ifs at he with hk
        · exact hshaped he
        · exact hok.shaped k e he
      · rw [hget e he, hbit]
        exact hrev
      · rw [hget e he]
        exact hend

theorem alreadyRevoked_found {key : ClaimKey} {owner : Owner} {actor : String} {custody : Custody}
    (h : revokeSharedExecution t now key owner actor = .done (.ok (.alreadyRevoked custody))) :
    ∃ e, t.entries.get? custody.storageKey = some e ∧ e.runID = custody.runID ∧
      e.sharedRevoked = true := by
  unfold revokeSharedExecution at h
  split at h
  · cases h
  split at h
  · cases h
  split at h
  · cases h
  rename_i e hget
  split at h
  · cases h
  split at h
  · cases h
  split_ifs at h with hrev
  · injection h with h
    injection h with h
    injection h with h
    subst h
    exact ⟨e, hget, rfl, hrev⟩
  · cases h

section
variable {encodedSize : String → Record → Nat} {l : Ledger} {s : Step}

/-- From the answer on, the run is denied. -/
theorem denied_of_revoked (hok : LedgerOk K R T l)
    (htold : (l.step encodedSize s).2.told = .ok (.effect (.revoked ⟨K, R⟩))) :
    Denied K R s.now (l.step encodedSize s).1 := by
  obtain ⟨c, t, next, undone, _, ht, hw, hstep⟩ := step_of_told htold (fun moves => by simp)
  obtain ⟨hnext, hbit⟩ := hw.denies (hok.handle t ht)
  have hstored : (next.retained s.clock).revokedOn R K = true :=
    (revokedOn_retained next s.clock R K).trans hbit
  rw [hstep]
  refine ⟨⟨hnext.retained s.clock, fun u hu => ?_, fun _ _ _ => hstored⟩, hstored, fun u hu => ?_⟩
  · injection hu with hu
    rw [← hu]
    exact hnext.retained s.clock
  · injection hu with hu
    rw [← hu]
    exact hstored

/-- Also when the answer is that it was revoked before. -/
theorem denied_of_alreadyRevoked (hok : LedgerOk K R T l) {key : ClaimKey} {owner : Owner}
    {actor : String} (hs : s.action = .call (.revokeSharedExecution key owner actor))
    (htold : (l.step encodedSize s).2.told = .ok (.answer (.alreadyRevoked ⟨K, R⟩))) :
    Denied K R T (l.step encodedSize s).1 := by
  revert htold
  refine step_elim encodedSize l s (fun _ _ => nofun) ?shut ?kept ?written
  case shut => rintro _ (rfl | ⟨e, rfl⟩) <;> exact nofun
  case kept =>
    rintro _ (⟨e, rfl⟩ | ⟨c, t, answer, hc, hh, ha, rfl⟩) htold
    · cases htold
    cases htold
    rw [hs] at hc
    cases hc
    obtain ⟨e, hget, hrun, hrev⟩ := alreadyRevoked_found ha
    have hbit : t.revokedOn R K = true := ((hok.handle t hh).marked e hget hrun).symm.trans hrev
    refine ⟨hok, hok.known t hh hbit, fun u hu => ?_⟩
    have hu : l.handle = some u := hu
    rw [hh] at hu
    injection hu with hu
    rw [← hu]
    exact hbit
  case written => exact fun _ _ _ _ _ _ _ _ _ => by cases s.io <;> exact nofun

end

theorem empty_ledgerOk (K R : String) (T : Int) : LedgerOk K R T {} := by
  have hempty : TableOk K R T ({} : Table) := by
    refine ⟨fun k e he => ?_, fun e he => ?_, fun e he => ?_⟩
    · cases he
    · cases he
    · cases he
  refine ⟨hempty, fun t ht => ?_, fun t ht => ?_⟩
  · cases ht
  · cases ht

theorem exists_bound (steps : List Step) : ∃ T, ∀ s ∈ steps, s.now ≤ T := by
  induction steps with
  | nil => exact ⟨0, fun s hs => by cases hs⟩
  | cons s steps ih =>
    obtain ⟨T, hT⟩ := ih
    refine ⟨max s.now T, fun s' hs' => ?_⟩
    rcases mem_cons.mp hs' with rfl | hs'
    · exact Int.le_max_left _ _
    · exact Int.le_trans (hT s' hs') (Int.le_max_right _ _)

/-- The run has a live lease under the key. -/
def Ledger.Holds (l : Ledger) (K R : String) (time : Int) : Prop :=
  ∃ e, (l.file.table.entries.get? K = some e ∨ ∃ t, l.handle = some t ∧ t.entries.get? K = some e) ∧
    e.runID = R ∧ e.expired time = false

/-- A denied run does not hold the key after `T`. -/
theorem Denied.not_holds {l : Ledger} {time : Int} (h : Denied K R T l) (hle : T ≤ time) :
    ¬ l.Holds K R time := by
  rintro ⟨e, hget, hrun, hlive⟩
  have hended : e.expiresAt ≤ T := by
    rcases hget with hfile | ⟨t, ht, hmem⟩
    · exact h.file.ended e hfile hrun h.fileRevoked
    · exact (h.handle t ht).ended e hmem hrun (h.handleRevoked t ht)
  have hnot := of_decide_eq_false hlive
  omega

/--
**A revocation is for good.** In a run from the empty ledger, `s` is a call that
revokes `R` on `K`, or finds it revoked. If no migration of the run moves an
item-only claim of `R` onto `K` while `R` is revoked there, then `R` does not hold
`K` at any later time, whatever came before and whatever follows.
-/
theorem revocation_permanent (encodedSize : String → Record → Nat) (before after : List Step)
    (s : Step) (key : ClaimKey) (owner : Owner) (actor K R : String) (time : Int)
    (hs : s.action = .call (.revokeSharedExecution key owner actor)) (hlater : s.now ≤ time)
    (htold :
      let told := ((({} : Ledger).run encodedSize before).step encodedSize s).2.told
      told = .ok (.effect (.revoked ⟨K, R⟩)) ∨
        (told = .ok (.answer (.alreadyRevoked ⟨K, R⟩)) ∧ ∀ x ∈ before, x.now ≤ time))
    (hclean : RunClean encodedSize K R {} (before ++ s :: after)) :
    ¬ (({} : Ledger).run encodedSize (before ++ s :: after)).Holds K R time := by
  obtain ⟨hbefore, hthis, hafter⟩ := (RunClean.append encodedSize).mp hclean
  rw [Ledger.run_append]
  rcases htold with hrevoked | ⟨hfound, hearlier⟩
  · obtain ⟨T, hT⟩ := exists_bound before
    have hok := run_ledgerOk (empty_ledgerOk K R T) hT hbefore
    exact (run_denied (denied_of_revoked hok hrevoked) hafter).not_holds hlater
  · have hok := run_ledgerOk (empty_ledgerOk K R time) hearlier hbefore
    exact (run_denied (denied_of_alreadyRevoked hok hs hfound) hafter).not_holds (Int.le_refl time)

def revokedOwner : Owner := { instance_ := "i", run := "run-a", token := "tok" }

def revokedKey : ClaimKey := { gaggle := "g", provider := "github", externalID := "42" }

def revokedRun : List Step :=
  [⟨.openLedger, 1, .ok, 1⟩,
   ⟨.call (.claimScopedUntil revokedKey "run-a" "work" 100 revokedOwner), 10, .ok, 10⟩,
   ⟨.call (.revokeSharedExecution revokedKey revokedOwner "cli"), 20, .ok, 20⟩,
   ⟨.call (.forceReleaseShared revokedKey revokedOwner "cli"), 30, .ok, 30⟩,
   ⟨.call (.claim "42" "run-a" "work" 100), 40, .ok, 40⟩]

theorem revokedRun_holds_again :
    let told := (({} : Ledger).reports (fun _ _ => 0) revokedRun).map (fun r => r.told.toOption)
    told[2]? = some (some (.effect (.revoked ⟨"v2|g|github|42", "run-a"⟩))) ∧
      (({} : Ledger).run (fun _ _ => 0) (revokedRun ++
        [⟨.call (.migrateLegacyClaims (fun _ => .owner "g" "github")), 50, .ok, 50⟩])).Holds
        "v2|g|github|42" "run-a" 60 := by
  refine ⟨by decide, ?_⟩
  refine ⟨{ itemID := "42", gaggle := "g", provider := "github", externalID := "42",
            runID := "run-a", workflow := "work", claimedAt := 40, expiresAt := 140 },
    Or.inl ?_, rfl, by decide⟩
  decide

theorem runClean_of_no_migration {l : Ledger} (h : ∀ s ∈ steps, s.action.isMigration = false) :
    RunClean encodedSize K R l steps := by
  induction steps generalizing l with
  | nil => trivial
  | cons s steps ih =>
    refine ⟨fun t resolve _ hs => ?_, ih (fun s' hs' => h s' (mem_cons_of_mem _ hs'))⟩
    have hno := h s mem_cons_self
    rw [hs] at hno
    cases hno

theorem revokedRun_stays_off :
    ¬ (({} : Ledger).run (fun _ _ => 0) (revokedRun ++
      [⟨.call (.claimScoped revokedKey "run-a" "work" 100), 50, .ok, 50⟩])).Holds
      "v2|g|github|42" "run-a" 60 := by
  have hsplit : revokedRun ++
      [⟨.call (.claimScoped revokedKey "run-a" "work" 100), 50, .ok, 50⟩] =
      revokedRun.take 2 ++ ⟨.call (.revokeSharedExecution revokedKey revokedOwner "cli"),
        20, .ok, 20⟩
        :: (revokedRun.drop 3 ++
          [⟨.call (.claimScoped revokedKey "run-a" "work" 100), 50, .ok, 50⟩]) := rfl
  rw [hsplit]
  refine revocation_permanent (fun _ _ => 0) _ _ _ revokedKey revokedOwner "cli"
    "v2|g|github|42" "run-a" 60 rfl (by decide) (Or.inl ?_) ?_
  · decide
  · exact runClean_of_no_migration (by decide)

end Goobers.Claims
