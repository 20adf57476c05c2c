import Goobers.Claims.Rollback

/-!
# Custody until the cleanup is finished

A release that has to clean up at the provider first reserves the entry. From then on every
operation that could give the item away, renew, convert or delete the entry finds the reservation
in its way, and only the finish that names this very incarnation (run, claim time and shared owner)
takes it out. A finish takes effect when it reaches the file, also where the directory cannot be
synced after the rename and the caller is told of an error: then the entry is still in memory, a
second release is told that it is reserved, and the next opening of the ledger loses it. As long as
no finish fails in that way, whoever is reserved in memory is reserved in the file.

Expiry recovery passes over an entry with a shared deadline. An entry with an owner has one, as
long as no clock reads the zero time, which is how a deadline says that there is none.
-/

namespace Goobers.Claims

open Lib List Table
open SharedClaim (Owner Record)

/-- A lease of this incarnation whose release has begun. -/
structure ClaimEntry.InCleanup (held e : ClaimEntry) : Prop where
  same : held.sameIncarnation e = true
  pending : held.releasePending = true

def InCustody (K : String) (e : ClaimEntry) (t : Table) : Prop :=
  ∃ held, t.entries.get? K = some held ∧ held.InCleanup e

def Call.FinishesRelease (c : Call) (K : String) (e : ClaimEntry) : Prop :=
  ∃ expected, c = .finishProviderRelease expected ∧ claimEntryStorageKey expected = .ok K ∧
    e.sameIncarnation expected = true

variable {encodedSize : String → Record → Nat} {K A : String} {e held : ClaimEntry} {c : Call}
  {t next undone : Table} {now : Int} {effect : Effect}

theorem ClaimEntry.InCleanup.transitionPending (h : held.InCleanup e) :
    held.transitionPending = true := by
  simp [ClaimEntry.transitionPending, h.pending]

theorem sameIncarnation_trans {a b d : ClaimEntry} (h : a.sameIncarnation b = true)
    (h' : a.sameIncarnation d = true) : b.sameIncarnation d = true := by
  simp only [ClaimEntry.sameIncarnation, Bool.and_eq_true, decide_eq_true_eq] at h h' ⊢
  rw [← h.1.1, ← h.1.2, ← h.2]
  exact h'

/-! ## One call -/

/-- An entry in cleanup stays in it, given to nobody, until its release is finished. -/
theorem Change.inCleanup {entry : Option ClaimEntry} {record : ClaimEntry}
    (h : Change encodedSize c t now K entry record effect) (hheld : t.entries.get? K = some held)
    (hclean : held.InCleanup e) (hopen : ¬ c.FinishesRelease K e) :
    (∃ new, entry = some new ∧ new.InCleanup e) ∧ ∀ B, ¬ effect.Gives K B := by
  have hpending := hclean.transitionPending
  have hfree : held.transitionPending ≠ false := by rw [hpending]; exact nofun
  cases h with
  | grant ok | reserveNew _ ok => exact absurd (ok.free held hheld).1 hfree
  | finish _ _ held' _ _ _ _ free | reserve held' _ _ _ free =>
    rw [← Option.mem_unique hheld held', hclean.pending] at free
    cases free
  | release held' _ free =>
    obtain rfl := Option.mem_unique hheld held'
    rcases free with free | ⟨expected, hc, hkey, hsame⟩
    · exact absurd free hfree
    · exact absurd ⟨expected, hc, hkey, sameIncarnation_trans hclean.same hsame⟩ hopen
  | revoke _ _ held' _ change =>
    obtain rfl := Option.mem_unique hheld held'
    refine ⟨⟨_, rfl, ?_⟩, fun B hgives => by simp [Effect.Gives, Effect.Grants] at hgives⟩
    rw [change]
    split <;> exact ⟨hclean.same, hclean.pending⟩
  | verify held' change =>
    obtain rfl := Option.mem_unique hheld held'
    subst change
    exact ⟨⟨_, rfl, hclean.same, hclean.pending⟩,
      fun B hgives => by simp [Effect.Gives, Effect.Grants] at hgives⟩

theorem Changes.inCustody (h : Changes encodedSize c t now next undone effect)
    (hin : InCustody K e t) (hopen : ¬ c.FinishesRelease K e) :
    InCustody K e next ∧ ∀ B, ¬ effect.Gives K B := by
  obtain ⟨held, hheld, hclean⟩ := hin
  cases h with
  | @one key undoRun entry record _ change undo =>
    by_cases hk : key = K
    · subst hk
      obtain ⟨⟨new, hnew, hclean'⟩, hgives⟩ := change.inCleanup hheld hclean hopen
      refine ⟨⟨new, ?_, hclean'⟩, hgives⟩
      rw [recordHistory_entries, get?_setEntry, if_pos rfl, hnew]
    · refine ⟨⟨held, ?_, hclean⟩, fun B hgives => hk (change.of_gives hgives).1⟩
      rw [recordHistory_entries, get?_setEntry, if_neg (Ne.symm hk), hheld]
  | @give cs entryOf _ _ _ _ oks _ =>
    have hother : ∀ p ∈ cs, p.storageKey ≠ K := by
      intro p hp hkey
      have hfree := ((oks p hp).free held (hkey ▸ hheld)).1
      rw [hclean.transitionPending] at hfree
      cases hfree
    rcases giveAll_entry entryOf cs t K with ⟨hsame, _⟩ | ⟨p, hp, hkey, _⟩
    · refine ⟨⟨held, hsame.trans hheld, hclean⟩, fun B hgives => ?_⟩
      obtain ⟨p, hp, hkey, _⟩ := gives_batch hgives
      exact hother p hp hkey
    · exact absurd hkey (hother p hp)
  | @drop rs _ hrs idle =>
    rcases dropAll_entry rs now t K with ⟨hsame, _⟩ | ⟨r, hr, hkey, _⟩
    · refine ⟨⟨held, hsame.trans hheld, hclean⟩, fun B hgives => ?_⟩
      simp [Effect.Gives, Effect.Grants] at hgives
    · have hidle := (idle r hr).1
      rw [Option.mem_unique (hrs r hr) (hkey ▸ hheld), hclean.transitionPending] at hidle
      cases hidle

/-- **A call keeps the reserved entry and hands the key to nobody**, unless it finishes it. -/
theorem attempt_inCustody (h : c.attempt encodedSize t now = .write next undone effect)
    (hin : InCustody K e t) (hopen : ¬ c.FinishesRelease K e) :
    InCustody K e next ∧ ∀ B, ¬ effect.Hands K B := by
  rcases attempt_cases h with hchanges | ⟨_, ms, _, hplan, hms, _, heffect⟩
  · obtain ⟨hnext, hgives⟩ := hchanges.inCustody hin hopen
    refine ⟨hnext, ?_⟩
    rintro B (hB | ⟨moves, heq, _⟩)
    · exact hgives B hB
    · subst heq
      cases hchanges with
      | one change => cases change
  obtain ⟨held, hheld, hclean⟩ := hin
  -- a migration takes idle entries only, and no key that is taken
  have hother : ∀ m ∈ ms, m.legacyKey ≠ K ∧ m.scopedKey ≠ K := by
    intro m hm
    obtain ⟨r, hr, hkey, _, _, _, _, _, hnone⟩ := mem_planMigrations hplan hm
    refine ⟨fun hK => ?_, fun hK => ?_⟩
    · have hrow := mem_filter.mp hr
      have hidle : r.2.transitionPending = false := by
        simpa using (Bool.and_eq_true_iff.mp hrow.2).2
      have hsame := GoMap.mem_rows.mp hrow.1
      rw [← hkey, hK] at hsame
      rw [Option.mem_unique hsame hheld, hclean.transitionPending] at hidle
      cases hidle
    · rw [hK, hheld] at hnone
      cases hnone
  subst hms heffect
  have hsame : (ms.foldl Table.move t).entries.get? K = t.entries.get? K := by
    rcases moveAll_entry ms t K with ⟨hsame, _⟩ | ⟨m, hm, ⟨hkey, _⟩ | ⟨hkey, _⟩⟩
    · exact hsame
    · exact absurd hkey (hother m hm).1
    · exact absurd hkey (hother m hm).2
  refine ⟨⟨held, hsame.trans hheld, hclean⟩, ?_⟩
  rintro B (hgives | ⟨moves, heq, expiresAt, hmem⟩)
  · simp [Effect.Gives, Effect.Grants] at hgives
  · injection heq with heq
    obtain ⟨m, hm, hgrant⟩ := mem_map.mp (heq ▸ hmem)
    injection hgrant with hkey
    exact (hother m hm).2 hkey

/-! ## Runs -/

section
variable {l : Ledger} {s : Step}

/-- A finish that the step makes does not fail between the rename and the sync of the directory. -/
def Step.FinishWhole (s : Step) : Prop :=
  ∀ expected, s.action = .call (.finishProviderRelease expected) → s.io ≠ .renamed

/-- What is reserved in memory is reserved in the file. -/
def Ledger.CustodyStored (l : Ledger) : Prop :=
  ∀ t, l.handle = some t → ∀ K e, InCustody K e t → InCustody K e l.file.table

/-- A finish that fails after its rename is the one step that breaks this. -/
theorem step_custodyStored (h : l.CustodyStored) (hwhole : s.FinishWhole) :
    (l.step encodedSize s).1.CustodyStored := by
  refine step_elim encodedSize l s ?opened (fun _ _ => nofun) (fun _ _ => h) ?written
  case opened =>
    rintro t hload _ ⟨⟩ K e ⟨held, hheld, hclean⟩
    rw [load_entries hload, l.file.entries_eq] at hheld
    obtain ⟨stored, hstored, rfl⟩ := Option.map_eq_some_iff.mp hheld
    exact ⟨stored, hstored, hclean.same, hclean.pending⟩
  case written =>
    intro c t next undone effect hs ht hattempt _
    have hundone : ∀ K e, InCustody K e undone → InCustody K e t := by
      rintro K e ⟨held, hheld, hclean⟩
      exact ⟨held, (attempt_undone_entries hattempt K).symm.trans hheld, hclean⟩
    cases hio : s.io with
    | ok =>
      rintro _ ⟨⟩ K e hin
      exact hin
    | unchanged =>
      rintro _ ⟨⟩ K e hin
      exact h t ht K e (hundone K e hin)
    | renamed =>
      -- the file is new and the memory is as before, so only a finish sets them apart
      rintro _ ⟨⟩ K e hin
      refine (attempt_inCustody hattempt (hundone K e hin) ?_).1
      rintro ⟨expected, rfl, _⟩
      exact hwhole expected hs hio

theorem run_custodyStored {steps : List Step} (h : l.CustodyStored)
    (hwhole : ∀ s ∈ steps, s.FinishWhole) : (l.run encodedSize steps).CustodyStored := by
  induction steps generalizing l with
  | nil => exact h
  | cons s steps ih =>
    exact ih (step_custodyStored h (hwhole s mem_cons_self))
      (fun s' hs' => hwhole s' (mem_cons_of_mem _ hs'))

/-- One step keeps the custody in memory and in the file, unless it finishes the release. -/
theorem step_inCustody (h : l.All (InCustody K e))
    (hopen : (l.step encodedSize s).2.wrote ≠ none →
      ∀ c, s.action = .call c → ¬ c.FinishesRelease K e) :
    (l.step encodedSize s).1.All (InCustody K e) ∧
      ∀ effect, (l.step encodedSize s).2.wrote = some effect → ∀ B, ¬ effect.Hands K B := by
  constructor
  · refine step_all h (fun _ ht => ht) ?_ ?_
    · rintro t hload ⟨held, hheld, hclean⟩
      refine ⟨fillItem K held, ?_, hclean.same, hclean.pending⟩
      rw [load_entries hload, l.file.entries_eq, hheld]
      rfl
    · intro c t next undone effect hs _ hin hattempt hstep
      refine ⟨fun hio => ?_, ?_⟩
      · have hwrote : (l.step encodedSize s).2.wrote ≠ none := by
          rw [hstep, commit_wrote hio]
          exact nofun
        exact (attempt_inCustody hattempt hin (hopen hwrote c hs)).1
      · obtain ⟨held, hheld, hclean⟩ := hin
        exact ⟨held, (attempt_undone_entries hattempt K).trans hheld, hclean⟩
  · intro effect hwrote
    obtain ⟨c, t, next, undone, hs, ht, hattempt⟩ := step_wrote hwrote
    refine (attempt_inCustody hattempt (h.2 t ht) (hopen ?_ c hs)).2
    rw [hwrote]
    exact nofun

/-- No step of the run has succeeded in finishing the incarnation's cleanup. -/
def Unfinished (encodedSize : String → Record → Nat) (K : String) (e : ClaimEntry) (l : Ledger)
    (steps : List Step) : Prop :=
  ∀ p ∈ steps.zip (l.reports encodedSize steps), (∃ effect, p.2.told = .ok (.effect effect)) →
    ∀ c, p.1.action = .call c → ¬ c.FinishesRelease K e

theorem told_of_wrote (hwrote : (l.step encodedSize s).2.wrote ≠ none) (hio : s.io ≠ .renamed) :
    ∃ effect, (l.step encodedSize s).2.told = .ok (.effect effect) := by
  revert hwrote
  refine step_elim encodedSize l s (fun _ _ => nofun) ?shut ?kept ?written
  case shut => exact fun _ _ hwrote => absurd rfl hwrote
  case kept => exact fun _ _ hwrote => absurd rfl hwrote
  case written =>
    intro c t next undone effect _ _ _ _ hwrote
    cases hs : s.io with
    | ok => exact ⟨effect, rfl⟩
    | unchanged =>
      rw [hs] at hwrote
      exact absurd rfl hwrote
    | renamed => exact absurd hs hio

/-- The same for a whole run. -/
theorem run_inCustody {steps : List Step} (h : l.All (InCustody K e))
    (hwhole : ∀ s ∈ steps, s.FinishWhole) (hopen : Unfinished encodedSize K e l steps) :
    (l.run encodedSize steps).All (InCustody K e) ∧ ∀ r ∈ l.reports encodedSize steps,
      ∀ effect, r.wrote = some effect → ∀ B, ¬ effect.Hands K B := by
  induction steps generalizing l with
  | nil => exact ⟨h, nofun⟩
  | cons s steps ih =>
    have hstep : (l.step encodedSize s).2.wrote ≠ none →
        ∀ c, s.action = .call c → ¬ c.FinishesRelease K e := by
      rintro hwrote c hs ⟨expected, rfl, hkey⟩
      have htold := told_of_wrote hwrote (hwhole s mem_cons_self expected hs)
      exact hopen _ mem_cons_self htold _ hs ⟨expected, rfl, hkey⟩
    obtain ⟨hnext, hhands⟩ := step_inCustody h hstep
    obtain ⟨hrun, hreports⟩ := ih hnext (fun s' hs' => hwhole s' (mem_cons_of_mem _ hs'))
      (fun p hp => hopen p (mem_cons_of_mem _ hp))
    exact ⟨hrun, forall_mem_cons.mpr ⟨hhands, hreports⟩⟩

/-! ## Reserving -/

def Call.BeginsRelease (c : Call) (e : ClaimEntry) : Prop :=
  c = .beginProviderRelease e ∨ ∃ expiredAt, c = .beginSharedRelease e expiredAt

/-- The caller is told that the entry is reserved: by this call, or that it was so before. -/
def Report.Reserves (r : Report) (K : String) : Prop :=
  ∃ A, r.told = .ok (.effect (.reserved ⟨K, A⟩)) ∨
    r.told = .ok (.answer (.alreadyReserved ⟨K, A⟩))

theorem attempt_of_beginsRelease (h : c.BeginsRelease e) :
    (∃ shared expiredAt, c.attempt encodedSize t now = beginReleaseAt t e shared expiredAt) ∨
      c.attempt encodedSize t now = .done (.error .needsHandoff) := by
  rcases h with rfl | ⟨expiredAt, rfl⟩
  · exact .inl ⟨_, _, rfl⟩
  · unfold Call.attempt beginSharedRelease
    dsimp only
    split
    · exact .inr rfl
    · exact .inl ⟨_, _, rfl⟩

/-- Whether the release was reserved now or before, the entry is in cleanup afterwards. -/
theorem beginReleaseAt_inCustody {shared : Bool} {expiredAt : Int} :
    (∀ next undone, beginReleaseAt t e shared expiredAt = .write next undone (.reserved ⟨K, A⟩) →
      claimEntryStorageKey e = .ok K ∧ InCustody K e next) ∧
    (beginReleaseAt t e shared expiredAt = .done (.ok (.alreadyReserved ⟨K, A⟩)) →
      claimEntryStorageKey e = .ok K ∧ InCustody K e t) := by
  unfold beginReleaseAt
  split
  · exact ⟨fun _ _ h => (by cases h), fun h => (by cases h)⟩
  split
  · exact ⟨fun _ _ h => (by cases h), fun h => (by cases h)⟩
  rename_i storageKey hkey
  split
  · exact ⟨fun _ _ h => (by cases h), fun h => (by cases h)⟩
  rename_i current hheld
  split
  · exact ⟨fun _ _ h => (by cases h), fun h => (by cases h)⟩
  rename_i hsame
  have hsame : current.sameIncarnation e = true := by simpa using hsame
  split
  · exact ⟨fun _ _ h => (by cases h), fun h => (by cases h)⟩
  split
  · exact ⟨fun _ _ h => (by cases h), fun h => (by cases h)⟩
  split
  -- the entry was in cleanup already
  · rename_i hpending
    refine ⟨fun _ _ h => (by cases h), fun h => ?_⟩
    injection h with h
    injection h with h
    injection h with hcustody
    injection hcustody with hK
    subst hK
    exact ⟨hkey, current, hheld, hsame, hpending⟩
  · refine ⟨fun _ _ h => ?_, fun h => (by cases h)⟩
    injection h with hnext _ heffect
    injection heffect with hcustody
    injection hcustody with hK
    subst hK hnext
    refine ⟨hkey, { current with releasePending := true, sharedAdmissionPending := false }, ?_,
      hsame, rfl⟩
    rw [recordHistory_entries, get?_setEntry, if_pos rfl]

/-- **A release that is told to be reserved is reserved**, in memory and in the file. -/
theorem step_reserves (hstored : l.CustodyStored) (hcall : s.action = .call c)
    (hbegin : c.BeginsRelease e) (hreserves : (l.step encodedSize s).2.Reserves K) :
    claimEntryStorageKey e = .ok K ∧ (l.step encodedSize s).1.All (InCustody K e) := by
  obtain ⟨A, hreserves⟩ := hreserves
  revert hreserves
  refine step_elim encodedSize l s (fun _ _ => nofun) ?shut ?kept ?written
  case shut => rintro _ (rfl | ⟨_, rfl⟩) <;> exact nofun
  case kept =>
    -- reserved before: memory has it in cleanup, and the file with it
    rintro _ (⟨_, rfl⟩ | ⟨c', t, answer, hs, ht, hattempt, rfl⟩) hreserves
    · rcases hreserves with h | h <;> cases h
    obtain rfl : c = c' := by
      rw [hcall] at hs
      injection hs
    rcases hreserves with h | h
    · cases h
    cases h
    rcases attempt_of_beginsRelease hbegin with ⟨shared, expiredAt, hrel⟩ | herr
    · obtain ⟨hkey, hin⟩ := beginReleaseAt_inCustody.2 (hrel.symm.trans hattempt)
      refine ⟨hkey, hstored t ht K e hin, fun u hu => ?_⟩
      exact Option.mem_unique ht hu ▸ hin
    · rw [herr] at hattempt
      cases hattempt
  case written =>
    intro c' t next undone effect hs ht hattempt _ hreserves
    obtain rfl : c = c' := by
      rw [hcall] at hs
      injection hs
    cases hio : s.io with
    | unchanged | renamed =>
      rw [hio] at hreserves
      rcases hreserves with h | h <;> cases h
    | ok =>
      -- reserved now
      rw [hio] at hreserves
      rcases hreserves with h | h
      · cases h
        rcases attempt_of_beginsRelease hbegin with ⟨shared, expiredAt, hrel⟩ | herr
        · obtain ⟨hkey, hin⟩ := beginReleaseAt_inCustody.1 _ _ (hrel.symm.trans hattempt)
          refine ⟨hkey, hin, ?_⟩
          rintro _ ⟨⟩
          exact hin
        · rw [herr] at hattempt
          cases hattempt
      · cases h

end

/-! ## Expiry recovery -/

def Table.Timed (t : Table) : Prop :=
  ∀ k e, t.entries.get? k = some e → e.sharedOwner ≠ {} → e.sharedDeadline ≠ 0

theorem Change.timed {record : ClaimEntry} (h : Change encodedSize c t now K (some e) record effect)
    (htimed : t.Timed) (hnow : 0 < now) (howner : e.sharedOwner ≠ {}) : e.sharedDeadline ≠ 0 := by
  cases h with
  | grant ok => exact (sharedOk_of_valid ok.valid (.inl howner)).deadline
  | reserveNew _ ok => exact (sharedOk_of_valid (ok.valid hnow.ne') (.inl howner)).deadline
  | finish _ _ _ _ _ later change =>
    subst change
    exact (hnow.trans later).ne'
  | reserve hheld _ _ change | verify hheld change =>
    subst change
    exact fun hdl => htimed K _ hheld howner hdl
  | revoke _ _ _ shared change =>
    split at change
    · subst change
      exact hnow.ne'
    · subst change
      exact shared

theorem attempt_timed (h : c.attempt encodedSize t now = .write next undone effect)
    (htimed : t.Timed) (hnow : 0 < now) : next.Timed := by
  intro k e he howner
  rcases attempt_entry_cases h he with hold | ⟨_, _, hchange⟩ | ⟨k', old, _, _, hwas, _, rfl⟩
  · exact htimed k e hold howner
  · exact hchange.timed htimed hnow howner
  · exact htimed k' old hwas howner

theorem run_timed {l : Ledger} {steps : List Step} (h : ∀ t, l.handle = some t → t.Timed)
    (hnow : ∀ s ∈ steps, 0 < s.now) :
    ∀ t, (l.run encodedSize steps).handle = some t → t.Timed := by
  induction steps generalizing l with
  | nil => exact h
  | cons s steps ih =>
    refine ih (step_handle h ?_ ?_) (fun s' hs' => hnow s' (mem_cons_of_mem _ hs'))
    · intro t hload k e he howner
      rw [load_eq hload] at he
      exact (sharedOk_of_valid (valid_of_load hload he) (.inl howner)).deadline
    · intro c t next undone effect htimed hattempt
      have hnext := attempt_timed hattempt htimed (hnow s mem_cons_self)
      refine ⟨fun k e he => hnext k e he, fun k e he => ?_⟩
      rw [attempt_undone_entries hattempt] at he
      exact htimed k e he

/-- Recovery does not touch a shared lease, however long ago it ran out. -/
theorem recoverExpired_keeps (h : recoverExpired t now = .write next undone effect)
    (hheld : t.entries.get? K = some e) (hshared : e.sharedDeadline ≠ 0) :
    next.entries.get? K = some e := by
  unfold recoverExpired at h
  dsimp only at h
  split at h
  · cases h
  injection h with hnext
  rw [← hnext]
  rcases dropAll_entry (t.entries.rows.filter (fun r => r.2.sharedDeadline = 0 &&
    !r.2.transitionPending && r.2.expired now)) now t K with ⟨hkept, _⟩ | ⟨r, hr, hkey, _⟩
  · exact hkept.trans hheld
  refine absurd ?_ hshared
  obtain ⟨hrow, hcond⟩ := mem_filter.mp hr
  simp only [Bool.and_eq_true, decide_eq_true_eq] at hcond
  rw [Option.mem_unique hheld (hkey ▸ GoMap.mem_rows.mp hrow)]
  exact hcond.1.1

/--
**Cleanup custody is kept, and expiry recovery takes no owned entry.** Whatever the file the ledger
is opened on and the steps before and after: once a release is told to be reserved, every later
state has the entry of this incarnation under its key, reserved, in the file and in memory, and no
write hands the key to any run, until a finish of this incarnation succeeds, as long as no finish
fails after its rename. And at times after the zero time a recovery pass leaves every entry with a
shared owner in memory, and in the file it writes.
-/
theorem custody_kept (encodedSize : String → Record → Nat) (file : ClaimsFile)
    (before : List Step) (s : Step) :
    let l := ({ file := file } : Ledger).run encodedSize before
    (∀ (c : Call) (e : ClaimEntry) (K : String) (steps : List Step),
      (∀ s' ∈ before ++ s :: steps, s'.FinishWhole) →
      s.action = .call c → c.BeginsRelease e → (l.step encodedSize s).2.Reserves K →
      Unfinished encodedSize K e (l.step encodedSize s).1 steps →
      claimEntryStorageKey e = .ok K ∧
        ((l.step encodedSize s).1.run encodedSize steps).All (InCustody K e) ∧
        ∀ r ∈ (l.step encodedSize s).1.reports encodedSize steps, ∀ effect,
          r.wrote = some effect → ∀ B, ¬ effect.Hands K B) ∧
    ∀ (t : Table) (k : String) (e : ClaimEntry),
      (∀ s' ∈ before, 0 < s'.now) → s.action = .call .recoverExpired →
      l.handle = some t → t.entries.get? k = some e → e.sharedOwner ≠ {} →
      (∃ u, (l.step encodedSize s).1.handle = some u ∧ u.entries.get? k = some e) ∧
        ((l.step encodedSize s).2.wrote ≠ none →
          (l.step encodedSize s).1.file.table.entries.get? k = some e) := by
  intro l
  constructor
  · intro c e K steps hwhole hcall hbegin hreserves hopen
    have hstored : l.CustodyStored := run_custodyStored (fun t ht => by cases ht)
      (fun s' hs' => hwhole s' (mem_append_left _ hs'))
    obtain ⟨hkey, hin⟩ := step_reserves hstored hcall hbegin hreserves
    refine ⟨hkey, run_inCustody hin (fun s' hs' => hwhole s' ?_) hopen⟩
    exact mem_append_right _ (mem_cons_of_mem _ hs')
  · intro t k e hnow hcall ht hheld howner
    -- a shared lease written at a positive time has a deadline, so recovery passes it over
    have hshared := run_timed (fun t ht => by cases ht) hnow t ht k e hheld howner
    unfold Ledger.step
    rw [hcall, ht]
    dsimp only [Call.attempt]
    cases hattempt : recoverExpired t s.now with
    | done answer => exact ⟨⟨t, ht, hheld⟩, fun hwrote => absurd rfl hwrote⟩
    | write next undone effect =>
      have hnext := recoverExpired_keeps hattempt hheld hshared
      have hcall : Call.attempt encodedSize t s.now .recoverExpired = .write next undone effect :=
        hattempt
      have hundone := (attempt_undone_entries hcall k).trans hheld
      cases s.io with
      | ok => exact ⟨⟨_, rfl, hnext⟩, fun _ => hnext⟩
      | unchanged => exact ⟨⟨_, rfl, hundone⟩, fun hwrote => absurd rfl hwrote⟩
      | renamed => exact ⟨⟨_, rfl, hundone⟩, fun _ => hnext⟩

/-- An item is claimed and its release reserved for provider cleanup. -/
def cleanupRun : List Step :=
  [⟨.openLedger, 1, .ok, 1⟩, ⟨.call (.claim "1" "run-a" "w" 10), 2, .ok, 2⟩]

def cleanedEntry : ClaimEntry :=
  { itemID := "1", externalID := "1", runID := "run-a", workflow := "w", claimedAt := 2,
    expiresAt := 12 }

def reserveStep : Step := ⟨.call (.beginProviderRelease cleanedEntry), 3, .ok, 3⟩

/-- The reservation, a finish whose rewrite ends in this way, and the release tried again. -/
def finishedRun (io : Persist) : List Step :=
  cleanupRun ++ [reserveStep, ⟨.call (.finishProviderRelease cleanedEntry), 4, io, 4⟩, reserveStep]

def zeroTimeRun (now : Int) : List Step :=
  [⟨.openLedger, now, .ok, now⟩,
   ⟨.call (.claimScopedUntil revokedKey "run-a" "work" 5 revokedOwner), now, .ok, now⟩,
   ⟨.call (.revokeSharedExecution revokedKey revokedOwner "cli"), now, .ok, now⟩]

def Ledger.ownerOf (l : Ledger) (key : String) : Option Owner :=
  (l.handle.bind (fun t => t.entries.get? key)).map ClaimEntry.sharedOwner

/--
A finish whose rewrite fails after the rename reports an error, the next release is told that the
entry is reserved already, and the entry is gone when the ledger is opened again. And a revocation
at the zero time leaves an owner without a deadline, which the recovery pass drops.
-/
theorem custody_lost :
    (({} : Ledger).reports (fun _ _ => 0) (finishedRun .renamed)).map
        (fun r => r.told.toOption) =
      [some .opened, some (.effect (.granted [⟨"1", "run-a", 12⟩])),
        some (.effect (.reserved ⟨"1", "run-a"⟩)), none,
        some (.answer (.alreadyReserved ⟨"1", "run-a"⟩))] ∧
    (({} : Ledger).run (fun _ _ => 0) (finishedRun .renamed ++
        [⟨.openLedger, 5, .ok, 5⟩])).ownerOf "1" = none ∧
    (({} : Ledger).run (fun _ _ => 0) (zeroTimeRun 0)).ownerOf "v2|g|github|42" =
      some revokedOwner ∧
    (({} : Ledger).run (fun _ _ => 0) (zeroTimeRun 0 ++
      [⟨.call .recoverExpired, 1, .ok, 1⟩])).ownerOf "v2|g|github|42" = none := by
  decide

/--
After a finish that failed before the rename, a second release is told that the entry is reserved,
and the reservation outlives its lease and a reopening. So does a revoked claim at a later clock.
-/
theorem cleanup_outlives_lease :
    (({} : Ledger).run (fun _ _ => 0) (finishedRun .unchanged ++
      [⟨.call .recoverExpired, 100, .ok, 100⟩, ⟨.openLedger, 101, .ok, 101⟩])).All
        (InCustody "1" cleanedEntry) ∧
    ∃ u, (({} : Ledger).run (fun _ _ => 0) (zeroTimeRun 1 ++
      [⟨.call .recoverExpired, 100, .ok, 100⟩])).handle = some u ∧
        (u.entries.get? "v2|g|github|42").isSome = true := by
  constructor
  · refine ((custody_kept (fun _ _ => 0) .absent (cleanupRun ++ [reserveStep,
      ⟨.call (.finishProviderRelease cleanedEntry), 4, .unchanged, 4⟩]) reserveStep).1
        (.beginProviderRelease cleanedEntry) cleanedEntry "1"
        [⟨.call .recoverExpired, 100, .ok, 100⟩, ⟨.openLedger, 101, .ok, 101⟩] ?_ rfl (.inl rfl)
        ⟨"run-a", .inr (by rfl)⟩ ?_).2.1
    · have hio : ∀ s ∈ finishedRun .unchanged ++ [⟨.call .recoverExpired, 100, .ok, 100⟩,
          ⟨.openLedger, 101, .ok, 101⟩], s.io ≠ .renamed := by decide
      exact fun s hs _ _ => hio s hs
    · rintro p hp _ c hc ⟨_, rfl, _⟩
      rcases mem_cons.mp hp with rfl | hp
      · cases hc
      rcases mem_cons.mp hp with rfl | hp
      · cases hc
      · cases hp
  · obtain ⟨⟨u, hu, hget⟩, _⟩ := (custody_kept (fun _ _ => 0) .absent (zeroTimeRun 1)
      ⟨.call .recoverExpired, 100, .ok, 100⟩).2 _ "v2|g|github|42" _ (by decide) rfl rfl rfl
        (by decide)
    exact ⟨u, hu, by rw [hget]; rfl⟩

end Goobers.Claims
