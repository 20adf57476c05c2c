import Goobers.Claims.Cases

/-!
# A lease is exclusive

What protects run `A` on key `K` is a fact about the entry at `K` alone: it is
`A`'s, and it is either in custody (a provider release or a remote admission is
pending) or it does not expire before the instant in question. Every write keeps
that fact in the maps it computes, and every undo gives the entry back, so it
holds of the open ledger and of the file separately, however their contents part
when a rewrite fails halfway.

A write that reached the file counts here even if the directory sync failed after
it and the caller saw an error: a renewal that did so set its expiry in the file,
and a release that did so ended the lease there.
-/

namespace Goobers.Claims

open Lib List Table
open SharedClaim (Owner Record)

/-! ## What an effect says about a key -/

namespace Effect

def Grants (effect : Effect) (storageKey runID : String) : Prop :=
  ∃ grants, effect = .granted grants ∧ ∃ expiresAt, ⟨storageKey, runID, expiresAt⟩ ∈ grants

/-- The effect puts the key in the run's hands, as a lease or as a reservation. -/
def Gives (effect : Effect) (storageKey runID : String) : Prop :=
  effect.Grants storageKey runID ∨ effect = .reserved ⟨storageKey, runID⟩

def Settles (effect : Effect) (storageKey runID : String) : Prop :=
  effect.Grants storageKey runID ∨ effect = .released ⟨storageKey, runID⟩ ∨
    effect = .revoked ⟨storageKey, runID⟩

/-- The reservation ends: the admission is granted, or the lease is released. -/
def Finishes (effect : Effect) (storageKey runID : String) : Prop :=
  effect.Grants storageKey runID ∨ effect = .released ⟨storageKey, runID⟩

end Effect

/-! ## The guarded entry -/

/--
The entry at `K` is `A`'s, and in custody or good until `bound`. Without a bound
only custody counts.
-/
def Guard (K A : String) (bound : Option Int) (entries : Entries) : Prop :=
  ∃ e, entries.get? K = some e ∧ e.runID = A ∧
    (e.transitionPending = true ∨ ∃ x, bound = some x ∧ x ≤ e.expiresAt)

/-- The effects after which the guard need not hold any more. -/
def Frees (K A : String) (bound : Option Int) (effect : Effect) : Prop :=
  effect.Finishes K A ∨ (bound ≠ none ∧ effect = .revoked ⟨K, A⟩)

variable {K A : String} {bound : Option Int} {t next undone : Table} {now : Int} {effect : Effect}
  {encodedSize : String → Record → Nat} {c : Call}

theorem granted_one_grants {key runID : String} {e : ClaimEntry} :
    (Effect.granted [grantOf key e]).Grants K runID ↔ key = K ∧ e.runID = runID := by
  constructor
  · intro ⟨grants, heq, expiresAt, hmem⟩
    injection heq with heq
    subst heq
    have hgrant := mem_singleton.mp hmem
    injection hgrant with h1 h2
    exact ⟨h1.symm, h2.symm⟩
  · intro ⟨h1, h2⟩
    subst h1 h2
    exact ⟨_, rfl, e.expiresAt, mem_singleton.mpr rfl⟩

/-! ## What an update does to the entry that is there -/

section
variable {key : String} {entry : Option ClaimEntry} {record : ClaimEntry}

section
variable (h : Change encodedSize c t now key entry record effect)
include h

theorem Change.of_gives {B : String} (hgives : effect.Gives K B) :
    key = K ∧ ∃ e, entry = some e ∧ e.runID = B := by
  rcases hgives with hgrants | hreserved
  · cases h with
    | grant
    | finish => exact ⟨(granted_one_grants.mp hgrants).1, _, rfl, (granted_one_grants.mp hgrants).2⟩
    | _ =>
      obtain ⟨_, heq, _⟩ := hgrants
      cases heq
  · cases h with
    | reserveNew | reserve =>
      injection hreserved with hcustody
      injection hcustody with hkey hrun
      exact ⟨hkey, _, rfl, hrun⟩
    | _ => cases hreserved

/-- The run of an entry only changes when the lease before it had run out. -/
theorem Change.run_eq {e old : ClaimEntry} (hentry : entry = some e)
    (hold : t.entries.get? key = some old) :
    e.runID = old.runID ∨ (old.transitionPending = false ∧ old.expired now = true) := by
  cases h with
  | grant ok | reserveNew _ ok =>
    injection hentry with hentry
    subst hentry
    obtain ⟨hfree, hrun⟩ := ok.free old hold
    rcases hrun with hexpired | hsame
    · exact Or.inr ⟨hfree, hexpired⟩
    · exact Or.inl hsame.symm
  | finish _ _ held _ _ _ he | reserve held _ _ he | verify held he =>
    rw [held] at hold
    cases hold
    cases hentry
    exact Or.inl (by rw [he])
  | release => cases hentry
  | revoke _ _ held _ he =>
    rw [held] at hold
    cases hold
    cases hentry
    refine Or.inl ?_
    rw [he]
    split <;> rfl

/-- A lease goes into transition, is granted anew, is revoked, or keeps its expiry. -/
theorem Change.lease_eq {e old : ClaimEntry} (hentry : entry = some e)
    (hold : t.entries.get? key = some old) :
    e.transitionPending = true ∨ effect.Grants key e.runID ∨
      (e.transitionPending = old.transitionPending ∧
        (effect = .revoked ⟨key, old.runID⟩ ∨ e.expiresAt = old.expiresAt)) := by
  cases h with
  | grant | finish =>
    cases hentry
    exact Or.inr (Or.inl (granted_one_grants.mpr ⟨rfl, rfl⟩))
  | reserveNew _ ok =>
    cases hentry
    exact Or.inl (by simp [ClaimEntry.transitionPending, ok.pending])
  | reserve _ pending _ he =>
    cases hentry
    exact Or.inl (by rw [he]; exact pending)
  | release => cases hentry
  | revoke _ _ held _ he =>
    rw [held] at hold
    cases hold
    cases hentry
    refine Or.inr (Or.inr ⟨?_, Or.inl rfl⟩)
    rw [he]
    split <;> rfl
  | verify held he =>
    rw [held] at hold
    cases hold
    cases hentry
    exact Or.inr (Or.inr ⟨by rw [he]; rfl, Or.inr (by rw [he])⟩)

end

theorem Change.gone (h : Change encodedSize c t now key none record effect) {old : ClaimEntry}
    (hold : t.entries.get? key = some old) : effect = .released ⟨key, old.runID⟩ := by
  cases h with
  | release held =>
    rw [held] at hold
    cases hold
    rfl

/-! ## Updates keep the guard -/

theorem Guard.congr {entries entries' : Entries} (h : Guard K A bound entries)
    (heq : entries'.get? K = entries.get? K) : Guard K A bound entries' := by
  obtain ⟨e, hget, hrest⟩ := h
  exact ⟨e, by rw [heq, hget], hrest⟩

section
variable (h : Change encodedSize c t now key entry record effect)
include h

theorem Change.run_of_guard {e : ClaimEntry} (hentry : entry = some e)
    (hguard : Guard key A bound t.entries) (hnow : ∀ x, bound = some x → now < x) :
    e.runID = A := by
  obtain ⟨old, hold, hrun, hlease⟩ := hguard
  rcases h.run_eq hentry hold with hsame | ⟨hfree, hexpired⟩
  · exact hsame.trans hrun
  · rcases hlease with hpending | ⟨x, hx, hle⟩
    · rw [hfree] at hpending
      cases hpending
    · have hlt := hnow x hx
      simp only [ClaimEntry.expired, decide_eq_true_eq] at hexpired
      omega

theorem Change.gives_of_guard (hguard : Guard K A bound t.entries)
    (hnow : ∀ x, bound = some x → now < x) {B : String} (hgives : effect.Gives K B) : B = A := by
  obtain ⟨hkey, e, hentry, hB⟩ := h.of_gives hgives
  subst hkey
  exact hB.symm.trans (h.run_of_guard hentry hguard hnow)

/-- While the guard holds, only an effect that frees the key takes it from the run. -/
theorem Change.guard (hguard : Guard K A bound t.entries) (hnow : ∀ x, bound = some x → now < x)
    (hfrees : ¬ Frees K A bound effect) : Guard K A bound (t.setEntry key entry).entries := by
  by_cases hkey : K = key
  · subst hkey
    obtain ⟨old, hold, hrun, hlease⟩ := id hguard
    have hget : (t.setEntry K entry).entries.get? K = entry := by
      rw [get?_setEntry, if_pos rfl]
    cases hentry : entry with
    | none =>
      subst hentry
      have hrel := h.gone hold
      rw [hrun] at hrel
      exact absurd (Or.inl (Or.inr hrel)) hfrees
    | some e =>
      have hA := h.run_of_guard hentry hguard hnow
      refine ⟨e, hentry ▸ hget, hA, ?_⟩
      rcases h.lease_eq hentry hold with hpending | hgrants | ⟨hsame, hrest⟩
      · exact Or.inl hpending
      · rw [hA] at hgrants
        exact absurd (Or.inl (Or.inl hgrants)) hfrees
      · rcases hlease with hpending | ⟨x, hx, hle⟩
        · exact Or.inl (hsame.trans hpending)
        · rcases hrest with hrevoked | hexp
          · rw [hrun] at hrevoked
            exact absurd (Or.inr ⟨by rw [hx]; simp, hrevoked⟩) hfrees
          · exact Or.inr ⟨x, hx, by rw [hexp]; exact hle⟩
  · exact hguard.congr (by rw [get?_setEntry, if_neg hkey])

end

end

/-! ## Batches and undos -/

theorem Changes.undone_entries (h : Changes encodedSize c t now next undone effect) (k : String) :
    undone.entries.get? k = t.entries.get? k := by
  cases h with
  | @one key undoRun entry record _ _ _ =>
    rw [restoreHistory_entries, get?_setEntry]
    split_ifs with hk
    · rw [hk]
    · rw [recordHistory_entries, get?_setEntry, if_neg hk]
  | give => rfl
  | @drop rs _ held _ =>
    rcases undropAll_entry rs t (dropAll t now rs) k with ⟨hsame, hother⟩ | ⟨x, hx, hkey, hput⟩
    · rcases dropAll_entry rs now t k with ⟨hkept, _⟩ | ⟨x, hx, hkey, _⟩
      · exact hsame.trans hkept
      · exact absurd hkey (hother x hx)
    · rw [hput, ← hkey, held x hx]

theorem gives_batch {entryOf : PlannedClaim → ClaimEntry} {cs : List PlannedClaim} {B : String}
    (h : (Effect.granted (cs.map (fun p => grantOf p.storageKey (entryOf p)))).Gives K B) :
    ∃ p ∈ cs, p.storageKey = K ∧ (entryOf p).runID = B := by
  rcases h with ⟨grants, heq, expiresAt, hmem⟩ | hreserved
  · injection heq with heq
    obtain ⟨p, hp, hgrant⟩ := mem_map.mp (heq ▸ hmem)
    injection hgrant with hkey hrun
    exact ⟨p, hp, hkey, hrun⟩
  · cases hreserved

theorem Changes.gives_of_guard (h : Changes encodedSize c t now next undone effect)
    (hguard : Guard K A bound t.entries) (hnow : ∀ x, bound = some x → now < x) {B : String}
    (hgives : effect.Gives K B) : B = A := by
  cases h with
  | one change => exact change.gives_of_guard hguard hnow hgives
  | @give cs entryOf runID _ _ _ oks asked =>
    obtain ⟨c, hc, hkey, hrun⟩ := gives_batch hgives
    exact hrun.symm.trans ((Change.grant (oks c hc) (asked c hc)).run_of_guard rfl
      (hkey ▸ hguard) hnow)
  | drop =>
    rcases hgives with ⟨_, heq, _⟩ | heq
    · cases heq
    · cases heq

theorem Changes.guard (h : Changes encodedSize c t now next undone effect)
    (hguard : Guard K A bound t.entries)
    (hnow : ∀ x, bound = some x → now < x)
    (hfrees : ¬ Frees K A bound effect) : Guard K A bound next.entries := by
  cases h with
  | one change => exact change.guard hguard hnow hfrees
  | @give cs entryOf runID _ _ _ oks asked =>
    rcases giveAll_entry entryOf cs t K with ⟨hsame, _⟩ | ⟨c, hc, hkey, _⟩
    · exact hguard.congr hsame
    · have hA := (Change.grant (oks c hc) (asked c hc)).run_of_guard rfl (hkey ▸ hguard) hnow
      have hgrants : (Effect.granted (cs.map (fun c => grantOf c.storageKey (entryOf c)))).Grants
          K A :=
        ⟨_, rfl, (entryOf c).expiresAt, mem_map.mpr ⟨c, hc, by rw [grantOf, hkey, hA]⟩⟩
      exact absurd (Or.inl (Or.inl hgrants)) hfrees
  | @drop rs _ held idle =>
    rcases dropAll_entry rs now t K with ⟨hsame, _⟩ | ⟨r, hr, hkey, _⟩
    · exact hguard.congr hsame
    -- a guarded lease is in custody or has not expired, so it is not dropped
    obtain ⟨e, hget, _, hlease⟩ := hguard
    have hheld := held r hr
    rw [hkey, hget] at hheld
    injection hheld with heq
    obtain ⟨hfree, hexpired⟩ := idle r hr
    rw [← heq] at hfree hexpired
    rcases hlease with hpending | ⟨x, hx, hle⟩
    · rw [hfree] at hpending
      cases hpending
    · have hlt := hnow x hx
      simp only [ClaimEntry.expired, decide_eq_true_eq] at hexpired
      omega

/-! ## The open ledger and its file -/

def ClaimsFile.entries : ClaimsFile → Entries
  | .absent | .garbage => ∅
  | .legacy entries => entries
  | .state _ table => table.entries

theorem ClaimsFile.entries_eq (file : ClaimsFile) : file.entries = file.table.entries := by
  cases file <;> rfl

/-- The guard, in memory and in the file. -/
structure LedgerGuard (K A : String) (bound : Option Int) (l : Ledger) : Prop where
  file : Guard K A bound l.file.entries
  handle : ∀ t, l.handle = some t → Guard K A bound t.entries

theorem load_entries {file : ClaimsFile} {t : Table}
    (h : load encodedSize file now = .ok t) (k : String) :
    t.entries.get? k = (file.entries.get? k).map (fillItem k) := by
  rw [load_eq h, retained_entries, file.entries_eq]
  unfold fillItems
  rw [GoMap.get?_sift]
  cases file.table.entries.get? k <;> rfl

theorem load_guard {file : ClaimsFile} {t : Table}
    (h : load encodedSize file now = .ok t) (hguard : Guard K A bound file.entries) :
    Guard K A bound t.entries := by
  obtain ⟨e, hget, hrun, hlease⟩ := hguard
  exact ⟨fillItem K e, by rw [load_entries h, hget]; rfl, hrun, hlease⟩

/-! ## Runs -/

section
variable {l : Ledger} {s : Step}

theorem step_gives_of_guard (hguard : LedgerGuard K A bound l)
    (hnow : ∀ x, bound = some x → s.now < x) (hmove : s.action.isMigration = false)
    {effect : Effect} (hwrote : (l.step encodedSize s).2.wrote = some effect) {B : String}
    (hgives : effect.Gives K B) : B = A := by
  obtain ⟨c, t, next, undone, hs, ht, hattempt⟩ := step_wrote hwrote
  rw [hs] at hmove
  exact (attempt_changes hmove hattempt).gives_of_guard (hguard.handle t ht) hnow hgives

/-- One step, seen from memory and from the file at once. -/
theorem step_guard (hguard : LedgerGuard K A bound l) (hnow : ∀ x, bound = some x → s.now < x)
    (hmove : s.action.isMigration = false)
    (hfrees : ∀ effect, (l.step encodedSize s).2.wrote = some effect → ¬ Frees K A bound effect) :
    LedgerGuard K A bound (l.step encodedSize s).1 := by
  have hall : (l.step encodedSize s).1.All (fun t => Guard K A bound t.entries) := by
    refine step_all ⟨l.file.entries_eq ▸ hguard.file, hguard.handle⟩ (fun _ h => h)
      (fun t hload h => load_guard hload (l.file.entries_eq ▸ h)) ?_
    intro c t next undone effect hs ht h hattempt hstep
    rw [hs] at hmove
    have hw := attempt_changes hmove hattempt
    refine ⟨fun hio => ?_, h.congr (hw.undone_entries K)⟩
    exact hw.guard h hnow (hfrees effect (by rw [hstep]; exact commit_wrote hio))
  exact ⟨ClaimsFile.entries_eq _ ▸ hall.1, hall.2⟩

/-- No run takes the key from its holder before the holder or the time frees it. -/
theorem run_guard {steps : List Step} (hguard : LedgerGuard K A bound l)
    (hnow : ∀ s ∈ steps, ∀ x, bound = some x → s.now < x)
    (hmove : ∀ s ∈ steps, s.action.isMigration = false)
    (hfrees : ∀ r ∈ l.reports encodedSize steps, ∀ effect, r.wrote = some effect →
      ¬ Frees K A bound effect) :
    LedgerGuard K A bound (l.run encodedSize steps) := by
  induction steps generalizing l with
  | nil => exact hguard
  | cons s steps ih =>
    have hstep := step_guard hguard (hnow s mem_cons_self) (hmove s mem_cons_self)
      (hfrees _ mem_cons_self)
    exact ih hstep (fun s' hs' => hnow s' (mem_cons_of_mem _ hs'))
      (fun s' hs' => hmove s' (mem_cons_of_mem _ hs'))
      (fun r hr => hfrees r (mem_cons_of_mem _ hr))

end

/-! ## Where a guard starts -/

/-- A grant is guarded until its lease runs out. -/
theorem Changes.guard_of_granted {grants : List Grant} {e : Int}
    (h : Changes encodedSize c t now next undone (.granted grants)) (hmem : ⟨K, A, e⟩ ∈ grants) :
    Guard K A (some e) next.entries := by
  have hone : ∀ {key : String} {entry : ClaimEntry}, ⟨K, A, e⟩ ∈ [grantOf key entry] →
      Guard K A (some e) ((t.setEntry key (some entry)).recordHistory key entry).entries := by
    intro key entry hsingle
    have hgrant := mem_singleton.mp hsingle
    injection hgrant with hkey hrun hexp
    subst hkey
    refine ⟨entry, ?_, hrun.symm, Or.inr ⟨e, rfl, by rw [hexp]⟩⟩
    rw [recordHistory_entries, get?_setEntry, if_pos rfl]
  cases h with
  | one change =>
    cases change with
    | grant | finish => exact hone hmem
  | give run expires =>
    obtain ⟨c, hc, hgrant⟩ := mem_map.mp hmem
    injection hgrant with hkey hrun hexp
    rcases giveAll_entry _ _ t K with ⟨_, hother⟩ | ⟨d, hd, _, hget⟩
    · exact absurd hkey (hother c hc)
    refine ⟨_, hget, ?_, Or.inr ⟨e, rfl, ?_⟩⟩
    · rw [run d hd, ← run c hc, hrun]
    · rw [expires d hd, ← expires c hc, hexp]

/-- A reserved release is guarded without a limit of time. -/
theorem Changes.guard_of_reserved (h : Changes encodedSize c t now next undone (.reserved ⟨K, A⟩)) :
    Guard K A none next.entries := by
  generalize heff : Effect.reserved ⟨K, A⟩ = effect at h
  cases h with
  | @one key _ entry record _ change _ =>
    cases change with
    | reserveNew _ ok =>
      injection heff with heff
      injection heff with hkey hrun
      subst hkey
      refine ⟨record, ?_, hrun.symm, Or.inl (by simp [ClaimEntry.transitionPending, ok.pending])⟩
      rw [recordHistory_entries, get?_setEntry, if_pos rfl]
    | reserve _ pending _ he =>
      injection heff with heff
      injection heff with hkey hrun
      subst hkey
      refine ⟨record, ?_, hrun.symm, Or.inl (by rw [he]; exact pending)⟩
      rw [recordHistory_entries, get?_setEntry, if_pos rfl]
    | _ => cases heff
  | give => cases heff
  | drop => cases heff

section
variable {l : Ledger} {s : Step}

/-- What a caller is told was written, to memory and to the file. -/
theorem step_told {effect : Effect} (h : (l.step encodedSize s).2.told = .ok (.effect effect)) :
    ∃ c t next undone, s.action = .call c ∧ l.handle = some t ∧
      c.attempt encodedSize t s.now = .write next undone effect ∧
      (l.step encodedSize s).1 = ⟨.state claimLedgerSchema (next.retained s.clock),
        some (next.retained s.clock)⟩ := by
  revert h
  refine step_elim encodedSize l s (fun _ _ => nofun) ?shut ?kept ?written
  case shut => rintro _ (rfl | ⟨e, rfl⟩) <;> exact nofun
  case kept => rintro _ (⟨e, rfl⟩ | ⟨_, _, _, _, _, _, rfl⟩) <;> exact nofun
  case written =>
    intro c t next undone effect' hs ht hattempt _ h
    cases hio : s.io with
    | ok =>
      rw [hio] at h
      have heq : effect' = effect := by
        injection h with h
        injection h
      exact ⟨c, t, next, undone, hs, ht, heq ▸ hattempt, rfl⟩
    | unchanged | renamed =>
      rw [hio] at h
      cases h

theorem step_of_told {effect : Effect} (h : (l.step encodedSize s).2.told = .ok (.effect effect))
    (hmove : ∀ moves, effect ≠ .migrated moves) :
    ∃ c t next undone, s.action = .call c ∧ l.handle = some t ∧
      Changes encodedSize c t s.now next undone effect ∧
      (l.step encodedSize s).1 = ⟨.state claimLedgerSchema (next.retained s.clock),
        some (next.retained s.clock)⟩ := by
  obtain ⟨c, t, next, undone, hs, ht, hattempt, hstep⟩ := step_told h
  rcases attempt_cases hattempt with hchanges | ⟨_, _, _, _, _, _, heffect⟩
  · exact ⟨c, t, next, undone, hs, ht, hchanges, hstep⟩
  · exact absurd heffect (hmove _)

theorem guard_of_told_granted {grants : List Grant} {e : Int}
    (h : (l.step encodedSize s).2.told = .ok (.effect (.granted grants)))
    (hmem : ⟨K, A, e⟩ ∈ grants) : LedgerGuard K A (some e) (l.step encodedSize s).1 := by
  obtain ⟨c, t, next, undone, _, _, hw, hstep⟩ := step_of_told h (fun moves => by simp)
  have hguard := hw.guard_of_granted hmem
  rw [hstep]
  exact ⟨hguard, fun u hu => by injection hu with hu; rw [← hu]; exact hguard⟩

/-- The key is reserved for the run: a call says so, or the ledger was opened and shows it. -/
def Reserved (l : Ledger) (told : Except LedgerError Told) (K A : String) : Prop :=
  told = .ok (.effect (.reserved ⟨K, A⟩)) ∨
    (told = .ok .opened ∧ ∃ t e, l.handle = some t ∧ t.entries.get? K = some e ∧
      e.runID = A ∧ e.transitionPending = true)

theorem guard_of_reserved
    (h : Reserved (l.step encodedSize s).1 (l.step encodedSize s).2.told K A) :
    LedgerGuard K A none (l.step encodedSize s).1 := by
  rcases h with htold | ⟨htold, t, e, ht, hget, hrun, hpending⟩
  · obtain ⟨c, t, next, undone, _, _, hw, hstep⟩ := step_of_told htold (fun moves => by simp)
    have hguard := hw.guard_of_reserved
    rw [hstep]
    exact ⟨hguard, fun u hu => by injection hu with hu; rw [← hu]; exact hguard⟩
  · revert htold ht
    refine step_elim encodedSize l s ?opened (fun _ _ _ => nofun) ?kept ?written
    case opened =>
      rintro u hload - ⟨⟩
      have hentries := load_entries hload K
      rw [hget] at hentries
      obtain ⟨e', hfile, heq⟩ := Option.map_eq_some_iff.mp hentries.symm
      refine ⟨⟨e', hfile, ?_, Or.inl ?_⟩, fun v hv => ?_⟩
      · rw [← hrun, ← heq]
        rfl
      · rw [← hpending, ← heq]
        rfl
      · injection hv with hv
        subst hv
        exact ⟨e, hget, hrun, Or.inl hpending⟩
    case kept => rintro _ (⟨e, rfl⟩ | ⟨_, _, _, _, _, _, rfl⟩) <;> exact nofun
    case written => exact fun _ _ _ _ _ _ _ _ _ => by cases s.io <;> exact nofun

end

/-! ## The ledger's promise -/

/--
**Claim lease exclusivity.** Take any run, whose times do not decrease, from any
file; `g` is one of its steps, `mid` what follows, and `s` the step after that.

If `g` granted or renewed `K` to `A` with expiry `e`, `s` runs before `e`, and
nothing in between renewed, released or revoked `A`'s lease, then `s` gives `K`
to no run but `A`. If `K` is reserved for `A` after `g` (for provider release or
for a remote admission) and nothing in between finished the reservation, then
`s` gives `K` to no run but `A`, however late.
-/
theorem claim_exclusive (encodedSize : String → Record → Nat) (l₀ : Ledger)
    (pre mid : List Step) (g s : Step) (K A : String)
    (htimes : (pre ++ g :: (mid ++ [s])).Pairwise (fun a b => a.now ≤ b.now))
    (hmove : ∀ x ∈ mid ++ [s], x.action.isMigration = false) :
    let out := (l₀.run encodedSize pre).step encodedSize g
    let between := out.1.reports encodedSize mid
    let last := ((out.1.run encodedSize mid).step encodedSize s).2
    (∀ grants e, out.2.told = .ok (.effect (.granted grants)) → ⟨K, A, e⟩ ∈ grants → s.now < e →
      (∀ r ∈ between, ∀ effect, r.wrote = some effect → ¬ effect.Settles K A) →
      ∀ effect B, last.wrote = some effect → effect.Gives K B → B = A) ∧
    (Reserved out.1 out.2.told K A →
      (∀ r ∈ between, ∀ effect, r.wrote = some effect → ¬ effect.Finishes K A) →
      ∀ effect B, last.wrote = some effect → effect.Gives K B → B = A) := by
  intro out between last
  have hmid : ∀ x ∈ mid, x.action.isMigration = false :=
    fun x hx => hmove x (mem_append_left _ hx)
  have hlast : s.action.isMigration = false := hmove s (by simp)
  refine ⟨?_, ?_⟩
  · intro grants e htold hmem hbefore hquiet effect B hwrote hgives
    have hle : ∀ x ∈ mid, x.now ≤ s.now := by
      have hsorted := (pairwise_cons.mp (pairwise_append.mp htimes).2.1).2
      intro x hx
      exact (pairwise_append.mp hsorted).2.2 x hx s (by simp)
    -- the guard of the grant lasts to the last step
    have hguard : LedgerGuard K A (some e) (out.1.run encodedSize mid) := by
      refine run_guard (guard_of_told_granted htold hmem) ?_ hmid ?_
      · intro x hx y hy
        injection hy with hy
        have := hle x hx
        omega
      · intro r hr eff heff hfrees
        refine hquiet r hr eff heff ?_
        rcases hfrees with (hgrants | hreleased) | ⟨_, hrevoked⟩
        · exact Or.inl hgrants
        · exact Or.inr (Or.inl hreleased)
        · exact Or.inr (Or.inr hrevoked)
    refine step_gives_of_guard hguard ?_ hlast hwrote hgives
    intro x hx
    injection hx with hx
    omega
  · intro hreserved hopen effect B hwrote hgives
    -- a reserved release is guarded at any time
    have hguard : LedgerGuard K A none (out.1.run encodedSize mid) := by
      refine run_guard (guard_of_reserved hreserved) (fun _ _ x hx => by cases hx) hmid ?_
      intro r hr eff heff hfrees
      rcases hfrees with hfinishes | ⟨hne, _⟩
      · exact hopen r hr eff heff hfinishes
      · exact hne rfl
    exact step_gives_of_guard hguard (fun x hx => by cases hx) hlast hwrote hgives

/-- Before the expiry the second run is refused, also by the reopened ledger. -/
theorem contestedRun_exclusive :
    let out := (({} : Ledger).run (fun _ _ => 0) [⟨.openLedger, 1, .ok, 1⟩]).step (fun _ _ => 0)
      ⟨.call (.claim "42" "run-a" "work" 100), 10, .ok, 10⟩
    let mid : List Step := [⟨.closeLedger, 30, .ok, 30⟩, ⟨.openLedger, 40, .ok, 40⟩]
    let last := ((out.1.run (fun _ _ => 0) mid).step (fun _ _ => 0)
      ⟨.call (.claim "42" "run-b" "work" 100), 50, .ok, 50⟩).2
    out.2.told = .ok (.effect (.granted [⟨"42", "run-a", 110⟩])) ∧
      ∀ effect B, last.wrote = some effect → effect.Gives "42" B → B = "run-a" := by
  intro out mid last
  have htold : out.2.told = .ok (.effect (.granted [⟨"42", "run-a", 110⟩])) := by decide
  refine ⟨htold, ?_⟩
  refine (claim_exclusive (fun _ _ => 0) {} [⟨.openLedger, 1, .ok, 1⟩] mid
    ⟨.call (.claim "42" "run-a" "work" 100), 10, .ok, 10⟩
    ⟨.call (.claim "42" "run-b" "work" 100), 50, .ok, 50⟩ "42" "run-a" (by decide) (by decide)).1
    _ 110 htold (by simp) (by decide) ?_
  intro r hr effect heff
  have hnone : ∀ r ∈ out.1.reports (fun _ _ => 0) mid, r.wrote = none := by decide
  rw [hnone r hr] at heff
  cases heff

end Goobers.Claims
