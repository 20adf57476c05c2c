import Goobers.Claims.Placement

/-!
# One item under two keys

An item-only claim could belong to any namespace, so it excludes every scoped claimant of the
item until it expires: a scoped claim looks under the item's id before it takes its own key.
The other direction is missing. An item-only claim looks under its own key alone, and finishing
a remote admission does not look again, so a scoped lease of one run and an item-only lease of
another can be live together.

If no call does that, the two schemes together have one holder for an item at any time.
-/

namespace Goobers.Claims

open Lib
open SharedClaim (Owner Record)

/-- An entry of the item-only scheme. -/
def ClaimEntry.IsLegacy (e : ClaimEntry) : Prop := e.gaggle = "" ∧ e.provider = ""

def ClaimEntry.IsScoped (e : ClaimEntry) : Prop := e.gaggle ≠ "" ∧ e.provider ≠ ""

instance (e : ClaimEntry) : Decidable e.IsLegacy := inferInstanceAs (Decidable (_ ∧ _))

instance (e : ClaimEntry) : Decidable e.IsScoped := inferInstanceAs (Decidable (_ ∧ _))

/-- Of an item that is leased in both schemes at the time, one run has both leases. -/
def OneHolder (time : Int) (t : Table) : Prop :=
  ∀ k k' a b, t.entries.get? k = some a → t.entries.get? k' = some b → a.IsLegacy → b.IsScoped →
    a.itemID = b.itemID → a.expired time = false → b.expired time = false → a.runID = b.runID

/-- What the calls do not check themselves. -/
structure Call.Separates (c : Call) (t : Table) (now : Int) : Prop where
  /-- An item-only lease is asked for only while no other run has a scoped lease of the item. -/
  claims : ∀ p ∈ c.itemOnly, ∀ k b, t.entries.get? k = some b → b.IsScoped → b.itemID = p.1 →
    b.expired now = false → p.2 = b.runID
  /-- An admission is finished only while no other run has an item-only lease of the item. -/
  admits : ∀ expected deadline, c = .finishSharedAdmission expected deadline →
    ∀ k b, claimEntryStorageKey expected = .ok k → t.entries.get? k = some b →
    ∀ a, t.entries.get? b.itemID = some a → a.IsLegacy → a.expired now = false → a.runID = b.runID

section
variable (encodedSize : String → Record → Nat)

def StepSeparates (l : Ledger) (s : Step) : Prop :=
  ∀ c t, s.action = .call c → l.handle = some t → c.Separates t s.now

def RunSeparates : Ledger → List Step → Prop
  | _, [] => True
  | l, s :: steps => StepSeparates l s ∧ RunSeparates (l.step encodedSize s).1 steps

end

/-! ## The invariant -/

/-- The maps as the operations leave them, with one holder for an item from `time` on. -/
structure Separated (time : Int) (t : Table) : Prop where
  placed : t.Placed
  shaped : t.Shaped
  one : OneHolder time t

section
variable {encodedSize : String → Record → Nat} {c : Call} {t next undone : Table} {now time : Int}
  {effect : Effect}

theorem expired_mono {e : ClaimEntry} {time' : Int} (hle : time ≤ time')
    (h : e.expired time' = false) : e.expired time = false := by
  simp only [ClaimEntry.expired, decide_eq_false_iff_not] at h ⊢
  omega

theorem Separated.later {time' : Int} (h : Separated time t) (hle : time ≤ time') :
    Separated time' t := by
  refine ⟨h.placed, h.shaped, fun k k' a b ha hb hlegacy hscoped hitem hlive hlive' => ?_⟩
  exact h.one k k' a b ha hb hlegacy hscoped hitem (expired_mono hle hlive)
    (expired_mono hle hlive')

theorem Separated.congr {u : Table} (h : Separated time t)
    (heq : ∀ k, u.entries.get? k = t.entries.get? k) : Separated time u := by
  refine ⟨fun k e he => ?_, fun k e he => ?_, fun k k' a b ha hb => ?_⟩
  · exact h.placed k e (heq k ▸ he)
  · exact h.shaped k e (heq k ▸ he)
  · exact h.one k k' a b (heq k ▸ ha) (heq k' ▸ hb)

theorem separated_empty (time : Int) : Separated time {} := by
  refine ⟨fun k e he => ?_, fun k e he => ?_, fun k k' a b ha => ?_⟩
  · cases he
  · cases he
  · cases ha

/-- An item-only lease made beside a live scoped one of the item is of the same run. -/
theorem Change.legacy_new {k k' : String} {a b record : ClaimEntry}
    (h : Change encodedSize c t now k (some a) record effect) (hsep : Separated now t)
    (hc : c.Separates t now) (hb : t.entries.get? k' = some b) (hlegacy : a.IsLegacy)
    (hscoped : b.IsScoped) (hitem : a.itemID = b.itemID) (hlive : a.expired now = false)
    (hlive' : b.expired now = false) : a.runID = b.runID := by
  rcases h.lease_cases with ⟨_, hasked⟩ | ⟨_, _, old, _, _, hold, hpending, heq⟩ | hended |
    ⟨old, hold, hsame⟩
  · exact hc.claims _ (hasked hlegacy.1) k' b hb hscoped hitem.symm hlive'
  · -- a pending admission is of a scoped entry
    have hnamed := (hsep.shaped k old hold).named (.inr (.inr (.inr hpending)))
    rw [heq] at hlegacy
    exact absurd hlegacy.1 hnamed
  · rw [hended] at hlive
    cases hlive
  · rw [hsame.runID]
    refine hsep.one k k' old b hold hb ?_ hscoped (hsame.itemID ▸ hitem) ?_ hlive'
    · exact ⟨hsame.gaggle ▸ hlegacy.1, hsame.provider ▸ hlegacy.2⟩
    · unfold ClaimEntry.expired at hlive ⊢
      rw [← hsame.expiresAt]
      exact hlive

/-- And the other way round. -/
theorem Change.scoped_new {k k' : String} {a b record : ClaimEntry}
    (h : Change encodedSize c t now k' (some b) record effect) (hsep : Separated now t)
    (hc : c.Separates t now) (ha : t.entries.get? k = some a) (hlegacy : a.IsLegacy)
    (hscoped : b.IsScoped) (hitem : a.itemID = b.itemID) (hlive : a.expired now = false)
    (hlive' : b.expired now = false) : a.runID = b.runID := by
  have hk : k = b.itemID := ((hsep.placed k a ha).item_of_unscoped hlegacy.1).symm.trans hitem
  rcases h.lease_cases with ⟨hmade, _⟩ | ⟨_, _, old, hcall, hnamed, hold, _, heq⟩ | hended |
    ⟨old, hold, hsame⟩
  · rcases hmade.alone hscoped.1 a (hk ▸ ha) with hexpired | hrun
    · rw [hexpired] at hlive
      cases hlive
    · exact hrun
  · have hagree := hc.admits _ _ hcall k' old hnamed hold a
    rw [heq] at hk ⊢
    exact hagree (hk ▸ ha) hlegacy hlive
  · rw [hended] at hlive'
    cases hlive'
  · rw [hsame.runID]
    refine hsep.one k k' a old ha hold hlegacy ?_ (hitem.trans hsame.itemID) hlive ?_
    · exact ⟨hsame.gaggle ▸ hscoped.1, hsame.provider ▸ hscoped.2⟩
    · unfold ClaimEntry.expired at hlive' ⊢
      rw [← hsame.expiresAt]
      exact hlive'

theorem Changes.oneHolder (h : Changes encodedSize c t now next undone effect)
    (hsep : Separated now t) (hc : c.Separates t now) : OneHolder now next := by
  intro k k' a b ha hb hlegacy hscoped hitem hlive hlive'
  -- each of the two was there before the call, or is new
  rcases h.entry_cases ha with hold | ⟨_, _, hchange⟩
  · rcases h.entry_cases hb with hold' | ⟨_, _, hchange'⟩
    · exact hsep.one k k' a b hold hold' hlegacy hscoped hitem hlive hlive'
    · exact hchange'.scoped_new hsep hc hold hlegacy hscoped hitem hlive hlive'
  · rcases h.entry_cases hb with hold' | ⟨_, _, hchange'⟩
    · exact hchange.legacy_new hsep hc hold' hlegacy hscoped hitem hlive hlive'
    · by_cases hold : t.entries.get? k = some a
      · exact hchange'.scoped_new hsep hc hold hlegacy hscoped hitem hlive hlive'
      · by_cases hold' : t.entries.get? k' = some b
        · exact hchange.legacy_new hsep hc hold' hlegacy hscoped hitem hlive hlive'
        · exact h.new_run ha hb hold hold'

/-- A migration moves an item's item-only lease away, so nothing is left to agree with. -/
theorem moveAll_oneHolder {resolve : ClaimEntry → Resolved} {ms : List Migration}
    (hplan : planMigrations t resolve (legacyClaims t) [] = .ok ms) (hsep : Separated now t) :
    OneHolder now (ms.foldl Table.move t) := by
  intro k k' a b ha hb hlegacy hscoped hitem hlive hlive'
  rcases get?_moveAll_cases ha with hold | ⟨m, hm, _, hentry⟩
  · rcases get?_moveAll_cases hb with hold' | ⟨m, hm, _, hentry⟩
    · exact hsep.one k k' a b hold hold' hlegacy hscoped hitem hlive hlive'
    · obtain ⟨old, gaggle, provider, hold', hgaggle, _, hmoved⟩ := mem_migrations hplan hm
      -- `b` was under the key `a` is under
      have hkey : m.legacyKey = k := by
        have h1 : old.itemID = m.legacyKey := (hsep.placed _ _ hold').item_of_unscoped hgaggle
        have h2 : a.itemID = k := (hsep.placed _ _ hold).item_of_unscoped hlegacy.1
        rw [← h1, ← h2, hitem, ← hentry, hmoved]
      obtain ⟨m', hm', _, hentry'⟩ := get?_moveAll_legacy ha ⟨m, hm, hkey⟩
      obtain ⟨_, gaggle', _, _, _, hscoped', hmoved'⟩ := mem_migrations hplan hm'
      have hne : a.gaggle ≠ "" := by
        rw [← hentry', hmoved']
        exact storageKey_gaggle hscoped'
      exact absurd hlegacy.1 hne
  · obtain ⟨_, gaggle, _, _, _, hscoped', hmoved⟩ := mem_migrations hplan hm
    have hne : a.gaggle ≠ "" := by
      rw [← hentry, hmoved]
      exact storageKey_gaggle hscoped'
    exact absurd hlegacy.1 hne

theorem attempt_separated (h : c.attempt encodedSize t now = .write next undone effect)
    (hsep : Separated now t) (hc : c.Separates t now) : Separated now next := by
  refine ⟨attempt_placed h hsep.placed, attempt_shaped h hsep.shaped, ?_⟩
  rcases attempt_cases h with hchanges | ⟨_, ms, _, hplan, hms, _⟩
  · exact hchanges.oneHolder hsep hc
  · subst hms
    exact moveAll_oneHolder hplan hsep

theorem step_separated {l : Ledger} {s : Step} (h : l.All (Separated time)) (hle : time ≤ s.now)
    (hs : StepSeparates l s) : (l.step encodedSize s).1.All (Separated s.now) := by
  refine step_all h (fun t ht => ht.later hle) ?_ ?_
  · intro t hload hfile
    exact (hfile.later hle).congr (load_entries_of_placed hload hfile.placed)
  · intro c t next undone effect hc ht hsep hattempt _
    have hnow := hsep.later hle
    have hnext := attempt_separated hattempt hnow (hs c t hc ht)
    exact ⟨fun _ => hnext.congr (fun _ => rfl), hnow.congr (attempt_undone_entries hattempt)⟩

/-- Steps in order of time that keep the schemes apart leave one holder for each item. -/
theorem run_separated {l : Ledger} {steps : List Step} {time' : Int} (h : l.All (Separated time))
    (hle : ∀ s ∈ steps, time ≤ s.now) (hsorted : (steps.map Step.now).Pairwise (· ≤ ·))
    (hle' : ∀ s ∈ steps, s.now ≤ time') (htime : time ≤ time')
    (hs : RunSeparates encodedSize l steps) :
    (l.run encodedSize steps).All (Separated time') := by
  induction steps generalizing l time with
  | nil => exact ⟨h.1.later htime, fun t ht => (h.2 t ht).later htime⟩
  | cons s steps ih =>
    rw [List.map_cons, List.pairwise_cons] at hsorted
    have hstep : (l.step encodedSize s).1.All (Separated s.now) :=
      step_separated h (hle s List.mem_cons_self) hs.1
    refine ih hstep (fun s' hs' => ?_) hsorted.2 (fun s' hs' => ?_) ?_ hs.2
    · exact hsorted.1 s'.now (List.mem_map_of_mem hs')
    · exact hle' s' (List.mem_cons_of_mem _ hs')
    · exact hle' s List.mem_cons_self

end

/--
**One item, one holder, in runs whose calls keep the schemes apart.** The run starts from the
empty ledger and its times do not decrease; whatever the calls and however their writes fail,
neither the file nor the memory has live leases of one item for two runs, one item-only and one
scoped, at the end of the run or later.
-/
theorem one_holder_of_separates (encodedSize : String → Record → Nat) (steps : List Step)
    (time : Int) (hsorted : (steps.map Step.now).Pairwise (· ≤ ·))
    (htime : ∀ s ∈ steps, s.now ≤ time) (hrun : RunSeparates encodedSize {} steps) :
    (({} : Ledger).run encodedSize steps).All (OneHolder time) := by
  have hsep : (({} : Ledger).run encodedSize steps).All (Separated time) := by
    cases steps with
    | nil => exact all_empty (separated_empty time)
    | cons s rest =>
      refine run_separated (all_empty (separated_empty s.now)) ?_ hsorted htime ?_ hrun
      · intro s' hs'
        rw [List.map_cons, List.pairwise_cons] at hsorted
        rcases List.mem_cons.mp hs' with rfl | hs'
        · exact Int.le_refl _
        · exact hsorted.1 s'.now (List.mem_map_of_mem hs')
      · exact htime s List.mem_cons_self
  exact ⟨hsep.1.one, fun t ht => (hsep.2 t ht).one⟩

def mixedRun : List Step :=
  [⟨.openLedger, 1, .ok, 1⟩,
   ⟨.call (.claimScoped { gaggle := "g", provider := "github", externalID := "42" } "run-a" "work"
      100), 10, .ok, 10⟩,
   ⟨.call (.claim "42" "run-b" "work" 100), 20, .ok, 20⟩]

/-- Both are live. -/
theorem mixedRun_two_holders :
    ¬ (({} : Ledger).run (fun _ _ => 0) mixedRun).All (OneHolder 30) := by
  intro h
  have hsame := h.1 "42" "v2|g|github|42"
    { itemID := "42", externalID := "42", runID := "run-b", workflow := "work", claimedAt := 20,
      expiresAt := 120 }
    { itemID := "42", gaggle := "g", provider := "github", externalID := "42", runID := "run-a",
      workflow := "work", claimedAt := 10, expiresAt := 110 }
    (by decide) (by decide) (by decide) (by decide) rfl (by decide) (by decide)
  exact absurd hsame (by decide)

/-- The item-only claim first: the scoped one has to wait until it expires. -/
def orderedRun : List Step :=
  [⟨.openLedger, 1, .ok, 1⟩,
   ⟨.call (.claim "42" "run-b" "work" 10), 10, .ok, 10⟩,
   ⟨.call (.claimScoped { gaggle := "g", provider := "github", externalID := "42" } "run-a" "work"
      100), 15, .ok, 15⟩,
   ⟨.call (.claimScoped { gaggle := "g", provider := "github", externalID := "42" } "run-a" "work"
      100), 30, .ok, 30⟩]

theorem orderedRun_one_holder :
    (({} : Ledger).run (fun _ _ => 0) orderedRun).All (OneHolder 40) := by
  refine one_holder_of_separates (fun _ _ => 0) orderedRun 40 (by decide) (by decide) ?_
  refine ⟨?_, ?_, ?_, ?_, trivial⟩
  · intro c t hc
    cases hc
  · -- the ledger is empty, so there is no scoped lease yet
    intro c t hc ht
    obtain rfl : {} = t := Option.some.inj ht
    cases hc
    refine ⟨fun p _ k b hb => ?_, fun expected deadline hcall => ?_⟩
    · cases hb
    · cases hcall
  all_goals
    intro c t hc _
    cases hc
    refine ⟨fun p hp => ?_, fun expected deadline hcall => ?_⟩
    · cases hp
    · cases hcall

end Goobers.Claims
