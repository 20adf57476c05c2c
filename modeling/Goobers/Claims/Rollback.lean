import Goobers.Claims.Reload

/-!
# A failed write changes nothing

Every operation undoes its own change by hand when the rewrite of the file fails: the entry
it replaced, and the history record under the run it takes the entry to be of. A reservation
takes the run from the owner it was asked for, which is the run of the entry because
`OpenClaimLedger` has checked the two against each other and no operation parts them.
-/

namespace Goobers.Claims

open Lib
open SharedClaim (Record)

variable {encodedSize : String → Record → Nat} {l : Ledger}

theorem load_owned {file : ClaimsFile} {now : Int} {t : Table}
    (h : load encodedSize file now = .ok t) : t.Owned := by
  intro k e he howner
  rw [load_eq h] at he
  exact (sharedOk_of_valid (valid_of_load h he) (.inl howner)).run

theorem step_handle {P : Table → Prop} {s : Step} (h : ∀ t, l.handle = some t → P t)
    (hload : ∀ t, load encodedSize l.file s.now = .ok t → P t)
    (hwrite : ∀ (c : Call) t next undone effect, P t →
      c.attempt encodedSize t s.now = .write next undone effect →
      P (next.retained s.clock) ∧ P undone) :
    ∀ t, (l.step encodedSize s).1.handle = some t → P t := by
  refine step_elim encodedSize l s ?opened (fun _ _ => nofun) (fun _ _ => h) ?written
  case opened =>
    rintro t ht _ ⟨⟩
    exact hload t ht
  case written =>
    intro c t next undone effect _ ht hattempt _
    obtain ⟨hnext, hundone⟩ := hwrite c t next undone effect (h t ht) hattempt
    cases s.io with
    | ok =>
      rintro _ ⟨⟩
      exact hnext
    | unchanged | renamed =>
      rintro _ ⟨⟩
      exact hundone

theorem step_owned (h : ∀ t, l.handle = some t → t.Owned) (s : Step) :
    ∀ t, (l.step encodedSize s).1.handle = some t → t.Owned := by
  refine step_handle h (fun t ht => load_owned ht) ?_
  intro c t next undone effect howned hattempt
  refine ⟨fun k e he => attempt_owned hattempt howned k e he, fun k e he => ?_⟩
  rw [attempt_undone_entries hattempt] at he
  exact howned k e he

theorem run_owned (h : ∀ t, l.handle = some t → t.Owned) (steps : List Step) :
    ∀ t, (l.run encodedSize steps).handle = some t → t.Owned := by
  induction steps generalizing l with
  | nil => exact h
  | cons s steps ih => exact ih (step_owned h s)

/--
**A failed write changes nothing.** In whatever state a ledger is that was opened on any file
and used in any way, an operation whose rewrite of the file fails returns the error, and
afterwards every entry and every history record in memory is the one there was before.
-/
theorem failed_write_undone (encodedSize : String → Record → Nat) (file : ClaimsFile)
    (steps : List Step) {t next undone : Table} {effect : Effect}
    (ht : (({ file := file } : Ledger).run encodedSize steps).handle = some t) (s : Step) {c : Call}
    (hcall : s.action = .call c)
    (hwrites : c.attempt encodedSize t s.now = .write next undone effect) (hfails : s.io ≠ .ok) :
    let after := (({ file := file } : Ledger).run encodedSize steps).step encodedSize s
    after.2.told = .error .persist ∧ ∃ u, after.1.handle = some u ∧ u.Same t := by
  have howned : t.Owned := run_owned (fun t ht => by cases ht) steps t ht
  have hsame : undone.Same t := by
    refine ⟨attempt_undone_entries hwrites, ?_⟩
    rcases attempt_cases hwrites with hchanges | ⟨_, _, _, _, _, hundone, _⟩
    · exact hchanges.undone_history howned
    · rw [hundone]
      exact fun _ _ => rfl
  unfold Ledger.step
  rw [hcall, ht]
  dsimp only
  rw [hwrites]
  cases hio : s.io with
  | ok => exact absurd hio hfails
  | unchanged | renamed => exact ⟨rfl, undone, rfl, hsame⟩

/-- An item is claimed, and the rewrite for a second item of the run fails before the rename. -/
theorem failed_claim_undone :
    let after := (({ file := .absent } : Ledger).run (fun _ _ => 0)
      [⟨.openLedger, 1, .ok, 1⟩, ⟨.call (.claim "1" "run-a" "w" 10), 2, .ok, 2⟩]).step
      (fun _ _ => 0) ⟨.call (.claim "2" "run-a" "w" 10), 3, .unchanged, 3⟩
    after.2.told = .error .persist ∧ ∃ u, after.1.handle = some u ∧
      u.Same (({} : Ledger).run (fun _ _ => 0)
        [⟨.openLedger, 1, .ok, 1⟩, ⟨.call (.claim "1" "run-a" "w" 10), 2, .ok, 2⟩]).file.table := by
  exact failed_write_undone (fun _ _ => 0) .absent
    [⟨.openLedger, 1, .ok, 1⟩, ⟨.call (.claim "1" "run-a" "w" 10), 2, .ok, 2⟩]
    rfl ⟨.call (.claim "2" "run-a" "w" 10), 3, .unchanged, 3⟩ rfl
    (show Call.attempt (fun _ _ => 0) _ 3 (.claim "2" "run-a" "w" 10) = .write _ _ _ from rfl)
    (by decide)

end Goobers.Claims
