import Mathlib.Algebra.BigOperators.Group.Finset.Piecewise
import Mathlib.Algebra.Order.BigOperators.Group.Finset
import Mathlib.Data.Finset.Max

/-!
# First come, first served

Members of a finite set wait, ordered by a key. Each belongs to a group, and a group
has room for some number of them: a member is served if fewer members of its group
than there is room for come before it. As many members of a group are served as there
are members and room (`card_served`), whoever they are. So the number of members
served can only go down when members leave or room is lost, although a member that
was not served may be served then, and it goes up by at most one with one more place.
-/

namespace Goobers.Lib.FirstCome

open Finset

variable {α β κ : Type} [DecidableEq α] [LinearOrder β] [DecidableEq κ]
variable {key : α → β} {group : α → κ} {S T : Finset α} {room room' : κ → ℕ}

/-- The members of a group that come before this one. -/
def ahead (key : α → β) (group : α → κ) (S : Finset α) (x : α) : Finset α :=
  S.filter (fun y => group y = group x ∧ key y < key x)

/-- The members there is room for. -/
def served (key : α → β) (group : α → κ) (room : κ → ℕ) (S : Finset α) : Finset α :=
  S.filter (fun x => #(ahead key group S x) < room (group x))

/-- The members that come before this one, of all groups. -/
def before (key : α → β) (S : Finset α) (p : α) : Finset α := S.filter (fun y => key y < key p)

omit [DecidableEq α] in
theorem mem_before {p x : α} : x ∈ before key S p ↔ x ∈ S ∧ key x < key p := mem_filter

omit [DecidableEq α] in
theorem before_before {p q : α} (h : key p < key q) :
    before key (before key S q) p = before key S p := by
  ext x
  simp only [mem_before]
  exact ⟨fun hx => ⟨hx.1.1, hx.2⟩, fun hx => ⟨⟨hx.1, hx.2.trans h⟩, hx.2⟩⟩

omit [DecidableEq α] in
theorem ahead_before {p x : α} (h : key x ≤ key p) :
    ahead key group (before key S p) x = ahead key group S x := by
  ext y
  simp only [ahead, mem_filter, mem_before]
  exact ⟨fun hy => ⟨hy.1.1, hy.2⟩, fun hy => ⟨⟨hy.1, hy.2.2.trans_le h⟩, hy.2⟩⟩

omit [DecidableEq α] in
theorem mem_served_before {p x : α} :
    x ∈ served key group room (before key S p) ↔ x ∈ served key group room S ∧ key x < key p := by
  simp only [served, mem_filter, mem_before]
  constructor
  · rintro ⟨⟨hx, hlt⟩, hroom⟩
    rw [ahead_before hlt.le] at hroom
    exact ⟨⟨hx, hroom⟩, hlt⟩
  · rintro ⟨⟨hx, hroom⟩, hlt⟩
    rw [ahead_before hlt.le]
    exact ⟨⟨hx, hlt⟩, hroom⟩

omit [DecidableEq α] in
theorem card_served_before_lt {p : α} (hp : p ∈ served key group room S) :
    #(served key group room (before key S p)) < #(served key group room S) := by
  refine card_lt_card ((ssubset_iff_of_subset ?_).mpr ⟨p, hp, ?_⟩)
  · exact fun x hx => (mem_served_before.mp hx).1
  · exact fun h => lt_irrefl _ (mem_served_before.mp h).2

theorem card_filter_rank_lt (hkey : Set.InjOn key S) (c : ℕ) :
    #(S.filter (fun x => #(S.filter (fun y => key y < key x)) < c)) = min #S c := by
  induction hn : #S generalizing S with
  | zero =>
    rw [card_eq_zero.mp hn]
    simp
  | succ n ih =>
    have hne : S.Nonempty := card_pos.mp (by omega)
    obtain ⟨m, hm, hmax⟩ := S.exists_max_image key hne
    have hcard : #(S.erase m) = n := by
      rw [card_erase_of_mem hm, hn]
      rfl
    -- the last member has all others before it, and is before none of them
    have hlast : S.filter (fun y => key y < key m) = S.erase m := by
      ext y
      rw [mem_filter, mem_erase]
      constructor
      · rintro ⟨hy, hlt⟩
        exact ⟨fun he => absurd hlt (by simp [he]), hy⟩
      · rintro ⟨hyne, hy⟩
        exact ⟨hy, lt_of_le_of_ne (hmax y hy) (fun he => hyne (hkey hy hm he))⟩
    have hothers : ∀ x ∈ S.erase m,
        S.filter (fun y => key y < key x) = (S.erase m).filter (fun y => key y < key x) := by
      intro x hx
      ext y
      simp only [mem_filter, mem_erase]
      constructor
      · rintro ⟨hy, hlt⟩
        refine ⟨⟨?_, hy⟩, hlt⟩
        rintro rfl
        exact absurd hlt (not_lt.mpr (hmax x (mem_of_mem_erase hx)))
      · rintro ⟨⟨_, hy⟩, hlt⟩
        exact ⟨hy, hlt⟩
    have hrest : (S.erase m).filter (fun x => #(S.filter (fun y => key y < key x)) < c) =
        (S.erase m).filter (fun x => #((S.erase m).filter (fun y => key y < key x)) < c) := by
      refine filter_congr fun x hx => ?_
      rw [hothers x hx]
    have hih := ih (hkey.mono (by simp)) hcard
    rw [← insert_erase hm, filter_insert, insert_erase hm, hlast, hrest]
    split
    · rw [card_insert_of_notMem (by simp)]
      omega
    · rw [hih]
      omega

/-- **How many are served**: in each group as many as there are members and room. -/
theorem card_served (hkey : Set.InjOn key S) :
    #(served key group room S) =
      ∑ j ∈ S.image group, min #(S.filter (fun x => group x = j)) (room j) := by
  have hmaps : ∀ x ∈ served key group room S, group x ∈ S.image group :=
    fun x hx => mem_image_of_mem _ (mem_of_mem_filter x hx)
  rw [card_eq_sum_card_fiberwise hmaps]
  refine sum_congr rfl fun j _ => ?_
  have hgroup := card_filter_rank_lt (hkey.mono (filter_subset (fun x => group x = j) S)) (room j)
  rw [← hgroup]
  refine congrArg card (Finset.ext fun x => ?_)
  rw [mem_filter, served, mem_filter, mem_filter, mem_filter, filter_filter]
  constructor
  · rintro ⟨⟨hx, hlt⟩, rfl⟩
    exact ⟨⟨hx, rfl⟩, hlt⟩
  · rintro ⟨⟨hx, rfl⟩, hlt⟩
    exact ⟨⟨hx, hlt⟩, rfl⟩

theorem card_served_mono (hkey : Set.InjOn key S) (hsub : T ⊆ S) (hroom : ∀ j, room' j ≤ room j) :
    #(served key group room' T) ≤ #(served key group room S) := by
  rw [card_served hkey, card_served (hkey.mono hsub)]
  calc ∑ j ∈ T.image group, min #(T.filter (fun x => group x = j)) (room' j)
      ≤ ∑ j ∈ T.image group, min #(S.filter (fun x => group x = j)) (room j) :=
        sum_le_sum fun j _ =>
          min_le_min (card_le_card (filter_subset_filter _ hsub)) (hroom j)
    _ ≤ ∑ j ∈ S.image group, min #(S.filter (fun x => group x = j)) (room j) :=
        sum_le_sum_of_subset (image_subset_image hsub)

theorem card_served_le_succ (hkey : Set.InjOn key S) (i : κ)
    (hroom : ∀ j, room' j ≤ room j + if j = i then 1 else 0) :
    #(served key group room' S) ≤ #(served key group room S) + 1 := by
  rw [card_served hkey, card_served hkey]
  calc ∑ j ∈ S.image group, min #(S.filter (fun x => group x = j)) (room' j)
      ≤ ∑ j ∈ S.image group,
          (min #(S.filter (fun x => group x = j)) (room j) + if j = i then 1 else 0) := by
        refine sum_le_sum fun j _ => ?_
        have := hroom j
        omega
    _ ≤ ∑ j ∈ S.image group, min #(S.filter (fun x => group x = j)) (room j) + 1 := by
        rw [sum_add_distrib, sum_ite_eq']
        split <;> omega

end Goobers.Lib.FirstCome
