import Mathlib.Data.List.Basic
import Mathlib.Logic.Relation

/-!
# Depth-first searches that remember keys

A recursive search over frames. A frame whose key was seen before is not expanded again, and
after a number of expansions the search gives up and says so. What a frame contributes is added
up in `out`.

The frames a search expands may carry more than its keys tell apart (the path to them, say). What
holds of the search is therefore said about the expanded frames: if it did not give up, every
successor of an expanded frame is stopped at or has the key of an expanded frame. Where the key
determines the part of a frame that matters, the expanded frames cover everything reachable.

The recursion is on a counter. One more than the bound is enough, since every call is nested in
one expansion more than its caller.
-/

namespace Goobers.Lib

open List

variable {φ κ σ α : Type}

structure Memo (κ σ : Type) where
  visited : List κ := []
  expansions : Nat := 0
  bounded : Bool := false
  out : σ

structure MemoSearch (φ κ σ : Type) where
  key : φ → κ
  /-- The search does not enter the frame. -/
  stop : φ → Bool
  next : φ → List φ
  visit : φ → σ → σ
  bound : Nat

namespace MemoSearch

def walk [DecidableEq κ] (s : MemoSearch φ κ σ) : Nat → φ → Memo κ σ → Memo κ σ
  | 0, _, m => m
  | fuel + 1, f, m =>
    if s.stop f then m
    else if s.key f ∈ m.visited then m
    else
      let m := { m with visited := s.key f :: m.visited, expansions := m.expansions + 1 }
      if s.bound < m.expansions then { m with bounded := true }
      else (s.next f).foldl (fun m g => walk s fuel g m) { m with out := s.visit f m.out }

/-- The whole search from one frame. -/
def run [DecidableEq κ] (s : MemoSearch φ κ σ) (root : φ) (out : σ) : Memo κ σ :=
  s.walk (s.bound + 1) root { out := out }

variable {s : MemoSearch φ κ σ}

/-- One step of the search as it would go without keys. -/
def Step (s : MemoSearch φ κ σ) (f g : φ) : Prop := s.stop f = false ∧ g ∈ s.next f

/-- The state has given up if it is past the bound. -/
def Honest (s : MemoSearch φ κ σ) (m : Memo κ σ) : Prop :=
  s.bound < m.expansions → m.bounded = true

/-- What a part of the search has done: it began with the roots at `m`, expanded the frames in this
order and ended with `m'`. -/
structure Log (s : MemoSearch φ κ σ) (roots : List φ) (m : Memo κ σ) (expanded : List φ)
    (m' : Memo κ σ) : Prop where
  out : m'.out = expanded.foldl (fun out e => s.visit e out) m.out
  entered : ∀ e ∈ expanded, s.stop e = false
  reached : ∀ e ∈ expanded, ∃ r ∈ roots, Relation.ReflTransGen s.Step r e
  grows : m.visited ⊆ m'.visited
  counts : m.expansions ≤ m'.expansions
  honest : s.Honest m'
  latched : m.bounded = true → m'.bounded = true
  /-- A key that is new belongs to an expanded frame. -/
  keyed : m'.bounded = false → ∀ k ∈ m'.visited, k ∈ m.visited ∨ ∃ e ∈ expanded, s.key e = k
  complete : m'.bounded = false → ∀ r ∈ roots, s.stop r = true ∨ s.key r ∈ m'.visited
  closed : m'.bounded = false → ∀ e ∈ expanded, ∀ g ∈ s.next e,
    s.stop g = true ∨ s.key g ∈ m'.visited

theorem log_nil {m : Memo κ σ} (h : s.Honest m) : s.Log [] m [] m where
  out := rfl
  entered := nofun
  reached := nofun
  grows := List.Subset.refl _
  counts := Nat.le_refl _
  honest := h
  latched := fun h => h
  keyed := fun _ _ hk => .inl hk
  complete := fun _ _ hr => absurd hr not_mem_nil
  closed := fun _ _ he => absurd he not_mem_nil

theorem log_skip {m : Memo κ σ} {f : φ} (h : s.Honest m)
    (hskip : m.bounded = false → s.stop f = true ∨ s.key f ∈ m.visited) :
    s.Log [f] m [] m :=
  { log_nil h with
    reached := nofun
    complete := fun hb r hr => by
      rw [mem_singleton.mp hr]
      exact hskip hb }

namespace Log

variable {roots roots' expanded expanded' : List φ} {m m' m'' : Memo κ σ}

theorem append (h : s.Log roots m expanded m') (h' : s.Log roots' m' expanded' m'') :
    s.Log (roots ++ roots') m (expanded ++ expanded') m'' := by
  have hback : m''.bounded = false → m'.bounded = false := by
    intro hb
    rw [← Bool.not_eq_true]
    intro hm'
    rw [h'.latched hm'] at hb
    cases hb
  constructor
  · rw [foldl_append, h'.out, h.out]
  · exact forall_mem_append.mpr ⟨h.entered, h'.entered⟩
  · intro e he
    rcases mem_append.mp he with he | he
    · obtain ⟨r, hr, hreach⟩ := h.reached e he
      exact ⟨r, mem_append_left _ hr, hreach⟩
    · obtain ⟨r, hr, hreach⟩ := h'.reached e he
      exact ⟨r, mem_append_right _ hr, hreach⟩
  · exact List.Subset.trans h.grows h'.grows
  · exact Nat.le_trans h.counts h'.counts
  · exact h'.honest
  · exact fun hb => h'.latched (h.latched hb)
  · intro hb k hk
    rcases h'.keyed hb k hk with hk | ⟨e, he, hke⟩
    · rcases h.keyed (hback hb) k hk with hk | ⟨e, he, hke⟩
      · exact .inl hk
      · exact .inr ⟨e, mem_append_left _ he, hke⟩
    · exact .inr ⟨e, mem_append_right _ he, hke⟩
  · intro hb r hr
    rcases mem_append.mp hr with hr | hr
    · exact (h.complete (hback hb) r hr).imp_right (fun hk => h'.grows hk)
    · exact h'.complete hb r hr
  · intro hb e he g hg
    rcases mem_append.mp he with he | he
    · exact (h.closed (hback hb) e he g hg).imp_right (fun hk => h'.grows hk)
    · exact h'.closed hb e he g hg

theorem expand {f : φ} (hstop : s.stop f = false)
    (h : s.Log (s.next f)
      { m with visited := s.key f :: m.visited, expansions := m.expansions + 1
               out := s.visit f m.out } expanded m') :
    s.Log [f] m (f :: expanded) m' := by
  constructor
  · exact h.out
  · exact forall_mem_cons.mpr ⟨hstop, h.entered⟩
  · intro e he
    refine ⟨f, mem_singleton.mpr rfl, ?_⟩
    rcases mem_cons.mp he with rfl | he
    · exact .refl
    · obtain ⟨r, hr, hreach⟩ := h.reached e he
      exact .head ⟨hstop, hr⟩ hreach
  · exact fun k hk => h.grows (mem_cons_of_mem _ hk)
  · exact Nat.le_trans (Nat.le_succ _) h.counts
  · exact h.honest
  · exact h.latched
  · intro hb k hk
    rcases h.keyed hb k hk with hk | ⟨e, he, hke⟩
    · rcases mem_cons.mp hk with rfl | hk
      · exact .inr ⟨f, mem_cons_self, rfl⟩
      · exact .inl hk
    · exact .inr ⟨e, mem_cons_of_mem _ he, hke⟩
  · intro hb r hr
    rw [mem_singleton.mp hr]
    exact .inr (h.grows mem_cons_self)
  · exact fun hb => forall_mem_cons.mpr ⟨h.complete hb, h.closed hb⟩

end Log

theorem walk_log [DecidableEq κ] (fuel : Nat) : ∀ (f : φ) (m : Memo κ σ), s.Honest m →
    s.bound < m.expansions + fuel → ∃ expanded, s.Log [f] m expanded (s.walk fuel f m) := by
  induction fuel with
  | zero =>
    -- the state is past the bound, so it has given up already
    intro f m hhonest hfuel
    refine ⟨[], log_skip hhonest fun hb => ?_⟩
    rw [hhonest hfuel] at hb
    cases hb
  | succ fuel ih =>
    have hlist : ∀ (gs : List φ) (m : Memo κ σ), s.Honest m → s.bound < m.expansions + fuel →
        ∃ expanded, s.Log gs m expanded (gs.foldl (fun m g => s.walk fuel g m) m) := by
      intro gs
      induction gs with
      | nil => exact fun m hhonest _ => ⟨[], log_nil hhonest⟩
      | cons g gs ihgs =>
        intro m hhonest hfuel
        obtain ⟨first, hfirst⟩ := ih g m hhonest hfuel
        have := hfirst.counts
        obtain ⟨rest, hrest⟩ := ihgs _ hfirst.honest (by omega)
        exact ⟨first ++ rest, hfirst.append hrest⟩
    intro f m hhonest hfuel
    rw [walk]
    split
    · rename_i hstop
      exact ⟨[], log_skip hhonest fun _ => .inl hstop⟩
    rename_i hstop
    split_ifs with hseen
    · exact ⟨[], log_skip hhonest fun _ => .inr hseen⟩
    dsimp only
    split_ifs with hwithin
    · refine ⟨[], ?_⟩
      exact
        { out := rfl
          entered := nofun
          reached := nofun
          grows := fun k hk => mem_cons_of_mem _ hk
          counts := Nat.le_succ _
          honest := fun _ => rfl
          latched := fun _ => rfl
          keyed := fun hb => absurd hb (by simp)
          complete := fun hb => absurd hb (by simp)
          closed := fun hb => absurd hb (by simp) }
    · obtain ⟨rest, hrest⟩ := hlist (s.next f)
        { m with visited := s.key f :: m.visited, expansions := m.expansions + 1
                 out := s.visit f m.out }
        (fun hpast => absurd hpast hwithin) (by simp only; omega)
      exact ⟨f :: rest, Log.expand (by simpa using hstop) hrest⟩

theorem run_log [DecidableEq κ] (root : φ) (out : σ) :
    ∃ expanded, s.Log [root] { out := out } expanded (s.run root out) :=
  walk_log (s.bound + 1) root { out := out } (fun h => absurd h (by simp)) (by simp)

/-- A search that did not give up covers what an abstract one reaches, if its key tells apart the
abstract states of the frames it does not stop at. -/
theorem Log.covers {root : φ} {out : σ} {expanded : List φ} {m' : Memo κ σ}
    (h : s.Log [root] { out := out } expanded m') (hb : m'.bounded = false) (abs : φ → α)
    (goes : α → α → Prop) (ends : α → Prop) (hends : ∀ f, s.stop f = true ↔ ends (abs f))
    (hgoes : ∀ e b, s.stop e = false → goes (abs e) b → ∃ g ∈ s.next e, abs g = b)
    (hkey : ∀ f g, Relation.ReflTransGen s.Step root f → Relation.ReflTransGen s.Step root g →
      s.stop f = false → s.stop g = false → s.key f = s.key g → abs f = abs g)
    {a : α} (hreach : Relation.ReflTransGen (fun a b => ¬ ends a ∧ goes a b) (abs root) a) :
    ends a ∨ ∃ e ∈ expanded, abs e = a := by
  have hexpanded : ∀ e ∈ expanded, Relation.ReflTransGen s.Step root e := by
    intro e he
    obtain ⟨r, hr, hr'⟩ := h.reached e he
    rw [mem_singleton.mp hr] at hr'
    exact hr'
  -- a reached frame that is not stopped at stands for the expanded one of its key
  have hfind : ∀ g, Relation.ReflTransGen s.Step root g →
      s.stop g = true ∨ s.key g ∈ m'.visited → ends (abs g) ∨ ∃ e ∈ expanded, abs e = abs g := by
    intro g hg hor
    by_cases hstop : s.stop g = true
    · exact .inl ((hends g).mp hstop)
    · rcases h.keyed hb _ (hor.resolve_left hstop) with hk | ⟨e, he, hke⟩
      · cases hk
      · exact .inr ⟨e, he, hkey e g (hexpanded e he) hg (h.entered e he) (by simpa using hstop)
          hke⟩
  induction hreach with
  | refl => exact hfind root .refl (h.complete hb root (mem_singleton.mpr rfl))
  | tail _ hstep ih =>
    obtain ⟨hnot, hgo⟩ := hstep
    rcases ih with hend | ⟨e, he, rfl⟩
    · exact absurd hend hnot
    · obtain ⟨g, hg, rfl⟩ := hgoes e _ (h.entered e he) hgo
      exact hfind g (.tail (hexpanded e he) ⟨h.entered e he, hg⟩) (h.closed hb e he g hg)

end MemoSearch

end Goobers.Lib
