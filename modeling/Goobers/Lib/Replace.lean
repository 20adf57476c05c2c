import Mathlib.Data.List.Basic
import Mathlib.Data.List.Infix

/-!
# Replacing the occurrences of a word

`replaceAll` goes from left to right and puts `new` for every occurrence of `old` that
does not overlap one before. Where no occurrence straddles a cut, the two sides can be
replaced on their own (`replaceAll_append`). Several words are replaced one after the
other; the texts in between have placeholders in them, and a word that cannot overlap
a placeholder straddles a cut of such a text only if it did so before.
-/

namespace Goobers.Lib

open List

variable {α : Type}

/-- The word lies across the cut between the two texts. -/
def Straddles (v x y : List α) : Prop :=
  ∃ p s, p ≠ [] ∧ s ≠ [] ∧ v = p ++ s ∧ p <:+ x ∧ s <+: y

/-- The two words can share a symbol of some text. -/
def Overlaps (v r : List α) : Prop :=
  r <:+: v ∨ v <:+: r ∨ (∃ q, q ≠ [] ∧ q <+: v ∧ q <:+ r) ∨ ∃ q, q ≠ [] ∧ q <:+ v ∧ q <+: r

theorem not_overlaps_of_disjoint {v r : List α} (hv : v ≠ []) (hr : r ≠ [])
    (h : ∀ a ∈ v, a ∉ r) : ¬ Overlaps v r := by
  have hshare : ∀ q : List α, q ≠ [] → q ⊆ v → q ⊆ r → False := by
    intro q hq hqv hqr
    obtain ⟨a, ha⟩ := exists_mem_of_ne_nil q hq
    exact h a (hqv ha) (hqr ha)
  intro hover
  rcases hover with hin | hin | ⟨q, hq, hqv, hqr⟩ | ⟨q, hq, hqv, hqr⟩
  · exact hshare r hr hin.subset (List.Subset.refl r)
  · exact hshare v hv (List.Subset.refl v) hin.subset
  · exact hshare q hq hqv.subset hqr.subset
  · exact hshare q hq hqv.subset hqr.subset

theorem Straddles.mono {v x x' y : List α} (hx : x <:+ x') (h : Straddles v x y) :
    Straddles v x' y := by
  obtain ⟨p, s, hp, hs, hv, hpx, hsy⟩ := h
  exact ⟨p, s, hp, hs, hv, hpx.trans hx, hsy⟩

variable [DecidableEq α]

/-- The text from `skip` symbols on, with every occurrence replaced. -/
def replaceFrom (old new : List α) : Nat → List α → List α
  | _, [] => []
  | skip + 1, _ :: s => replaceFrom old new skip s
  | 0, a :: s =>
    if old.isPrefixOf (a :: s) then new ++ replaceFrom old new (old.length - 1) s
    else a :: replaceFrom old new 0 s

def replaceAll (old new s : List α) : List α := replaceFrom old new 0 s

variable {old new : List α}

theorem replaceFrom_eq (old new : List α) (skip : Nat) (s : List α) :
    replaceFrom old new skip s = replaceAll old new (s.drop skip) := by
  induction skip generalizing s with
  | zero => rfl
  | succ skip ih =>
    cases s with
    | nil => rfl
    | cons a s => exact ih s

@[simp] theorem replaceAll_nil (old new : List α) : replaceAll old new [] = [] := rfl

theorem replaceAll_at (hold : old ≠ []) {s : List α} (h : old <+: s) :
    replaceAll old new s = new ++ replaceAll old new (s.drop old.length) := by
  cases s with
  | nil => exact absurd (prefix_nil.mp h) hold
  | cons a s =>
    have hlen : old.length = old.length - 1 + 1 := by
      have := length_pos_iff.mpr hold
      omega
    have hstep : replaceAll old new (a :: s) = new ++ replaceFrom old new (old.length - 1) s :=
      if_pos (List.isPrefixOf_iff_prefix.mpr h)
    rw [hstep, replaceFrom_eq]
    conv_rhs => rw [hlen, drop_succ_cons]

theorem replaceAll_cons_ne {a : α} {s : List α} (h : ¬ old <+: a :: s) :
    replaceAll old new (a :: s) = a :: replaceAll old new s :=
  if_neg fun hpre => h (List.isPrefixOf_iff_prefix.mp hpre)

theorem replaceAll_front (hold : old ≠ []) (new s : List α) :
    replaceAll old new s = s ∨
      ∃ front rest, replaceAll old new s = front ++ new ++ rest ∧ front <+: s := by
  induction s with
  | nil => exact .inl rfl
  | cons a s ih =>
    by_cases hpre : old <+: a :: s
    · right
      exact ⟨[], _, replaceAll_at hold hpre, nil_prefix⟩
    · rw [replaceAll_cons_ne hpre]
      rcases ih with heq | ⟨front, rest, heq, hfront⟩
      · exact .inl (by rw [heq])
      · exact .inr ⟨a :: front, rest, by rw [heq]; simp, cons_prefix_cons.mpr ⟨rfl, hfront⟩⟩

theorem replaceAll_back (hold : old ≠ []) (new s : List α) :
    replaceAll old new s = s ∨
      ∃ front rest, replaceAll old new s = front ++ new ++ rest ∧ rest <:+ s := by
  induction hn : s.length using Nat.strong_induction_on generalizing s with
  | _ n ih =>
    cases s with
    | nil => exact .inl rfl
    | cons a s =>
      by_cases hpre : old <+: a :: s
      · right
        rw [replaceAll_at hold hpre]
        have hpos := length_pos_iff.mpr hold
        have hlt : ((a :: s).drop old.length).length < n := by
          rw [length_drop, hn]
          rw [length_cons] at hn
          omega
        rcases ih _ hlt _ rfl with heq | ⟨front, rest, heq, hrest⟩
        · exact ⟨[], _, by rw [heq]; rfl, drop_suffix _ _⟩
        · exact ⟨new ++ front, rest, by rw [heq]; simp, hrest.trans (drop_suffix _ _)⟩
      · rw [replaceAll_cons_ne hpre]
        have hlt : s.length < n := by
          rw [length_cons] at hn
          omega
        rcases ih _ hlt s rfl with heq | ⟨front, rest, heq, hrest⟩
        · exact .inl (by rw [heq])
        · exact .inr ⟨a :: front, rest, by rw [heq]; simp, hrest.trans (suffix_cons a s)⟩

/-- **Where nothing straddles the cut**, the sides are replaced on their own. -/
theorem replaceAll_append (hold : old ≠ []) (new : List α) {x y : List α}
    (h : ¬ Straddles old x y) :
    replaceAll old new (x ++ y) = replaceAll old new x ++ replaceAll old new y := by
  induction hn : x.length using Nat.strong_induction_on generalizing x with
  | _ n ih =>
    cases x with
    | nil => rfl
    | cons a x =>
      by_cases hpre : old <+: (a :: x) ++ y
      · by_cases hlen : old.length ≤ (a :: x).length
        · have hx : old <+: a :: x :=
            prefix_of_prefix_length_le hpre (prefix_append _ _) hlen
          have hpos := length_pos_iff.mpr hold
          have hlt : ((a :: x).drop old.length).length < n := by
            rw [length_drop]
            omega
          rw [replaceAll_at hold hpre, replaceAll_at hold hx,
            drop_append_of_le_length hlen, append_assoc]
          rw [ih _ hlt (fun hs => h (hs.mono (drop_suffix _ _))) rfl]
        · -- the occurrence would lie across the cut
          have hx : a :: x <+: old :=
            prefix_of_prefix_length_le (prefix_append _ _) hpre (by omega)
          obtain ⟨s, rfl⟩ := hx
          refine absurd ⟨a :: x, s, by simp, ?_, rfl, suffix_refl _, ?_⟩ h
          · intro hs
            rw [hs, append_nil] at hlen
            exact hlen (Nat.le_refl _)
          · exact (prefix_append_right_inj (a :: x)).mp hpre
      · have hx : ¬ old <+: a :: x := fun hx => hpre (hx.trans (prefix_append _ _))
        have hlt : x.length < n := by
          rw [length_cons] at hn
          omega
        rw [cons_append] at hpre ⊢
        rw [replaceAll_cons_ne hpre, replaceAll_cons_ne hx, cons_append]
        rw [ih _ hlt (fun hs => h (hs.mono (suffix_cons a x))) rfl]

/-- **A word that cannot overlap the placeholder** straddles the cut only if it did before. -/
theorem Straddles.of_replaceAll {v x y : List α} (hold : old ≠ []) (hv : ¬ Overlaps v new)
    (h : Straddles v (replaceAll old new x) (replaceAll old new y)) : Straddles v x y := by
  obtain ⟨p, s, hp, hs, rfl, hpx, hsy⟩ := h
  refine ⟨p, s, hp, hs, rfl, ?_, ?_⟩
  · rcases replaceAll_back hold new x with heq | ⟨front, rest, heq, hrest⟩
    · rwa [heq] at hpx
    · rw [heq] at hpx
      by_cases hlen : p.length ≤ rest.length
      · exact (suffix_of_suffix_length_le hpx (suffix_append _ _) hlen).trans hrest
      -- the word would reach into the last placeholder
      have hback : rest <:+ p :=
        suffix_of_suffix_length_le (suffix_append _ _) hpx (by omega)
      obtain ⟨q, rfl⟩ := hback
      have hq : q ≠ [] := by
        rintro rfl
        exact hlen (Nat.le_refl _)
      have hqn : q <:+ front ++ new := by
        obtain ⟨t, ht⟩ := hpx
        rw [← append_assoc] at ht
        exact ⟨t, append_cancel_right ht⟩
      by_cases hshort : q.length ≤ new.length
      · have hqr := suffix_of_suffix_length_le hqn (suffix_append _ _) hshort
        exact absurd (.inr (.inr (.inl ⟨q, hq, ⟨rest ++ s, by simp⟩, hqr⟩))) hv
      · have hnq : new <:+ q :=
          suffix_of_suffix_length_le (suffix_append _ _) hqn (by omega)
        refine absurd (.inl ?_) hv
        exact hnq.isInfix.trans ⟨[], rest ++ s, by simp⟩
  · rcases replaceAll_front hold new y with heq | ⟨front, rest, heq, hfront⟩
    · rwa [heq] at hsy
    · rw [heq, append_assoc] at hsy
      by_cases hlen : s.length ≤ front.length
      · exact (prefix_of_prefix_length_le hsy (prefix_append _ _) hlen).trans hfront
      -- or into the first one
      have hpre : front <+: s :=
        prefix_of_prefix_length_le (prefix_append _ _) hsy (by omega)
      obtain ⟨q, rfl⟩ := hpre
      have hq : q ≠ [] := by
        rintro rfl
        exact hlen (by simp)
      have hqn : q <+: new ++ rest := (prefix_append_right_inj front).mp hsy
      by_cases hshort : q.length ≤ new.length
      · have hqr := prefix_of_prefix_length_le hqn (prefix_append _ _) hshort
        exact absurd (.inr (.inr (.inr ⟨q, hq, ⟨p ++ front, by simp⟩, hqr⟩))) hv
      · have hnq : new <+: q :=
          prefix_of_prefix_length_le (prefix_append _ _) hqn (by omega)
        refine absurd (.inl ?_) hv
        exact hnq.isInfix.trans ⟨p ++ front, [], by simp⟩

/-- **A word that cannot overlap the placeholder** is there only if it was before, and is not
the one that was replaced. -/
theorem infix_of_replaceAll {v s : List α} (hold : old ≠ []) (hv : v ≠ [])
    (hnew : ¬ Overlaps v new) (h : v <:+: replaceAll old new s) : v <:+: s ∧ v ≠ old := by
  induction hn : s.length using Nat.strong_induction_on generalizing s with
  | _ n ih =>
    cases s with
    | nil => exact absurd (infix_nil.mp h) hv
    | cons a s =>
      rw [length_cons] at hn
      by_cases hpre : old <+: a :: s
      · rw [replaceAll_at hold hpre] at h
        have hlt : ((a :: s).drop old.length).length < n := by
          have := length_pos_iff.mpr hold
          rw [length_drop, length_cons]
          omega
        have hrest : v <:+: replaceAll old new ((a :: s).drop old.length) := by
          rcases infix_append_iff.mp h with hin | hin | ⟨p, q, rfl, hp, hq⟩
          · exact absurd (.inr (.inl hin)) hnew
          · exact hin
          · by_cases hnil : p = []
            · exact hnil ▸ hq.isInfix
            · exact absurd (.inr (.inr (.inl ⟨p, hnil, prefix_append p q, hp⟩))) hnew
        obtain ⟨hin, hne⟩ := ih _ hlt hrest rfl
        exact ⟨hin.trans (drop_suffix _ _).isInfix, hne⟩
      · have hone : replaceAll old new [a] = [a] :=
          replaceAll_cons_ne fun hone => hpre (hone.trans (prefix_append [a] s))
        rw [replaceAll_cons_ne hpre] at h
        rcases infix_cons_iff.mp h with hfront | hrest
        · have hs : v <+: a :: s := by
            obtain ⟨q, rfl, hq⟩ := (prefix_cons_iff.mp hfront).resolve_left hv
            by_cases hnil : q = []
            · exact hnil ▸ prefix_append [a] s
            -- the word lies across the cut after its first symbol
            obtain ⟨p, t, hp, -, heq, hpa, ht⟩ := Straddles.of_replaceAll hold hnew
              ⟨[a], q, by simp, hnil, rfl, ⟨[], hone.symm⟩, hq⟩
            have hpa : p = [a] := (suffix_cons_iff.mp hpa).resolve_right (mt suffix_nil.mp hp)
            rw [heq, hpa]
            exact cons_prefix_cons.mpr ⟨rfl, ht⟩
          exact ⟨hs.isInfix, fun heq => hpre (heq ▸ hs)⟩
        · obtain ⟨hin, hne⟩ := ih s.length (by omega) hrest rfl
          exact ⟨infix_cons hin, hne⟩

def replaceEach (words : List (List α)) (new s : List α) : List α :=
  words.foldl (fun s old => replaceAll old new s) s

/-- **Where no word straddles the cut** and none can overlap the placeholder, the sides are
replaced on their own. -/
theorem replaceEach_append {words : List (List α)} {x y : List α} (hne : ∀ v ∈ words, v ≠ [])
    (hnew : ∀ v ∈ words, ¬ Overlaps v new) (h : ∀ v ∈ words, ¬ Straddles v x y) :
    replaceEach words new (x ++ y) = replaceEach words new x ++ replaceEach words new y := by
  induction words generalizing x y with
  | nil => rfl
  | cons old words ih =>
    have hold := hne old mem_cons_self
    unfold replaceEach at ih ⊢
    rw [foldl_cons, replaceAll_append hold new (h old mem_cons_self)]
    refine ih (fun v hv => hne v (mem_cons_of_mem _ hv))
      (fun v hv => hnew v (mem_cons_of_mem _ hv)) (fun v hv hs => ?_)
    exact h v (mem_cons_of_mem _ hv)
      (hs.of_replaceAll hold (hnew v (mem_cons_of_mem _ hv)))

/-- **No word of the list is left** if it cannot overlap the placeholder. -/
theorem infix_of_replaceEach {words : List (List α)} {v s : List α} (hne : ∀ w ∈ words, w ≠ [])
    (hv : v ≠ []) (hnew : ¬ Overlaps v new) (h : v <:+: replaceEach words new s) :
    v <:+: s ∧ v ∉ words := by
  induction words generalizing s with
  | nil => exact ⟨h, not_mem_nil⟩
  | cons old words ih =>
    obtain ⟨hin, hrest⟩ := ih (fun w hw => hne w (mem_cons_of_mem _ hw)) h
    obtain ⟨hs, hold⟩ := infix_of_replaceAll (hne old mem_cons_self) hv hnew hin
    exact ⟨hs, not_mem_cons_of_ne_of_not_mem hold hrest⟩

end Goobers.Lib
