import Mathlib.Data.List.Basic
import Mathlib.Data.List.Infix

/-!
# How much of a word has been seen

A text is read symbol by symbol, and the cursor of a word says how much of the word the
text ends in: the length of the longest proper prefix of the word that is a suffix of
what has been read. On a mismatch the cursor falls back along a table of the word's own
borders; after a whole match it goes on at the longest border of the word, so that
overlapping matches are seen.
-/

namespace Goobers.Lib

open List

section
variable {α : Type} [DecidableEq α]

/--
Fall back until the symbol fits or nothing is left. The entries of a table point back;
the last branch is for other lists of numbers.
-/
def fallback (v : List α) (fail : List Nat) (b : α) : Nat → Nat
  | 0 => 0
  | k + 1 =>
    if v[k + 1]? = some b then k + 1
    else if _h : fail.getD k 0 < k + 1 then fallback v fail b (fail.getD k 0)
    else 0
termination_by k => k
decreasing_by exact _h

/-- One more symbol of the word, if it fits. -/
def extend (v : List α) (b : α) (k : Nat) : Nat := if v[k]? = some b then k + 1 else k

/-- The next entry of the table: the word read against itself. -/
def failStep (v : List α) (fail : List Nat) (b : α) : List Nat :=
  fail ++ [extend v b (fallback v fail b (fail.getLastD 0))]

/-- For each non-empty prefix of the word its longest proper border. -/
def failTable (v : List α) : List Nat :=
  match v with
  | [] => []
  | _ :: rest => rest.foldl (failStep v) [0]

/-- The cursor after one more symbol. -/
def advanceCursor (v : List α) (fail : List Nat) (k : Nat) (b : α) : Nat :=
  let k := extend v b (fallback v fail b k)
  if k = v.length then fail.getD (k - 1) 0 else k

end

section
variable {α : Type} {v w : List α} {k : Nat}

/-- The longest prefix of the word that the text ends in; it may be the whole word. -/
structure Longest (v w : List α) (k : Nat) : Prop where
  le : k ≤ v.length
  fits : v.take k <:+ w
  greatest : ∀ m ≤ v.length, v.take m <:+ w → m ≤ k

/-- The longest proper prefix of the word that the text ends in. -/
structure Cursor (v w : List α) (k : Nat) : Prop where
  lt : k < v.length
  fits : v.take k <:+ w
  greatest : ∀ m < v.length, v.take m <:+ w → m ≤ k

/-- The longest borders of the first parts of a word. -/
structure BorderTable (v : List α) (fail : List Nat) : Prop where
  le : fail.length ≤ v.length
  entry : ∀ j < fail.length, Longest v (v.take (j + 1)).tail (fail.getD j 0)

theorem cursor_nil (hv : v ≠ []) : Cursor v [] 0 where
  lt := length_pos_iff.mpr hv
  fits := nil_suffix
  greatest := by
    intro m hm hfits
    have hlen := hfits.length_le
    rw [length_take, length_nil] at hlen
    omega

theorem take_suffix_take {m : Nat} (hm : v.take m <:+ w) (hk : v.take k <:+ w) (hle : m ≤ k) :
    v.take m <:+ v.take k := by
  refine suffix_of_suffix_length_le hm hk ?_
  simp only [length_take]
  omega

theorem take_suffix_tail {m : Nat} (h : v.take m <:+ v.take k) (hlt : m < k) (hk : k ≤ v.length) :
    v.take m <:+ (v.take k).tail := by
  refine suffix_of_suffix_length_le h (tail_suffix _) ?_
  simp only [length_tail, length_take]
  omega

theorem Longest.le_of_tail {j : Nat} (h : Longest v (v.take (j + 1)).tail k) : k ≤ j := by
  have hlen := h.fits.length_le
  have hle := h.le
  simp only [length_tail, length_take] at hlen
  omega

theorem concat_suffix_concat {x : List α} {a b : α} :
    x ++ [a] <:+ w ++ [b] ↔ a = b ∧ x <:+ w := by
  constructor
  · intro ⟨t, ht⟩
    rw [← append_assoc] at ht
    obtain ⟨hw, hb⟩ := append_inj' ht rfl
    exact ⟨by simpa using hb, t, hw⟩
  · intro ⟨hab, t, ht⟩
    exact ⟨t, by rw [← append_assoc, ht, hab]⟩

theorem take_succ_of_getElem? {b : α} (h : v[k]? = some b) : v.take (k + 1) = v.take k ++ [b] := by
  obtain ⟨hlt, hget⟩ := List.getElem?_eq_some_iff.mp h
  rw [take_succ_eq_append_getElem hlt, hget]

theorem take_succ_suffix_concat {m : Nat} {b : α} (hm : m < v.length) :
    v.take (m + 1) <:+ w ++ [b] ↔ v[m]? = some b ∧ v.take m <:+ w := by
  rw [take_succ_eq_append_getElem hm, concat_suffix_concat, getElem?_eq_getElem hm,
    Option.some_inj]

theorem tail_take_succ {i : Nat} {b : α} (hi : 0 < i) (hb : v[i]? = some b) :
    (v.take (i + 1)).tail = (v.take i).tail ++ [b] := by
  rw [take_succ_of_getElem? hb, tail_append_of_ne_nil]
  intro hnil
  have hlen := congrArg length hnil
  obtain ⟨hlt, -⟩ := List.getElem?_eq_some_iff.mp hb
  rw [length_take, length_nil] at hlen
  omega

theorem Cursor.eq_zero_iff (h : Cursor v w k) :
    k = 0 ↔ ∀ m, 0 < m → m < v.length → ¬ v.take m <:+ w := by
  constructor
  · intro hk m hpos hm hfits
    have := h.greatest m hm hfits
    omega
  · intro hnone
    by_contra hne
    exact hnone k (by omega) h.lt h.fits

variable [DecidableEq α]

@[simp] theorem length_failStep (v : List α) (fail : List Nat) (b : α) :
    (failStep v fail b).length = fail.length + 1 := by
  simp [failStep]

/-- **What falling back finds**: the longest border that the symbol extends, or none. -/
theorem fallback_spec {fail : List Nat} (htable : BorderTable v fail) (b : α) (hk : k < v.length)
    (hfail : k ≤ fail.length) :
    fallback v fail b k ≤ k ∧ v.take (fallback v fail b k) <:+ v.take k ∧
      (∀ m ≤ k, v.take m <:+ v.take k → v[m]? = some b → m ≤ fallback v fail b k) ∧
      (fallback v fail b k = 0 ∨ v[fallback v fail b k]? = some b) := by
  induction k using Nat.strong_induction_on with
  | _ k ih =>
    cases k with
    | zero =>
      have hzero : fallback v fail b 0 = 0 := by rw [fallback]
      rw [hzero]
      exact ⟨Nat.le_refl 0, suffix_refl _, fun m hm _ _ => hm, .inl rfl⟩
    | succ k =>
      rw [fallback]
      split
      · rename_i hfits
        exact ⟨Nat.le_refl _, suffix_refl _, fun m hm _ _ => hm, .inr hfits⟩
      · rename_i hmiss
        have hentry := htable.entry k (by omega)
        have hle := hentry.le_of_tail
        rw [dif_pos (by omega)]
        obtain ⟨hr, hfits, hgreatest, hlast⟩ :=
          ih (fail.getD k 0) (by omega) (by omega) (by omega)
        have hborder : v.take (fail.getD k 0) <:+ v.take (k + 1) :=
          hentry.fits.trans (tail_suffix _)
        refine ⟨by omega, hfits.trans hborder, ?_, hlast⟩
        intro m hm hsuffix hb
        -- a shorter prefix that fits is a border of the one that did not
        have hne : m ≠ k + 1 := fun heq => hmiss (heq ▸ hb)
        have hmle := hentry.greatest m (by omega)
          (take_suffix_tail hsuffix (by omega) (Nat.le_of_lt hk))
        exact hgreatest m hmle (take_suffix_take hsuffix hborder hmle) hb

/-- **One more symbol**: the longest prefix of the word that the text then ends in. -/
theorem extend_longest {fail : List Nat} (htable : BorderTable v fail) (hcursor : Cursor v w k)
    (hfail : k ≤ fail.length) (b : α) :
    Longest v (w ++ [b]) (extend v b (fallback v fail b k)) := by
  obtain ⟨hr, hfits, hgreatest, hlast⟩ := fallback_spec htable b hcursor.lt hfail
  have hlt := hcursor.lt
  generalize fallback v fail b k = r at hr hfits hgreatest hlast
  have hmax : ∀ m ≤ v.length, v.take m <:+ w ++ [b] →
      m = 0 ∨ ∃ n ≤ r, m = n + 1 ∧ v[n]? = some b := by
    intro m hm hsuffix
    cases m with
    | zero => exact .inl rfl
    | succ n =>
      obtain ⟨hb, hn⟩ := (take_succ_suffix_concat (by omega)).mp hsuffix
      have hnk := hcursor.greatest n (by omega) hn
      exact .inr ⟨n, hgreatest n hnk (take_suffix_take hn hcursor.fits hnk) hb, rfl, hb⟩
  unfold extend
  split
  · rename_i hb
    refine ⟨by omega, (take_succ_suffix_concat (by omega)).mpr ⟨hb, hfits.trans hcursor.fits⟩, ?_⟩
    intro m hm hsuffix
    rcases hmax m hm hsuffix with rfl | ⟨n, hn, rfl, -⟩ <;> omega
  · rename_i hmiss
    obtain rfl : r = 0 := hlast.resolve_right hmiss
    refine ⟨Nat.zero_le _, nil_suffix, ?_⟩
    intro m hm hsuffix
    rcases hmax m hm hsuffix with rfl | ⟨n, hn, rfl, hb⟩
    · exact Nat.le_refl 0
    · obtain rfl : n = 0 := by omega
      exact absurd hb hmiss

theorem BorderTable.failStep {fail : List Nat} (h : BorderTable v fail) (hpos : 0 < fail.length)
    {b : α} (hb : v[fail.length]? = some b) : BorderTable v (failStep v fail b) := by
  obtain ⟨hlt, -⟩ := List.getElem?_eq_some_iff.mp hb
  have hlast : fail.getLastD 0 = fail.getD (fail.length - 1) 0 := by
    rw [getLastD_eq_getLast?, getLast?_eq_getElem?, getD_eq_getElem?_getD]
  have hentry := h.entry (fail.length - 1) (by omega)
  rw [Nat.sub_add_cancel hpos, ← hlast] at hentry
  have hle : fail.getLastD 0 ≤ fail.length - 1 := by
    have := h.entry (fail.length - 1) (by omega)
    rw [hlast]
    exact this.le_of_tail
  have hcursor : Cursor v (v.take fail.length).tail (fail.getLastD 0) :=
    ⟨by omega, hentry.fits, fun m hm => hentry.greatest m (Nat.le_of_lt hm)⟩
  have hnext := extend_longest h hcursor (by omega) b
  rw [← tail_take_succ hpos hb] at hnext
  refine ⟨by rw [length_failStep]; omega, ?_⟩
  intro j hj
  rw [length_failStep] at hj
  unfold Lib.failStep
  rw [getD_eq_getElem?_getD]
  by_cases hold : j < fail.length
  · rw [getElem?_append_left hold]
    exact h.entry j hold
  · obtain rfl : j = fail.length := by omega
    rw [getElem?_concat_length]
    exact hnext

/-- The table has for every length the longest border. -/
theorem failTable_spec (v : List α) :
    BorderTable v (failTable v) ∧ (failTable v).length = v.length := by
  cases v with
  | nil => exact ⟨⟨Nat.le_refl _, fun j hj => absurd hj (Nat.not_lt_zero j)⟩, rfl⟩
  | cons a rest =>
    have hone : BorderTable (a :: rest) [0] := by
      refine ⟨by simp, fun j hj => ?_⟩
      obtain rfl : j = 0 := by simpa using hj
      refine ⟨Nat.zero_le _, nil_suffix, fun m hm hfits => ?_⟩
      have hlen := hfits.length_le
      simp at hlen hm
      omega
    have hfold : ∀ read ahead, rest = read ++ ahead →
        BorderTable (a :: rest) (read.foldl (failStep (a :: rest)) [0]) ∧
          (read.foldl (failStep (a :: rest)) [0]).length = read.length + 1 := by
      intro read
      induction read using reverseRecOn with
      | nil => exact fun _ _ => ⟨hone, rfl⟩
      | append_singleton read b ih =>
        intro ahead hrest
        obtain ⟨htable, hlen⟩ := ih (b :: ahead) (by rw [hrest]; simp)
        rw [foldl_append, foldl_cons, foldl_nil]
        refine ⟨htable.failStep (by omega) ?_, ?_⟩
        · rw [hlen, hrest]
          simp
        · rw [length_failStep, hlen, length_append, length_singleton]
    have h := hfold rest [] (append_nil _).symm
    exact h

/-- The cursor stays the longest part of the word at the end of the text. -/
theorem advanceCursor_spec (hcursor : Cursor v w k) (b : α) :
    Cursor v (w ++ [b]) (advanceCursor v (failTable v) k b) := by
  obtain ⟨htable, hlen⟩ := failTable_spec v
  have hlt := hcursor.lt
  have hlongest := extend_longest htable hcursor (by omega) b
  unfold advanceCursor
  dsimp only
  generalize extend v b (fallback v (failTable v) b k) = n at hlongest
  split_ifs with hwhole
  · have hentry := htable.entry (n - 1) (by omega)
    have hv : (v.take (n - 1 + 1)).tail = v.tail := by
      rw [take_of_length_le (by omega)]
    have hfits : v <:+ w ++ [b] := by
      have := hlongest.fits
      rwa [hwhole, take_length] at this
    have hle := hentry.le_of_tail
    rw [hv] at hentry
    refine ⟨by omega, hentry.fits.trans ((tail_suffix v).trans hfits), ?_⟩
    intro m hm hsuffix
    refine hentry.greatest m (Nat.le_of_lt hm) ?_
    refine suffix_of_suffix_length_le hsuffix ((tail_suffix v).trans hfits) ?_
    rw [length_take, length_tail]
    omega
  · have hle := hlongest.le
    exact ⟨by omega, hlongest.fits, fun m hm => hlongest.greatest m (Nat.le_of_lt hm)⟩

end

end Goobers.Lib
