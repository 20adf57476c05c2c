import Goobers.Lib.Borders
import Goobers.Lib.Replace

/-!
# Where a text can be cut

A text is settled for some words if it ends in no proper prefix of one of them: then no
occurrence of a word crosses its end, however the text goes on. What follows a settled
text is settled on its own if and only if it is settled as a part of the whole, so a
reader may start anew at such a cut.
-/

namespace Goobers.Lib

open List

variable {α : Type} {words : List (List α)} {w x : List α}

/-- No word is under way at the end of the text. -/
def Settled (words : List (List α)) (w : List α) : Prop :=
  ∀ v ∈ words, ∀ m, 0 < m → m < v.length → ¬ v.take m <:+ w

/-- There is an occurrence of the word that begins before the place and ends after it. -/
def Crosses (v text : List α) (k : Nat) : Prop :=
  ∃ before after, text = before ++ v ++ after ∧ before.length < k ∧ k < before.length + v.length

theorem settled_nil : Settled words [] := by
  intro v _ m hpos hlt hfits
  have hlen := hfits.length_le
  rw [length_take, length_nil] at hlen
  omega

/-- **Settled means that nothing can cross the end**, whatever comes next. -/
theorem settled_iff :
    Settled words w ↔ ∀ v ∈ words, ∀ next, ¬ Crosses v (w ++ next) w.length := by
  constructor
  · intro h v hv next ⟨before, after, htext, hlow, hhigh⟩
    refine h v hv (w.length - before.length) (by omega) (by omega) ⟨before, ?_⟩
    have htake := congrArg (take w.length) htext
    rw [take_left, append_assoc, take_append, take_of_length_le (by omega),
      take_append_of_le_length (by omega)] at htake
    exact htake.symm
  · intro h v hv m hpos hlt ⟨before, hbefore⟩
    have hlen := congrArg length hbefore
    rw [length_append, length_take] at hlen
    refine h v hv (v.drop m) ⟨before, [], ?_, by omega, by omega⟩
    rw [← hbefore, append_assoc, take_append_drop, append_nil]

/-- Nothing reaches over a settled cut. -/
theorem settled_append (hw : Settled words w) : Settled words (w ++ x) ↔ Settled words x := by
  constructor
  · intro h v hv m hpos hlt hfits
    exact h v hv m hpos hlt (hfits.trans (suffix_append w x))
  · intro h v hv m hpos hlt hfits
    by_cases hshort : (v.take m).length ≤ x.length
    · exact h v hv m hpos hlt
        (suffix_of_suffix_length_le hfits (suffix_append w x) hshort)
    · -- the part of the prefix that lies before the cut is a prefix under way there
      have hx : x <:+ v.take m :=
        suffix_of_suffix_length_le (suffix_append w x) hfits (by omega)
      obtain ⟨q, hq⟩ := hx
      have hlen := congrArg length hq
      rw [length_append, length_take] at hlen
      rw [length_take] at hshort
      have hqv : v.take q.length = q := by
        have htake := congrArg (take q.length) hq
        rw [take_left, take_take, Nat.min_eq_left (by omega)] at htake
        exact htake.symm
      refine hw v hv q.length (by omega) (by omega) ?_
      rw [hqv]
      rw [← hq] at hfits
      obtain ⟨t, ht⟩ := hfits
      rw [← append_assoc] at ht
      exact ⟨t, append_cancel_right ht⟩

theorem Settled.not_straddles (h : Settled words w) {v : List α} (hv : v ∈ words) (next : List α) :
    ¬ Straddles v w next := by
  intro ⟨p, s, hp, hs, heq, hpw, _⟩
  have hlen := congrArg length heq
  rw [length_append] at hlen
  have hspos := length_pos_iff.mpr hs
  refine h v hv p.length (length_pos_iff.mpr hp) (by omega) ?_
  rwa [heq, take_left]

/-- The last place where nothing is half read. -/
structure LastCut (words : List (List α)) (text : List α) (k : Nat) : Prop where
  le : k ≤ text.length
  settled : Settled words (text.take k)
  greatest : ∀ m ≤ text.length, Settled words (text.take m) → m ≤ k

theorem LastCut.unique {text : List α} {j k : Nat} (hj : LastCut words text j)
    (hk : LastCut words text k) : j = k :=
  Nat.le_antisymm (hk.greatest j hj.le hj.settled) (hj.greatest k hk.le hk.settled)

theorem LastCut.append {k : Nat} (hw : Settled words w) (h : LastCut words x k) :
    LastCut words (w ++ x) (w.length + k) where
  le := by
    have := h.le
    rw [length_append]
    omega
  settled := by
    rw [take_length_add_append, settled_append hw]
    exact h.settled
  greatest := by
    intro m hm hsettled
    rw [length_append] at hm
    by_cases hlow : m ≤ w.length
    · omega
    · obtain ⟨n, rfl⟩ : ∃ n, m = w.length + n := ⟨m - w.length, by omega⟩
      rw [take_length_add_append, settled_append hw] at hsettled
      have := h.greatest n (by omega) hsettled
      omega

end Goobers.Lib
