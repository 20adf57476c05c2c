import Mathlib.Algebra.BigOperators.Group.Finset.Basic
import Mathlib.Algebra.BigOperators.Ring.List
import Mathlib.Algebra.Order.Floor.Div
import Mathlib.Algebra.Order.BigOperators.Group.List
import Mathlib.Data.List.Sort
import Mathlib.Data.String.Basic
import Goobers.Lib.GoMap

/-!
# Proportional splits

`LargestRemainder` rounds every share down and gives what is left over, one unit each,
to the keys with the largest remainders. The remainders add up to as many divisors as
there are units left, and each is less than a divisor; so there are at least as many
remainders that are not zero, and the loop over the keys never comes around.

The quotients are at most the total, so that no sum of the source leaves the range of
`int64` where the total and the sum of the weights are in it.
-/

namespace Goobers.IntSplit

open Lib List

/-- The order of the remainders: larger ones first, equal ones by key. -/
def Ahead (a b : String × Nat) : Prop := b.2 < a.2 ∨ a.2 = b.2 ∧ a.1 ≤ b.1

instance : DecidableRel Ahead := fun _ _ => inferInstanceAs (Decidable (_ ∨ _))

def share (out : GoMap String Nat) (key : String) : Nat := (out.get? key).getD 0

structure Split where
  total : Nat
  sortedKeys : List String
  weight : String → Nat

namespace Split
variable (s : Split)

def divisor : Nat := (s.sortedKeys.map s.weight).sum

def quotient (key : String) : Nat := s.total * s.weight key / s.divisor

def rem (key : String) : Nat := s.total * s.weight key % s.divisor

def left : Nat := s.total - (s.sortedKeys.map s.quotient).sum

def remainders : List (String × Nat) :=
  insertionSort Ahead (s.sortedKeys.map (fun key => (key, s.rem key)))

/-- The remainders the last loop meets. -/
def extra : List (String × Nat) :=
  (range s.left).filterMap (fun i => s.remainders[i % s.remainders.length]?)

def out : GoMap String Nat :=
  s.extra.foldl (fun out r => out.put r.1 (share out r.1 + 1))
    (s.sortedKeys.foldl (fun out key => out.put key (s.quotient key)) ∅)

end Split

def largestRemainder (total : Nat) (keys : List String) (weight : String → Nat) :
    GoMap String Nat :=
  Split.out ⟨total, insertionSort (· ≤ ·) keys, weight⟩

/-! ## The loops -/

theorem share_put (out : GoMap String Nat) (k key : String) (n : Nat) :
    share (out.put k n) key = if key = k then n else share out key := by
  unfold share
  rw [GoMap.get?_put]
  split <;> rfl

theorem share_quotients (f : String → Nat) {keys : List String} {key : String} (hkey : key ∈ keys)
    (out : GoMap String Nat) :
    share (keys.foldl (fun out k => out.put k (f k)) out) key = f key := by
  induction keys using reverseRecOn with
  | nil => cases hkey
  | append_singleton keys k ih =>
    rw [foldl_concat, share_put]
    split_ifs with hk
    · rw [hk]
    · exact ih ((mem_append.mp hkey).resolve_right (fun h => hk (mem_singleton.mp h)))

theorem share_extra (l : List (String × Nat)) (out : GoMap String Nat) (key : String) :
    share (l.foldl (fun out r => out.put r.1 (share out r.1 + 1)) out) key =
      share out key + (l.map Prod.fst).count key := by
  induction l generalizing out with
  | nil => rfl
  | cons r l ih =>
    rw [foldl_cons, ih, share_put, map_cons, count_cons]
    by_cases hr : key = r.1
    · simp [hr]
      omega
    · simp [hr, Ne.symm hr]

theorem filterMap_range_eq_take {α : Type} (l : List α) {n : Nat} (hn : n ≤ l.length) :
    (range n).filterMap (fun i => l[i % l.length]?) = l.take n := by
  induction n with
  | zero => rfl
  | succ n ih =>
    rw [range_succ, filterMap_append, ih (by omega), take_add_one]
    simp only [filterMap_cons, filterMap_nil, Nat.mod_eq_of_lt hn]
    cases l[n]? <;> rfl

/-! ## The remainders -/

instance : IsTrans _ Ahead where
  trans a b c := by
    rintro (hab | ⟨hab, kab⟩) (hbc | ⟨hbc, kbc⟩)
    · exact .inl (hbc.trans hab)
    · exact .inl (hbc ▸ hab)
    · exact .inl (hab ▸ hbc)
    · exact .inr ⟨hab.trans hbc, kab.trans kbc⟩

instance : Std.Total Ahead where
  total a b := by
    rcases lt_trichotomy a.2 b.2 with h | h | h
    · exact .inr (.inl h)
    · exact (le_total a.1 b.1).imp (fun hk => .inr ⟨h, hk⟩) (fun hk => .inr ⟨h.symm, hk⟩)
    · exact .inl (.inl h)

/--
Of numbers below `w` in descending order that add up to `n` times `w`, the first `n` are
there and are not zero.
-/
theorem pos_of_sum_eq {l : List Nat} {w n : Nat} (hdesc : l.Pairwise (· ≥ ·)) (hw : ∀ x ∈ l, x < w)
    (hpos : 0 < w) (hsum : l.sum = n * w) : n ≤ l.length ∧ ∀ x ∈ l.take n, 0 < x := by
  have hle : ∀ l' : List Nat, (∀ x ∈ l', x < w) → l'.sum ≤ l'.length * w :=
    fun l' h => by simpa using sum_le_card_nsmul l' w (fun x hx => (h x hx).le)
  refine ⟨Nat.le_of_mul_le_mul_right (hsum ▸ hle l hw) hpos, fun x hx => ?_⟩
  by_contra hzero
  obtain rfl : x = 0 := by omega
  rw [← take_append_drop n l] at hdesc hw hsum
  have hrest : (l.drop n).sum = 0 :=
    sum_eq_zero fun y hy => Nat.le_zero.mp ((pairwise_append.mp hdesc).2.2 0 hx y hy)
  obtain ⟨s, t, hst⟩ := append_of_mem hx
  have hlen : s.length + t.length < n := by
    have := (congrArg length hst).symm.trans_le (length_take_le n l)
    rw [length_append, length_cons] at this
    omega
  rw [sum_append, hrest, hst, sum_append, sum_cons] at hsum
  have hs := hle s fun y hy => hw y (by simp [hst, hy])
  have ht := hle t fun y hy => hw y (by simp [hst, hy])
  have hlt := Nat.mul_lt_mul_of_pos_right hlen hpos
  rw [Nat.add_mul] at hlt
  omega

theorem ceilDiv_eq_succ {a w : Nat} (h : 0 < a % w) (hw : 0 < w) : a ⌈/⌉ w = a / w + 1 := by
  have hdiv := Nat.div_add_mod a w
  have hmod := Nat.mod_lt a hw
  have hsum : a + w - 1 = (a % w - 1) + w * (a / w + 1) := by
    rw [Nat.mul_add]
    omega
  rw [Nat.ceilDiv_eq_add_pred_div, hsum, Nat.add_mul_div_left _ _ hw, Nat.div_eq_of_lt (by omega),
    Nat.zero_add]

namespace Split
variable {s : Split} {key : String}

theorem perm_remainders : s.remainders.Perm (s.sortedKeys.map (fun key => (key, s.rem key))) :=
  perm_insertionSort _ _

theorem pairwise_remainders : s.remainders.Pairwise Ahead := pairwise_insertionSort _ _

theorem mem_remainders_iff {r : String × Nat} :
    r ∈ s.remainders ↔ r.1 ∈ s.sortedKeys ∧ r.2 = s.rem r.1 := by
  rw [perm_remainders.mem_iff, mem_map]
  constructor
  · rintro ⟨key, hkey, rfl⟩
    exact ⟨hkey, rfl⟩
  · exact fun h => ⟨r.1, h.1, Prod.ext rfl h.2.symm⟩

theorem share_out (hkey : key ∈ s.sortedKeys) :
    share s.out key = s.quotient key + (s.extra.map Prod.fst).count key := by
  rw [out, share_extra, share_quotients _ hkey]

variable (hpos : 0 < s.divisor)
include hpos

theorem sum_remainders : (s.sortedKeys.map s.quotient).sum ≤ s.total ∧
    (s.remainders.map Prod.snd).sum = s.left * s.divisor := by
  have hsum : s.divisor * (s.sortedKeys.map s.quotient).sum + (s.sortedKeys.map s.rem).sum =
      s.total * s.divisor := by
    rw [divisor, ← sum_map_mul_left, ← sum_map_mul_left, ← sum_map_add]
    exact congrArg sum (map_congr_left fun key _ => Nat.div_add_mod _ _)
  have hle : (s.sortedKeys.map s.quotient).sum ≤ s.total := by
    refine Nat.le_of_mul_le_mul_left ?_ hpos
    rw [Nat.mul_comm _ s.total, ← hsum]
    exact Nat.le_add_right _ _
  refine ⟨hle, ?_⟩
  rw [(perm_remainders.map Prod.snd).sum_eq, map_map, left, Nat.sub_mul, ← hsum, Nat.mul_comm]
  exact (Nat.add_sub_cancel_left ..).symm

/-- The last loop meets as many remainders as there are units left, and none is zero. -/
theorem extra_eq : s.extra = s.remainders.take s.left ∧ s.extra.length = s.left ∧
    ∀ r ∈ s.extra, 0 < r.2 := by
  have hdesc : (s.remainders.map Prod.snd).Pairwise (· ≥ ·) :=
    pairwise_map.mpr (pairwise_remainders.imp fun h => h.elim le_of_lt fun h => h.1.ge)
  have hlt : ∀ x ∈ s.remainders.map Prod.snd, x < s.divisor := by
    intro x hx
    obtain ⟨r, hr, rfl⟩ := mem_map.mp hx
    rw [(mem_remainders_iff.mp hr).2]
    exact Nat.mod_lt _ hpos
  obtain ⟨hlen, hfirst⟩ := pos_of_sum_eq hdesc hlt hpos (sum_remainders hpos).2
  rw [length_map] at hlen
  have heq : s.extra = s.remainders.take s.left := filterMap_range_eq_take _ hlen
  refine ⟨heq, by rw [heq, length_take, Nat.min_eq_left hlen], fun r hr => hfirst r.2 ?_⟩
  rw [← map_take, ← heq]
  exact mem_map_of_mem hr

theorem mem_extra (hkey : key ∈ s.sortedKeys) :
    s.quotient key < share s.out key ↔ (key, s.rem key) ∈ s.extra := by
  rw [share_out hkey, Nat.lt_add_right_iff_pos, count_pos_iff]
  constructor
  · intro h
    obtain ⟨r, hr, rfl⟩ := mem_map.mp h
    rwa [← (mem_remainders_iff.mp (mem_of_mem_take ((extra_eq hpos).1 ▸ hr))).2]
  · exact fun h => mem_map_of_mem (f := Prod.fst) h

theorem mem_extra_of_lt {a b : String} (ha : a ∈ s.sortedKeys) (hb : (b, s.rem b) ∈ s.extra)
    (hlt : s.rem b < s.rem a) : (a, s.rem a) ∈ s.extra := by
  have hmem : (a, s.rem a) ∈ s.remainders := mem_remainders_iff.mpr ⟨ha, rfl⟩
  have hsorted := pairwise_remainders (s := s)
  rw [(extra_eq hpos).1] at hb ⊢
  rw [← take_append_drop s.left s.remainders] at hmem hsorted
  refine (mem_append.mp hmem).resolve_right fun h => ?_
  rcases (pairwise_append.mp hsorted).2.2 _ hb _ h with h | h
  · exact Nat.lt_asymm hlt h
  · exact hlt.ne h.1

variable (hkeys : s.sortedKeys.Nodup)
include hkeys

theorem count_extra_le (key : String) : (s.extra.map Prod.fst).count key ≤ 1 := by
  refine nodup_iff_count_le_one.mp ?_ key
  have hfst : (s.remainders.map Prod.fst).Perm s.sortedKeys := by
    refine (perm_remainders.map Prod.fst).trans ?_
    rw [map_map]
    exact .of_eq (map_id' _)
  rw [(extra_eq hpos).1, map_take]
  exact (hfst.nodup_iff.mpr hkeys).sublist (take_sublist _ _)

theorem sum_shares : (s.sortedKeys.map (share s.out)).sum = s.total := by
  obtain ⟨heq, hlen, -⟩ := extra_eq hpos
  have hsub : ∀ key ∈ (↑(s.extra.map Prod.fst) : Multiset String), key ∈ s.sortedKeys.toFinset := by
    intro key hkey
    obtain ⟨r, hr, rfl⟩ := mem_map.mp (Multiset.mem_coe.mp hkey)
    exact mem_toFinset.mpr (mem_remainders_iff.mp (mem_of_mem_take (heq ▸ hr))).1
  have hcount : (s.sortedKeys.map ((s.extra.map Prod.fst).count ·)).sum = s.left := by
    rw [← sum_toFinset _ hkeys, ← hlen, ← length_map Prod.fst]
    simpa using Multiset.sum_count_eq_card hsub
  calc (s.sortedKeys.map (share s.out)).sum
      = (s.sortedKeys.map s.quotient).sum +
          (s.sortedKeys.map ((s.extra.map Prod.fst).count ·)).sum := by
        rw [← sum_map_add]
        exact congrArg sum (map_congr_left fun key hkey => share_out hkey)
    _ = s.total := by
        rw [hcount, left]
        exact Nat.add_sub_cancel' (sum_remainders hpos).1

theorem share_eq (hkey : key ∈ s.sortedKeys) : share s.out key = s.quotient key ∨
    share s.out key = s.total * s.weight key ⌈/⌉ s.divisor := by
  have hcount := count_extra_le hpos hkeys key
  have hshare := share_out hkey
  by_cases hup : s.quotient key < share s.out key
  · have hrem := (extra_eq hpos).2.2 _ ((mem_extra hpos hkey).mp hup)
    right
    rw [ceilDiv_eq_succ hrem hpos, ← quotient]
    omega
  · omega

end Split

/--
**Proportional splits are exact.** The shares add up to the total, each is rounded down
or up, no key is rounded up before one with a larger remainder, and the order of the
keys does not matter.
-/
theorem largestRemainder_exact (total : Nat) (keys : List String) (weight : String → Nat)
    (hkeys : keys.Nodup) (hpos : 0 < (keys.map weight).sum) :
    (keys.map (share (largestRemainder total keys weight))).sum = total ∧
      (∀ key ∈ keys, share (largestRemainder total keys weight) key =
          total * weight key / (keys.map weight).sum ∨
        share (largestRemainder total keys weight) key =
          total * weight key ⌈/⌉ (keys.map weight).sum) ∧
      (∀ a ∈ keys, ∀ b ∈ keys,
        total * weight b % (keys.map weight).sum < total * weight a % (keys.map weight).sum →
        total * weight b / (keys.map weight).sum < share (largestRemainder total keys weight) b →
        total * weight a / (keys.map weight).sum < share (largestRemainder total keys weight) a) ∧
      ∀ keys', keys'.Perm keys →
        largestRemainder total keys' weight = largestRemainder total keys weight := by
  unfold largestRemainder
  have hsort := perm_insertionSort (· ≤ ·) keys
  rw [← (hsort.map weight).sum_eq] at hpos ⊢
  replace hpos : 0 < Split.divisor ⟨total, insertionSort (· ≤ ·) keys, weight⟩ := hpos
  have hnodup := hsort.nodup_iff.mpr hkeys
  have hmem : ∀ {key}, key ∈ keys → key ∈ insertionSort (· ≤ ·) keys := hsort.mem_iff.mpr
  refine ⟨?_, fun key hkey => ?_, fun a ha b hb hlt hup => ?_, fun keys' hperm => ?_⟩
  · rw [← (hsort.map _).sum_eq]
    exact Split.sum_shares hpos hnodup
  · exact Split.share_eq hpos hnodup (hmem hkey)
  · have hb := (Split.mem_extra hpos (hmem hb)).mp hup
    exact (Split.mem_extra hpos (hmem ha)).mpr (Split.mem_extra_of_lt hpos (hmem ha) hb hlt)
  · have hsame := (((perm_insertionSort (· ≤ ·) keys').trans hperm).trans
      hsort.symm).eq_of_pairwise'
      (pairwise_insertionSort _ _) (pairwise_insertionSort _ _)
    rw [hsame]

theorem ten_in_three :
    (["a", "b", "c"].map (share (largestRemainder 10 ["c", "a", "b"] (fun _ => 1)))).sum = 10 := by
  have hperm : ["c", "a", "b"].Perm ["a", "b", "c"] := by decide
  obtain ⟨hsum, -, -, horder⟩ := largestRemainder_exact 10 ["a", "b", "c"] (fun _ => 1)
    (by decide) (by decide)
  rw [horder _ hperm, hsum]

end Goobers.IntSplit
