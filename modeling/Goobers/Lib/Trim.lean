import Mathlib.Data.List.DropRight

/-!
# Trimming

A list without the elements of a kind at either end, and Go's `strings.TrimSpace` as the case of
white space. What the proofs need is that trimming once is enough, and that a text without any
white space is left alone.
-/

namespace Goobers.Lib

open List

section
variable {α : Type} (p : α → Bool)

/-- The list without the elements of the kind at its ends. -/
def trim (l : List α) : List α := (l.dropWhile p).rdropWhile p

variable {p}

theorem trim_eq_self {l : List α} (h : ∀ a ∈ l, p a = false) : trim p l = l := by
  have hfront : l.dropWhile p = l := by
    cases l with
    | nil => rfl
    | cons a l => rw [dropWhile_cons, h a mem_cons_self, if_neg (by simp)]
  unfold trim
  rw [hfront, rdropWhile_eq_self_iff]
  intro hne
  simp [h _ (getLast_mem hne)]

theorem dropWhile_trim (l : List α) : (trim p l).dropWhile p = trim p l := by
  unfold trim
  cases hfront : l.dropWhile p with
  | nil => simp
  | cons a rest =>
    -- the first element that is left is not of the kind
    have ha : p a = false := by
      have hhead := head?_dropWhile_not p l
      rw [hfront] at hhead
      simpa using hhead
    cases hback : (a :: rest).rdropWhile p with
    | nil => rfl
    | cons b rest' =>
      have hpre : b :: rest' <+: a :: rest := by
        rw [← hback]
        exact rdropWhile_prefix p _
      have hb : b = a := by
        obtain ⟨tail, htail⟩ := hpre
        exact (cons.inj htail).1
      rw [hb, dropWhile_cons, ha, if_neg (by simp)]

theorem trim_trim (l : List α) : trim p (trim p l) = trim p l := by
  have hback : (trim p l).rdropWhile p = trim p l := by
    exact rdropWhile_idempotent p _
  rw [show trim p (trim p l) = ((trim p l).dropWhile p).rdropWhile p from rfl, dropWhile_trim,
    hback]

theorem trim_infix_self (l : List α) : trim p l <:+: l :=
  (List.rdropWhile_prefix p _).isInfix.trans (dropWhile_suffix p).isInfix

theorem trim_eq_self_iff {l : List α} :
    trim p l = l ↔
      (∀ a, l.head? = some a → p a = false) ∧ (∀ a, l.getLast? = some a → p a = false) := by
  constructor
  · intro h
    have hfront : l.dropWhile p = l := by rw [← h, dropWhile_trim]
    have hback : l.rdropWhile p = l := by
      rw [trim, hfront] at h
      exact h
    constructor
    · intro a ha
      cases l with
      | nil => cases ha
      | cons b l =>
        cases ha
        by_contra hp
        rw [dropWhile_cons_of_pos (by simpa using hp)] at hfront
        have := (dropWhile_suffix (l := l) p).length_le
        rw [hfront, length_cons] at this
        omega
    · intro a ha
      obtain ⟨l, rfl⟩ := getLast?_eq_some_iff.mp ha
      by_contra hp
      rw [rdropWhile_concat_pos p l a (by simpa using hp)] at hback
      have := (List.rdropWhile_prefix p l).length_le
      rw [hback, length_append, length_singleton] at this
      omega
  · rintro ⟨hhead, hlast⟩
    have hfront : l.dropWhile p = l := by
      cases l with
      | nil => rfl
      | cons a l => exact dropWhile_cons_of_neg (by simp [hhead a rfl])
    unfold trim
    rw [hfront, rdropWhile_eq_self_iff]
    intro hne
    simp [hlast _ (getLast?_eq_some_getLast hne)]

theorem trim_append_left {x : List α} (hx : ∀ a ∈ x, p a = true) (l : List α) :
    trim p (x ++ l) = trim p l := by
  unfold trim
  rw [dropWhile_append_of_pos hx]

theorem rdropWhile_append_of_pos {y : List α} (hy : ∀ a ∈ y, p a = true) (l : List α) :
    (l ++ y).rdropWhile p = l.rdropWhile p := by
  unfold rdropWhile
  rw [reverse_append, dropWhile_append_of_pos (by simpa using hy)]

theorem rdropWhile_append_of_neg {m : List α} (hlast : ∀ a ∈ m.getLast?, p a = false)
    (y : List α) : (m ++ y).rdropWhile p = m ++ y.rdropWhile p := by
  induction y using reverseRecOn with
  | nil =>
    rw [append_nil, rdropWhile_nil, append_nil, rdropWhile_eq_self_iff]
    intro h
    simp [hlast _ (getLast?_eq_some_getLast h)]
  | append_singleton y c ih =>
    rw [← append_assoc]
    by_cases hc : p c = true
    · rw [rdropWhile_concat_pos _ _ _ hc, rdropWhile_concat_pos _ _ _ hc, ih]
    · rw [rdropWhile_concat_neg _ _ _ hc, rdropWhile_concat_neg _ _ _ hc, append_assoc]

theorem trim_append_right {y : List α} (hy : ∀ a ∈ y, p a = true) (l : List α) :
    trim p (l ++ y) = trim p l := by
  unfold trim
  rw [dropWhile_append]
  split_ifs with hempty
  · -- nothing of the front is left, and the rest is all of the kind
    have hl : l.dropWhile p = [] := isEmpty_iff.mp hempty
    have hydrop : y.dropWhile p = [] := dropWhile_eq_nil_iff.mpr hy
    rw [hl, hydrop]
  · exact rdropWhile_append_of_pos hy _

theorem trim_dropWhile (l : List α) : trim p (l.dropWhile p) = trim p l := by
  unfold trim
  rw [dropWhile_idempotent]

theorem trim_rdropWhile (l : List α) : trim p (l.rdropWhile p) = trim p l := by
  have hsplit : l.rdropWhile p ++ l.rtakeWhile p = l := rdropWhile_append_rtakeWhile
  have hkind : ∀ a ∈ l.rtakeWhile p, p a = true := fun a ha => mem_rtakeWhile_imp ha
  have h := trim_append_right hkind (l.rdropWhile p)
  rw [hsplit] at h
  exact h.symm

/-- What stands around a part that is not of the kind at its ends is trimmed from outside. -/
theorem trim_append_append {m : List α} (hne : m ≠ []) (hhead : ∀ a ∈ m.head?, p a = false)
    (hlast : ∀ a ∈ m.getLast?, p a = false) (x y : List α) :
    trim p (x ++ m ++ y) = x.dropWhile p ++ m ++ y.rdropWhile p := by
  have hfront : (m ++ y).dropWhile p = m ++ y := by
    obtain ⟨a, m, rfl⟩ := exists_cons_of_ne_nil hne
    rw [cons_append, dropWhile_cons_of_neg (by simp [hhead a rfl])]
  have hdrop : (x ++ (m ++ y)).dropWhile p = x.dropWhile p ++ (m ++ y) := by
    rw [dropWhile_append]
    split_ifs with hempty
    · rw [hfront, isEmpty_iff.mp hempty, nil_append]
    · rfl
  have hend : ∀ a ∈ (x.dropWhile p ++ m).getLast?, p a = false := by
    rwa [getLast?_append_of_ne_nil _ hne]
  unfold trim
  rw [append_assoc, hdrop, ← append_assoc, rdropWhile_append_of_neg hend]

end

/-- `unicode.IsSpace`. -/
def isSpace (c : Char) : Bool :=
  c.isWhitespace || c.toNat = 0x0B || c.toNat = 0x0C || c.toNat = 0x85 || c.toNat = 0xA0 ||
    c.toNat = 0x1680 || (0x2000 ≤ c.toNat && c.toNat ≤ 0x200A) || c.toNat = 0x2028 ||
    c.toNat = 0x2029 || c.toNat = 0x202F || c.toNat = 0x205F || c.toNat = 0x3000

def trimSpace (s : String) : String := String.ofList (trim isSpace s.toList)

@[simp] theorem trimSpace_trimSpace (s : String) : trimSpace (trimSpace s) = trimSpace s := by
  unfold trimSpace
  rw [String.toList_ofList, trim_trim]

theorem trimSpace_eq_self {s : String} (h : ∀ c ∈ s.toList, isSpace c = false) :
    trimSpace s = s := by
  unfold trimSpace
  rw [trim_eq_self h, String.ofList_toList]

end Goobers.Lib
