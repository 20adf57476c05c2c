import Mathlib.Data.List.Basic

/-!
# Texts of bytes

A Go string is a list of bytes, and a program that writes it into a format of Unicode
text first replaces every byte that is not part of an encoded character. `toValid` is
that replacement, and it leaves exactly the valid texts it is meant to leave alone.
-/

namespace Goobers.Lib.Utf8

/-- A string of the source. -/
abbrev Bytes := List UInt8

instance lawfulBEqBytes : LawfulBEq Bytes := inferInstance

/-- A byte of a range. -/
def within (lo hi b : UInt8) : Bool := lo ≤ b && b ≤ hi

/-- A byte that continues a character. -/
def continues (b : UInt8) : Bool := within 0x80 0xBF b

/--
How many bytes the character at the front takes, 0 if there is none. The second byte's
range keeps out long forms, surrogates and what lies beyond the last code point.
-/
def runeSize : Bytes → Nat
  | [] => 0
  | b :: rest =>
    if b < 0x80 then 1
    else
      match rest with
      | [] => 0
      | c :: rest =>
        if within 0xC2 0xDF b then
          if continues c then 2 else 0
        else
          match rest with
          | [] => 0
          | d :: rest =>
            let second :=
              if b = 0xE0 then within 0xA0 0xBF c
              else if b = 0xED then within 0x80 0x9F c
              else continues c
            if within 0xE0 0xEF b then
              if second && continues d then 3 else 0
            else
              match rest with
              | [] => 0
              | e :: _ =>
                let second :=
                  if b = 0xF0 then within 0x90 0xBF c
                  else if b = 0xF4 then within 0x80 0x8F c
                  else continues c
                if within 0xF0 0xF4 b && second && continues d && continues e then 4
                else 0

/-- The bytes of U+FFFD. -/
def replacement : Bytes := [0xEF, 0xBF, 0xBD]

/-- Every byte that is in no character replaced. The number bounds the characters left. -/
def toValidFrom : Nat → Bytes → Bytes
  | _, [] => []
  | 0, _ :: _ => []
  | n + 1, b :: rest =>
    match runeSize (b :: rest) with
    | 0 => replacement ++ toValidFrom n rest
    | k + 1 => b :: (rest.take k ++ toValidFrom n (rest.drop k))

def toValid (s : Bytes) : Bytes := toValidFrom s.length s

def validFrom : Nat → Bytes → Bool
  | _, [] => true
  | 0, _ :: _ => false
  | n + 1, b :: rest =>
    match runeSize (b :: rest) with
    | 0 => false
    | k + 1 => validFrom n (rest.drop k)

def validString (s : Bytes) : Bool := validFrom s.length s

theorem toValidFrom_eq_self {n : Nat} {s : Bytes} (h : validFrom n s = true) :
    toValidFrom n s = s := by
  induction n generalizing s with
  | zero =>
    cases s with
    | nil => rfl
    | cons b rest => exact absurd h (by simp [validFrom])
  | succ n ih =>
    cases s with
    | nil => rfl
    | cons b rest =>
      unfold validFrom at h
      unfold toValidFrom
      cases hsize : runeSize (b :: rest) with
      | zero => rw [hsize] at h; cases h
      | succ k =>
        rw [hsize] at h
        dsimp only at h ⊢
        rw [ih h, List.take_append_drop]

theorem toValid_eq_self {s : Bytes} (h : validString s = true) : toValid s = s :=
  toValidFrom_eq_self h

theorem validFrom_of_ascii {s : Bytes} (h : ∀ b ∈ s, b < 0x80) {n : Nat} (hn : s.length ≤ n) :
    validFrom n s = true := by
  induction s generalizing n with
  | nil => cases n <;> rfl
  | cons b s ih =>
    cases n with
    | zero => cases hn
    | succ n =>
      have hsize : runeSize (b :: s) = 1 := if_pos (h b List.mem_cons_self)
      unfold validFrom
      rw [hsize]
      refine ih (fun c hc => h c (List.mem_cons_of_mem b hc)) ?_
      simpa using hn

theorem validString_of_ascii {s : Bytes} (h : ∀ b ∈ s, b < 0x80) : validString s = true :=
  validFrom_of_ascii h (Nat.le_refl _)

end Goobers.Lib.Utf8
