import Mathlib.Data.List.Basic

/-!
# Self-delimiting texts

A `Token` type writes its values as lists of numbers that a reader can take off
the front of a longer list again. A `Numeral` writes lists of numbers as text: a
small number is one symbol, and a larger one has marks before its last digit.
-/

namespace Goobers.Lib

/-- Values that can be written as numbers and read off the front of a list again. -/
class Token (α : Type) where
  put : α → List Nat
  get : List Nat → Option (α × List Nat)
  get_put : ∀ a rest, get (put a ++ rest) = some (a, rest)

namespace Token

variable {α β : Type}

instance : Token Nat where
  put n := [n]
  get
    | [] => none
    | n :: rest => some (n, rest)
  get_put _ _ := rfl

/-- A type inside another one that has tokens. -/
@[reducible] def ofRetract [Token β] (f : α → β) (g : β → α) (h : ∀ a, g (f a) = a) : Token α where
  put a := put (f a)
  get ns := (get ns).map (fun (b, rest) => (g b, rest))
  get_put a rest := by simp [get_put, h]

instance [Token α] [Token β] : Token (α × β) where
  put p := put p.1 ++ put p.2
  get ns := (get ns).bind (fun (a, rest) => (get rest).map (fun (b, rest) => ((a, b), rest)))
  get_put p rest := by simp [get_put]

instance [Token α] : Token (Option α) where
  put
    | none => [0]
    | some a => 1 :: put a
  get
    | [] => none
    | 0 :: rest => some (none, rest)
    | _ :: rest => (get rest).map (fun (a, rest) => (some a, rest))
  get_put o rest := by cases o <;> simp [get_put]

/-- Read a fixed number of values. -/
def getMany [Token α] : Nat → List Nat → Option (List α × List Nat)
  | 0, ns => some ([], ns)
  | n + 1, ns =>
    (get ns).bind (fun (a, rest) => (getMany n rest).map (fun (as, rest) => (a :: as, rest)))

theorem getMany_put [Token α] (as : List α) (rest : List Nat) :
    getMany as.length ((as.map put).flatten ++ rest) = some (as, rest) := by
  induction as with
  | nil => rfl
  | cons a as ih => simp [getMany, get_put, ih]

instance [Token α] : Token (List α) where
  put as := as.length :: (as.map put).flatten
  get
    | [] => none
    | n :: rest => getMany n rest
  get_put as rest := getMany_put as rest

instance : Token Bool :=
  ofRetract (fun b => if b then 1 else 0) (fun n => n = 1) (by decide)

instance : Token Int :=
  ofRetract (fun i => (decide (i < 0), i.natAbs)) (fun (neg, n) => if neg then -n else n) (by
    intro i
    by_cases h : i < 0
    · simp only [h, decide_true, if_true]; omega
    · simp only [h, decide_false, Bool.false_eq_true, if_false]; omega)

instance : Token Char := ofRetract Char.toNat Char.ofNat Char.ofNat_toNat

instance : Token String :=
  ofRetract String.toList String.ofList (fun _ => String.ofList_toList)

end Token

/-! ## Numbers as text -/

/-- The symbols of a text of numbers: a digit ends a number, a mark before it adds the base. -/
structure Numeral (α : Type) where
  base : Nat
  mark : α
  digit : Nat → α
  value : α → Option Nat
  base_pos : 0 < base
  value_mark : value mark = none
  value_digit : ∀ r < base, value (digit r) = some r

namespace Numeral

variable {α : Type} (num : Numeral α)

def write (ns : List Nat) : List α :=
  ns.flatMap (fun n => List.replicate (n / num.base) num.mark ++ [num.digit (n % num.base)])

/-- `q` marks have been read already. -/
def read : Nat → List α → List Nat
  | _, [] => []
  | q, x :: text =>
    match num.value x with
    | none => read (q + 1) text
    | some r => (num.base * q + r) :: read 0 text

theorem read_marks (k q : Nat) (text : List α) :
    num.read q (List.replicate k num.mark ++ text) = num.read (q + k) text := by
  induction k generalizing q with
  | zero => rfl
  | succ k ih =>
    rw [List.replicate_succ, List.cons_append, read, num.value_mark]
    rw [ih, Nat.add_right_comm, Nat.add_assoc]

theorem read_write (ns : List Nat) : num.read 0 (num.write ns) = ns := by
  induction ns with
  | nil => rfl
  | cons n ns ih =>
    have hdigit := num.value_digit (n % num.base) (Nat.mod_lt n num.base_pos)
    rw [write, List.flatMap_cons, List.append_assoc, read_marks, List.singleton_append, read,
      hdigit, Nat.zero_add]
    dsimp only
    rw [Nat.div_add_mod]
    exact congrArg (n :: ·) ih

theorem mem_write {x : α} {ns : List Nat} (h : x ∈ num.write ns) :
    x = num.mark ∨ ∃ r < num.base, x = num.digit r := by
  obtain ⟨n, -, hx⟩ := List.mem_flatMap.mp h
  rcases List.mem_append.mp hx with hmark | hdigit
  · exact .inl (List.eq_of_mem_replicate hmark)
  · exact .inr ⟨n % num.base, Nat.mod_lt n num.base_pos, List.mem_singleton.mp hdigit⟩

end Numeral

end Goobers.Lib
