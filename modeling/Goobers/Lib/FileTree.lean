import Mathlib.Data.List.Basic
import Mathlib.Data.List.Infix
import Mathlib.Data.List.Induction

/-!
# A directory tree with links

A tree gives each place, a list of names from the root, a directory, a file or a
link. The operating system walks a path from a directory and follows the links it
meets; `Resolves` says where it arrives, without a bound on the number of links, and
`namei` is the walk with one.

A path on which no link is met is `Plain`. Such a path leads where its elements say
(`place`), and walking on from its end is walking on from there.
-/

namespace Goobers.Lib

open List

/-- An element of a path. A slash at the end counts as one more `here`. -/
inductive Elem (ν : Type) where
  | here
  | up
  | name (n : ν)
  deriving DecidableEq, Repr

structure RawPath (ν : Type) where
  rooted : Bool := false
  elems : List (Elem ν) := []
  deriving DecidableEq, Repr

inductive Node (ν : Type) where
  | dir
  | file
  | link (target : RawPath ν)
  deriving DecidableEq, Repr

inductive Errno where
  | notExist
  | notDir
  | loop
  | exist
  deriving DecidableEq, Repr

/-- What is at each place, and the working directory. What is anywhere is in a directory. -/
structure FileTree (ν : Type) where
  node : List ν → Option (Node ν)
  cwd : List ν
  root_dir : node [] = some .dir
  parent_dir : ∀ p n, (node (p ++ [n])).isSome = true → node p = some .dir
  cwd_dir : node cwd = some .dir

variable {ν : Type}

/-! ## Places -/

def stepTo (p : List ν) : Elem ν → List ν
  | .here => p
  | .up => p.dropLast
  | .name n => p ++ [n]

/-- Where the elements lead if no link is met. -/
def place (p : List ν) (es : List (Elem ν)) : List ν := es.foldl stepTo p

@[simp] theorem place_nil (p : List ν) : place p [] = p := rfl

@[simp] theorem place_cons (p : List ν) (e : Elem ν) (es : List (Elem ν)) :
    place p (e :: es) = place (stepTo p e) es := rfl

theorem place_append (p : List ν) (as bs : List (Elem ν)) :
    place p (as ++ bs) = place (place p as) bs := foldl_append

theorem place_names (p ns : List ν) : place p (ns.map .name) = p ++ ns := by
  induction ns generalizing p with
  | nil => simp
  | cons n ns ih => simp [stepTo, ih]

namespace FileTree
variable {fs fs' : FileTree ν} {p q : List ν} {es rest : List (Elem ν)}

def start (fs : FileTree ν) (rooted : Bool) : List ν := if rooted then [] else fs.cwd

theorem start_dir (fs : FileTree ν) (rooted : Bool) : fs.node (fs.start rooted) = some .dir := by
  unfold start
  split
  · exact fs.root_dir
  · exact fs.cwd_dir

theorem node_dropLast (h : (fs.node p).isSome = true) (hp : p ≠ []) :
    fs.node p.dropLast = some .dir := by
  rw [← dropLast_concat_getLast hp] at h
  exact fs.parent_dir _ _ h

theorem node_up (h : fs.node p = some .dir) : fs.node p.dropLast = some .dir := by
  cases p with
  | nil => exact h
  | cons n p => exact node_dropLast (by rw [h]; rfl) (by simp)

theorem node_of_append {ns : List ν} (h : (fs.node (p ++ ns)).isSome = true) (hns : ns ≠ []) :
    fs.node p = some .dir := by
  induction ns using reverseRecOn with
  | nil => exact absurd rfl hns
  | append_singleton ns n ih =>
    rw [← append_assoc] at h
    have hdir := fs.parent_dir _ _ h
    by_cases hnil : ns = []
    · rwa [hnil, append_nil] at hdir
    · exact ih (by rw [hdir]; rfl) hnil

/-! ## Where a walk arrives -/

/-- Where a list of elements leads, links followed. -/
inductive Resolves (fs : FileTree ν) : List ν → List (Elem ν) → List ν → Prop where
  | nil (p : List ν) : Resolves fs p [] p
  | here {p q : List ν} {es : List (Elem ν)} :
      fs.node p = some .dir → Resolves fs p es q → Resolves fs p (.here :: es) q
  | up {p q : List ν} {es : List (Elem ν)} :
      fs.node p = some .dir → Resolves fs p.dropLast es q → Resolves fs p (.up :: es) q
  | name {p q : List ν} {n : ν} {es : List (Elem ν)} {found : Node ν} :
      fs.node p = some .dir → fs.node (p ++ [n]) = some found → (∀ t, found ≠ .link t) →
      Resolves fs (p ++ [n]) es q → Resolves fs p (.name n :: es) q
  | link {p q : List ν} {n : ν} {es : List (Elem ν)} {t : RawPath ν} :
      fs.node p = some .dir → fs.node (p ++ [n]) = some (.link t) →
      Resolves fs (if t.rooted then [] else p) (t.elems ++ es) q → Resolves fs p (.name n :: es) q

/-- A path leads to one place. -/
theorem Resolves.unique {q' : List ν} (h : Resolves fs p es q) (h' : Resolves fs p es q') :
    q = q' := by
  induction h with
  | nil =>
    cases h'
    rfl
  | here _ _ ih =>
    cases h' with
    | here _ h => exact ih h
  | up _ _ ih =>
    cases h' with
    | up _ h => exact ih h
  | name _ hfound hnot _ ih =>
    cases h' with
    | name _ _ _ h => exact ih h
    | link _ hlink _ =>
      rw [hfound] at hlink
      exact absurd (Option.some.inj hlink) (hnot _)
  | link _ hlink _ ih =>
    cases h' with
    | name _ hfound hnot _ =>
      rw [hlink] at hfound
      exact absurd (Option.some.inj hfound).symm (hnot _)
    | link _ hlink' h =>
      rw [hlink] at hlink'
      cases hlink'
      exact ih h

/-- The place of a path with all links followed. -/
def ResolvesTo (fs : FileTree ν) (path : RawPath ν) (q : List ν) : Prop :=
  Resolves fs (fs.start path.rooted) path.elems q

/-- The place holds something and no link. -/
def Solid (fs : FileTree ν) (p : List ν) : Prop :=
  ∃ found, fs.node p = some found ∧ ∀ t, found ≠ .link t

theorem solid_of_dir (h : fs.node p = some .dir) : Solid fs p := ⟨.dir, h, by simp⟩

/-- The elements go through directories and meet no link. -/
def Plain (fs : FileTree ν) : List ν → List (Elem ν) → Prop
  | _, [] => True
  | p, e :: es => fs.node p = some .dir ∧ Solid fs (stepTo p e) ∧ Plain fs (stepTo p e) es

theorem plain_append {as bs : List (Elem ν)} :
    Plain fs p (as ++ bs) ↔ Plain fs p as ∧ Plain fs (place p as) bs := by
  induction as generalizing p with
  | nil => simp [Plain]
  | cons a as ih => simp [Plain, ih, and_assoc]

theorem plain_up (h : fs.node p = some .dir) : Plain fs p [.up] :=
  ⟨h, solid_of_dir (node_up h), trivial⟩

theorem plain_ups (h : fs.node p = some .dir) (k : Nat) :
    Plain fs p (replicate k .up) ∧ fs.node (place p (replicate k .up)) = some .dir := by
  induction k generalizing p with
  | zero => exact ⟨trivial, h⟩
  | succ k ih =>
    obtain ⟨hplain, hdir⟩ := ih (node_up h)
    exact ⟨⟨h, solid_of_dir (node_up h), hplain⟩, hdir⟩

theorem plain_names {ns : List ν} (h : Solid fs (p ++ ns)) : Plain fs p (ns.map .name) := by
  induction ns generalizing p with
  | nil => trivial
  | cons n ns ih =>
    obtain ⟨found, hfound, hnot⟩ := h
    have hdir : fs.node p = some .dir := node_of_append (by rw [hfound]; rfl) (by simp)
    have hsplit : p ++ n :: ns = (p ++ [n]) ++ ns := by simp
    rw [hsplit] at hfound
    refine ⟨hdir, ?_, ih ⟨found, hfound, hnot⟩⟩
    by_cases hns : ns = []
    · rw [hns, append_nil] at hfound
      exact ⟨found, hfound, hnot⟩
    · exact solid_of_dir (node_of_append (p := p ++ [n]) (by rw [hfound]; rfl) hns)

theorem solid_place (hplain : Plain fs p es) (hp : Solid fs p) : Solid fs (place p es) := by
  induction es generalizing p with
  | nil => exact hp
  | cons e es ih => exact ih hplain.2.2 hplain.2.1

theorem resolves_plain_append (hplain : Plain fs p es) :
    Resolves fs p (es ++ rest) q ↔ Resolves fs (place p es) rest q := by
  induction es generalizing p with
  | nil => exact Iff.rfl
  | cons e es ih =>
    obtain ⟨hdir, ⟨found, hfound, hnot⟩, hrest⟩ := hplain
    rw [place_cons, ← ih hrest]
    constructor
    · intro h
      cases h with
      | here _ h => exact h
      | up _ h => exact h
      | name _ _ _ h => exact h
      | link _ hlink _ =>
        dsimp only [stepTo] at hfound
        rw [hfound] at hlink
        exact absurd (Option.some.inj hlink) (hnot _)
    · intro h
      cases e with
      | here => exact .here hdir h
      | up => exact .up hdir h
      | name n => exact .name hdir hfound hnot h

theorem resolves_plain (hplain : Plain fs p es) : Resolves fs p es q ↔ q = place p es := by
  have h : Resolves fs p (es ++ []) q ↔ Resolves fs (place p es) [] q :=
    resolves_plain_append hplain
  rw [append_nil] at h
  rw [h]
  constructor
  · intro h
    cases h
    rfl
  · rintro rfl
    exact .nil _

/-! ## Growing trees -/

/-- All that was there is there, and the working directory is the same. -/
structure Grows (fs fs' : FileTree ν) : Prop where
  node : ∀ p found, fs.node p = some found → fs'.node p = some found
  cwd : fs'.cwd = fs.cwd

theorem Grows.refl (fs : FileTree ν) : Grows fs fs := ⟨fun _ _ h => h, rfl⟩

theorem Grows.trans {fs'' : FileTree ν} (h : Grows fs fs') (h' : Grows fs' fs'') : Grows fs fs'' :=
  ⟨fun p found hp => h'.node p found (h.node p found hp), h'.cwd.trans h.cwd⟩

theorem Grows.start (h : Grows fs fs') (rooted : Bool) : fs'.start rooted = fs.start rooted := by
  unfold FileTree.start
  rw [h.cwd]

section
variable [DecidableEq ν]

/-! ## Walking -/

/-- The walk of the operating system; `onLink` goes on where a link points. -/
def walk (fs : FileTree ν) (onLink : List ν → List (Elem ν) → Except Errno (List ν)) :
    List ν → List (Elem ν) → Except Errno (List ν)
  | p, [] => .ok p
  | p, e :: es =>
    if fs.node p ≠ some .dir then .error .notDir
    else
      match e with
      | .here => walk fs onLink p es
      | .up => walk fs onLink p.dropLast es
      | .name n =>
        match fs.node (p ++ [n]) with
        | none => .error .notExist
        | some (.link t) => onLink (if t.rooted then [] else p) (t.elems ++ es)
        | some _ => walk fs onLink (p ++ [n]) es

/-- The walk that follows at most this many links. -/
def namei (fs : FileTree ν) : Nat → List ν → List (Elem ν) → Except Errno (List ν)
  | 0 => walk fs (fun _ _ => .error .loop)
  | links + 1 => walk fs (namei fs links)

def maxLinks : Nat := 40

/-- What is at the end of a path; a link there is not followed. -/
def lstat (fs : FileTree ν) (path : RawPath ν) : Except Errno (Node ν) :=
  match path.elems.getLast? with
  | some (.name n) =>
    match fs.namei maxLinks (fs.start path.rooted) path.elems.dropLast with
    | .error e => .error e
    | .ok d =>
      if fs.node d ≠ some .dir then .error .notDir
      else
        match fs.node (d ++ [n]) with
        | none => .error .notExist
        | some found => .ok found
  | _ =>
    match fs.namei maxLinks (fs.start path.rooted) path.elems with
    | .error e => .error e
    | .ok d =>
      match fs.node d with
      | none => .error .notExist
      | some found => .ok found

/-- A new directory. -/
def addDir (fs : FileTree ν) (d : List ν) (n : ν) (hd : fs.node d = some .dir) :
    FileTree ν where
  node q := if q = d ++ [n] then some .dir else fs.node q
  cwd := fs.cwd
  root_dir := by simp [fs.root_dir]
  parent_dir := by
    intro p m h
    by_cases hp : p = d ++ [n]
    · simp [hp]
    · simp only [hp, if_false]
      by_cases hpm : p ++ [m] = d ++ [n]
      · rw [(List.append_inj' hpm rfl).1]
        exact hd
      · simp only [hpm, if_false] at h
        exact fs.parent_dir p m h
  cwd_dir := by
    split
    · rfl
    · exact fs.cwd_dir

def mkdir (fs : FileTree ν) (path : RawPath ν) : Except Errno (FileTree ν) :=
  match path.elems.getLast? with
  | some (.name n) =>
    match fs.namei maxLinks (fs.start path.rooted) path.elems.dropLast with
    | .error e => .error e
    | .ok d =>
      if hd : fs.node d = some .dir then
        if (fs.node (d ++ [n])).isSome then .error .exist else .ok (fs.addDir d n hd)
      else .error .notDir
  | _ => .error .exist

/-- Without links the walk ends at the lexical place. -/
theorem walk_plain (hplain : Plain fs p es)
    (onLink : List ν → List (Elem ν) → Except Errno (List ν)) :
    walk fs onLink p es = .ok (place p es) := by
  induction es generalizing p with
  | nil => rfl
  | cons e es ih =>
    obtain ⟨hdir, ⟨found, hfound, hnot⟩, hrest⟩ := hplain
    have hdir' : ¬ fs.node p ≠ some .dir := by simp [hdir]
    cases e with
    | here | up =>
      simp only [walk, if_neg hdir']
      exact ih hrest
    | name n =>
      dsimp only [stepTo] at hfound hrest
      simp only [walk, if_neg hdir', hfound]
      cases found with
      | link t => exact absurd rfl (hnot t)
      | dir | file => exact ih hrest

theorem namei_plain (hplain : Plain fs p es) (links : Nat) :
    fs.namei links p es = .ok (place p es) := by
  cases links with
  | zero | succ links => exact walk_plain hplain _

theorem lstat_name {path : RawPath ν} {n : ν} (helems : path.elems = es ++ [.name n])
    (hplain : Plain fs (fs.start path.rooted) es) :
    fs.lstat path =
      if fs.node (place (fs.start path.rooted) es) ≠ some .dir then .error .notDir
      else
        match fs.node (place (fs.start path.rooted) es ++ [n]) with
        | none => .error .notExist
        | some found => .ok found := by
  unfold lstat
  rw [helems, getLast?_concat, dropLast_concat]
  rw [namei_plain hplain]

theorem lstat_plain {path : RawPath ν} (hplain : Plain fs (fs.start path.rooted) path.elems) :
    ∃ found, fs.lstat path = .ok found := by
  obtain ⟨found, hfound, -⟩ := solid_place hplain (solid_of_dir (fs.start_dir _))
  refine ⟨found, ?_⟩
  rcases eq_nil_or_concat path.elems with hnil | ⟨es, e, helems⟩
  · unfold lstat
    rw [hnil] at hfound ⊢
    have hend : Plain fs (fs.start path.rooted) [] := trivial
    have hnamei : fs.namei maxLinks (fs.start path.rooted) [] = .ok (fs.start path.rooted) :=
      namei_plain hend _
    simp only [getLast?_nil, hnamei]
    rw [place_nil] at hfound
    rw [hfound]
  · rw [concat_eq_append] at helems
    rw [helems] at hplain hfound
    obtain ⟨hes, hdir, -, -⟩ := plain_append.mp hplain
    rw [place_append] at hfound
    cases e with
    | name n =>
      rw [lstat_name helems hes, if_neg (by simp [hdir])]
      simp only [place_cons, place_nil, stepTo] at hfound
      rw [hfound]
    | here | up =>
      unfold lstat
      rw [helems, getLast?_concat]
      rw [namei_plain hplain, place_append]
      dsimp only
      rw [hfound]

theorem mkdir_ok {path : RawPath ν} {n : ν}
    (hplain : Plain fs (fs.start path.rooted) path.elems)
    (h : fs.mkdir { path with elems := path.elems ++ [.name n] } = .ok fs') :
    Grows fs fs' ∧ fs'.node (place (fs.start path.rooted) path.elems ++ [n]) = some .dir ∧
      ∀ q, fs'.node q ≠ fs.node q → q = place (fs.start path.rooted) path.elems ++ [n] := by
  unfold mkdir at h
  rw [getLast?_concat, dropLast_concat] at h
  rw [namei_plain hplain] at h
  dsimp only at h
  split at h
  · split at h
    · cases h
    · rename_i hnew
      cases h
      refine ⟨⟨fun q found hq => ?_, rfl⟩, by simp [addDir], fun q hq => ?_⟩
      · have : q ≠ place (fs.start path.rooted) path.elems ++ [n] := by
          rintro rfl
          exact hnew (by rw [hq]; rfl)
        simp only [addDir, this]
        exact hq
      · by_contra hne
        simp [addDir, hne] at hq
  · cases h

end

end FileTree

end Goobers.Lib
