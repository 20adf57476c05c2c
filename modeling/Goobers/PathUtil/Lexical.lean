import Goobers.Lib.FileTree
import Goobers.Lib.Text

/-!
# Path texts

What Go's `path/filepath` does with the text of a path, before a file system is asked:
cleaning, joining, the directory and the last element, and the path from one place to
another.

Cleaned paths are lists of elements here: the steps up first, which only a path that is
not rooted has, and then names (`Cleaned`). A rooted path starts at the root of the
tree and another one at the working directory.
-/

namespace Goobers.PathUtil

open Lib Lib.FileTree List
open Lib.Strings (Text)

/-! ## Path texts -/

abbrev Path := RawPath Text

abbrev Elems := List (Elem Text)

abbrev Tree := FileTree Text

def parseElem (segment : Text) : Elem Text :=
  if segment = ['.'] then .here
  else if segment = ['.', '.'] then .up
  else .name segment

/-- The elements of a path as it is written. -/
def parsePath (path : String) : Path where
  rooted := path.toList.head? = some '/'
  elems := ((path.toList.splitOn '/').filter (fun segment => segment ≠ [])).map parseElem ++
    if path.toList.getLast? = some '/' then [.here] else []

/-- One element put behind elements that are clean already. -/
def cleanStep (rooted : Bool) (out : Elems) : Elem Text → Elems
  | .here => out
  | .up =>
    match out.getLast? with
    | some (.name _) => out.dropLast
    | some _ => out ++ [.up]
    | none => if rooted then out else out ++ [.up]
  | .name n => out ++ [.name n]

/-- `filepath.Clean`. -/
def clean (path : Path) : Path :=
  { path with elems := path.elems.foldl (cleanStep path.rooted) [] }

/-- `filepath.Join` of a path and elements below it. -/
def join (dir : Path) (es : Elems) : Path :=
  clean { dir with elems := dir.elems ++ es }

/-- `filepath.Dir` of a clean path. -/
def dir (path : Path) : Path := { path with elems := path.elems.dropLast }

/-- `filepath.Base` of a clean path, with no element for the root and the working directory. -/
def base (path : Path) : Elems := path.elems.getLast?.toList

def stripCommon : Elems → Elems → Elems × Elems
  | a :: as, b :: bs => if a = b then stripCommon as bs else (a :: as, b :: bs)
  | as, bs => (as, bs)

/--
`filepath.Rel` of two clean paths. It gives up where it would have to know what a step
up leads out of.
-/
def rel (basepath targpath : Path) : Option (Elems) :=
  if basepath = targpath then some []
  else if basepath.rooted ≠ targpath.rooted then none
  else
    match stripCommon basepath.elems targpath.elems with
    | ([], targ) => some targ
    | (e :: es, targ) =>
      if e = .up ∧ (targ ≠ [] ∨ targpath.elems = []) then none
      else some (List.replicate (es.length + 1) .up ++ targ)

/-- The relative path climbs out of its root. -/
def escapesRoot (es : Elems) : Bool := es.head? = some .up

/-! ## Clean paths -/

/-- Steps up and then names. -/
def cleanElems (k : Nat) (ns : List Text) : Elems :=
  List.replicate k .up ++ ns.map .name

/-- A path that is not rooted may go up first, and then all paths have names. -/
def Cleaned (path : Path) : Prop :=
  ∃ k ns, path.elems = cleanElems k ns ∧ (path.rooted = true → k = 0)

theorem cleanElems_concat (k : Nat) (ns : List Text) (n : Text) :
    cleanElems k (ns ++ [n]) = cleanElems k ns ++ [.name n] := by
  simp [cleanElems]

theorem cleanStep_up_ups {rooted : Bool} {k : Nat} (hk : rooted = true → k + 1 = 0) :
    cleanStep rooted (cleanElems k []) .up = cleanElems (k + 1) [] := by
  have hrooted : rooted = false := by
    cases rooted with
    | true => exact absurd (hk rfl) (by simp)
    | false => rfl
  cases k with
  | zero =>
    subst hrooted
    rfl
  | succ k =>
    simp only [cleanStep]
    simp [cleanElems, replicate_succ']

/-- A cleaned list is some steps up and then names, after every element. -/
theorem cleanStep_form {rooted : Bool} {k : Nat} (ns : List Text) (hk : rooted = true → k = 0)
    (e : Elem Text) :
    ∃ k' ns', cleanStep rooted (cleanElems k ns) e = cleanElems k' ns' ∧
      (rooted = true → k' = 0) := by
  cases e with
  | here => exact ⟨k, ns, rfl, hk⟩
  | name n => exact ⟨k, ns ++ [n], (cleanElems_concat k ns n).symm, hk⟩
  | up =>
    rcases eq_nil_or_concat ns with rfl | ⟨ns, n, rfl⟩
    · cases rooted with
      | true =>
        obtain rfl := hk rfl
        exact ⟨0, [], rfl, fun _ => rfl⟩
      | false => exact ⟨k + 1, [], cleanStep_up_ups (by simp), by simp⟩
    · refine ⟨k, ns, ?_, hk⟩
      rw [concat_eq_append, cleanElems_concat]
      simp [cleanStep]

theorem cleaned_clean (path : Path) : Cleaned (clean path) := by
  have hfold : ∀ (es : Elems) (k : Nat) (ns : List Text), (path.rooted = true → k = 0) →
      ∃ k' ns', es.foldl (cleanStep path.rooted) (cleanElems k ns) = cleanElems k' ns' ∧
        (path.rooted = true → k' = 0) := by
    intro es
    induction es with
    | nil => exact fun k ns hk => ⟨k, ns, rfl, hk⟩
    | cons e es ih =>
      intro k ns hk
      obtain ⟨k', ns', hstep, hk'⟩ := cleanStep_form ns hk e
      rw [foldl_cons, hstep]
      exact ih k' ns' hk'
  exact hfold path.elems 0 [] (fun _ => rfl)

theorem clean_eq_self {path : Path} (h : Cleaned path) : clean path = path := by
  obtain ⟨k, ns, helems, hk⟩ := h
  have hups : ∀ k, (path.rooted = true → k = 0) →
      (replicate k (Elem.up : Elem Text)).foldl (cleanStep path.rooted) [] =
        cleanElems k [] := by
    intro k
    induction k with
    | zero => exact fun _ => rfl
    | succ k ih =>
      intro hk
      have hk' : path.rooted = true → k = 0 := fun h => absurd (hk h) (by simp)
      rw [replicate_succ', foldl_concat, ih hk', cleanStep_up_ups hk]
  have hnames : ∀ ns : List Text, (ns.map Elem.name).foldl (cleanStep path.rooted)
      (cleanElems k []) = cleanElems k ns := by
    intro ns
    induction ns using reverseRecOn with
    | nil => rfl
    | append_singleton ns n ih =>
      rw [map_append, foldl_append, ih, cleanElems_concat]
      rfl
  have hclean : path.elems.foldl (cleanStep path.rooted) [] = path.elems := by
    rw [helems]
    unfold cleanElems
    rw [foldl_append, hups k hk, hnames]
    rfl
  unfold clean
  rw [hclean]

/-- Cleaning does not change where a path leads, in a tree without links. -/
theorem place_cleanStep {rooted : Bool} {p : List Text} (hp : rooted = true → p = [])
    (out : Elems) (e : Elem Text) :
    place p (cleanStep rooted out e) = stepTo (place p out) e := by
  cases e with
  | here => rfl
  | name n =>
    rw [cleanStep, place_append]
    rfl
  | up =>
    rcases eq_nil_or_concat out with rfl | ⟨out, last, rfl⟩
    · cases rooted with
      | true =>
        rw [hp rfl]
        rfl
      | false => rfl
    · rw [concat_eq_append, cleanStep, getLast?_concat]
      cases last with
      | name n =>
        rw [place_append]
        simp [stepTo]
      | here | up =>
        rw [place_append]
        rfl

theorem place_clean {p : List Text} (path : Path) (hp : path.rooted = true → p = []) :
    place p (clean path).elems = place p path.elems := by
  have hfold : ∀ (es out : Elems),
      place p (es.foldl (cleanStep path.rooted) out) = place p (out ++ es) := by
    intro es
    induction es with
    | nil => exact fun out => by simp
    | cons e es ih =>
      intro out
      rw [foldl_cons, ih, place_append, place_append, place_cleanStep hp]
      rfl
  exact hfold path.elems []

theorem join_name {path : Path} (h : Cleaned path) (n : Text) :
    join path [.name n] = { path with elems := path.elems ++ [.name n] } := by
  obtain ⟨k, ns, helems, hk⟩ := h
  refine clean_eq_self ⟨k, ns ++ [n], ?_, hk⟩
  rw [cleanElems_concat, helems]

theorem cleaned_name {path : Path} (h : Cleaned path) (n : Text) :
    Cleaned { path with elems := path.elems ++ [.name n] } := by
  rw [← join_name h n]
  exact cleaned_clean _

theorem start_rooted (fs : Tree) {rooted : Bool} (h : rooted = true) : fs.start rooted = [] := by
  rw [h]
  rfl

theorem plain_cleaned {fs : Tree} {path : Path} (h : Cleaned path)
    (hsolid : Solid fs (place (fs.start path.rooted) path.elems)) :
    Plain fs (fs.start path.rooted) path.elems := by
  obtain ⟨k, ns, helems, -⟩ := h
  rw [helems, cleanElems] at hsolid ⊢
  rw [place_append, place_names] at hsolid
  exact plain_append.mpr ⟨(plain_ups (fs.start_dir _) k).1, plain_names hsolid⟩

/-! ### Relative paths -/

theorem stripCommon_spec (as bs : Elems) :
    ∃ common, as = common ++ (stripCommon as bs).1 ∧ bs = common ++ (stripCommon as bs).2 := by
  induction as generalizing bs with
  | nil =>
    cases bs with
    | nil | cons b bs => exact ⟨[], rfl, rfl⟩
  | cons a as ih =>
    cases bs with
    | nil => exact ⟨[], rfl, rfl⟩
    | cons b bs =>
      by_cases hab : a = b
      · subst hab
        obtain ⟨common, has, hbs⟩ := ih bs
        refine ⟨a :: common, ?_, ?_⟩
        · simp only [stripCommon, if_true, cons_append]
          rw [← has]
        · simp only [stripCommon, if_true, cons_append]
          rw [← hbs]
      · exact ⟨[], by simp [stripCommon, hab], by simp [stripCommon, hab]⟩

/-- **A relative path that does not climb out is what the target has more.** -/
theorem rel_contained {basepath targpath : Path} {es : Elems}
    (h : rel basepath targpath = some es) (hes : escapesRoot es = false) :
    targpath.rooted = basepath.rooted ∧ targpath.elems = basepath.elems ++ es := by
  unfold rel at h
  split at h
  · rename_i heq
    cases h
    simp [heq]
  split at h
  · cases h
  rename_i hrooted
  obtain ⟨common, hbase, htarg⟩ := stripCommon_spec basepath.elems targpath.elems
  split at h
  · rename_i targ hstrip
    cases h
    rw [hstrip] at hbase htarg
    refine ⟨(Classical.not_not.mp hrooted).symm, ?_⟩
    rw [htarg, hbase]
    simp
  · split at h
    · cases h
    · cases h
      simp [escapesRoot, replicate_succ] at hes

/-- What a cleaned path adds to a cleaned base without escaping is a list of names. -/
theorem names_of_contained {basepath targpath : Path} {es : Elems} (hbase : Cleaned basepath)
    (htarg : Cleaned targpath) (helems : targpath.elems = basepath.elems ++ es)
    (hes : escapesRoot es = false) : ∃ ns : List Text, es = ns.map Elem.name := by
  obtain ⟨k, ns, hb, -⟩ := hbase
  obtain ⟨k', ns', ht, -⟩ := htarg
  have hmem : ∀ e ∈ es, e ≠ .up → ∃ n, e = .name n := by
    intro e he hne
    have : e ∈ cleanElems k' ns' := by
      rw [← ht, helems]
      exact mem_append_right _ he
    rcases mem_append.mp this with h | h
    · exact absurd (eq_of_mem_replicate h) hne
    · obtain ⟨n, -, rfl⟩ := mem_map.mp h
      exact ⟨n, rfl⟩
  -- behind a name there is no step up, and the first element is none
  have hpair : (cleanElems k' ns').Pairwise (fun a b => b = .up → a = .up) := by
    refine pairwise_append.mpr ⟨?_, ?_, ?_⟩
    · exact pairwise_replicate.mpr (.inr fun _ => rfl)
    · refine pairwise_map.mpr (pairwise_of_forall fun _ _ h => ?_)
      cases h
    · intro a ha b _ _
      exact eq_of_mem_replicate ha
  have hes' : es.Pairwise (fun a b => b = .up → a = .up) := by
    rw [← ht, helems] at hpair
    exact (pairwise_append.mp hpair).2.1
  have hnoup : ∀ e ∈ es, e ≠ .up := by
    cases es with
    | nil => simp
    | cons a es =>
      have ha : a ≠ .up := by
        rintro rfl
        simp [escapesRoot] at hes
      exact forall_mem_cons.mpr
        ⟨ha, fun e he hup => ha (rel_of_pairwise_cons hes' he hup)⟩
  clear hes' hpair helems ht hb hes
  induction es with
  | nil => exact ⟨[], rfl⟩
  | cons a es ih =>
    obtain ⟨n, rfl⟩ := hmem a (by simp) (hnoup a (by simp))
    obtain ⟨ms, hms⟩ :=
      ih (fun e he => hmem e (by simp [he])) (fun e he => hnoup e (by simp [he]))
    exact ⟨n :: ms, by simp [hms]⟩

end Goobers.PathUtil
