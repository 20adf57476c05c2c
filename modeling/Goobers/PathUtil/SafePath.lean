import Goobers.PathUtil.Lexical

/-!
# Rooted paths

`ResolveRootedPath` takes a root and a path below it and gives the real path of the
file, so that opening it cannot leave the root: the directory of the file is walked up
to the nearest ancestor that exists, the links of that ancestor are followed, what is
missing is made one directory at a time, and a link in the place of the file is
refused.
-/

namespace Goobers.PathUtil

open Lib Lib.FileTree List
open Lib.Strings (Text)

/-! ## Following links -/

/-- The loop of `walkSymlinks` for `..`: what is left of a path that had to be kept stays. -/
def backUp (dest : Path) : Path :=
  if dest.elems.length ≤ 1 ∨ dest.elems.getLast? = some .up then
    { dest with elems := dest.elems ++ [.up] }
  else { dest with elems := dest.elems.dropLast }

/-- The loop of `walkSymlinks` up to the next link. -/
def walkDest (fs : Tree) (onLink : Path → Elems → Except Errno Path) :
    Path → Elems → Except Errno Path
  | dest, [] => .ok dest
  | dest, .here :: es => walkDest fs onLink dest es
  | dest, .up :: es => walkDest fs onLink (backUp dest) es
  | dest, .name n :: es =>
    match fs.lstat { dest with elems := dest.elems ++ [.name n] } with
    | .error e => .error e
    | .ok (.link t) =>
      onLink (if t.rooted then ⟨true, []⟩ else dest) (t.elems ++ es)
    | .ok found =>
      if found ≠ .dir ∧ es ≠ [] then .error .notDir
      else walkDest fs onLink { dest with elems := dest.elems ++ [.name n] } es

/-- The loop that follows at most this many links. -/
def walkSymlinks (fs : Tree) : Nat → Path → Elems → Except Errno Path
  | 0 => walkDest fs (fun _ _ => .error .loop)
  | links + 1 => walkDest fs (walkSymlinks fs links)

def evalSymlinks (fs : Tree) (path : Path) : Except Errno Path :=
  (walkSymlinks fs 255 { path with elems := [] } path.elems).map clean

/-! ## The resolver -/

/-- Why a path is refused. -/
inductive PathError where
  | emptyPath
  | resolveRoot (err : Errno)
  | escapesRoot (rel : String)
  | path (rel : String) (err : Errno)
  | resolve (rel : String) (err : Errno)
  | directoryEscapes (rel : String)
  | noSuchDirectory (rel : String)
  | createDirectory (rel : String) (err : Errno)
  | leafIsSymlink (rel : String)
  deriving DecidableEq, Repr

/--
The walk to the nearest ancestor that exists; `existing` is the path so far, from its
end, and what is missing is collected deepest first. The root of the tree and the
working directory exist, so the loop ends there.
-/
def findExisting (fs : Tree) (root : Path) (rooted : Bool) :
    Elems → Elems → Except Errno (Path × Elems)
  | existing, missing =>
    let path : Path := ⟨rooted, existing.reverse⟩
    if path = root then .ok (path, missing)
    else
      match fs.lstat path with
      | .ok _ => .ok (path, missing)
      | .error .notExist =>
        match existing with
        | [] => .error .notExist
        | e :: existing => findExisting fs root rooted existing (missing ++ [e])
      | .error e => .error e

/-- The missing directories, one at a time. -/
def mkdirs (fs : Tree) (path : Path) : Elems → Tree × Except Errno Path
  | [] => (fs, .ok path)
  | e :: es =>
    let path := join path [e]
    match fs.mkdir path with
    | .error err => (fs, .error err)
    | .ok fs => mkdirs fs path es

def resolveRootedPath (fs : Tree) (root relPath : String) (createMissingDirs : Bool) :
    Tree × Except PathError Path :=
  if relPath = "" then (fs, .error .emptyPath)
  else
    match evalSymlinks fs (parsePath root) with
    | .error e => (fs, .error (.resolveRoot e))
    | .ok root =>
      let full := join root (parsePath relPath).elems
      match rel root full with
      | none => (fs, .error (.escapesRoot relPath))
      | some relBack =>
        if escapesRoot relBack then (fs, .error (.escapesRoot relPath))
        else
          match findExisting fs root full.rooted (dir full).elems.reverse [] with
          | .error e => (fs, .error (.path relPath e))
          | .ok (existing, missing) =>
            match evalSymlinks fs existing with
            | .error e => (fs, .error (.resolve relPath e))
            | .ok resolvedExisting =>
              match rel root resolvedExisting with
              | none => (fs, .error (.directoryEscapes relPath))
              | some relExisting =>
                if escapesRoot relExisting then
                  (fs, .error (.directoryEscapes relPath))
                else if missing ≠ [] ∧ createMissingDirs = false then
                  (fs, .error (.noSuchDirectory relPath))
                else
                  match mkdirs fs resolvedExisting missing.reverse with
                  | (fs, .error e) => (fs, .error (.createDirectory relPath e))
                  | (fs, .ok parent) =>
                    let leaf := join parent (base full)
                    match fs.lstat leaf with
                    | .ok (.link _) => (fs, .error (.leafIsSymlink relPath))
                    | _ => (fs, .ok leaf)

/-! ## What following links gives -/

section
variable {fs : Tree}

/-- The place a path leads to without links. -/
def at_ (fs : Tree) (path : Path) : List Text := place (fs.start path.rooted) path.elems

/-- What `walkSymlinks` keeps of the path so far. -/
structure Walked (fs : Tree) (dest : Path) : Prop where
  plain : Plain fs (fs.start dest.rooted) dest.elems
  noHere : ∀ e ∈ dest.elems, e ≠ .here

theorem Walked.solid {dest : Path} (h : Walked fs dest) : Solid fs (at_ fs dest) :=
  solid_place h.plain (solid_of_dir (fs.start_dir _))

theorem walked_nil (fs : Tree) (rooted : Bool) : Walked fs ⟨rooted, []⟩ :=
  ⟨trivial, by simp⟩

theorem Walked.backUp {dest : Path} (h : Walked fs dest)
    (hdir : fs.node (at_ fs dest) = some .dir) :
    Walked fs (backUp dest) ∧ at_ fs (PathUtil.backUp dest) = (at_ fs dest).dropLast := by
  unfold PathUtil.backUp
  split_ifs with hlast
  · refine ⟨⟨plain_append.mpr ⟨h.plain, plain_up hdir⟩, ?_⟩, ?_⟩
    · exact forall_mem_append.mpr ⟨h.noHere, by simp⟩
    · exact place_append _ _ _
  · obtain ⟨hlen, hlast⟩ := not_or.mp hlast
    rcases eq_nil_or_concat dest.elems with hnil | ⟨es, e, helems⟩
    · simp [hnil] at hlen
    rw [concat_eq_append] at helems
    have hplain := h.plain
    rw [helems] at hplain
    refine ⟨⟨?_, ?_⟩, ?_⟩
    · simp only [helems, dropLast_concat]
      exact (plain_append.mp hplain).1
    · intro e' he'
      exact h.noHere e' (dropLast_subset _ he')
    · unfold at_
      simp only [helems]
      rw [place_append]
      cases e with
      | name n => simp [stepTo]
      | here => exact absurd rfl (h.noHere .here (by simp [helems]))
      | up => simp [helems] at hlast

theorem Walked.name {dest : Path} (h : Walked fs dest)
    (hdir : fs.node (at_ fs dest) = some .dir) {n : Text}
    (hsolid : Solid fs (at_ fs dest ++ [n])) :
    Walked fs { dest with elems := dest.elems ++ [.name n] } ∧
      at_ fs { dest with elems := dest.elems ++ [.name n] } = at_ fs dest ++ [n] := by
  exact ⟨⟨plain_append.mpr ⟨h.plain, hdir, hsolid, trivial⟩,
    forall_mem_append.mpr ⟨h.noHere, by simp⟩⟩, place_append _ _ _⟩

theorem lstat_below {dest : Path} (hplain : Plain fs (fs.start dest.rooted) dest.elems)
    (hdir : fs.node (at_ fs dest) = some .dir) (n : Text) :
    fs.lstat { dest with elems := dest.elems ++ [.name n] } =
      match fs.node (at_ fs dest ++ [n]) with
      | none => .error .notExist
      | some found => .ok found := by
  have hlstat : fs.lstat { dest with elems := dest.elems ++ [.name n] } = _ :=
    lstat_name rfl hplain
  rw [hlstat, if_neg (fun hnot => hnot hdir)]
  unfold at_
  cases fs.node (place (fs.start dest.rooted) dest.elems ++ [n]) <;> rfl

/-- What a loop of `walkSymlinks` gives: a path without links to where the rest leads. -/
def Follows (fs : Tree) (loop : Path → Elems → Except Errno Path) : Prop :=
  ∀ dest es found, Walked fs dest → (es ≠ [] → fs.node (at_ fs dest) = some .dir) →
    loop dest es = .ok found → Walked fs found ∧ Resolves fs (at_ fs dest) es (at_ fs found)

/-- The walk with links resolved on the way ends where the tree's own resolution ends. -/
theorem walkDest_follows {onLink : Path → Elems → Except Errno Path}
    (hlink : Follows fs onLink) : Follows fs (walkDest fs onLink) := by
  intro dest es
  -- on the elements still to walk; `dest` is walked already
  induction es generalizing dest with
  | nil =>
    intro found hdest _ h
    cases h
    exact ⟨hdest, .nil _⟩
  | cons e es ih =>
    intro found hdest hrest h
    have hdir : fs.node (at_ fs dest) = some .dir := hrest (by simp)
    cases e with
    | here =>
      obtain ⟨hfound, hres⟩ := ih dest found hdest (fun _ => hdir) h
      exact ⟨hfound, .here hdir hres⟩
    | up =>
      obtain ⟨hback, hat⟩ := hdest.backUp hdir
      have hup : fs.node (at_ fs (backUp dest)) = some .dir := by
        rw [hat]
        exact node_up hdir
      obtain ⟨hfound, hres⟩ := ih _ found hback (fun _ => hup) h
      exact ⟨hfound, .up hdir (hat ▸ hres)⟩
    | name n =>
      rw [walkDest, lstat_below hdest.plain hdir] at h
      cases hnode : fs.node (at_ fs dest ++ [n]) with
      | none =>
        rw [hnode] at h
        cases h
      | some node =>
        rw [hnode] at h
        split at h
        · cases h
        · rename_i t hlinked
          obtain rfl : node = .link t := Except.ok.inj hlinked
          -- a rooted target starts again at the root
          split_ifs at h with hrooted
          · obtain ⟨hfound, hres⟩ :=
              hlink _ _ found (walked_nil fs true) (fun _ => fs.root_dir) h
            refine ⟨hfound, .link hdir hnode ?_⟩
            rw [if_pos hrooted]
            exact hres
          · obtain ⟨hfound, hres⟩ := hlink _ _ found hdest (fun _ => hdir) h
            refine ⟨hfound, .link hdir hnode ?_⟩
            rw [if_neg hrooted]
            exact hres
        · rename_i other hnot hother
          obtain rfl : node = other := Except.ok.inj hother
          have hsolid : Solid fs (at_ fs dest ++ [n]) := ⟨node, hnode, hnot⟩
          obtain ⟨hname, hat⟩ := hdest.name hdir hsolid
          split at h
          · cases h
          rename_i hplace
          -- what is no directory may only be the last element
          have hnext : es ≠ [] → fs.node (at_ fs
              { dest with elems := dest.elems ++ [.name n] }) = some .dir := by
            intro hes
            have hnd : node = .dir := by
              by_contra hne
              exact hplace ⟨hne, hes⟩
            rw [hat, hnode, hnd]
          obtain ⟨hfound, hres⟩ := ih _ found hname hnext h
          exact ⟨hfound, .name hdir hnode hnot (hat ▸ hres)⟩

theorem walkSymlinks_follows (fs : Tree) (links : Nat) : Follows fs (walkSymlinks fs links) := by
  induction links with
  | zero => exact walkDest_follows fun _ _ _ _ _ h => by cases h
  | succ links ih => exact walkDest_follows ih

theorem at_clean (fs : Tree) (path : Path) : at_ fs (clean path) = at_ fs path :=
  place_clean path (start_rooted fs)

/-- **Following the links of a path gives a clean path without links to the same place.** -/
theorem evalSymlinks_ok {path found : Path} (h : evalSymlinks fs path = .ok found) :
    Cleaned found ∧ Solid fs (at_ fs found) ∧ ResolvesTo fs path (at_ fs found) := by
  unfold evalSymlinks at h
  cases hwalk : walkSymlinks fs 255 { path with elems := [] } path.elems with
  | error e =>
    rw [hwalk] at h
    cases h
  | ok dest =>
    rw [hwalk] at h
    obtain rfl := Except.ok.inj h
    obtain ⟨hdest, hres⟩ := walkSymlinks_follows fs 255 _ _ _ (walked_nil fs path.rooted)
      (fun _ => fs.start_dir path.rooted) hwalk
    rw [at_clean]
    exact ⟨cleaned_clean dest, hdest.solid, hres⟩

theorem evalSymlinks_ups (fs : Tree) (k : Nat) :
    evalSymlinks fs ⟨false, replicate k .up⟩ = .ok ⟨false, replicate k .up⟩ := by
  have hback : ∀ j, backUp ⟨false, replicate j .up⟩ = ⟨false, replicate (j + 1) .up⟩ := by
    intro j
    unfold backUp
    rw [if_pos, replicate_succ']
    cases j with
    | zero => exact .inl (by simp)
    | succ j => exact .inr (by simp [replicate_succ'])
  have hwalk : ∀ (onLink : Path → Elems → Except Errno Path) (k j : Nat),
      walkDest fs onLink ⟨false, replicate j .up⟩ (replicate k .up) =
        .ok ⟨false, replicate (j + k) .up⟩ := by
    intro onLink k
    induction k with
    | zero => exact fun _ => rfl
    | succ k ih =>
      intro j
      rw [replicate_succ, walkDest, hback, ih]
      congr 3
      omega
  have hclean : Cleaned ⟨false, replicate k .up⟩ := ⟨k, [], by simp [cleanElems], by simp⟩
  have h := hwalk (walkSymlinks fs 254) k 0
  rw [Nat.zero_add] at h
  change (walkDest fs (walkSymlinks fs 254) _ _).map clean = _
  change walkDest fs _ ⟨false, []⟩ _ = _ at h
  rw [h]
  change Except.ok (clean _) = _
  rw [clean_eq_self hclean]

/-! ## The walk up and the way down -/

/-- The part that exists and the part that is missing make up the path. -/
theorem findExisting_ok {root path : Path} {rooted : Bool} {existing missing missing' : Elems}
    (h : findExisting fs root rooted existing missing = .ok (path, missing')) :
    path.rooted = rooted ∧
      (∃ gone, path.elems ++ gone.reverse = existing.reverse ∧ missing' = missing ++ gone) ∧
      (root.rooted = rooted → root.elems <+: existing.reverse → root.elems <+: path.elems) ∧
      ((∃ found, fs.lstat ⟨rooted, existing.reverse⟩ = .ok found) → missing' = missing) := by
  induction existing generalizing missing with
  | nil =>
    unfold findExisting at h
    dsimp only at h
    split at h
    · cases h
      exact ⟨rfl, ⟨[], by simp⟩, fun _ h => h, fun _ => rfl⟩
    · split at h
      · cases h
        exact ⟨rfl, ⟨[], by simp⟩, fun _ h => h, fun _ => rfl⟩
      · cases h
      · cases h
  | cons e existing ih =>
    unfold findExisting at h
    dsimp only at h
    split_ifs at h with hroot
    · cases h
      exact ⟨rfl, ⟨[], by simp⟩, fun _ h => h, fun _ => rfl⟩
    split at h
    · cases h
      exact ⟨rfl, ⟨[], by simp⟩, fun _ h => h, fun _ => rfl⟩
    · rename_i hmissing
      obtain ⟨hrooted, ⟨gone, hgone, hmissing'⟩, hbelow, -⟩ := ih h
      refine ⟨hrooted, ⟨e :: gone, ?_, ?_⟩, ?_, ?_⟩
      · rw [reverse_cons, ← append_assoc, hgone, reverse_cons]
      · rw [hmissing']
        simp
      · -- the root is an ancestor, and not this path itself
        intro hr hprefix
        apply hbelow hr
        rw [reverse_cons] at hprefix hroot
        rcases prefix_concat_iff.mp hprefix with heq | hprefix
        · exact absurd (by rw [← hr, ← heq]) hroot
        · exact hprefix
      · rintro ⟨found, hfound⟩
        rw [hmissing] at hfound
        cases hfound
    · cases h

/-- **What making the missing directories changes, and where it arrives.** -/
theorem mkdirs_spec {fs fs' : Tree} {path : Path} {ns : List Text}
    {result : Except Errno Path} (hclean : Cleaned path) (hsolid : Solid fs (at_ fs path))
    (h : mkdirs fs path (ns.map .name) = (fs', result)) :
    Grows fs fs' ∧
      (∀ q, fs'.node q ≠ fs.node q →
        at_ fs path <+: q ∧ q ≠ at_ fs path ∧ fs'.node q = some .dir) ∧
      ∀ parent, result = .ok parent → Cleaned parent ∧ parent.rooted = path.rooted ∧
        parent.elems = path.elems ++ ns.map .name ∧ Solid fs' (at_ fs' parent) := by
  induction ns generalizing fs path with
  | nil =>
    cases h
    refine ⟨.refl _, fun q hq => absurd rfl hq, fun parent hparent => ?_⟩
    cases hparent
    exact ⟨hclean, rfl, by simp, hsolid⟩
  | cons n ns ih =>
    rw [map_cons, mkdirs, join_name hclean] at h
    split at h
    · cases h
      exact ⟨.refl _, fun q hq => absurd rfl hq, fun parent hparent => by cases hparent⟩
    rename_i fs₁ hmkdir
    have hplain := plain_cleaned hclean hsolid
    obtain ⟨hgrows, hnew, honly⟩ := mkdir_ok hplain hmkdir
    have hat : at_ fs₁ { path with elems := path.elems ++ [.name n] } = at_ fs path ++ [n] := by
      unfold at_
      rw [hgrows.start, place_append]
      rfl
    obtain ⟨hgrows', hchanged, hparent⟩ :=
      ih (cleaned_name hclean n) (by rw [hat]; exact solid_of_dir hnew) h
    rw [hat] at hchanged
    refine ⟨hgrows.trans hgrows', fun q hq => ?_, fun parent hok => ?_⟩
    -- made by this `mkdir` or by a later one
    · by_cases hq' : fs'.node q = fs₁.node q
      · rw [hq'] at hq
        obtain rfl := honly q hq
        refine ⟨prefix_append _ _, by simp [at_], ?_⟩
        rw [hq']
        exact hnew
      · obtain ⟨hbelow, hne, hnode⟩ := hchanged q hq'
        refine ⟨(prefix_append _ _).trans hbelow, ?_, hnode⟩
        rintro rfl
        have := hbelow.length_le
        rw [length_append, length_singleton] at this
        omega
    · obtain ⟨hc, hr, he, hs⟩ := hparent parent hok
      refine ⟨hc, hr, ?_, hs⟩
      rw [he]
      simp

end

/-! ## Containment -/

/-- **Everything a call that succeeds has done.** -/
theorem resolveRootedPath_ok {fs fs' : Tree} {rootPath relPath : String} {create : Bool}
    {leaf : Path} (h : resolveRootedPath fs rootPath relPath create = (fs', .ok leaf)) :
    ∃ root relBack existing missing resolvedExisting relExisting parent,
      evalSymlinks fs (parsePath rootPath) = .ok root ∧
      rel root (join root (parsePath relPath).elems) = some relBack ∧
      escapesRoot relBack = false ∧
      findExisting fs root (join root (parsePath relPath).elems).rooted
        (dir (join root (parsePath relPath).elems)).elems.reverse [] = .ok (existing, missing) ∧
      evalSymlinks fs existing = .ok resolvedExisting ∧
      rel root resolvedExisting = some relExisting ∧
      escapesRoot relExisting = false ∧
      mkdirs fs resolvedExisting missing.reverse = (fs', .ok parent) ∧
      leaf = join parent (base (join root (parsePath relPath).elems)) ∧
      ∀ t, fs'.lstat leaf ≠ .ok (.link t) := by
  -- every check that fails ends with an error, so each split leaves one branch
  unfold resolveRootedPath at h
  split at h
  · cases h
  split at h
  · cases h
  rename_i root hroot
  dsimp only at h
  split at h
  · cases h
  rename_i relBack hrelBack
  split_ifs at h with hescapes
  · cases h
  split at h
  · cases h
  rename_i existing missing hexisting
  split at h
  · cases h
  rename_i resolvedExisting hresolved
  split at h
  · cases h
  rename_i relExisting hrelExisting
  split at h
  · cases h
  rename_i hescapes'
  split at h
  · cases h
  split at h
  · cases h
  rename_i fs₁ parent hmkdirs
  split at h
  · cases h
  rename_i hleaf
  cases h
  refine ⟨root, relBack, existing, missing, resolvedExisting, relExisting, parent, hroot, hrelBack,
    by simpa using hescapes, hexisting, hresolved, hrelExisting, by simpa using hescapes', hmkdirs,
    rfl, hleaf⟩

/-- Opening the path cannot leave the root, and nothing was made outside it. -/
structure Contained (fs fs' : Tree) (root : List Text) (path : Path) : Prop where
  parent_exists : ∃ d, ResolvesTo fs' (dir path) d
  parent : ∀ d, ResolvesTo fs' (dir path) d → root <+: d
  leaf : ∀ d n t, ResolvesTo fs' (dir path) d → path.elems.getLast? = some (.name n) →
    fs'.node (d ++ [n]) ≠ some (.link t)
  created : ∀ q, fs'.node q ≠ fs.node q → root <+: q ∧ q ≠ root ∧ fs'.node q = some .dir
  opened : ∀ q, ResolvesTo fs' path q → root <+: q

section
variable {fs fs' : Tree}

theorem contained_name {root : List Text} {parent : Path} {n : Text} (hclean : Cleaned parent)
    (hsolid : Solid fs' (at_ fs' parent)) (hbelow : root <+: at_ fs' parent)
    (hcreated : ∀ q, fs'.node q ≠ fs.node q → root <+: q ∧ q ≠ root ∧ fs'.node q = some .dir)
    (hleaf : ∀ t, fs'.lstat (join parent [.name n]) ≠ .ok (.link t)) :
    Contained fs fs' root (join parent [.name n]) := by
  have hplain : Plain fs' (fs'.start parent.rooted) parent.elems := plain_cleaned hclean hsolid
  rw [join_name hclean] at hleaf ⊢
  have hdir : dir { parent with elems := parent.elems ++ [.name n] } = parent := by
    simp [dir]
  have hresolves : ∀ d, ResolvesTo fs' (dir { parent with elems := parent.elems ++ [.name n] }) d ↔
      d = at_ fs' parent := by
    intro d
    rw [hdir]
    exact resolves_plain hplain
  -- the check before the open has found no link there
  have hnode : ∀ t, fs'.node (at_ fs' parent ++ [n]) ≠ some (.link t) := by
    intro t hlink
    refine hleaf t ?_
    have hparent : fs'.node (at_ fs' parent) = some .dir :=
      fs'.parent_dir _ n (by rw [hlink]; rfl)
    rw [lstat_below hplain hparent, hlink]
  constructor
  · exact ⟨_, (hresolves _).mpr rfl⟩
  · intro d hd
    rw [(hresolves d).mp hd]
    exact hbelow
  · intro d m t hd hm
    rw [(hresolves d).mp hd]
    have : m = n := by simpa using hm.symm
    rw [this]
    exact hnode t
  · exact hcreated
  · intro q hq
    have hq' : Resolves fs' (at_ fs' parent) [.name n] q := (resolves_plain_append hplain).mp hq
    cases hq' with
    | name _ _ _ h =>
      cases h
      exact hbelow.trans (prefix_append _ _)
    | link _ hlink _ => exact absurd hlink (hnode _)

theorem at_names {path : Path} {es : Elems} {ns : List Text}
    (helems : path.elems = es ++ ns.map .name) :
    at_ fs path = place (fs.start path.rooted) es ++ ns := by
  unfold at_
  rw [helems, place_append, place_names]

theorem escapes_of_dir_root {root : Path} (hroot : Cleaned root)
    (hsolid : Solid fs (at_ fs root)) (hne : root.elems ≠ []) :
    (∃ found, fs.lstat (dir root) = .ok found) ∧
      ∀ (resolved : Path) (ns : List Text), evalSymlinks fs (dir root) = .ok resolved →
        resolved.rooted = root.rooted → resolved.elems ≠ root.elems ++ ns.map .name := by
  obtain ⟨k, ms, helems, hk⟩ := hroot
  rcases eq_nil_or_concat ms with rfl | ⟨ms, m, rfl⟩
  · -- the root is some steps up from the working directory
    cases k with
    | zero => exact absurd helems hne
    | succ k =>
      have hrooted : root.rooted = false := by
        cases hr : root.rooted with
        | true => exact absurd (hk hr) (by simp)
        | false => rfl
      have hdir : dir root = ⟨false, replicate k .up⟩ := by
        unfold dir
        rw [helems, hrooted]
        simp [cleanElems]
      rw [hdir]
      refine ⟨lstat_plain (plain_ups (fs.start_dir _) k).1, fun resolved ns h _ helems' => ?_⟩
      rw [evalSymlinks_ups] at h
      obtain rfl := Except.ok.inj h
      have := congrArg length helems'
      rw [helems] at this
      simp only [cleanElems, length_replicate,
        length_append] at this
      omega
  · -- its last element is a name
    have hdir : (dir root).elems = cleanElems k ms := by
      unfold dir
      rw [helems, concat_eq_append, cleanElems_concat, dropLast_concat]
    have hat : at_ fs root = at_ fs (dir root) ++ [m] := by
      unfold at_
      rw [hdir, helems, concat_eq_append, cleanElems_concat, place_append]
      rfl
    have hclean : Cleaned (dir root) := ⟨k, ms, hdir, hk⟩
    have hparent : fs.node (at_ fs (dir root)) = some .dir := by
      obtain ⟨found, hfound, -⟩ := hsolid
      rw [hat] at hfound
      exact fs.parent_dir _ m (by rw [hfound]; rfl)
    have hplain := plain_cleaned hclean (solid_of_dir hparent)
    refine ⟨lstat_plain hplain, fun resolved ns h hrooted helems' => ?_⟩
    obtain ⟨-, -, hres⟩ := evalSymlinks_ok h
    have hplace : at_ fs resolved = at_ fs (dir root) := (resolves_plain hplain).mp hres
    rw [at_names helems', hrooted] at hplace
    have := congrArg length hplace
    change (at_ fs root ++ ns).length = _ at this
    rw [hat] at this
    simp only [length_append, length_singleton] at this
    omega

theorem contained_start (fs : Tree) (rooted : Bool) :
    Contained fs fs (fs.start rooted) ⟨rooted, []⟩ := by
  have hresolves : ∀ d, ResolvesTo fs ⟨rooted, []⟩ d → d = fs.start rooted := by
    intro d hd
    cases hd
    rfl
  constructor
  · exact ⟨_, .nil _⟩
  · intro d hd
    rw [hresolves d hd]
  · intro d n t _ hlast
    cases hlast
  · exact fun q hq => absurd rfl hq
  · intro q hq
    rw [hresolves q hq]

/-- What is created lies below the root. -/
theorem contained_below {root resolved parent : Path} {ns ms : List Text} {n : Text}
    (hclean : Cleaned resolved) (hsolid : Solid fs (at_ fs resolved))
    (hrooted : resolved.rooted = root.rooted)
    (helems : resolved.elems = root.elems ++ ns.map .name)
    (hmkdirs : mkdirs fs resolved (ms.map .name) = (fs', .ok parent))
    (hleaf : ∀ t, fs'.lstat (join parent [.name n]) ≠ .ok (.link t)) :
    Contained fs fs' (at_ fs root) (join parent [.name n]) := by
  have hat : at_ fs resolved = at_ fs root ++ ns := by
    rw [at_names helems, hrooted]
    rfl
  obtain ⟨hgrows, hchanged, hparent⟩ := mkdirs_spec hclean hsolid hmkdirs
  obtain ⟨hparentClean, hparentRooted, hparentElems, hparentSolid⟩ := hparent parent rfl
  have hparentAt : at_ fs' parent = at_ fs resolved ++ ms := by
    rw [at_names hparentElems, hparentRooted, hgrows.start]
    rfl
  refine contained_name hparentClean hparentSolid ?_ (fun q hq => ?_) hleaf
  · rw [hparentAt, hat, append_assoc]
    exact prefix_append _ _
  · obtain ⟨hbelow, hne, hnode⟩ := hchanged q hq
    have hroot : at_ fs root <+: at_ fs resolved := by
      rw [hat]
      exact prefix_append _ _
    refine ⟨hroot.trans hbelow, ?_, hnode⟩
    rintro rfl
    exact hne (hroot.eq_of_length_le hbelow.length_le)

/--
**A rooted path stays inside its root.** Where the call succeeds, the root has a place,
and seen from there the path is contained, whatever links the tree has.
-/
theorem resolveRootedPath_contained {rootPath relPath : String} {create : Bool} {path : Path}
    (h : resolveRootedPath fs rootPath relPath create = (fs', .ok path)) :
    (∃ root, ResolvesTo fs (parsePath rootPath) root) ∧
      ∀ root, ResolvesTo fs (parsePath rootPath) root → Contained fs fs' root path := by
  obtain ⟨root, relBack, existing, missing, resolved, relExisting, parent, hroot, hrelBack,
    hescapes, hexisting, hresolved, hrelExisting, hescapes', hmkdirs, rfl, hleaf⟩ :=
      resolveRootedPath_ok h
  obtain ⟨hrootClean, hrootSolid, hrootRes⟩ := evalSymlinks_ok hroot
  refine ⟨⟨_, hrootRes⟩, fun place hplace => ?_⟩
  obtain rfl : place = at_ fs root := hplace.unique hrootRes
  obtain ⟨hfullRooted, hfullElems⟩ := rel_contained hrelBack hescapes
  obtain ⟨ns, rfl⟩ := names_of_contained hrootClean (cleaned_clean _) hfullElems hescapes
  obtain ⟨hresClean, hresSolid, -⟩ := evalSymlinks_ok hresolved
  obtain ⟨hresRooted, hresElems⟩ := rel_contained hrelExisting hescapes'
  obtain ⟨ns', rfl⟩ := names_of_contained hrootClean hresClean hresElems hescapes'
  obtain ⟨hexRooted, ⟨gone, hgone, hmissing⟩, hbelow, hfirst⟩ := findExisting_ok hexisting
  subst hmissing
  rw [reverse_reverse] at hgone hbelow hfirst
  generalize join root (parsePath relPath).elems = full at *
  rcases eq_nil_or_concat ns with rfl | ⟨ns, n, rfl⟩
  · -- the path names the root itself
    rw [map_nil, append_nil] at hfullElems
    obtain rfl : full = root := by
      cases full
      cases root
      simp_all
    by_cases hne : full.elems = []
    · obtain ⟨rooted, elems⟩ := full
      obtain rfl : elems = [] := hne
      obtain ⟨hexElems, hgoneNil⟩ := append_eq_nil_iff.mp hgone
      obtain rfl : missing = [] := by simpa using hgoneNil
      obtain rfl : existing = ⟨rooted, []⟩ := by
        cases existing
        simp_all
      obtain rfl : ⟨rooted, []⟩ = resolved := Except.ok.inj hresolved
      cases hmkdirs
      exact contained_start fs rooted
    · obtain ⟨hfound, hescape⟩ := escapes_of_dir_root hrootClean hrootSolid hne
      obtain rfl : missing = [] := hfirst hfound
      obtain rfl : existing = dir full := by
        cases existing
        simp_all [dir]
      exact absurd hresElems (hescape resolved ns' hresolved hresRooted)
  · have hdir : (dir full).elems = root.elems ++ ns.map .name := by
      unfold dir
      rw [hfullElems]
      simp
    have hbase : base full = [.name n] := by
      unfold base
      rw [hfullElems]
      simp
    rw [hbase] at hleaf ⊢
    rw [hdir] at hgone hbelow
    -- the walk stopped at the root or below, so what is missing are names
    obtain ⟨between, hbetween⟩ := hbelow hfullRooted.symm (prefix_append _ _)
    rw [← hbetween, append_assoc] at hgone
    obtain ⟨between', ms, -, -, hms⟩ :=
      map_eq_append_iff.mp (append_cancel_left hgone).symm
    rw [← hms] at hmkdirs
    exact contained_below hresClean hresSolid hresRooted hresElems hmkdirs hleaf

end

def linkedEntries : List (Path × Node Text) :=
  [(parsePath "/", .dir), (parsePath "/etc", .dir), (parsePath "/srv", .dir),
   (parsePath "/srv/data", .dir), (parsePath "/srv/data/sub", .dir),
   (parsePath "/root", .link (parsePath "/srv/data")),
   (parsePath "/srv/data/in", .link (parsePath "sub")),
   (parsePath "/srv/data/out", .link (parsePath "../../etc"))]

def linkedPlaces : List (List Text × Node Text) :=
  linkedEntries.map (fun e => (place [] e.1.elems, e.2))

def linkedTree : Tree where
  node p := linkedPlaces.lookup p
  cwd := place [] (parsePath "/srv").elems
  root_dir := by decide +kernel
  parent_dir := by
    intro p n h
    have hall : ∀ e ∈ linkedPlaces, e.1 ≠ [] → linkedPlaces.lookup e.1.dropLast = some .dir := by
      decide +kernel
    obtain ⟨found, hfound⟩ := Option.isSome_iff_exists.mp h
    obtain ⟨before, after, hsplit, -⟩ := List.lookup_eq_some_iff.mp hfound
    have hparent := hall (p ++ [n], found) (by rw [hsplit]; simp) (by simp)
    rwa [List.dropLast_concat] at hparent
  cwd_dir := by decide +kernel

theorem linkedTree_resolves :
    resolveRootedPath linkedTree "/root" "in/new/a.txt" true =
      ((resolveRootedPath linkedTree "/root" "in/new/a.txt" true).1,
        .ok (parsePath "/srv/data/sub/new/a.txt")) := by
  have hpath : (resolveRootedPath linkedTree "/root" "in/new/a.txt" true).2 =
      .ok (parsePath "/srv/data/sub/new/a.txt") := by decide +kernel
  rw [← hpath]

/-- Two links are followed and a directory is made on the way to a new file. -/
theorem linkedTree_contained :
    (∃ root, ResolvesTo linkedTree (parsePath "/root") root) ∧
      ∀ root, ResolvesTo linkedTree (parsePath "/root") root →
        Contained linkedTree (resolveRootedPath linkedTree "/root" "in/new/a.txt" true).1 root
          (parsePath "/srv/data/sub/new/a.txt") :=
  resolveRootedPath_contained linkedTree_resolves

end Goobers.PathUtil
