import Goobers.Lib.Walk

/-!
# Landing a workspace delta

A delta arrives as a tip commit, and the receiving ref may have moved since it was cut.
`reconcile` asks git how the two lie in the commit graph and says whether the ref is
moved to the tip, kept, or the delta refused. Git itself is modelled by what its
commands are documented to answer.

The ref is moved over commits it alone carries in one case only: the tip is taken for a
rebase of it. The count that decides this leaves merge commits out, so a merge on the
ref may go although nothing of the tip stands for it.
-/

namespace Goobers.WorkspaceDelta

open Lib

/-! ## The repository -/

/-- The commands `reconcile` runs. -/
inductive Command where
  | isAncestor (ancestor descendant : String)
  | revParse (rev : String)
  | revList (left right : String)
  deriving DecidableEq, Repr

/-- A repository, as far as these commands look at it. -/
structure Repository (Change : Type) where
  commits : List String
  parents : String → List String
  /-- The change a commit introduces, as its patch id tells it. -/
  change : String → Change
  /-- The commit a ref name stands for. -/
  refs : String → Option String
  /-- The command fails for reasons of its own. -/
  fails : Command → Bool

variable {repo : Repository Change}

variable {Change : Type}

namespace Repository

/-- A revision is the name of a commit or of a ref. -/
def resolve (repo : Repository Change) (rev : String) : Option String :=
  if rev ∈ repo.commits then some rev else repo.refs rev

/-- The commits of a revision: the one it stands for and all that come before it. -/
def history (repo : Repository Change) (rev : String) : List String :=
  match repo.resolve rev with
  | none => []
  | some sha => walk repo.commits repo.parents (fun _ => false) [] [sha]

def Parent (repo : Repository Change) (a b : String) : Prop :=
  a ∈ repo.commits ∧ b ∈ repo.parents a

/-- The commit `x` is reachable from the revision. -/
def Reaches (repo : Repository Change) (rev x : String) : Prop :=
  ∃ sha, repo.resolve rev = some sha ∧ Relation.ReflTransGen repo.Parent sha x

def isMerge (repo : Repository Change) (x : String) : Bool := 1 < (repo.parents x).length

theorem mem_history_iff {rev x : String} : x ∈ repo.history rev ↔ repo.Reaches rev x := by
  have hleaves : Leaves repo.commits repo.parents (fun _ => false) = repo.Parent := by
    funext a b
    simp [Leaves, Parent]
  unfold history Reaches
  cases repo.resolve rev with
  | none => simp
  | some sha => simp [mem_walk_iff, hleaves]

instance (repo : Repository Change) (rev x : String) : Decidable (repo.Reaches rev x) :=
  decidable_of_iff _ mem_history_iff

theorem Reaches.trans {rev a b : String} (h : repo.Reaches rev a)
    (hab : Relation.ReflTransGen repo.Parent a b) : repo.Reaches rev b := by
  obtain ⟨sha, hsha, hpath⟩ := h
  exact ⟨sha, hsha, hpath.trans hab⟩

end Repository

/-! ## What git answers -/

inductive GitError where
  | failed (command : Command)
  /-- A revision names no commit: exit status 128. -/
  | badRevision (rev : String)
  deriving DecidableEq, Repr

/-- `git merge-base --is-ancestor`: a commit counts as its own ancestor. -/
def isAncestor (repo : Repository Change) (ancestor descendant : String) :
    Except GitError Bool :=
  if repo.fails (.isAncestor ancestor descendant) then
    .error (.failed (.isAncestor ancestor descendant))
  else
    match repo.resolve ancestor, repo.resolve descendant with
    | none, _ => .error (.badRevision ancestor)
    | some _, none => .error (.badRevision descendant)
    | some sha, some _ => .ok ((repo.history descendant).contains sha)

/-- `git rev-parse --verify rev^{commit}` succeeds. -/
def verifies (repo : Repository Change) (rev : String) : Bool :=
  !repo.fails (.revParse rev) && (repo.resolve rev).isSome

section
variable [DecidableEq Change]

/--
What `git rev-list --no-merges --cherry-pick --right-only left...right` lists: the
commits of the right side alone, without merges, and without those that introduce the
same change as a commit of the left side alone. Only commits that are no merges have a
patch id to be compared by.
-/
def rightOnly (repo : Repository Change) (left right : String) : List String :=
  (repo.history right).filter (fun x =>
    !(repo.history left).contains x && !repo.isMerge x &&
      !(repo.history left).any (fun y =>
        !(repo.history right).contains y && !repo.isMerge y && repo.change y = repo.change x))

def rightOnlyCount (repo : Repository Change) (left right : String) : Except GitError Nat :=
  if repo.fails (.revList left right) then .error (.failed (.revList left right))
  else
    match repo.resolve left, repo.resolve right with
    | none, _ => .error (.badRevision left)
    | some _, none => .error (.badRevision right)
    | some _, some _ => .ok (rightOnly repo left right).length

/-- The tip is a rebase of the ref: the count of what only the ref has is zero. -/
def rebaseOf (repo : Repository Change) (current tip : String) : Except GitError Bool :=
  (rightOnlyCount repo tip current).map (fun count => count = 0)

end

/-! ## Reconciling -/

inductive Outcome where
  | create
  | fastForward
  | keep
  | baseDrift
  | rebase
  deriving DecidableEq, Repr

inductive ReconcileError where
  /-- An ancestry question could not be answered. -/
  | ancestry (digest ancestor descendant : String) (e : GitError)
  | rebaseCheck (digest current tip : String) (e : GitError)
  /-- Ref and delta each carry commits the other lacks. -/
  | diverged (digest current tip : String)
  deriving DecidableEq, Repr

/-- An ancestry question, with its error named after the delta. -/
def askAncestor (repo : Repository Change) (digest ancestor descendant : String) :
    Except ReconcileError Bool :=
  (isAncestor repo ancestor descendant).mapError (.ancestry digest ancestor descendant)

/-- The ref is nothing more than an advanced base. A base that does not resolve says no. -/
def isBaseDrift (repo : Repository Change) (digest current baseRef : String) :
    Except ReconcileError Bool :=
  if baseRef ≠ "" ∧ verifies repo baseRef then askAncestor repo digest current baseRef
  else .ok false

/-- `Reconcile`: the ref stands at `current`, or does not exist where that is empty. -/
def reconcile [DecidableEq Change] (repo : Repository Change)
    (digest current tip baseRef : String) : Except ReconcileError Outcome :=
  if current = "" then .ok .create
  else
    match askAncestor repo digest current tip with
    | .error e => .error e
    | .ok true => .ok .fastForward
    | .ok false =>
      match askAncestor repo digest tip current with
      | .error e => .error e
      | .ok true => .ok .keep
      | .ok false =>
        match isBaseDrift repo digest current baseRef with
        | .error e => .error e
        | .ok true => .ok .baseDrift
        | .ok false =>
          match rebaseOf repo current tip with
          | .error e => .error (.rebaseCheck digest current tip e)
          | .ok true => .ok .rebase
          | .ok false => .error (.diverged digest current tip)

/-- Where `ApplyBundle` leaves the ref. -/
def Outcome.landed (current tip : String) : Outcome → String
  | .create | .fastForward | .baseDrift | .rebase => tip
  | .keep => current

/-! ## What the answers say -/

theorem isAncestor_eq_true {a d : String} (h : isAncestor repo a d = .ok true) {x : String}
    (hx : repo.Reaches a x) : repo.Reaches d x := by
  unfold isAncestor at h
  split at h
  · cases h
  · obtain ⟨sha, hsha, hpath⟩ := hx
    rw [hsha] at h
    cases hd : repo.resolve d with
    | none => rw [hd] at h; cases h
    | some sha' =>
      rw [hd] at h
      have hmem : sha ∈ repo.history d := by simpa using Except.ok.inj h
      exact (Repository.mem_history_iff.mp hmem).trans hpath

theorem askAncestor_eq_ok_iff {digest a d : String} {b : Bool} :
    askAncestor repo digest a d = .ok b ↔ isAncestor repo a d = .ok b := by
  unfold askAncestor
  cases isAncestor repo a d <;> simp [Except.mapError]

theorem isBaseDrift_eq_true {digest current baseRef : String}
    (h : isBaseDrift repo digest current baseRef = .ok true) {x : String}
    (hx : repo.Reaches current x) : repo.Reaches baseRef x := by
  unfold isBaseDrift at h
  split at h
  · exact isAncestor_eq_true (askAncestor_eq_ok_iff.mp h) hx
  · cases h

section
variable [DecidableEq Change] {repo : Repository Change} {digest current tip baseRef : String}

theorem covered_of_rebaseOf (h : rebaseOf repo current tip = .ok true) {x : String}
    (hx : repo.Reaches current x) (hnew : ¬ repo.Reaches tip x) (hmerge : repo.isMerge x = false) :
    ∃ y, repo.Reaches tip y ∧ repo.change y = repo.change x := by
  have hnone : rightOnly repo tip current = [] := by
    unfold rebaseOf rightOnlyCount at h
    split at h
    · cases h
    · split at h
      · cases h
      · cases h
      · simpa [Except.map] using h
  unfold rightOnly at hnone
  rw [List.filter_eq_nil_iff] at hnone
  have hcopy := hnone x (Repository.mem_history_iff.mpr hx)
  simp only [Bool.and_eq_true, Bool.not_eq_true', List.contains_eq_mem, decide_eq_false_iff_not,
    Repository.mem_history_iff, hnew, not_false_eq_true, hmerge, true_and, Bool.not_eq_false,
    List.any_eq_true, decide_eq_true_eq] at hcopy
  obtain ⟨y, hy, -, hchange⟩ := hcopy
  exact ⟨y, hy, hchange⟩

/-- No arm before it decides, and nothing is counted that only the ref has. -/
structure TakenForRebase (repo : Repository Change) (digest current tip baseRef : String) :
    Prop where
  present : current ≠ ""
  notForward : isAncestor repo current tip = .ok false
  notBehind : isAncestor repo tip current = .ok false
  notDrift : isBaseDrift repo digest current baseRef = .ok false
  rebased : rebaseOf repo current tip = .ok true

/-- **Everything `reconcile` can say** about a ref that exists, and when. -/
theorem reconcile_cases {o : Outcome} (h : reconcile repo digest current tip baseRef = .ok o)
    (hcurrent : current ≠ "") :
    (o = .fastForward ∧ isAncestor repo current tip = .ok true) ∨
      (o = .keep ∧ isAncestor repo tip current = .ok true) ∨
      (o = .baseDrift ∧ isBaseDrift repo digest current baseRef = .ok true) ∨
      (o = .rebase ∧ TakenForRebase repo digest current tip baseRef) := by
  -- the branches of the source, in its order
  unfold reconcile at h
  rw [if_neg hcurrent] at h
  split at h
  · cases h
  · rename_i hforward
    cases h
    exact .inl ⟨rfl, askAncestor_eq_ok_iff.mp hforward⟩
  rename_i hforward
  split at h
  · cases h
  · rename_i hbehind
    cases h
    exact .inr (.inl ⟨rfl, askAncestor_eq_ok_iff.mp hbehind⟩)
  rename_i hbehind
  split at h
  · cases h
  · rename_i hdrift
    cases h
    exact .inr (.inr (.inl ⟨rfl, hdrift⟩))
  rename_i hdrift
  split at h
  · cases h
  · rename_i hrebase
    cases h
    exact .inr (.inr (.inr ⟨rfl, hcurrent, askAncestor_eq_ok_iff.mp hforward,
      askAncestor_eq_ok_iff.mp hbehind, hdrift, hrebase⟩))
  · cases h

theorem reconcile_of_takenForRebase (h : TakenForRebase repo digest current tip baseRef) :
    reconcile repo digest current tip baseRef = .ok .rebase := by
  unfold reconcile
  rw [if_neg h.present, askAncestor_eq_ok_iff.mpr h.notForward]
  rw [askAncestor_eq_ok_iff.mpr h.notBehind]
  rw [h.notDrift]
  rw [h.rebased]

/-! ## No work is discarded -/

/--
The commit `x` is not lost when the ref stands at `landed`: it is reachable from there or
from the base, or a commit there introduces the same change.
-/
def Kept (repo : Repository Change) (landed baseRef x : String) : Prop :=
  repo.Reaches landed x ∨ repo.Reaches baseRef x ∨
    ∃ y, repo.Reaches landed y ∧ repo.change y = repo.change x

instance (repo : Repository Change) (landed baseRef x : String) :
    Decidable (Kept repo landed baseRef x) :=
  decidable_of_iff
    (repo.Reaches landed x ∨ repo.Reaches baseRef x ∨
      ∃ y ∈ repo.history landed, repo.change y = repo.change x)
    (by simp only [Kept, Repository.mem_history_iff])

def DiscardsNothing (repo : Repository Change) (current tip baseRef : String) (o : Outcome) :
    Prop :=
  current ≠ "" →
    (∀ x, repo.Reaches current x → Kept repo (o.landed current tip) baseRef x) ∧
      (o = .keep → ∀ y, repo.Reaches tip y → repo.Reaches current y)

/--
**Landing a delta discards nothing exactly when no merge is taken along with a rebase**:
where the tip is taken for a rebase of the ref, every merge commit of the ref has to be
kept by the tip or the base in some form, and nothing in `reconcile` looks after that.
-/
theorem reconcile_discards_nothing_iff (repo : Repository Change)
    (digest current tip baseRef : String) :
    (∀ o, reconcile repo digest current tip baseRef = .ok o →
        DiscardsNothing repo current tip baseRef o) ↔
      (TakenForRebase repo digest current tip baseRef →
        ∀ m, repo.Reaches current m → repo.isMerge m = true → Kept repo tip baseRef m) := by
  constructor
  · intro hall hrebase m hm _
    exact (hall .rebase (reconcile_of_takenForRebase hrebase) hrebase.present).1 m hm
  · intro hmerges o ho hcurrent
    rcases reconcile_cases ho hcurrent with ⟨rfl, hforward⟩ | ⟨rfl, hbehind⟩ | ⟨rfl, hdrift⟩ |
      ⟨rfl, hrebase⟩
    · exact ⟨fun x hx => .inl (isAncestor_eq_true hforward hx), fun h => by cases h⟩
    · exact ⟨fun x hx => .inl hx, fun _ y hy => isAncestor_eq_true hbehind hy⟩
    · exact ⟨fun x hx => .inr (.inl (isBaseDrift_eq_true hdrift hx)), fun h => by cases h⟩
    · refine ⟨fun x hx => ?_, fun h => by cases h⟩
      cases hm : repo.isMerge x with
      | true => exact hmerges hrebase x hx hm
      | false =>
        by_cases htip : repo.Reaches tip x
        · exact .inl htip
        · exact .inr (.inr (covered_of_rebaseOf hrebase.rebased hx htip hm))

end

/--
A branch with one commit of its own, `work`, merged with the base in `merged`. The delta's
tip is `work` rebased onto the base. The merge resolved a conflict, which is a change of
its own.
-/
def mergedBranch : Repository String where
  commits := ["root", "base", "work", "merged", "rebased"]
  parents sha :=
    if sha = "base" ∨ sha = "work" then ["root"]
    else if sha = "merged" then ["work", "base"]
    else if sha = "rebased" then ["base"]
    else []
  change sha :=
    if sha = "work" ∨ sha = "rebased" then "feature"
    else if sha = "merged" then "resolution"
    else sha
  refs ref := if ref = "refs/heads/main" then some "base" else none
  fails _ := false

/-- The merge is discarded with its resolution. -/
theorem mergedBranch_loses_merge :
    reconcile mergedBranch "sha256:d" "merged" "rebased" "refs/heads/main" = .ok .rebase ∧
      mergedBranch.Reaches "merged" "merged" ∧
      ¬ Kept mergedBranch "rebased" "refs/heads/main" "merged" := by
  decide +kernel

end Goobers.WorkspaceDelta
