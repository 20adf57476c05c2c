import Mathlib.Data.List.Nodup
import Goobers.Migration.TextFormat

/-!
# A migration can be undone

Whatever cuts `WriteWithBackup` and `Rollback` short, and however often they are tried
again, the disk stays `Consistent`: each file of the list has its bytes from before or
from after the change, and unless all of them have those from before, the backup is on
the disk in full. This is what `Rollback` needs in order to bring the disk back.

The backup only reads back if the JSON text of it has the strings that were saved, so
this is about paths and contents that are UTF-8.
-/

namespace Goobers.Migration

open Lib Lib.Utf8 List Attempt Ensures
open Lib.Attempt (settle throwIf observe wrap each)

variable {d : Disk} {c : FileChange} {I P : Disk → Prop}

/-! ## What calls do -/

def Call.reads : Call → Bool
  | .lstat _ | .stat _ | .readFile _ | .openBackup => true
  | _ => false

theorem perform_reads {c : Call} (hc : c.reads = true) : (perform d c).2 = d := by
  cases c with
  | lstat | stat | readFile | openBackup => rfl
  | _ => exact absurd hc (by simp [Call.reads])

theorem Effect.cases {t : Disk} {c : Call} {r : Except Failure (Answer c)} (h : Effect d c r t) :
    (r = (perform d c).1 ∧ t = (perform d c).2) ∨
      ∃ data part, c = .writeBackup data ∧ part <+: data ∧ t = { d with backup := some part } ∧
        ∀ a, r ≠ .ok a := by
  cases h with
  | whole => exact .inl ⟨rfl, rfl⟩
  | torn hpart => exact .inr ⟨_, _, rfl, hpart, rfl, nofun⟩

section
variable {I P : Disk → Prop}

theorem ensures_perform {c : Call} (hw : ∀ data, c ≠ .writeBackup data) {Q : Answer c → Disk → Prop}
    (hI : ∀ d, P d → I d)
    (h : ∀ d, P d → I (perform d c).2 ∧ ∀ a, (perform d c).1 = .ok a → Q a (perform d c).2) :
    Ensures Effect I P (ask c) Q := by
  refine Ensures.ask hI (fun d r t hd he => ?_)
  rcases he.cases with ⟨rfl, rfl⟩ | ⟨data, part, hc, -, -, -⟩
  · exact h d hd
  · exact absurd hc (hw data)

theorem ensures_read {c : Call} (hc : c.reads = true) (hI : ∀ d, P d → I d) :
    Ensures Effect I P (ask c) (fun a d => P d ∧ (perform d c).1 = .ok a) := by
  refine ensures_perform (fun data h => ?_) hI (fun d hd => ?_)
  · rw [h] at hc
    exact absurd hc (by simp [Call.reads])
  · rw [perform_reads hc]
    exact ⟨hI d hd, fun a ha => ⟨hd, ha⟩⟩

end

/-! ## Paths -/

/-- Where a file of the configuration is. -/
def place (relative : Bytes) : List Bytes := ascii "config" :: relative.splitOn slash

theorem place_injective {a b : Bytes} (h : place a = place b) : a = b := by
  have hjoin : [slash].intercalate (a.splitOn slash) = [slash].intercalate (b.splitOn slash) :=
    congrArg _ (cons.inj h).2
  rwa [intercalate_splitOn, intercalate_splitOn] at hjoin

theorem found_eq_ok {α : Type} {o : Option α} {a : α} : found o = .ok a ↔ o = some a := by
  cases o with
  | none => simp [found]
  | some b => simp [found]

/-- The components below a path are there, and none is a link. -/
def Walkable (d : Disk) : List Bytes → List Bytes → Prop
  | _, [] => True
  | path, component :: rest =>
    (∃ n, d.node (path ++ [component]) = some n ∧ n.kind ≠ .symlink) ∧
      Walkable d (path ++ [component]) rest

/-- The path passes the check. -/
structure Checked (d : Disk) (relative : Bytes) : Prop where
  safeText : unsafeText relative = false
  yaml : ¬ (ext relative ≠ ascii ".yaml" ∧ ext relative ≠ ascii ".yml")
  walkable : Walkable d [] (place relative)
  regular : ∃ n, d.node (place relative) = some n ∧ n.kind = .file

section
variable {I P : Disk → Prop} (hI : ∀ d, P d → I d)
include hI

theorem ensures_walkComponents (path cs : List Bytes) :
    Ensures Effect I P (walkComponents path cs)
      (fun p d => P d ∧ p = path ++ cs ∧ Walkable d path cs) := by
  induction cs generalizing path P with
  | nil => exact pure hI (fun d hd => ⟨hd, (append_nil path).symm, trivial⟩)
  | cons component cs ih =>
    refine (ensures_read rfl hI).bind (fun info => ?_)
    refine (throwIf (fun d hd => hI d hd.1)).bind (fun _ => ?_)
    refine (ih (fun d hd => hI d hd.1.1) (path ++ [component])).post (fun p d h => ?_)
    obtain ⟨⟨⟨hd, hinfo⟩, hlink⟩, hp, hwalk⟩ := h
    refine ⟨hd, ?_, ⟨info, found_eq_ok.mp hinfo, hlink⟩, hwalk⟩
    rw [hp, append_assoc, singleton_append]

theorem ensures_checkedWorkflowPath (relative : Bytes) :
    Ensures Effect I P (checkedWorkflowPath relative)
      (fun p d => P d ∧ p = place relative ∧ Checked d relative) := by
  refine (throwIf hI).bind (fun _ => ?_)
  refine (throwIf (fun d hd => hI d hd.1)).bind (fun _ => ?_)
  refine (ensures_walkComponents (fun d hd => hI d hd.1.1) _ _).bind (fun path => ?_)
  refine (ensures_read rfl (fun d hd => hI d hd.1.1.1)).bind (fun info => ?_)
  refine (throwIf (fun d hd => hI d hd.1.1.1.1)).bind (fun _ => ?_)
  refine pure (fun d hd => hI d hd.1.1.1.1.1) (fun d hd => ?_)
  obtain ⟨⟨⟨⟨⟨hd, hsafe⟩, hyaml⟩, rfl, hwalk⟩, hinfo⟩, hfile⟩ := hd
  refine ⟨hd, rfl, ?_⟩
  exact ⟨by simpa using hsafe, hyaml, hwalk, info, found_eq_ok.mp hinfo, not_not.mp hfile⟩

end

theorem exec_walkComponents {path cs : List Bytes} (h : Walkable d path cs) :
    (walkComponents path cs).exec perform d = (.ok (path ++ cs), d) := by
  induction cs generalizing path with
  | nil => rw [append_nil]; rfl
  | cons component cs ih =>
    obtain ⟨⟨n, hn, hlink⟩, hrest⟩ := h
    have hask : (ask (.lstat (path ++ [component]))).exec perform d = (.ok n, d) :=
      Prod.ext (found_eq_ok.mpr hn) rfl
    refine (exec_bind_ok hask).trans ?_
    refine (exec_bind_ok (exec_throwIf hlink d)).trans ?_
    rw [ih hrest, append_assoc, singleton_append]

theorem Checked.exec {relative : Bytes} (h : Checked d relative) :
    (checkedWorkflowPath relative).exec perform d = (.ok (place relative), d) := by
  obtain ⟨hsafe, hyaml, hwalk, n, hn, hfile⟩ := h
  have hask : (ask (.stat (place relative))).exec perform d = (.ok n, d) :=
    Prod.ext (found_eq_ok.mpr hn) rfl
  refine (exec_bind_ok (exec_throwIf (by simp [hsafe]) d)).trans ?_
  refine (exec_bind_ok (exec_throwIf hyaml d)).trans ?_
  refine (exec_bind_ok (exec_walkComponents hwalk)).trans ?_
  refine (exec_bind_ok hask).trans ?_
  exact exec_bind_ok (exec_throwIf (not_not.mpr hfile) d)

/-- A write of a file does not change what is a file and what is not. -/
def SameKinds (d d' : Disk) : Prop :=
  ∀ p, (d'.node p).map Node.kind = (d.node p).map Node.kind

theorem SameKinds.found_kind {d' : Disk} (h : SameKinds d d') {p : List Bytes} {n : Node}
    (hn : d.node p = some n) : ∃ n', d'.node p = some n' ∧ n'.kind = n.kind := by
  have hp := h p
  rw [hn, Option.map_some, Option.map_eq_some_iff] at hp
  exact hp

theorem Walkable.sameKinds {d' : Disk} (hkinds : SameKinds d d') {path cs : List Bytes}
    (h : Walkable d path cs) : Walkable d' path cs := by
  induction cs generalizing path with
  | nil => trivial
  | cons component cs ih =>
    obtain ⟨⟨n, hn, hlink⟩, hrest⟩ := h
    obtain ⟨n', hn', hkind⟩ := hkinds.found_kind hn
    exact ⟨⟨n', hn', hkind ▸ hlink⟩, ih hrest⟩

theorem Checked.sameKinds {d' : Disk} (hkinds : SameKinds d d') {relative : Bytes}
    (h : Checked d relative) : Checked d' relative := by
  obtain ⟨hsafe, hyaml, hwalk, n, hn, hfile⟩ := h
  obtain ⟨n', hn', hkind⟩ := hkinds.found_kind hn
  exact ⟨hsafe, hyaml, hwalk.sameKinds hkinds, n', hn', hkind.trans hfile⟩

/-! ## The invariant -/

def Disk.modeAt (d : Disk) (p : List Bytes) : Nat := ((d.node p).map Node.mode).getD 0

/-- What a file of the configuration holds. -/
def Disk.content (d : Disk) (relative : Bytes) : Option Bytes :=
  (d.node (place relative)).bind Node.content?

section
variable (fmt : Format)

def entry (d : Disk) (c : FileChange) : BackupFile where
  path := c.path
  before := c.before
  beforeSHA256 := fmt.digest c.before
  afterSHA256 := fmt.digest c.after
  mode := perm (d.modeAt (place c.path))

def saved (d : Disk) (changes : List FileChange) : Bytes :=
  fmt.marshal { version := 1, files := changes.map (entry fmt d) }

/-- `WriteWithBackup` gets as far as the backup. -/
structure Starts (d : Disk) (changes : List FileChange) : Prop where
  fresh : d.backup = none
  some : changes ≠ []
  bound : changes.length ≤ maxBackupFiles
  previewed : (preflight fmt [] changes).exec perform d = (.ok (changes.map (entry fmt d)), d)
  size : (saved fmt d changes).length ≤ maxBackupBytes

/-- What the preview has seen of the files. -/
structure Previewed (d : Disk) (changes : List FileChange) : Prop where
  checked : ∀ c ∈ changes, Checked d c.path
  holds : ∀ c ∈ changes, d.node (place c.path) = some (.file c.before (d.modeAt (place c.path)))
  distinct : (changes.map FileChange.path).Nodup

/-- The texts survive JSON, and the modes have nothing but permissions. -/
structure Plain (d : Disk) (changes : List FileChange) : Prop where
  path : ∀ c ∈ changes, validString c.path = true
  before : ∀ c ∈ changes, validString c.before = true
  mode : ∀ c ∈ changes, d.modeAt (place c.path) < 0o1000

theorem Plain.mode_entry {changes : List FileChange} (h : Plain d changes) (hc : c ∈ changes) :
    (entry fmt d c).mode = d.modeAt (place c.path) :=
  Nat.mod_eq_of_lt (h.mode c hc)

theorem found_bind_content {o : Option Node} {x : Bytes}
    (h : found (o.bind Node.content?) = .ok x) : ∃ mode, o = some (.file x mode) := by
  rw [found_eq_ok, Option.bind_eq_some_iff] at h
  obtain ⟨n, rfl, hx⟩ := h
  cases n with
  | dir | symlink => exact absurd hx nofun
  | file content mode =>
    cases hx
    exact ⟨mode, rfl⟩

theorem Previewed.cons {cs : List FileChange} {mode : Nat} (hc : Checked d c.path)
    (hnode : d.node (place c.path) = some (.file c.before mode))
    (hnew : ∀ c' ∈ cs, c'.path ≠ c.path) (hcs : Previewed d cs) : Previewed d (c :: cs) where
  checked := by
    intro c' hc'
    rcases mem_cons.mp hc' with rfl | hc'
    · exact hc
    · exact hcs.checked c' hc'
  holds := by
    intro c' hc'
    rcases mem_cons.mp hc' with rfl | hc'
    · have hmode : d.modeAt (place c'.path) = mode := by
        unfold Disk.modeAt
        rw [hnode]
        rfl
      rw [hmode, hnode]
    · exact hcs.holds c' hc'
  distinct := by
    rw [map_cons, nodup_cons]
    refine ⟨fun hmem => ?_, hcs.distinct⟩
    obtain ⟨c', hc', hpath⟩ := mem_map.mp hmem
    exact hnew c' hc' hpath

theorem ensures_preflight (hI : ∀ d, P d → I d) (seen : List Bytes) (cs : List FileChange) :
    Ensures Effect I P (preflight fmt seen cs) (fun files d =>
      P d ∧ files = cs.map (entry fmt d) ∧ Previewed d cs ∧ ∀ c ∈ cs, c.path ∉ seen) := by
  induction cs generalizing seen P with
  | nil =>
    exact pure hI (fun d hd => ⟨hd, rfl, ⟨nofun, nofun, nodup_nil⟩, nofun⟩)
  | cons c cs ih =>
    refine (throwIf hI).bind (fun _ => ?_)
    refine (ensures_checkedWorkflowPath (fun d hd => hI d hd.1) c.path).bind (fun path => ?_)
    refine (ensures_read rfl (fun d hd => hI d hd.1.1)).bind (fun current => ?_)
    refine (throwIf (fun d hd => hI d hd.1.1.1)).bind (fun _ => ?_)
    refine (ensures_read rfl (fun d hd => hI d hd.1.1.1.1)).bind (fun info => ?_)
    refine (ih (fun d hd => hI d hd.1.1.1.1.1) (c.path :: seen)).bind (fun files => ?_)
    refine pure (fun d hd => hI d hd.1.1.1.1.1.1) (fun d h => ?_)
    obtain ⟨⟨⟨⟨⟨⟨hd, hseen⟩, rfl, hchecked⟩, hread⟩, hsame⟩, hinfo⟩, rfl, hcs, hnew⟩ := h
    obtain ⟨mode, hnode⟩ := found_bind_content hread
    rw [not_not.mp hsame] at hnode
    have hmode : info.mode = d.modeAt (place c.path) := by
      unfold Disk.modeAt
      rw [found_eq_ok.mp hinfo]
      rfl
    refine ⟨hd, by rw [hmode]; rfl, hcs.cons hchecked hnode fun c' hc' heq => ?_, ?_⟩
    · exact hnew c' hc' (heq ▸ mem_cons_self)
    · intro c' hc'
      rcases mem_cons.mp hc' with rfl | hc'
      · exact hseen
      · exact fun hmem => hnew c' hc' (mem_cons_of_mem _ hmem)

theorem Starts.previewed' {changes : List FileChange} (h : Starts fmt d changes) :
    Previewed d changes :=
  ((ensures_preflight fmt (I := fun _ => True) (P := (· = d)) (fun _ _ => trivial) [] changes).exec
    (fun _ c => .whole c) rfl h.previewed).2.2.1

/-! ## Every cut leaves a consistent disk -/

/--
The disk on the way of a migration of `changes` that began on `d₀`, or of its undoing.
-/
structure Consistent (d₀ : Disk) (changes : List FileChange) (d : Disk) : Prop where
  /-- no other file is touched -/
  others : ∀ p, (∀ c ∈ changes, p ≠ place c.path) → d.node p = d₀.node p
  /-- a file is on one side of its change, with its permissions -/
  sides : ∀ c ∈ changes, ∃ x, (x = c.before ∨ x = c.after) ∧
    d.node (place c.path) = some (.file x (d₀.modeAt (place c.path)))
  /-- the backup is there, or nothing has been done and at most a part of it is there -/
  backup : d.backup = some (saved fmt d₀ changes) ∨
    (d.node = d₀.node ∧ ∀ data, d.backup = some data → data <+: saved fmt d₀ changes)

abbrev Keeps {α : Type} (d₀ : Disk) (changes : List FileChange) (p : FileM α) : Prop :=
  Ensures Effect (Consistent fmt d₀ changes) (Consistent fmt d₀ changes) p
    (fun _ => Consistent fmt d₀ changes)

variable {fmt} {d₀ : Disk} {changes : List FileChange}

namespace Consistent

theorem initial (h : Starts fmt d₀ changes) : Consistent fmt d₀ changes d₀ where
  others _ _ := rfl
  sides c hc := ⟨c.before, .inl rfl, h.previewed'.holds c hc⟩
  backup := .inr ⟨rfl, fun data hdata => absurd hdata (by rw [h.fresh]; exact nofun)⟩

theorem congr {d' : Disk} (h : Consistent fmt d₀ changes d) (hnode : d'.node = d.node)
    (hbackup : d'.backup = d.backup) : Consistent fmt d₀ changes d' := by
  obtain ⟨hothers, hsides, hback⟩ := h
  constructor
  · rw [hnode]; exact hothers
  · rw [hnode]; exact hsides
  · rw [hnode, hbackup]; exact hback

theorem modeAt (h : Consistent fmt d₀ changes d) (hc : c ∈ changes) :
    d.modeAt (place c.path) = d₀.modeAt (place c.path) := by
  obtain ⟨x, -, hx⟩ := h.sides c hc
  rw [Disk.modeAt, hx]
  rfl

theorem entries (h : Consistent fmt d₀ changes d) :
    changes.map (entry fmt d) = changes.map (entry fmt d₀) := by
  refine map_congr_left (fun c hc => ?_)
  unfold entry
  rw [h.modeAt hc]

theorem replace (hpre : Previewed d₀ changes) (h : Consistent fmt d₀ changes d)
    (hback : d.backup = some (saved fmt d₀ changes)) (hc : c ∈ changes) {x : Bytes}
    (hx : x = c.before ∨ x = c.after) :
    Consistent fmt d₀ changes (d.replace (place c.path) x (d₀.modeAt (place c.path))) where
  others p hp := by
    rw [d.replace_other (hp c hc)]
    exact h.others p hp
  sides c' hc' := by
    by_cases hplace : place c'.path = place c.path
    · -- the paths of the list are distinct, so it is the same change
      have hsame : c' = c :=
        inj_on_of_nodup_map hpre.distinct hc' hc (place_injective hplace)
      subst hsame
      exact ⟨x, hx, d.replace_same _ _ _⟩
    · rw [d.replace_other hplace]
      exact h.sides c' hc'
  backup := .inl hback

theorem finished (h : Consistent fmt d₀ changes d)
    (hback : ∀ c ∈ changes, d.node (place c.path) = d₀.node (place c.path)) : d.node = d₀.node := by
  funext p
  by_cases hp : ∃ c ∈ changes, p = place c.path
  · obtain ⟨c, hc, rfl⟩ := hp
    exact hback c hc
  · exact h.others p (fun c hc heq => hp ⟨c, hc, heq⟩)

theorem untouched (hnode : d.node = d₀.node) (hpre : Previewed d₀ changes)
    (hback : ∀ data, d.backup = some data → data <+: saved fmt d₀ changes) :
    Consistent fmt d₀ changes d where
  others p _ := by rw [hnode]
  sides c hc := ⟨c.before, .inl rfl, by rw [hnode]; exact hpre.holds c hc⟩
  backup := .inr ⟨hnode, hback⟩

theorem sameKinds (hpre : Previewed d₀ changes) (h : Consistent fmt d₀ changes d) :
    SameKinds d₀ d := by
  intro p
  by_cases hp : ∃ c ∈ changes, p = place c.path
  · obtain ⟨c, hc, rfl⟩ := hp
    obtain ⟨x, -, hx⟩ := h.sides c hc
    rw [hx, hpre.holds c hc]
    rfl
  · rw [h.others p (fun c hc heq => hp ⟨c, hc, heq⟩)]

end Consistent

section
variable {α : Type} {P : Disk → Prop} {Q : α → Disk → Prop}

theorem ensures_withLock {body : FileM α} (h : Keeps fmt d₀ changes body) :
    Keeps fmt d₀ changes (withLock body) := by
  have hlock : ∀ c, c = .mkdirLock ∨ c = .removeLock → Keeps fmt d₀ changes (ask c) := by
    intro c hc
    have hkeep : ∀ d, Consistent fmt d₀ changes d → Consistent fmt d₀ changes (perform d c).2 := by
      intro d hd
      rcases hc with rfl | rfl
      · unfold perform
        split
        · exact hd
        · exact hd.congr rfl rfl
      · unfold perform
        split
        · exact hd.congr rfl rfl
        · exact hd
    refine ensures_perform ?_ (fun _ h => h) (fun d hd => ⟨hkeep d hd, fun _ _ => hkeep d hd⟩)
    rintro data rfl
    exact absurd hc (by simp)
  refine (hlock .mkdirLock (.inl rfl)).wrap.bind (fun _ => ?_)
  refine h.observe.bind (fun outcome => ?_)
  refine bind (Q := fun _ => Consistent fmt d₀ changes) ?_ (fun _ => ?_)
  · refine (hlock .removeLock (.inr rfl)).observe.weaken (fun d hd => hd.1) (fun _ d hd => hd.1)
  · exact (settle (fun _ h => h)).post (fun _ _ h => h.1)

end

theorem ensures_sync {c : Call} (hc : c = .syncBackup ∨ c = .closeBackup ∨ c = .syncDir)
    (hI : ∀ d, P d → I d) : Ensures Effect I P (ask c) (fun _ => P) := by
  refine ensures_perform ?_ hI (fun d hd => ?_)
  · rintro data rfl
    exact absurd hc (by simp)
  · rcases hc with rfl | rfl | rfl <;> exact ⟨hI d hd, fun _ _ => hd⟩

theorem ensures_syncs {c : Call} (hc : c = .syncBackup ∨ c = .closeBackup ∨ c = .syncDir)
    (hI : ∀ d, P d → I d) : Ensures Effect I P (observe (ask c)) (fun _ => P) :=
  ((ensures_sync (I := P) hc (fun _ h => h)).observe.cut hI).post (fun _ _ h => h.1)

section Runs
variable (hstarts : Starts fmt d₀ changes) (hplain : Plain d₀ changes)

def Backed (fmt : Format) (d₀ : Disk) (changes : List FileChange) (d : Disk) : Prop :=
  Consistent fmt d₀ changes d ∧ d.backup = some (saved fmt d₀ changes)

def Untouched (fmt : Format) (d₀ : Disk) (changes : List FileChange) (d : Disk) : Prop :=
  d.node = d₀.node ∧ ∀ data, d.backup = some data → data <+: saved fmt d₀ changes

include hstarts in
theorem Untouched.consistent (h : Untouched fmt d₀ changes d) : Consistent fmt d₀ changes d :=
  .untouched h.1 hstarts.previewed' h.2

include hstarts in
theorem ensures_createBackup :
    Ensures Effect (Consistent fmt d₀ changes) (Consistent fmt d₀ changes) (ask .createBackup)
      (fun _ => Untouched fmt d₀ changes) := by
  refine ensures_perform (by simp) (fun _ h => h) (fun d hd => ?_)
  unfold perform
  dsimp only
  split_ifs with hnone
  · exact ⟨hd, nofun⟩
  have hfresh : d.backup = none := by simpa using hnone
  have hnode : d.node = d₀.node := by
    rcases hd.backup with hback | ⟨hnode, -⟩
    · rw [hfresh] at hback
      exact absurd hback nofun
    · exact hnode
  have hnew : Untouched fmt d₀ changes { d with backup := some [] } := by
    refine ⟨hnode, fun data hdata => ?_⟩
    cases hdata
    exact nil_prefix
  exact ⟨hnew.consistent hstarts, fun _ _ => hnew⟩

theorem ensures_writeBackup :
    Ensures Effect (Untouched fmt d₀ changes) (Untouched fmt d₀ changes)
      (ask (.writeBackup (saved fmt d₀ changes)))
      (fun _ d => Untouched fmt d₀ changes d ∧ d.backup = some (saved fmt d₀ changes)) := by
  have hpart : ∀ (d : Disk) part, Untouched fmt d₀ changes d → part <+: saved fmt d₀ changes →
      Untouched fmt d₀ changes { d with backup := some part } := by
    intro d part hd hpart
    refine ⟨hd.1, fun data hdata => ?_⟩
    cases hdata
    exact hpart
  refine Ensures.ask (fun _ h => h) (fun d r t hd he => ?_)
  rcases he.cases with ⟨rfl, rfl⟩ | ⟨data, part, hdata, htorn, rfl, hno⟩
  · have hfull := hpart d _ hd (prefix_refl _)
    exact ⟨hfull, fun _ _ => ⟨hfull, rfl⟩⟩
  · cases hdata
    exact ⟨hpart d part hd htorn, fun a ha => absurd ha (hno a)⟩

theorem ensures_removeBackup_untouched :
    Ensures Effect (Untouched fmt d₀ changes) (Untouched fmt d₀ changes) (ask .removeBackup)
      (fun _ => Untouched fmt d₀ changes) := by
  have hkeep : ∀ d, Untouched fmt d₀ changes d →
      Untouched fmt d₀ changes (perform d .removeBackup).2 := by
    intro d hd
    unfold perform
    dsimp only
    split
    · exact ⟨hd.1, nofun⟩
    · exact hd
  exact ensures_perform (by simp) (fun _ h => h) (fun d hd => ⟨hkeep d hd, fun _ _ => hkeep d hd⟩)

include hstarts in
/-- No file is touched until the backup is on the disk. -/
theorem ensures_saveBackup :
    Ensures Effect (Consistent fmt d₀ changes) (Consistent fmt d₀ changes)
      (saveBackup (saved fmt d₀ changes)) (fun _ => Backed fmt d₀ changes) := by
  refine (ensures_createBackup hstarts).wrap.bind (fun _ => ?_)
  refine cut (I := Untouched fmt d₀ changes) ?_ (fun d hd => hd.consistent hstarts)
  refine ensures_writeBackup.observe.bind (fun written => ?_)
  refine (ensures_syncs (.inl rfl) (fun d hd => hd.1)).bind (fun synced => ?_)
  refine (ensures_syncs (.inr (.inl rfl)) (fun d hd => hd.1)).bind (fun closed => ?_)
  split_ifs with hall
  · have hwritten : written = .ok () := by
      cases written with
      | error e => exact absurd hall (by simp [Except.toBool])
      | ok a => rfl
    refine (ensures_sync (.inr (.inr rfl)) (fun d hd => hd.1)).wrap.post (fun _ d hd => ?_)
    exact ⟨hd.1.consistent hstarts, (hd.2 () hwritten).2⟩
  · refine (ensures_removeBackup_untouched.observe.weaken (fun d hd => hd.1)
      (fun _ d hd => hd.1)).bind (Q := fun _ => Untouched fmt d₀ changes) (fun _ => ?_)
    exact throw (fun _ h => h)

theorem ensures_writeSource (hpre : Previewed d₀ changes) (hplain : Plain d₀ changes)
    (hc : c ∈ changes) : Ensures Effect (Consistent fmt d₀ changes) (Backed fmt d₀ changes)
      (writeSource c (entry fmt d₀ c).mode) (fun _ => Backed fmt d₀ changes) := by
  refine wrap ?_
  refine (ensures_checkedWorkflowPath (fun d hd => hd.1) c.path).bind (fun path => ?_)
  refine (ensures_read rfl (fun d hd => hd.1.1)).bind (fun current => ?_)
  refine (throwIf (fun d hd => hd.1.1.1)).bind (fun _ => ?_)
  refine ensures_perform (by simp) (fun d hd => hd.1.1.1.1) (fun d hd => ?_)
  obtain ⟨⟨⟨⟨hcons, hback⟩, rfl, -⟩, -⟩, -⟩ := hd
  have hnew := hcons.replace hpre hback hc (.inr rfl)
  rw [hplain.mode_entry fmt hc]
  exact ⟨hnew, fun _ _ => ⟨hnew, hback⟩⟩

include hstarts hplain in
theorem ensures_writeWithBackup : Keeps fmt d₀ changes (writeWithBackup fmt changes) := by
  unfold writeWithBackup
  rw [if_neg hstarts.some]
  refine (Ensures.throwIf (fun _ h => h)).bind (fun _ => ?_)
  refine weaken (ensures_withLock ?_) (fun d hd => hd.1) (fun _ _ h => h)
  refine (ensures_preflight fmt (fun _ h => h) [] changes).bind (fun files => ?_)
  refine (throwIf (fun d hd => hd.1)).bind (fun _ => ?_)
  -- the entries are those of the start, whatever the contents of the files are by now
  by_cases hfiles : files = changes.map (entry fmt d₀)
  · subst hfiles
    refine ((ensures_saveBackup hstarts).pre (fun d hd => hd.1.1)).bind (fun _ => ?_)
    refine (each (R := fun _ => Backed fmt d₀ changes) (fun _ d hd => hd.1) ?_).weaken
      (fun _ h => h) (fun _ d hd => hd.1)
    intro done a rest hsplit
    have ha : a ∈ changes.zip (changes.map (entry fmt d₀)) := hsplit ▸ mem_append_cons_self
    obtain ⟨c, hc, rfl⟩ : ∃ c ∈ changes, (c, entry fmt d₀ c) = a := by
      rwa [← map_prod_left_eq_zip, mem_map] at ha
    exact ensures_writeSource hstarts.previewed' hplain hc
  · intro d t o hd
    exact absurd (hd.1.2.1.trans hd.1.1.entries) hfiles

/-! ## Reading the backup -/

theorem written_entry (hpath : validString c.path = true) (hbefore : validString c.before = true) :
    (entry fmt d₀ c).written = entry fmt d₀ c := by
  unfold BackupFile.written entry
  rw [toValid_eq_self hpath, toValid_eq_self hbefore, toValid_eq_self (fmt.digest_valid _),
    toValid_eq_self (fmt.digest_valid _)]

include hplain in
theorem decode_saved :
    fmt.decode (saved fmt d₀ changes) =
      some { version := 1, files := changes.map (entry fmt d₀) } := by
  have hentries : (changes.map (entry fmt d₀)).map BackupFile.written =
      changes.map (entry fmt d₀) := by
    rw [map_map]
    exact map_congr_left fun c hc => written_entry (hplain.path c hc) (hplain.before c hc)
  unfold saved
  rw [fmt.decode_marshal, hentries]

theorem decode_of_parseBackup {data : Bytes} {b : MigrationBackup}
    (h : parseBackup fmt data = .ok b) : fmt.decode data = some b := by
  unfold parseBackup at h
  split at h
  · exact absurd h nofun
  rename_i backup hdecode
  split at h
  · exact absurd h nofun
  split at h
  · exact absurd h nofun
  · cases h
    exact hdecode

include hplain in
theorem ensures_readBackup :
    Ensures Effect (Consistent fmt d₀ changes) (Consistent fmt d₀ changes) (readBackup fmt)
      (fun b d => Backed fmt d₀ changes d ∧ b.files = changes.map (entry fmt d₀)) := by
  refine (ensures_read rfl (fun _ h => h)).bind (fun data => ?_)
  refine (throwIf (fun d hd => hd.1)).bind (fun _ => ?_)
  refine (settle (fun d hd => hd.1.1)).post (fun b d h => ?_)
  obtain ⟨⟨⟨hd, hopen⟩, -⟩, hparse⟩ := h
  have hdata : d.backup = some data := found_eq_ok.mp hopen
  have hdecode := decode_of_parseBackup hparse
  have hfull : data = saved fmt d₀ changes := by
    rcases hd.backup with hback | ⟨-, hpart⟩
    · exact Option.some.inj (hdata.symm.trans hback)
    by_contra hne
    rw [fmt.decode_torn _ data (hpart data hdata) hne] at hdecode
    exact absurd hdecode nofun
  rw [hfull] at hdata hdecode
  rw [decode_saved hplain] at hdecode
  cases hdecode
  exact ⟨⟨hd, hdata⟩, rfl⟩

theorem ensures_checkDestination (hI : ∀ d, P d → I d) (file : BackupFile) :
    Ensures Effect I P (checkDestination fmt file) (fun p d => P d ∧ p = place file.path) := by
  refine (ensures_checkedWorkflowPath hI file.path).bind (fun path => ?_)
  refine (ensures_read rfl (fun d hd => hI d hd.1)).bind (fun current => ?_)
  refine (throwIf (fun d hd => hI d hd.1.1)).bind (fun _ => ?_)
  exact pure (fun d hd => hI d hd.1.1.1) (fun d hd => ⟨hd.1.1.1, hd.1.1.2.1⟩)

/-- The files of these entries are as they were at the start. -/
def Restored (d₀ : Disk) (files : List BackupFile) (d : Disk) : Prop :=
  ∀ f ∈ files, d.node (place f.path) = d₀.node (place f.path)

theorem Restored.replace (hpre : Previewed d₀ changes) {done : List BackupFile}
    (h : Restored d₀ done d) (hc : c ∈ changes) : Restored d₀ (done ++ [entry fmt d₀ c])
      (d.replace (place c.path) c.before (d₀.modeAt (place c.path))) := by
  intro f hf
  by_cases hplace : place f.path = place c.path
  · rw [hplace, d.replace_same, hpre.holds c hc]
  rw [d.replace_other hplace]
  rcases mem_append.mp hf with hf | hf
  · exact h f hf
  · rw [mem_singleton.mp hf] at hplace
    exact absurd rfl hplace

theorem ensures_restore (hpre : Previewed d₀ changes) (hplain : Plain d₀ changes) (hc : c ∈ changes)
    (done : List BackupFile) : Ensures Effect (Consistent fmt d₀ changes)
      (fun d => Backed fmt d₀ changes d ∧ Restored d₀ done d) (restore fmt (entry fmt d₀ c))
      (fun _ d => Backed fmt d₀ changes d ∧ Restored d₀ (done ++ [entry fmt d₀ c]) d) := by
  refine (ensures_checkDestination (fun d hd => hd.1.1) _).bind (fun path => ?_)
  refine wrap (ensures_perform (by simp) (fun d hd => hd.1.1.1) (fun d hd => ?_))
  obtain ⟨⟨⟨hcons, hback⟩, hdone⟩, rfl⟩ := hd
  have hnew := hcons.replace hpre hback hc (.inl rfl)
  rw [hplain.mode_entry fmt hc]
  exact ⟨hnew, fun _ _ => ⟨⟨hnew, hback⟩, hdone.replace hpre hc⟩⟩

include hstarts hplain in
theorem ensures_rollback : Keeps fmt d₀ changes (rollback fmt) := by
  have hpre := hstarts.previewed'
  refine ensures_withLock ?_
  refine (ensures_readBackup hplain).wrap.bind (fun backup => ?_)
  by_cases hfiles : backup.files = changes.map (entry fmt d₀)
  · rw [hfiles]
    refine bind (Q := fun _ => Backed fmt d₀ changes) ?_ (fun _ => ?_)
    · refine (each (R := fun _ => Backed fmt d₀ changes) (fun _ d hd => hd.1) ?_).pre
        (fun d hd => hd.1)
      intro done file rest _
      refine (ensures_checkDestination (fun d hd => hd.1) file).bind (fun path => ?_)
      exact pure (fun d hd => hd.1.1) (fun d hd => hd.1)
    refine bind (Q := fun _ d => Backed fmt d₀ changes d ∧
      Restored d₀ (changes.map (entry fmt d₀)) d) ?_ (fun _ => ?_)
    · refine (each
        (R := fun done d => Backed fmt d₀ changes d ∧ Restored d₀ done d)
        (fun _ d hd => hd.1.1) ?_).pre (fun d hd => ⟨hd, nofun⟩)
      intro done file rest hsplit
      obtain ⟨c, hc, rfl⟩ := mem_map.mp (hsplit ▸ mem_append_cons_self)
      exact ensures_restore hpre hplain hc done
    -- with every file back, it does not matter whether the backup is still there
    refine cut (I := Untouched fmt d₀ changes) ?_ (fun d hd => hd.consistent hstarts)
    refine bind (Q := fun _ => Untouched fmt d₀ changes) ?_ (fun _ => ?_)
    · refine ensures_removeBackup_untouched.wrap.pre (fun d hd => ?_)
      obtain ⟨⟨hcons, hback⟩, hdone⟩ := hd
      refine ⟨hcons.finished fun c hc => hdone _ (mem_map_of_mem hc), fun data hdata => ?_⟩
      exact (Option.some.inj (hdata.symm.trans hback)) ▸ prefix_refl data
    · exact (ensures_sync (.inr (.inr rfl)) (fun _ h => h)).post
        (fun _ d hd => hd.consistent hstarts)
  · intro d t o hd
    exact absurd hd.2 hfiles

/-! ## Rolling back without interruption -/

theorem checkEntries_entries (hdistinct : (changes.map FileChange.path).Nodup)
    {seen : List Bytes} (hseen : ∀ c ∈ changes, c.path ∉ seen) :
    checkEntries fmt seen (changes.map (entry fmt d₀)) = .ok () := by
  induction changes generalizing seen with
  | nil => rfl
  | cons c changes ih =>
    rw [map_cons, nodup_cons] at hdistinct
    have hmode : ¬ 0o777 < (entry fmt d₀ c).mode := by
      have := Nat.mod_lt (d₀.modeAt (place c.path)) (show 0 < 0o1000 by decide)
      exact Nat.not_lt.mpr (Nat.le_of_lt_succ this)
    rw [map_cons, checkEntries, if_neg, if_neg]
    · refine ih hdistinct.2 (fun c' hc' hmem => ?_)
      rcases mem_cons.mp hmem with heq | hmem
      · exact hdistinct.1 (mem_map.mpr ⟨c', hc', heq⟩)
      · exact hseen c' (mem_cons_of_mem c hc') hmem
    · exact Bool.eq_false_iff.not.mpr (not_not.mpr (fmt.isDigest_digest c.after))
    · rintro (h | h | h)
      · exact hseen c mem_cons_self h
      · exact hmode h
      · exact h rfl

include hstarts hplain in
theorem exec_readBackup (hback : d.backup = some (saved fmt d₀ changes)) :
    (readBackup fmt).exec perform d =
      (.ok { version := 1, files := changes.map (entry fmt d₀) }, d) := by
  have hopen : (ask .openBackup).exec perform d = (.ok (saved fmt d₀ changes), d) :=
    Prod.ext (found_eq_ok.mpr hback) rfl
  refine (exec_bind_ok hopen).trans ?_
  refine (exec_bind_ok (exec_throwIf (Nat.not_lt.mpr hstarts.size) d)).trans ?_
  have hparse : parseBackup fmt (saved fmt d₀ changes) =
      .ok { version := 1, files := changes.map (entry fmt d₀) } := by
    unfold parseBackup
    rw [decode_saved hplain]
    dsimp only
    rw [if_neg, checkEntries_entries hstarts.previewed'.distinct (fun _ _ => not_mem_nil)]
    have hbound := hstarts.bound
    have hsome := hstarts.some
    simp only [map_eq_nil_iff, length_map]
    rintro (h | h | h)
    · exact h rfl
    · exact hsome h
    · omega
  rw [hparse]
  rfl

theorem exec_checkDestination (hpre : Previewed d₀ changes) (hd : Consistent fmt d₀ changes d)
    (hc : c ∈ changes) :
    (checkDestination fmt (entry fmt d₀ c)).exec perform d = (.ok (place c.path), d) := by
  obtain ⟨x, hx, hnode⟩ := hd.sides c hc
  have hchecked := (hpre.checked c hc).sameKinds (hd.sameKinds hpre)
  have hread : (ask (.readFile (place c.path))).exec perform d = (.ok x, d) :=
    Prod.ext (found_eq_ok.mpr (by rw [hnode]; rfl)) rfl
  have hhash : ¬ (fmt.digest x ≠ fmt.digest c.before ∧ fmt.digest x ≠ fmt.digest c.after) := by
    rcases hx with rfl | rfl
    · exact fun h => h.1 rfl
    · exact fun h => h.2 rfl
  refine (exec_bind_ok hchecked.exec).trans ?_
  refine (exec_bind_ok hread).trans ?_
  exact exec_bind_ok (exec_throwIf hhash d)

theorem exec_withLock {α : Type} {body : FileM α} {t : Disk} {a : α} (hfree : d.locked = false)
    (hbody : body.exec perform { d with locked := true } = (.ok a, t)) (ht : t.locked = true) :
    (withLock body).exec perform d = (.ok a, { t with locked := false }) := by
  have hlock : (ask .mkdirLock).exec perform d = (.ok (), { d with locked := true }) := by
    rw [exec_ask, perform, hfree]
    rfl
  have hunlock : (ask .removeLock).exec perform t = (.ok (), { t with locked := false }) := by
    rw [exec_ask, perform, ht]
    rfl
  refine (exec_bind_ok (exec_wrap_ok hlock)).trans ?_
  refine (exec_bind_ok (exec_observe body _)).trans ?_
  refine (exec_bind_ok (exec_observe _ _)).trans ?_
  rw [hbody, hunlock]
  rfl

include hstarts hplain in
theorem exec_rollback (hd : Backed fmt d₀ changes d) (hfree : d.locked = false) :
    ∃ d', (rollback fmt).exec perform d = (.ok (), d') ∧ d'.node = d₀.node := by
  have hpre := hstarts.previewed'
  let d₁ : Disk := { d with locked := true }
  have hcons : Consistent fmt d₀ changes d₁ := hd.1.congr rfl rfl
  -- every file has the bytes from before or after, so no check fails
  have hchecks : ∃ t, (each (fun file => do let _ ← checkDestination fmt file; return)
      (changes.map (entry fmt d₀))).exec perform d₁ = (.ok (), t) ∧ t = d₁ := by
    refine exec_each (R := fun _ t => t = d₁) ?_ rfl
    rintro done file rest t hsplit rfl
    obtain ⟨c, hc, rfl⟩ := mem_map.mp (hsplit ▸ mem_append_cons_self)
    exact ⟨d₁, exec_bind_ok (exec_checkDestination hpre hcons hc), rfl⟩
  -- one file more is as it was, with each round
  have hrestores : ∃ t, (each (restore fmt) (changes.map (entry fmt d₀))).exec perform d₁ =
      (.ok (), t) ∧ Backed fmt d₀ changes t ∧ t.locked = true ∧
        Restored d₀ (changes.map (entry fmt d₀)) t := by
    refine exec_each
      (R := fun done t => Backed fmt d₀ changes t ∧ t.locked = true ∧ Restored d₀ done t) ?_
      ⟨⟨hcons, hd.2⟩, rfl, nofun⟩
    rintro done file rest t hsplit ⟨⟨ht, hback⟩, hlocked, hdone⟩
    obtain ⟨c, hc, rfl⟩ := mem_map.mp (hsplit ▸ mem_append_cons_self)
    refine ⟨t.replace (place c.path) c.before (d₀.modeAt (place c.path)), ?_, ?_⟩
    · refine (exec_bind_ok (exec_checkDestination hpre ht hc)).trans ?_
      rw [hplain.mode_entry fmt hc]
      exact exec_wrap_ok rfl
    · exact ⟨⟨ht.replace hpre hback hc (.inl rfl), hback⟩, hlocked, hdone.replace hpre hc⟩
  obtain ⟨d₂, hchecks, rfl⟩ := hchecks
  obtain ⟨d₃, hrestores, ⟨hcons₃, hback₃⟩, hlocked₃, hdone₃⟩ := hrestores
  have hremove : (ask .removeBackup).exec perform d₃ = (.ok (), { d₃ with backup := none }) := by
    rw [exec_ask, perform, hback₃]
    rfl
  refine ⟨_, exec_withLock (t := { d₃ with backup := none }) hfree ?_ hlocked₃, ?_⟩
  · have hread := exec_readBackup hstarts hplain (d := d₁) hd.2
    refine (exec_bind_ok (exec_wrap_ok hread)).trans ?_
    refine (exec_bind_ok hchecks).trans ?_
    refine (exec_bind_ok hrestores).trans ?_
    exact exec_bind_ok (exec_wrap_ok hremove)
  · exact hcons₃.finished fun c hc => hdone₃ _ (mem_map_of_mem hc)

end Runs

/-! ## Any number of attempts -/

/--
What a disk can become through calls of `WriteWithBackup` for these changes and of
`Rollback`, each of them cut anywhere or not at all, and by clearing a stale lock.
-/
inductive Attempts (fmt : Format) (changes : List FileChange) (d₀ : Disk) : Disk → Prop where
  | start : Attempts fmt changes d₀ d₀
  | write {d t : Disk} {o : Option (Except Failure Unit)} : Attempts fmt changes d₀ d →
      Runs Effect (writeWithBackup fmt changes).run d t o → Attempts fmt changes d₀ t
  | rollback {d t : Disk} {o : Option (Except Failure Unit)} : Attempts fmt changes d₀ d →
      Runs Effect (rollback fmt).run d t o → Attempts fmt changes d₀ t
  | clearLock {d : Disk} : Attempts fmt changes d₀ d →
      Attempts fmt changes d₀ { d with locked := false }

theorem Attempts.consistent (hstarts : Starts fmt d₀ changes) (hplain : Plain d₀ changes)
    (h : Attempts fmt changes d₀ d) : Consistent fmt d₀ changes d := by
  induction h with
  | start => exact .initial hstarts
  | write _ hrun ih => exact (ensures_writeWithBackup hstarts hplain _ _ _ ih hrun).1
  | rollback _ hrun ih => exact (ensures_rollback hstarts hplain _ _ _ ih hrun).1
  | clearLock _ ih => exact ih.congr rfl rfl

theorem Consistent.backed (h : Consistent fmt d₀ changes d) (hpre : Previewed d₀ changes)
    (hc : c ∈ changes) (hchanged : d.content c.path ≠ some c.before) : Backed fmt d₀ changes d := by
  refine ⟨h, h.backup.resolve_right fun hno => hchanged ?_⟩
  rw [Disk.content, hno.1, hpre.holds c hc]
  rfl

end

/--
**A migration can be undone.** At every moment each file has its bytes from before or
from after its change. Once one of them no longer has those from before, `Rollback`
with nothing in its way succeeds, and every file has its bytes and mode again.
-/
theorem migration_can_be_undone (fmt : Format) (d₀ : Disk) (changes : List FileChange)
    (hstarts : Starts fmt d₀ changes) (hplain : Plain d₀ changes) (d : Disk)
    (hd : Attempts fmt changes d₀ d) :
    (∀ c ∈ changes, d.content c.path = some c.before ∨ d.content c.path = some c.after) ∧
      ((∃ c ∈ changes, d.content c.path ≠ some c.before) →
        ∃ d', (rollback fmt).exec perform { d with locked := false } = (.ok (), d') ∧
          ∀ p, d'.node p = d₀.node p) := by
  have hcons := hd.consistent hstarts hplain
  constructor
  · intro c hc
    obtain ⟨x, hx, hnode⟩ := hcons.sides c hc
    have hcontent : d.content c.path = some x := by
      rw [Disk.content, hnode]
      rfl
    rcases hx with rfl | rfl
    · exact .inl hcontent
    · exact .inr hcontent
  · rintro ⟨c, hc, hchanged⟩
    have hback := hcons.backed hstarts.previewed' hc hchanged
    obtain ⟨d', hexec, hnode⟩ := exec_rollback hstarts hplain (d := { d with locked := false })
      ⟨hback.1.congr rfl rfl, hback.2⟩ rfl
    exact ⟨d', hexec, fun p => congrFun hnode p⟩

/-- Two workflow files of an instance. -/
def twoFiles : Disk where
  node p :=
    if p = [ascii "config"] then some .dir
    else if p = [ascii "config", ascii "a.yml"] then some (.file (ascii "old") 0o644)
    else if p = [ascii "config", ascii "b.yml"] then some (.file (ascii "older") 0o600)
    else none
  backup := none
  locked := false

def twoChanges : List FileChange :=
  [{ path := ascii "a.yml", before := ascii "old", after := ascii "new" },
   { path := ascii "b.yml", before := ascii "older", after := ascii "newer" }]

/-- The migration of the two files, cut when it has replaced the first of them. -/
def halfWritten : Disk :=
  (writeWithBackup textFormat twoChanges).run.execFirst perform 21 twoFiles

theorem migration_can_be_undone_cut :
    (halfWritten.content (ascii "a.yml") = some (ascii "new") ∧
        halfWritten.content (ascii "b.yml") = some (ascii "older")) ∧
      ∃ d', (rollback textFormat).exec perform { halfWritten with locked := false } = (.ok (), d') ∧
        ∀ p, d'.node p = twoFiles.node p := by
  have hstarts : Starts textFormat twoFiles twoChanges :=
    ⟨rfl, by decide, by decide, rfl, by decide +kernel⟩
  have hplain : Plain twoFiles twoChanges := by
    constructor <;> decide
  have hfirst : halfWritten.content (ascii "a.yml") = some (ascii "new") := by decide +kernel
  have hsecond : halfWritten.content (ascii "b.yml") = some (ascii "older") := by decide +kernel
  obtain ⟨o, hrun⟩ := Prog.runs_execFirst (fun _ c => Effect.whole c) 21
    (writeWithBackup textFormat twoChanges).run twoFiles
  have hundo := (migration_can_be_undone textFormat twoFiles twoChanges hstarts hplain halfWritten
    (.write .start hrun)).2
  refine ⟨⟨hfirst, hsecond⟩, hundo ⟨_, mem_cons_self, ?_⟩⟩
  rw [hfirst]
  decide

/-- A workflow file of an instance, as an editor left it. -/
def oneFile (content : Bytes) : Disk where
  node p :=
    if p = [ascii "config"] then some .dir
    else if p = [ascii "config", ascii "a.yml"] then some (.file content 0o644)
    else none
  backup := none
  locked := false

def oneChange (before : Bytes) : List FileChange :=
  [{ path := ascii "a.yml", before := before, after := ascii "new" }]

def oneWritten (before : Bytes) : Disk :=
  ((writeWithBackup textFormat (oneChange before)).exec perform (oneFile before)).2

/--
A file that is not UTF-8 is migrated, and then the backup is refused as corrupt: the text
that it reads back is not the one that was hashed.
-/
theorem rollback_refuses_own_backup :
    Starts textFormat (oneFile [0xFF]) (oneChange [0xFF]) ∧
      (oneWritten [0xFF]).content (ascii "a.yml") = some (ascii "new") ∧
      ((rollback textFormat).exec perform (oneWritten [0xFF])).1 =
        .error (.readBackup (.corruptEntry (ascii "a.yml"))) ∧
      ((rollback textFormat).exec perform (oneWritten [0xFF])).2.content (ascii "a.yml") =
        some (ascii "new") :=
  ⟨⟨rfl, by decide, by decide, rfl, by decide⟩, rfl, rfl, rfl⟩

end Goobers.Migration
