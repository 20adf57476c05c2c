import Goobers.Redaction.Registry

/-!
# Retirement of registered values

A value may be registered with the expiry its issuer stated, and is retired a day after the
latest one stated. The registry keeps the sorted forms from scrub to scrub and sorts them anew
only after a value has come or gone; it looks for values to retire only from the earliest
deadline on. Neither shows: every scrub redacts what is registered and not retired by then.

A value stands for its digest. Instants are in nanoseconds; `none` is the zero time, which is
taken to be no deadline.
-/

namespace Goobers.Redaction

open Lib Lib.Utf8 Lib.Json RegistryScrubber

def registryRetirementGrace : Int := 24 * 3600 * 1000000000

/-- The registered values, each with the latest expiry that was stated. -/
abbrev Secrets := List (Bytes × Option Int)

/-- `RegistryScrubber` with what it keeps between its calls. -/
structure RetiringRegistry where
  secrets : Secrets := []
  targets : List Bytes := []
  stale : Bool := false
  nextRetire : Option Int := none

def noteDeadline (nextRetire : Option Int) : Option Int → Option Int
  | none => nextRetire
  | some t =>
    let deadline := t + registryRetirementGrace
    if nextRetire.all (fun d => deadline < d) then some deadline else nextRetire

def recomputeNextRetire (secrets : Secrets) : Option Int :=
  secrets.foldr (fun row next => noteDeadline next row.2) none

def retired (now : Int) (expiresAt : Option Int) : Bool :=
  expiresAt.any (fun t => t + registryRetirementGrace ≤ now)

def Secrets.live (secrets : Secrets) (now : Int) : Secrets :=
  secrets.filter (fun row => !retired now row.2)

def Secrets.values (secrets : Secrets) : List Bytes := secrets.map Prod.fst

/-- The expiry states something new about a value with this one. -/
def later (known expiresAt : Option Int) : Bool :=
  expiresAt.any (fun t => known.all (fun k => k < t))

namespace RetiringRegistry

def due (s : RetiringRegistry) (now : Int) : Bool := s.nextRetire.any (fun d => d ≤ now)

def prune (s : RetiringRegistry) (now : Int) : RetiringRegistry :=
  if s.due now then
    { s with
      secrets := s.secrets.live now
      stale := s.stale || s.secrets.any (fun row => retired now row.2)
      nextRetire := recomputeNextRetire (s.secrets.live now) }
  else s

/-- The registration, before what is due is retired. -/
def record (s : RetiringRegistry) (secret : Bytes) (expiresAt : Option Int) : RetiringRegistry :=
  match s.secrets.find? (fun row => row.1 = secret) with
  | some known =>
    if later known.2 expiresAt then
      let secrets := s.secrets.map (fun row => if row = known then (secret, expiresAt) else row)
      { s with secrets := secrets, nextRetire := recomputeNextRetire secrets }
    else s
  | none =>
    { s with
      secrets := s.secrets ++ [(secret, expiresAt)]
      stale := true
      nextRetire := noteDeadline s.nextRetire expiresAt }

/-- `RegisterUntil`; `Register` states no expiry. -/
def registerUntil (s : RetiringRegistry) (now : Int) (secret : Bytes) (expiresAt : Option Int) :
    RetiringRegistry :=
  if secret.length < minSecretLen then s else (s.record secret expiresAt).prune now

def redactionTargets (s : RetiringRegistry) (now : Int) : List Bytes × RetiringRegistry :=
  if !s.stale && !s.due now then (s.targets, s)
  else
    let s := s.prune now
    if s.stale then
      let targets := sortedTargets s.secrets.values
      (targets, { s with targets := targets, stale := false })
    else (s.targets, s)

def scrub (s : RetiringRegistry) (now : Int) (b : Bytes) : Bytes × RetiringRegistry :=
  let (targets, s) := s.redactionTargets now
  (replaceEach targets redacted b, s)

end RetiringRegistry

inductive RegistryCall where
  | registerUntil (secret : Bytes) (expiresAt : Option Int)
  | scrub (b : Bytes)

open RetiringRegistry

/-- The instants of the calls need not be in order. -/
def RetiringRegistry.step (s : RetiringRegistry) : Int × RegistryCall → RetiringRegistry
  | (now, .registerUntil secret expiresAt) => s.registerUntil now secret expiresAt
  | (now, .scrub b) => (s.scrub now b).2

def registryAfter (calls : List (Int × RegistryCall)) : RetiringRegistry := calls.foldl step {}

/-! ## The deadline and the cache -/

variable {s : RetiringRegistry} {now : Int} {v secret : Bytes} {instants : List Int}
  {stated e : Option Int}

theorem any_noteDeadline (next e : Option Int) (now : Int) :
    (noteDeadline next e).any (fun d => d ≤ now) =
      (next.any (fun d => d ≤ now) || retired now e) := by
  cases e with
  | none => simp [noteDeadline, retired]
  | some t =>
    cases next with
    | none => simp [noteDeadline, retired]
    | some d =>
      simp only [noteDeadline, retired, Option.all_some, decide_eq_true_eq]
      rw [Bool.eq_iff_iff]
      split_ifs <;> simp only [Option.any_some, Bool.or_eq_true, decide_eq_true_eq]
      all_goals omega

theorem any_recomputeNextRetire (secrets : Secrets) (now : Int) :
    (recomputeNextRetire secrets).any (fun d => d ≤ now) =
      secrets.any (fun row => retired now row.2) := by
  unfold recomputeNextRetire
  induction secrets with
  | nil => rfl
  | cons row rows ih => rw [List.foldr_cons, any_noteDeadline, ih, List.any_cons, Bool.or_comm]

/-- The deadline is due exactly if a value is to be retired, and the forms are those of the
values unless they are stale. -/
structure RetiringRegistry.Ok (s : RetiringRegistry) : Prop where
  long : ∀ v ∈ s.secrets.values, minSecretLen ≤ v.length
  due : ∀ now, s.due now = s.secrets.any (fun row => retired now row.2)
  cached : s.stale = false → s.targets = sortedTargets s.secrets.values

theorem RetiringRegistry.Ok.live (h : s.Ok) (hdue : s.due now = false) :
    s.secrets.live now = s.secrets := by
  rw [h.due, List.any_eq_false] at hdue
  exact List.filter_eq_self.mpr fun row hrow => by simp [hdue row hrow]

theorem RetiringRegistry.Ok.prune (h : s.Ok) (now : Int) :
    (s.prune now).Ok ∧ (s.prune now).secrets = s.secrets.live now := by
  unfold RetiringRegistry.prune
  split_ifs with hdue
  · have hsub : (s.secrets.live now).values.Sublist s.secrets.values := List.filter_sublist.map _
    refine ⟨⟨fun v hv => h.long v (hsub.subset hv), any_recomputeNextRetire _,
      fun hstale => ?_⟩, rfl⟩
    -- something is retired, so the forms are stale
    simp [← h.due, hdue] at hstale
  · exact ⟨h, (h.live (by simpa using hdue)).symm⟩

/-- **The cache does not show.** -/
theorem RetiringRegistry.Ok.redactionTargets (h : s.Ok) (now : Int) :
    (s.redactionTargets now).1 = sortedTargets (s.secrets.live now).values ∧
      (s.redactionTargets now).2.Ok ∧
      (s.redactionTargets now).2.secrets = s.secrets.live now := by
  obtain ⟨hok, hlive⟩ := h.prune now
  unfold RetiringRegistry.redactionTargets
  dsimp only
  split_ifs with hfresh hstale
  · simp only [Bool.and_eq_true, Bool.not_eq_true'] at hfresh
    rw [h.live hfresh.2]
    exact ⟨h.cached hfresh.1, h, rfl⟩
  · exact ⟨by rw [hlive], ⟨hok.long, hok.due, fun _ => rfl⟩, hlive⟩
  · exact ⟨by rw [hok.cached (by simpa using hstale), hlive], hok, hlive⟩

theorem value_of_find {known : Bytes × Option Int}
    (h : s.secrets.find? (fun row => row.1 = secret) = some known) : known.1 = secret := by
  simpa using List.find?_some h

theorem RetiringRegistry.Ok.record (h : s.Ok) (hlen : minSecretLen ≤ secret.length)
    (expiresAt : Option Int) : (s.record secret expiresAt).Ok := by
  unfold RetiringRegistry.record
  split
  · rename_i known hfind
    split_ifs
    · have hvalues : Secrets.values (s.secrets.map
          fun row => if row = known then (secret, expiresAt) else row) = s.secrets.values := by
        refine List.map_map.trans (List.map_congr_left fun row _ => ?_)
        simp only [Function.comp]
        split_ifs with hrow
        · exact hrow ▸ (value_of_find hfind).symm
        · rfl
      exact ⟨hvalues ▸ h.long, any_recomputeNextRetire _, fun hstale => hvalues ▸ h.cached hstale⟩
    · exact h
  · have hvalues : Secrets.values (s.secrets ++ [(secret, expiresAt)]) =
        s.secrets.values ++ [secret] := List.map_append
    refine ⟨hvalues ▸ ?_, fun now => ?_, nofun⟩
    · exact List.forall_mem_append.mpr ⟨h.long, List.forall_mem_singleton.mpr hlen⟩
    · show (noteDeadline s.nextRetire expiresAt).any _ = _
      rw [any_noteDeadline, List.any_append, ← h.due]
      simp [RetiringRegistry.due]

theorem RetiringRegistry.Ok.step (h : s.Ok) (call : Int × RegistryCall) : (s.step call).Ok := by
  obtain ⟨now, ⟨secret, expiresAt⟩ | b⟩ := call
  · simp only [RetiringRegistry.step, RetiringRegistry.registerUntil]
    split_ifs with hlen
    · exact h
    · exact ((h.record (Nat.not_lt.mp hlen) expiresAt).prune now).1
  · exact (h.redactionTargets now).2.1

theorem registryAfter_ok (calls : List (Int × RegistryCall)) : (registryAfter calls).Ok :=
  List.foldlRecOn calls step
    ⟨by simp [Secrets.values], fun _ => rfl, fun _ => List.mergeSort_nil.symm⟩
    fun _ h call _ => h.step call

/-- **Every scrub is the scrub of what is registered and not retired**, whatever the forms and the
deadline were that the calls before it have left. -/
theorem scrub_redacts_live (calls : List (Int × RegistryCall)) (now : Int) (b : Bytes) :
    ((registryAfter calls).scrub now b).1 =
      RegistryScrubber.scrub ⟨((registryAfter calls).secrets.live now).values⟩ b := by
  unfold RetiringRegistry.scrub RegistryScrubber.scrub RegistryScrubber.redactionTargets
  dsimp only
  rw [((registryAfter_ok calls).redactionTargets now).1]

/-! ## How long a value is redacted -/

/-- What is registered stays, with its expiry or with a later one that this call states. -/
theorem mem_record (h : (v, e) ∈ s.secrets) (secret : Bytes)
    (expiresAt : Option Int) : ∃ e', (v, e') ∈ (s.record secret expiresAt).secrets ∧
      (e' = e ∨ v = secret ∧ e' = expiresAt ∧ later e expiresAt = true) := by
  unfold RetiringRegistry.record
  split
  · rename_i known hfind
    have hsecret := value_of_find hfind
    split_ifs with hlater
    · by_cases hrow : (v, e) = known
      · subst hrow
        exact ⟨expiresAt, List.mem_map.mpr ⟨_, h, by simp [← hsecret]⟩, .inr ⟨hsecret, rfl, hlater⟩⟩
      · exact ⟨e, List.mem_map.mpr ⟨_, h, if_neg hrow⟩, .inl rfl⟩
    · exact ⟨e, h, .inl rfl⟩
  · exact ⟨e, List.mem_append_left _ h, .inl rfl⟩

/-- A value is registered with the expiry stated, or with a known one that is not earlier. -/
theorem mem_record_self (s : RetiringRegistry) (secret : Bytes) (expiresAt : Option Int) :
    ∃ e, (secret, e) ∈ (s.record secret expiresAt).secrets ∧
      (e = expiresAt ∨ (secret, e) ∈ s.secrets ∧ later e expiresAt = false) := by
  unfold RetiringRegistry.record
  split
  · rename_i known hfind
    have hknown := List.mem_of_find?_eq_some hfind
    split_ifs with hlater
    · exact ⟨expiresAt, List.mem_map.mpr ⟨known, hknown, if_pos rfl⟩, .inl rfl⟩
    · obtain rfl := value_of_find hfind
      exact ⟨known.2, hknown, .inr ⟨hknown, by simpa using hlater⟩⟩
  · exact ⟨expiresAt, by simp, .inl rfl⟩

theorem mem_live {secrets : Secrets} (h : (v, e) ∈ secrets) (hlive : retired now e = false) :
    (v, e) ∈ secrets.live now :=
  List.mem_filter.mpr ⟨h, by simp [hlive]⟩

/-- A call forgets no value before its stated time. -/
theorem RetiringRegistry.Ok.mem_step (h : s.Ok) (hmem : (v, e) ∈ s.secrets)
    (now : Int) (call : RegistryCall) : ∃ e', (retired now e' = false →
      (v, e') ∈ (s.step (now, call)).secrets) ∧ (e' = e ∨ call = .registerUntil v e' ∧
        later e e' = true) := by
  cases call with
  | registerUntil secret expiresAt =>
    simp only [RetiringRegistry.step, RetiringRegistry.registerUntil]
    split_ifs with hlen
    · exact ⟨e, fun _ => hmem, .inl rfl⟩
    obtain ⟨e', he', hcases⟩ := mem_record hmem secret expiresAt
    rw [((h.record (Nat.not_lt.mp hlen) expiresAt).prune now).2]
    refine ⟨e', mem_live he', hcases.imp_right ?_⟩
    rintro ⟨rfl, rfl, hlater⟩
    exact ⟨rfl, hlater⟩
  | scrub b =>
    refine ⟨e, fun hlive => ?_, .inl rfl⟩
    rw [show (s.step (now, .scrub b)).secrets = _ from (h.redactionTargets now).2.2]
    exact mem_live hmem hlive

/-- The expiry is retired at none of the instants, and is one if one was stated. -/
def Lasts (instants : List Int) (stated e : Option Int) : Prop :=
  (∀ i ∈ instants, retired i e = false) ∧ (e = none → stated = none)

theorem Lasts.mono {k t : Int} (h : Lasts instants stated (some k)) (hle : k ≤ t) :
    Lasts instants stated (some t) := by
  refine ⟨fun i hi => ?_, nofun⟩
  have := h.1 i hi
  simp only [retired, Option.any_some, decide_eq_false_iff_not] at this ⊢
  omega

theorem RetiringRegistry.Ok.lasts_register (h : s.Ok) (hlen : minSecretLen ≤ v.length)
    (hnow : now ∈ instants) (hlasts : Lasts instants stated stated) (hknown : stated = none →
      ∀ e, (v, e) ∈ s.secrets → ∀ i ∈ instants, retired i e = false) :
    ∃ e, (v, e) ∈ (s.step (now, .registerUntil v stated)).secrets ∧ Lasts instants stated e := by
  obtain ⟨e, hmem, hcases⟩ := mem_record_self s v stated
  have he : Lasts instants stated e := by
    rcases hcases with rfl | ⟨hold, hnot⟩
    · exact hlasts
    cases stated with
    | none => exact ⟨hknown rfl e hold, fun _ => rfl⟩
    | some t =>
      cases e with
      | none => simp [later] at hnot
      | some k => exact hlasts.mono (by simpa [later] using hnot)
  simp only [RetiringRegistry.step, RetiringRegistry.registerUntil]
  rw [if_neg (Nat.not_lt.mpr hlen), ((h.record hlen _).prune now).2]
  exact ⟨e, mem_live hmem (he.1 _ hnow), he⟩

theorem RetiringRegistry.Ok.lasts_step (h : s.Ok) (hmem : (v, e) ∈ s.secrets)
    (he : Lasts instants stated e) {call : RegistryCall} (hnow : now ∈ instants)
    (hcall : stated = none → ∀ e', call = .registerUntil v e' →
      ∀ i ∈ instants, retired i e' = false) :
    ∃ e', (v, e') ∈ (s.step (now, call)).secrets ∧ Lasts instants stated e' := by
  obtain ⟨e', hmem', hcases⟩ := h.mem_step hmem now call
  have he' : Lasts instants stated e' := by
    rcases hcases with rfl | ⟨heq, hlater⟩
    · exact he
    cases e with
    | none => exact ⟨hcall (he.2 rfl) e' heq, fun _ => he.2 rfl⟩
    | some k =>
      obtain ⟨t, rfl⟩ := Option.isSome_iff_exists.mp (Option.isSome_of_any hlater)
      exact he.mono (Int.le_of_lt (by simpa [later] using hlater))
  exact ⟨e', hmem' (he'.1 _ hnow), he'⟩

/-- No form of a live value is left in scrubbed text. -/
theorem RetiringRegistry.Ok.not_infix_scrub (h : s.Ok) (hv : v ∈ (s.secrets.live now).values)
    {form : Bytes} (hform : form = v ∨ form ∈ jsonEscapedForms v)
    (hfree : ¬ Overlaps form redacted) (b : Bytes) : ¬ form <:+: (s.scrub now b).1 := by
  have htargets : (s.redactionTargets now).1 =
      RegistryScrubber.redactionTargets ⟨(s.secrets.live now).values⟩ :=
    (h.redactionTargets now).1
  have hne : ∀ f ∈ (s.redactionTargets now).1, f ≠ [] := by
    rw [htargets]
    intro f hf
    obtain ⟨w, hw, rfl | hesc⟩ := mem_redactionTargets.mp hf
    · have hlen := (h.prune now).1.long f ((h.prune now).2 ▸ hw)
      rintro rfl
      cases hlen
    · exact jsonEscapedForms_ne_nil hesc
  have hmem : form ∈ (s.redactionTargets now).1 :=
    htargets ▸ mem_redactionTargets.mpr ⟨v, hv, hform⟩
  exact fun hin => (infix_of_replaceEach hne (hne form hmem) hfree hin).2 hmem

/--
**A registered value is in no scrub's output.** Take any calls before and after a registration,
whatever their instants, and then a scrub. The expiry that was stated must not be retired at the
registration or later; where none was stated, nor any that was known before or is stated after.
Then no form of the value, raw or escaped, is in what the scrub returns, a form that overlaps the
placeholder apart.
-/
theorem registered_never_leaks (before after : List (Int × RegistryCall)) (v : Bytes)
    (expiresAt : Option Int) (registered now : Int) (b : Bytes) (hlen : minSecretLen ≤ v.length)
    (hlive : ∀ e, (e = expiresAt ∨ expiresAt = none ∧ ((v, e) ∈ (registryAfter before).secrets ∨
      ∃ call ∈ after, call.2 = .registerUntil v e)) →
        ∀ i ∈ registered :: now :: after.map Prod.fst, retired i e = false)
    (form : Bytes) (hform : form = v ∨ form ∈ jsonEscapedForms v)
    (hfree : ¬ Overlaps form redacted) :
    ¬ form <:+: ((registryAfter
      (before ++ (registered, .registerUntil v expiresAt) :: after)).scrub now b).1 := by
  have hstart := (registryAfter_ok before).lasts_register hlen List.mem_cons_self
    ⟨hlive expiresAt (.inl rfl), id⟩ fun hnone e hknown => hlive e (.inr ⟨hnone, .inl hknown⟩)
  have hrun := List.foldlRecOn after step ⟨(registryAfter_ok before).step _, hstart⟩
    (motive := fun s => s.Ok ∧ ∃ e, (v, e) ∈ s.secrets ∧ Lasts _ expiresAt e) (by
      rintro s ⟨hok, e, hmem, he⟩ call hcall
      refine ⟨hok.step call, hok.lasts_step hmem he ?_ fun hnone e' heq => ?_⟩
      · exact .tail _ (.tail _ (List.mem_map_of_mem hcall))
      · exact hlive e' (.inr ⟨hnone, .inr ⟨call, hcall, heq⟩⟩))
  obtain ⟨hok, e, hmem, he⟩ := hrun
  rw [show registryAfter (before ++ _ :: after) = _ from List.foldl_append]
  refine hok.not_infix_scrub (List.mem_map_of_mem (mem_live hmem ?_)) hform hfree b
  exact he.1 now (by simp)

/-- A token is registered until its expiry, then without one, and scrubbed within the grace. -/
theorem token_never_leaks : ¬ ascii "s3cr3t" <:+: ((registryAfter
    [(0, .registerUntil (ascii "s3cr3t") (some 5)),
      (3, .registerUntil (ascii "s3cr3t") none)]).scrub 7 (ascii "a s3cr3t, s3cr3t!")).1 := by
  refine registered_never_leaks [] [(3, .registerUntil (ascii "s3cr3t") none)] (ascii "s3cr3t")
    (some 5) 0 7 _ (by decide) ?_ _ (.inl rfl)
    (not_overlaps_of_disjoint (by decide) (by decide) (by decide +kernel))
  rintro e (rfl | ⟨hnone, _⟩)
  · decide
  · cases hnone

end Goobers.Redaction
