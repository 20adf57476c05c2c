import Goobers.Lib.JsonString
import Goobers.Lib.Replace

/-!
# The registry of secret values

Every credential the resolver issues is registered by its value. A value is redacted
in its raw form and in the forms it takes inside a JSON string, the longest form first,
each by a pass over the text that the pass before has left.

Expired values retire in `Redaction.Retirement`; a registry here is what it holds at the
time of a scrub.
-/

namespace Goobers.Redaction

open Lib Lib.Utf8 Lib.Json

/-- What stands for a secret. -/
def redacted : Bytes := ascii "[REDACTED]"

/-- The shortest value the registry redacts. -/
def minSecretLen : Nat := 6

/-- One more form, unless it is empty, the value itself or there already. -/
def addForm (v : Bytes) (forms : List Bytes) (inner : Bytes) : List Bytes :=
  if inner = [] ∨ inner = v ∨ inner ∈ forms then forms else forms ++ [inner]

/-- The encodings of a value inside a JSON string that differ from the value. -/
def jsonEscapedForms (v : Bytes) : List Bytes :=
  addForm v (addForm v [] (escapeString true v)) (escapeString false v)

/-- The values that are registered. -/
structure RegistryScrubber where
  secrets : List Bytes := []
  deriving DecidableEq, Repr

namespace RegistryScrubber

/-- A value that is too short or known already is ignored. -/
def register (s : RegistryScrubber) (secret : Bytes) : RegistryScrubber :=
  if secret.length < minSecretLen ∨ secret ∈ s.secrets then s
  else { s with secrets := s.secrets ++ [secret] }

def of (values : List Bytes) : RegistryScrubber := values.foldl register {}

/-- Longest first, then in the order of their bytes. -/
def targetLE (a b : Bytes) : Bool :=
  if a.length ≠ b.length then b.length < a.length else a ≤ b

def sortedTargets (secrets : List Bytes) : List Bytes :=
  (secrets.flatMap fun v => v :: jsonEscapedForms v).mergeSort targetLE

def redactionTargets (s : RegistryScrubber) : List Bytes := sortedTargets s.secrets

def scrub (s : RegistryScrubber) (b : Bytes) : Bytes :=
  replaceEach s.redactionTargets redacted b

/-! ## The forms -/

theorem mem_addForm {v inner form : Bytes} {forms : List Bytes}
    (h : form ∈ addForm v forms inner) : form ∈ forms ∨ form = inner ∧ inner ≠ [] := by
  unfold addForm at h
  split_ifs at h with hskip
  · exact .inl h
  · rw [not_or] at hskip
    rcases List.mem_append.mp h with h | h
    · exact .inl h
    · exact .inr ⟨List.mem_singleton.mp h, hskip.1⟩

theorem jsonEscapedForms_ne_nil {v form : Bytes} (h : form ∈ jsonEscapedForms v) : form ≠ [] := by
  rcases mem_addForm h with hfirst | ⟨rfl, hne⟩
  · rcases mem_addForm hfirst with hnone | ⟨rfl, hne⟩
    · cases hnone
    · exact hne
  · exact hne

theorem mem_redactionTargets {s : RegistryScrubber} {form : Bytes} :
    form ∈ s.redactionTargets ↔ ∃ v ∈ s.secrets, form = v ∨ form ∈ jsonEscapedForms v := by
  unfold redactionTargets sortedTargets
  simp

theorem register_length {s : RegistryScrubber} (h : ∀ v ∈ s.secrets, minSecretLen ≤ v.length)
    (secret : Bytes) : ∀ v ∈ (s.register secret).secrets, minSecretLen ≤ v.length := by
  unfold register
  split_ifs with hlen
  · exact h
  · exact List.forall_mem_append.mpr ⟨h, List.forall_mem_singleton.mpr (by omega)⟩

theorem of_length (values : List Bytes) : ∀ v ∈ (of values).secrets, minSecretLen ≤ v.length := by
  unfold of
  induction values using List.reverseRecOn with
  | nil => intro v hv; cases hv
  | append_singleton values value ih =>
    rw [List.foldl_append]
    exact register_length ih value

theorem redactionTargets_ne_nil (values : List Bytes) :
    ∀ form ∈ (of values).redactionTargets, form ≠ [] := by
  intro form hform
  obtain ⟨v, hv, rfl | hesc⟩ := mem_redactionTargets.mp hform
  · have hlen := of_length values form hv
    rintro rfl
    cases hlen
  · exact jsonEscapedForms_ne_nil hesc

end RegistryScrubber

end Goobers.Redaction
