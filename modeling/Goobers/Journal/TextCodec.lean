import Goobers.Lib.Token
import Goobers.Journal.EventLog

/-!
# A codec

The journal's theorems are about any text boundary with the laws of `Codec`.
`textCodec` is one that can be run: every field of an event written as numbers
inside one pair of braces, and a scrubber with no secrets registered.
-/

namespace Goobers.Journal

open Lib

def namedTypes : List EventType :=
  [.runStarted, .runResumed, .runFinished, .stageStarted, .stageFinished, .stageRerunRequested,
   .gateStarted, .gatePaused, .gateEvaluated, .gateOverridden, .parallelStarted,
   .parallelFinished, .mapStarted, .mapFinished, .branchStarted, .branchFinished, .repaired,
   .agentProgress, .spanRecorded, .runnerAnnotate, .initCompleted, .triggerFired, .tickSkipped,
   .configReloaded, .clusterCheckCompleted, .workerConfigDivergence]

instance : Token EventType :=
  Token.ofRetract
    (fun t => match t with
      | .other name => (namedTypes.length, name)
      | t => (namedTypes.idxOf t, ""))
    (fun (n, name) => namedTypes.getD n (.other name))
    (by intro t; cases t <;> rfl)

instance : Token RunnerValue :=
  Token.ofRetract
    (fun v => match v with
      | .str s => (0, s, (0 : Int))
      | .num n => (1, "", n)
      | .bool b => (2, "", if b then 1 else 0)
      | .other => (3, "", 0))
    (fun (k, s, n) =>
      if k = 0 then .str s else if k = 1 then .num n else if k = 2 then .bool (n = 1) else .other)
    (by
      intro v
      cases v with
      | str s => rfl
      | num n => rfl
      | bool b => cases b <;> rfl
      | other => rfl)

instance : Token ErrorDetail :=
  Token.ofRetract (fun e => (e.code, e.message)) (fun (c, m) => ⟨c, m⟩) (fun _ => rfl)

instance : Token AgentProgress :=
  Token.ofRetract
    (fun p => (p.agentID, p.runID, p.stage, p.attempt, p.sequence, p.occurredAt, p.updatedAt))
    (fun (a, r, s, t, q, o, u) => ⟨a, r, s, t, q, o, u⟩)
    (fun _ => rfl)

instance : Token Ref :=
  Token.ofRetract (fun r => (r.path, r.digest)) (fun (p, d) => ⟨p, d⟩) (fun _ => rfl)

instance : Token Event :=
  Token.ofRetract
    (fun e => ((e.schema, e.seq, e.type, e.branch, e.time, e.stage, e.gate, e.verdict, e.target),
      (e.escalated, e.status, e.error, e.progress, e.runner, e.parallel, e.branchName),
      (e.mapItemIdentity, e.mapItemDigest, e.branchStatus, e.workflow, e.gaggle, e.reason,
        e.name, e.ref)))
    (fun ((a, b, c, d, f, g, h, i, j), (k, l, m, n, o, p, q), (r, s, t, u, v, w, x, y)) =>
      ⟨a, b, c, d, f, g, h, i, j, k, l, m, n, o, p, q, r, s, t, u, v, w, x, y⟩)
    (fun _ => rfl)

def openBrace : UInt8 := 0x7B

def closeBrace : UInt8 := 0x7D

/-- Numbers in bytes: the upper half of them are the digits, so that no line breaks. -/
def byteNumeral : Numeral UInt8 where
  base := 128
  mark := 0x2B
  digit r := UInt8.ofNat (128 + r)
  value b := if b.toNat < 128 then none else some (b.toNat - 128)
  base_pos := by decide
  value_mark := by decide
  value_digit := by decide

theorem mem_byteNumeral {b : UInt8} {ns : List Nat} (h : b ∈ byteNumeral.write ns) :
    b = 0x2B ∨ 128 ≤ b.toNat := by
  rcases byteNumeral.mem_write h with rfl | ⟨r, hr, rfl⟩
  · exact .inl rfl
  · have hdigit : ∀ r < 128, 128 ≤ (UInt8.ofNat (128 + r)).toNat := by decide
    exact .inr (hdigit r hr)

/-- An event between braces. An override without a target is refused, as `marshalEvent` does. -/
def textMarshal (ev : Event) : Option Bytes :=
  if ev.type = .gateOverridden ∧ ev.target = "" then none
  else some (openBrace :: (byteNumeral.write (Token.put ev) ++ [closeBrace]))

def textUnmarshal : Bytes → Option Event
  | [] => none
  | _ :: rest => (Token.get (byteNumeral.read 0 rest.dropLast)).map Prod.fst

theorem textUnmarshal_line (ev : Event) :
    textUnmarshal (openBrace :: (byteNumeral.write (Token.put ev) ++ [closeBrace])) = some ev := by
  have h := Token.get_put ev []
  rw [List.append_nil] at h
  simp only [textUnmarshal, List.dropLast_concat]
  rw [byteNumeral.read_write, h]
  rfl

/-- A codec whose lines can be computed. -/
def textCodec : Codec where
  marshalEvent := textMarshal
  scrub := id
  unmarshal := textUnmarshal
  redact := id
  object := by
    intro ev line h
    unfold textMarshal at h
    split at h
    · cases h
    · cases h
      refine ⟨rfl, ?_, ?_⟩
      · rw [id, ← List.cons_append, List.getLast?_concat]
        rfl
      · intro hmem
        rw [id] at hmem
        rcases List.mem_cons.mp hmem with h | h
        · cases h
        · rcases List.mem_append.mp h with h | h
          · rcases mem_byteNumeral h with h | h <;> exact absurd h (by decide)
          · exact absurd (List.mem_singleton.mp h) (by decide)
  decode := by
    intro ev line h
    unfold textMarshal at h
    split at h
    · cases h
    · cases h
      exact textUnmarshal_line ev
  redact_seq _ := rfl
  redact_schema _ := rfl

end Goobers.Journal
