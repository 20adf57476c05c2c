import Goobers.Lib.Lines
import Goobers.Journal.Event

/-!
# Parsing `events.jsonl`

`parseEventRecords` cuts the data at its last newline, scans the complete part
line by line, strips white space and crash-time NUL fill from each line, skips
what is then empty and decodes the rest. A complete line that does not decode is
corruption; the bytes after the last newline are a torn write and only counted.

`json.Unmarshal` is the parameter `unmarshal`.
-/

namespace Goobers.Journal

open Lib List

abbrev Bytes := List UInt8

def newline : UInt8 := 0x0A

/-- The bound on one event line, its newline included. -/
def maxEventBytes : Nat := 8 * 1024 * 1024

/-! ## White space and crash fill -/

/-- The UTF-8 encodings of the code points `unicode.IsSpace` accepts. -/
def spaceEncodings : List Bytes :=
  [[0x09], [0x0A], [0x0B], [0x0C], [0x0D], [0x20], [0xC2, 0x85], [0xC2, 0xA0],
   [0xE1, 0x9A, 0x80],
   [0xE2, 0x80, 0x80], [0xE2, 0x80, 0x81], [0xE2, 0x80, 0x82], [0xE2, 0x80, 0x83],
   [0xE2, 0x80, 0x84], [0xE2, 0x80, 0x85], [0xE2, 0x80, 0x86], [0xE2, 0x80, 0x87],
   [0xE2, 0x80, 0x88], [0xE2, 0x80, 0x89], [0xE2, 0x80, 0x8A],
   [0xE2, 0x80, 0xA8], [0xE2, 0x80, 0xA9], [0xE2, 0x80, 0xAF],
   [0xE2, 0x81, 0x9F], [0xE3, 0x80, 0x80]]

/-- Drop one of `encodings` from the front, as long as one is there. -/
def trimEncodings (encodings : List Bytes) : Nat → Bytes → Bytes
  | 0, data => data
  | fuel + 1, data =>
    match encodings.find? (fun e => e.isPrefixOf data) with
    | none => data
    | some e => trimEncodings encodings fuel (data.drop e.length)

/-- Go's `bytes.TrimSpace`. No encoding is empty, so the length bounds the steps. -/
def trimSpace (data : Bytes) : Bytes :=
  let front := trimEncodings spaceEncodings data.length data
  (trimEncodings (spaceEncodings.map List.reverse) front.length front.reverse).reverse

/-- What a reader makes of a complete line: leading NUL fill is stripped too. -/
def cleanLine (line : Bytes) : Bytes :=
  let trimmed := trimSpace line
  let stripped := trimmed.dropWhile (· = 0)
  if stripped.length ≠ trimmed.length then trimSpace stripped else trimmed

/-! ## Object lines -/

structure IsObjectLine (line : Bytes) : Prop where
  first : line.head? = some 0x7B
  last : line.getLast? = some 0x7D
  oneLine : newline ∉ line

theorem trimEncodings_cons {encodings : List Bytes} {x : UInt8}
    (h : ∀ e ∈ encodings, e ≠ [] ∧ e.head? ≠ some x) (fuel : Nat) (rest : Bytes) :
    trimEncodings encodings fuel (x :: rest) = x :: rest := by
  cases fuel with
  | zero => rfl
  | succ fuel =>
    have hnone : encodings.find? (fun e => e.isPrefixOf (x :: rest)) = none := by
      rw [find?_eq_none]
      intro e he
      obtain ⟨hne, hhead⟩ := h e he
      cases e with
      | nil => exact absurd rfl hne
      | cons y e =>
        have hyx : y ≠ x := by simpa using hhead
        simp [hyx]
    simp [trimEncodings, hnone]

theorem IsObjectLine.trimSpace_eq {line : Bytes} (h : IsObjectLine line) :
    trimSpace line = line := by
  obtain ⟨rest, hrest⟩ := head?_eq_some_iff.mp h.first
  obtain ⟨front, hfront⟩ := getLast?_eq_some_iff.mp h.last
  have hleft : trimEncodings spaceEncodings line.length line = line := by
    rw [hrest]
    exact trimEncodings_cons (by decide) _ _
  have hright : trimEncodings (spaceEncodings.map reverse) line.length line.reverse
      = line.reverse := by
    rw [hfront, reverse_append]
    exact trimEncodings_cons (by decide) _ _
  unfold trimSpace
  simp [hleft, hright]

theorem IsObjectLine.cleanLine_eq {line : Bytes} (h : IsObjectLine line) :
    cleanLine line = line := by
  obtain ⟨rest, hrest⟩ := head?_eq_some_iff.mp h.first
  have hstrip : line.dropWhile (· = 0) = line := by
    rw [hrest, dropWhile_cons_of_neg (by decide)]
  unfold cleanLine
  simp [h.trimSpace_eq, hstrip]

theorem IsObjectLine.ne_nil {line : Bytes} (h : IsObjectLine line) : line ≠ [] := by
  intro hnil
  have := h.first
  simp [hnil] at this

/-- The bytes of an ASCII text. -/
def asciiBytes (s : String) : Bytes := s.toList.map (fun ch => ch.toNat.toUInt8)

/-! ## Records -/

/-- Why a read refuses the log. -/
inductive ReadError where
  | corrupt
  | tooLong
  | schema (found : String)
  deriving DecidableEq, Repr

/-- One complete record, with the JSON text it was decoded from. -/
structure EventRecord where
  event : Event
  raw : Bytes
  deriving DecidableEq, Repr

variable (unmarshal : Bytes → Option Event)

/-- The scanner loop. A line that does not fit the scanner's buffer stops it. -/
def scanRecords : List Bytes → Except ReadError (List EventRecord)
  | [] => .ok []
  | l :: ls =>
    if l.length + 1 > maxEventBytes then .error .tooLong
    else
      let line := cleanLine l
      if line = [] then scanRecords ls
      else
        match unmarshal line with
        | none => .error .corrupt
        | some ev =>
          match scanRecords ls with
          | .error e => .error e
          | .ok records => .ok (⟨ev, line⟩ :: records)

def parseEventRecords (data : Bytes) : Except ReadError (List EventRecord × Nat) :=
  match scanRecords unmarshal (lines newline (complete newline data)) with
  | .error e => .error e
  | .ok records => .ok (records, (tornTail newline data).length)

/-- The first event whose envelope version is not ours. -/
def validateEventSchemas (events : List Event) : Except ReadError Unit :=
  match events.find? (fun ev => ev.schema ≠ eventSchema) with
  | some ev => .error (.schema ev.schema)
  | none => .ok ()

def readEvents (data : Bytes) : Except ReadError (List Event × Nat) :=
  match parseEventRecords unmarshal data with
  | .error e => .error e
  | .ok (records, tornBytes) =>
    let events := records.map EventRecord.event
    match validateEventSchemas events with
    | .error e => .error e
    | .ok () => .ok (events, tornBytes)

/-! ## What a read returns -/

/-- The event a complete line holds, if it holds one. -/
def decodeLine (line : Bytes) : Option Event :=
  if cleanLine line = [] then none else unmarshal (cleanLine line)

/-- A line the reader gets past: within the bound, and fill or an event. -/
def LineOk (line : Bytes) : Prop :=
  line.length + 1 ≤ maxEventBytes ∧
    (cleanLine line = [] ∨ ∃ ev, unmarshal (cleanLine line) = some ev)

/-- The scan accepts exactly the lines that decode, and returns what they decode to. -/
theorem scanRecords_ok_iff {ls : List Bytes} {records : List EventRecord} :
    scanRecords unmarshal ls = .ok records ↔
      (∀ l ∈ ls, LineOk unmarshal l) ∧
        records = ls.filterMap
          (fun l => (decodeLine unmarshal l).map (fun ev => ⟨ev, cleanLine l⟩)) := by
  induction ls generalizing records with
  | nil => simp [scanRecords]
  | cons l ls ih =>
    unfold scanRecords
    simp only [mem_cons, forall_eq_or_imp, filterMap_cons]
    by_cases hlen : l.length + 1 > maxEventBytes
    · rw [if_pos hlen]
      simp only [reduceCtorEq, false_iff]
      intro h
      exact absurd h.1.1.1 (by omega)
    · rw [if_neg hlen]
      by_cases hfill : cleanLine l = []
      · have hok : LineOk unmarshal l := ⟨by omega, Or.inl hfill⟩
        simp [hfill, decodeLine, ih, hok]
      · cases hev : unmarshal (cleanLine l) with
        | none => simp [hfill, hev, LineOk]
        | some ev =>
          have hok : LineOk unmarshal l := ⟨by omega, Or.inr ⟨ev, hev⟩⟩
          cases hrest : scanRecords unmarshal ls with
          | error e =>
            simp only [hfill, if_false, reduceCtorEq, false_iff]
            intro h
            have := ih.mpr ⟨h.1.2, rfl⟩
            rw [hrest] at this
            cases this
          | ok rs =>
            have hrs := ih.mp hrest
            have hdec : decodeLine unmarshal l = some ev := by
              simp [decodeLine, hfill, hev]
            simp only [hfill, if_false, hdec, hok, true_and,
              Except.ok.injEq]
            rw [← hrs.2]
            exact ⟨fun h => ⟨hrs.1, h.symm⟩, fun h => h.2.symm⟩

theorem scanRecords_events {ls : List Bytes} {records : List EventRecord}
    (h : scanRecords unmarshal ls = .ok records) :
    records.map EventRecord.event = ls.filterMap (decodeLine unmarshal) := by
  rw [((scanRecords_ok_iff unmarshal).mp h).2, map_filterMap]
  congr 1
  funext l
  cases decodeLine unmarshal l <;> rfl

theorem validateEventSchemas_ok_iff {events : List Event} :
    validateEventSchemas events = .ok () ↔ ∀ ev ∈ events, ev.schema = eventSchema := by
  unfold validateEventSchemas
  cases h : events.find? (fun ev => ev.schema ≠ eventSchema) with
  | none =>
    simpa using h
  | some ev =>
    have hmem := mem_of_find?_eq_some h
    have hne := find?_some h
    simp only [reduceCtorEq, false_iff]
    intro hall
    simp [hall ev hmem] at hne

/-- What the full read accepts, and what it returns. -/
theorem readEvents_ok_iff {data : Bytes} {events : List Event} {tornBytes : Nat} :
    readEvents unmarshal data = .ok (events, tornBytes) ↔
      (∀ l ∈ lines newline data, LineOk unmarshal l) ∧
        events = (lines newline data).filterMap (decodeLine unmarshal) ∧
        (∀ ev ∈ events, ev.schema = eventSchema) ∧
        tornBytes = (tornTail newline data).length := by
  unfold readEvents parseEventRecords
  rw [lines_complete]
  cases hscan : scanRecords unmarshal (lines newline data) with
  | error e =>
    simp only [reduceCtorEq, false_iff]
    intro h
    have := (scanRecords_ok_iff unmarshal).mpr ⟨h.1, rfl⟩
    rw [hscan] at this
    cases this
  | ok records =>
    have hok := ((scanRecords_ok_iff unmarshal).mp hscan).1
    have hevents := scanRecords_events unmarshal hscan
    simp only [hevents]
    cases hval : validateEventSchemas ((lines newline data).filterMap (decodeLine unmarshal)) with
    | error e =>
      simp only [reduceCtorEq, false_iff]
      intro ⟨_, hev, hall, _⟩
      have := validateEventSchemas_ok_iff.mpr (hev ▸ hall)
      rw [hval] at this
      cases this
    | ok u =>
      have hall := validateEventSchemas_ok_iff.mp hval
      simp only [Except.ok.injEq, Prod.mk.injEq]
      exact ⟨fun ⟨h1, h2⟩ => ⟨hok, h1.symm, h1 ▸ hall, h2.symm⟩,
        fun ⟨_, h1, _, h2⟩ => ⟨h1.symm, h2.symm⟩⟩

end Goobers.Journal
