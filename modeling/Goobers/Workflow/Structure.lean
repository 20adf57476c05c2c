import Goobers.Workflow.Definition

/-!
# Structural and reachability checks

Each check returns the texts of the problems it found, none if it passed. The
structural check wants every name declared once and every target to resolve. On a
graph that has passed it, the reachability check wants every state to be reached from
the start and every state to have a way out, where `@join` counts as one.
-/

namespace Goobers.Workflow

open Lib

/-! ## Texts -/

/-- Two hexadecimal digits. -/
def hexByte (n : Nat) : String :=
  let digit (k : Nat) : Char := if k < 10 then Char.ofNat (48 + k) else Char.ofNat (87 + k)
  String.ofList [digit (n / 16 % 16), digit (n % 16)]

/-- A rune inside a quoted text; beyond ASCII all are taken as printable. -/
def quoteRune (r : Char) : String :=
  match r.toNat with
  | 0x22 => "\\\""
  | 0x5C => "\\\\"
  | 0x07 => "\\a"
  | 0x08 => "\\b"
  | 0x0C => "\\f"
  | 0x0A => "\\n"
  | 0x0D => "\\r"
  | 0x09 => "\\t"
  | 0x0B => "\\v"
  | n => if n < 0x20 ∨ n = 0x7F then "\\x" ++ hexByte n else r.toString

/-- The verb `%q`. -/
def quote (s : String) : String := "\"" ++ String.join (s.toList.map quoteRune) ++ "\""

/-- The verb `%v` of a list. -/
def bracketed (xs : List String) : String := "[" ++ " ".intercalate xs ++ "]"

/-- The problem, if the condition holds. -/
def problemIf (c : Bool) (text : String) : List String := if c then [text] else []

@[simp] theorem problemIf_eq_nil_iff {c : Bool} {text : String} :
    problemIf c text = [] ↔ c = false := by
  unfold problemIf
  cases c <;> simp

/-! ## Structure -/

def duplicateProblems (text : String → String) : List String → List String → List String
  | _, [] => []
  | seen, name :: rest =>
    problemIf (name ∈ seen) (text name) ++ duplicateProblems text (name :: seen) rest

section
variable (d : Definition)

def startProblems : List String :=
  if d.start = terminalComplete then ["start state is empty"]
  else problemIf (!d.has d.start) ("start state " ++ quote d.start ++ " is not defined")

/-- The sources a task takes its context from; a repeated one is reported and not looked at
again. -/
def contextFromProblems (t : Task) : List String → List String → List String
  | _, [] => []
  | seen, source :: rest =>
    if source ∈ seen then
      ("task " ++ quote t.name ++ " contextFrom source " ++ quote source ++ " is duplicated") ::
        contextFromProblems t seen rest
    else
      problemIf (!(d.task source).isSome && !(d.gate source).isSome)
        ("task " ++ quote t.name ++ " contextFrom source " ++ quote source ++
          " is not a defined task or gate") ++
        contextFromProblems t (source :: seen) rest

def onTimeoutProblems (t : Task) : List String :=
  (match t.onTimeout with
    | .other name =>
      ["task " ++ quote t.name ++ " onTimeout " ++ quote name ++ " is not one of fail, salvage"]
    | _ => []) ++
  problemIf (t.onTimeout = .salvage && t.type ≠ .agentic)
    ("task " ++ quote t.name ++ " onTimeout=salvage requires an agentic task")

def taskProblems (t : Task) : List String :=
  problemIf (isStateName t.next && !d.has t.next)
    ("task " ++ quote t.name ++ " next state " ++ quote t.next ++ " is not defined") ++
  (match t.minimumIntegrity with
    | .other name =>
      ["task " ++ quote t.name ++ " minimumIntegrity " ++ quote name ++
        " is not one of trusted, maintainer, unapproved, derived"]
    | _ => []) ++
  contextFromProblems d t [] t.contextFrom ++ onTimeoutProblems t

def gateProblems (g : Gate) : List String :=
  problemIf (sortedKeys g.branches).isEmpty ("gate " ++ quote g.name ++ " has no branches") ++
  (sortedKeys g.branches).flatMap (fun outcome =>
    let target := (g.branches.get? outcome).getD ""
    problemIf (isStateName target && !d.has target)
      ("gate " ++ quote g.name ++ " branch " ++ quote outcome ++ " -> " ++ quote target ++
        " is not a defined state"))

def structuralProblems : List String :=
  duplicateProblems (fun name => "duplicate state " ++ quote name) [] d.stateNames ++
    startProblems d ++ d.tasks.flatMap (taskProblems d) ++ d.gates.flatMap (gateProblems d)

/-! ## Reachability -/

/-- The states the run can get to from the start. -/
def reachableStates : List String :=
  walk d.stateNames d.outgoing isTerminal [] [d.start]

/-- One of the state's targets is an exit, or a state known to have one. -/
def exitRule (canExit : List String) (name : String) : Bool :=
  (d.outgoing name).any (fun t => isTerminal t || isReservedBranchTarget t || t ∈ canExit)

/-- The states with a way out, where `@join` counts as one. -/
def exitStates : List String := saturate (exitRule d) d.stateNames []

def reachabilityProblems : List String :=
  d.stateNames.flatMap (fun name =>
    problemIf (name ∉ reachableStates d)
      ("state " ++ quote name ++ " is unreachable from start " ++ quote d.start)) ++
  d.stateNames.flatMap (fun name =>
    problemIf (name ∈ reachableStates d && name ∉ exitStates d)
      ("state " ++ quote name ++ " cannot reach a terminal outcome (loop with no exit)"))

end

/-! ## What a passed check says -/

section
variable {d : Definition}

theorem reachable_of_reachabilityProblems (h : reachabilityProblems d = []) {name : String}
    (hname : name ∈ d.stateNames) : name ∈ reachableStates d := by
  have hnil := List.flatMap_eq_nil_iff.mp (List.append_eq_nil_iff.mp h).1 name hname
  simpa using hnil

theorem exits_of_reachabilityProblems (h : reachabilityProblems d = []) {name : String}
    (hname : name ∈ d.stateNames) : name ∈ exitStates d := by
  have hreach := reachable_of_reachabilityProblems h hname
  have hnil := List.flatMap_eq_nil_iff.mp (List.append_eq_nil_iff.mp h).2 name hname
  simpa [hreach] using hnil

end

end Goobers.Workflow
