import ParserAlgebra.Argument
import ParserAlgebra.Parser.Denote

/-!
Running parsers with the rules of a grammar.

`Parser.eval` closes what `Parser.denote` leaves open with one number: at fuel `n` a repetition
may take `n` rounds and deferred nodes may nest `n` deep. A run that finishes does not depend on
the fuel, and one that does not finish ends `exhausted`.

A body is built whenever its node is run. A rule is built when an object that stands for it is
first run, and remembered in the session from then on; a rule whose construction faults is not
remembered, so the next run of the object builds it again.
-/
namespace ParserAlgebra

/-- What a grammar builds at run time: its rules, and the bodies within its descriptions. -/
structure Rules where
  rule : Rule → Answer Argument
  body : Grammar → Scope → Answer Argument

/-- The grammar without rules, in which nothing is left to build. -/
def noRules : Rules where
  rule rule := .raise (.unbound rule.name)
  body _ _ := .raise .missingOperation

-- ================================================================ building at run time

/-- Builds a tree in a frame of its own. -/
def build (place : Place) (tree : Answer Argument) : Run Instance := do
  match ← Run.ofAnswer tree with
  | .parser p => return ⟨← Run.openFrame, p⟩
  | other => Run.raise (place.notParser other.kindName)

/-- The parser of an object that stands for a rule: the one remembered, or else a new one. -/
def fetch (rules : Rules) (slot : Slot) : Run Instance := do
  match ← Run.lookup slot with
  | some object => return object
  | none =>
    Run.note [.built slot.rule.name]
    let object ← build .rule (rules.rule slot.rule)
    Run.remember slot object
    return object

/-- The parser of a deferred node of a frame. -/
def resolve (rules : Rules) (frame : Nat) : Deferred → Run Instance
  | .own site rule => fetch rules ⟨some (frame, site), rule⟩
  | .shared rule => fetch rules ⟨none, rule⟩
  | .body place g scope => build place (rules.body g scope)

-- ================================================================ runs

section

variable {m : Type → Type} [Machine m]

/-- What deferred nodes do while they may nest `fuel` deep; `find` gives the parser of such a node
of a frame, and is told the state that it is run from. -/
def deferral (find : (frame : Nat) → Deferred → State → m Instance) :
    (fuel frame : Nat) → Deferred → State → m State
  | 0, _, _, _ => Machine.exhaust
  | fuel + 1, frame, object, s => do
    let tree ← find frame object s
    tree.parser.denote (deferral find fuel tree.frame) fuel s

/-- Runs a parser, built in `frame`, whose deferred nodes have the parsers that `find` gives. -/
def Parser.execute (find : (frame : Nat) → Deferred → State → m Instance) (fuel : Nat)
    (p : Parser) (frame : Nat) (s : State) : m State :=
  p.denote (deferral find fuel frame) fuel s

end

namespace Parser

/-- Runs a parser, built in `frame`, with the rules of a grammar. -/
def eval (rules : Rules) (fuel : Nat) (p : Parser) (frame : Nat) (s : State) : Run State :=
  p.execute (fun frame object _ => resolve rules frame object) fuel frame s

-- ================================================================ complete runs

/-- The fuel of ordinary runs, far more than any input in memory can use. -/
def ampleFuel : Nat := 1 <<< 60

/-- Runs a parser on a complete input. A failure is logged. -/
def run (rules : Rules) (fuel : Nat) (p : Parser) (frame : Nat) (input : Input) : Run State := do
  let t ← p.eval rules fuel frame (.initial input)
  if t.failed then
    Run.log .runner ("parse failed at index " ++ toString t.index ++ ": " ++ t.error.display)
  return t

end Parser

/-- A final state as a result or a report. A message that counts as false is reported as empty. -/
def State.verdict (s : State) : Except ParseError Value :=
  if s.failed then
    .error ⟨s.index, if s.error.isTrue then s.error else .text ""⟩
  else .ok s.result

/-- Runs a parser without rules on a complete input, in a session of its own. -/
def Parser.parse (p : Parser) (input : Input) : Outcome State :=
  (p.run noRules ampleFuel 0 input {}).1

end ParserAlgebra
