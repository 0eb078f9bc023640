import ParserAlgebra.Grammar.Build

/-!
Evaluations of described grammars on inputs.

An evaluation builds a grammar and runs it in a session. Several inputs may be run one after
another in the same session, so that what a deferred object has built for one input is there for
the next; the events of each run are reported apart.
-/
namespace ParserAlgebra

-- ================================================================ replies

/-- What one call of an evaluation leaves: how it ended, and its own events. -/
structure Reply (α : Type) where
  outcome : Outcome α
  events : List Event

/-- Carries out a computation in a session, with its events reported apart. -/
def Session.call {α : Type} (session : Session) (x : Run α) : Reply α × Session :=
  let (outcome, session) := x { session with history := #[] }
  (⟨outcome, session.history.toList⟩, session)

-- ================================================================ runs

/-- How a parser is put to an input. -/
inductive Mode where
  /-- A complete run, reported by its final state. -/
  | run
  /-- A complete run, reported by its result or error. -/
  | verdict
  /-- One application to a state with these fields. -/
  | apply (index : Nat) (result : Expr) (failed : Bool) (error : Expr)

/-- The report of a run. -/
inductive Report where
  | state (s : State)
  | verdict (v : Except ParseError Value)

/-- The input that an expression stands for. -/
def inputOf (e : Expr) : Run Input := do
  return Input.ofValue (← Run.ofAnswer (e.eval []))

/-- Puts a constructed grammar to an input. Only parsers can be run or applied. -/
def Mode.perform (mode : Mode) (rules : Rules) (frame : Nat) (arg : Argument) (input : Expr) :
    Run Report := do
  let input ← inputOf input
  match mode, arg with
  | .run, .parser p => return .state (← p.run rules Parser.ampleFuel frame input)
  | .verdict, .parser p =>
    return .verdict (← p.run rules Parser.ampleFuel frame input).verdict
  | .apply index result failed error, .parser p => do
    let result ← Run.ofAnswer (result.eval [])
    let error ← Run.ofAnswer (error.eval [])
    return .state (← p.eval rules Parser.ampleFuel frame ⟨input, index, result, failed, error⟩)
  | .apply _ _ _ _, _ => Run.raise .typeMismatch
  | _, _ => Run.raise .missingOperation

/-- Builds a grammar and puts it to one input. -/
def Grammar.evaluate (g : Grammar) (defs : Definitions) (mode : Mode) (input : Expr) :
    Reply Report :=
  let whole : Run Report := do
    let (frame, arg) ← g.construct defs
    mode.perform defs.rules frame arg input
  (Session.call {} whole).1

/-- The replies of computations carried out one after another. -/
def Session.callAll {α : Type} (session : Session) : List (Run α) → List (Reply α)
  | [] => []
  | x :: rest =>
    let (reply, session) := session.call x
    reply :: session.callAll rest

/-- Builds a grammar once and puts it to several inputs. A fault of the construction is the only
reply. -/
def Grammar.evaluateAll (g : Grammar) (defs : Definitions) (mode : Mode) (inputs : List Expr) :
    Except (Reply Report) (List (Reply Report)) :=
  match Session.call {} (g.construct defs) with
  | (⟨.done (frame, arg), _⟩, session) =>
    .ok (session.callAll (inputs.map (mode.perform defs.rules frame arg)))
  | (⟨.raised fault, events⟩, _) => .error ⟨.raised fault, events⟩
  | (⟨.exhausted, events⟩, _) => .error ⟨.exhausted, events⟩

-- ================================================================ state histories

/-- What can be done to a state of a history. -/
inductive Deed where
  | advance (index : Nat) (result : Expr)
  | withResult (result : Expr)
  | withError (message : Expr)
  | apply (g : Grammar)
  | remaining
  | compare (other : Nat)
  | assign (field : String)

/-- What a deed reports: a new state, or an observation. -/
inductive Finding where
  | state (s : State)
  | remaining (v : Value)
  | equal (b : Bool)

/-- Does a deed to a state, given the states before. -/
def Deed.perform (defs : Definitions) (states : Array State) (s : State) : Deed → Run Finding
  | .advance index result => return .state (s.advance index (← Run.ofAnswer (result.eval [])))
  | .withResult result => return .state (s.withResult (← Run.ofAnswer (result.eval [])))
  | .withError message => return .state (s.withError (← Run.ofAnswer (message.eval [])))
  | .apply g => do
    match ← g.construct defs with
    | (frame, .parser p) => return .state (← p.eval defs.rules Parser.ampleFuel frame s)
    | _ => Run.raise .typeMismatch
  | .remaining => return .remaining (← Run.ofExcept s.remaining)
  | .compare other =>
    match states[other]? with
    | some t => return .equal (s.alike t)
    | none => Run.raise .outOfRange
  | .assign field => Run.raise (.unassignable field)

/-- Does deeds one after another, each to the latest state or to one chosen by its number. New
states are added to the history; a fault adds nothing. -/
def performAll (defs : Definitions) (session : Session) (states : Array State) :
    List (Option Nat × Deed) → List (Reply Finding)
  | [] => []
  | (chosen, deed) :: rest =>
    let target : Run State :=
      match states[chosen.getD (states.size - 1)]? with
      | some s => return s
      | none => Run.raise .outOfRange
    let (reply, session) := session.call do deed.perform defs states (← target)
    let states :=
      match reply.outcome with
      | .done (.state s) => states.push s
      | _ => states
    reply :: performAll defs session states rest

/-- The initial state on an input, and the replies of deeds done from it. -/
def stateHistory (defs : Definitions) (input : Expr) (deeds : List (Option Nat × Deed)) :
    Except (Reply Finding) (State × List (Reply Finding)) :=
  match Session.call {} (inputOf input) with
  | (⟨.done input, _⟩, session) =>
    let s := State.initial input
    .ok (s, performAll defs session #[s] deeds)
  | (⟨.raised fault, events⟩, _) => .error ⟨.raised fault, events⟩
  | (⟨.exhausted, events⟩, _) => .error ⟨.exhausted, events⟩

end ParserAlgebra
