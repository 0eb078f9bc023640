import ParserAlgebra.Fault

/-!
Events, and the answers of a grammar's own functions.

Running a grammar leaves a history: log lines, marks set by the grammar's functions, rules built,
step programs finished. A function that a grammar supplies (to transform a result, to test a
character, to word a message) answers with a value or a fault, and with the events it caused on
the way. It sees neither the history nor the parsers, so an answer is plain data.
-/
namespace ParserAlgebra

/-- Who writes a log line. -/
inductive Channel where
  /-- Complete runs that end in a failure. -/
  | runner
  /-- The tracing parsers. -/
  | tracer
deriving DecidableEq, Repr

/-- An entry of the history. -/
inductive Event where
  | log (channel : Channel) (line : String)
  | mark (value : Value)
  | built (rule : String)
  | finished (tag : String)
deriving DecidableEq, Repr

/-- What a supplied function answers: the events it caused, in order, and its value or fault. -/
structure Answer (α : Type) where
  events : List Event
  outcome : Except Fault α

namespace Answer

/-- The answer that only gives a value. -/
@[inline] protected def pure {α : Type} (a : α) : Answer α :=
  ⟨[], .ok a⟩

/-- Answers with the second function once the first has given a value; the events add up. -/
protected def bind {α β : Type} (x : Answer α) (f : α → Answer β) : Answer β :=
  match x.outcome with
  | .ok a =>
    let y := f a
    ⟨x.events ++ y.events, y.outcome⟩
  | .error fault => ⟨x.events, .error fault⟩

instance : Monad Answer where
  pure := Answer.pure
  bind := Answer.bind

/-- The answer that gives up. -/
def raise {α : Type} (fault : Fault) : Answer α :=
  ⟨[], .error fault⟩

/-- The answer that notes one event. -/
def note (event : Event) : Answer Unit :=
  ⟨[event], .ok ()⟩

/-- A value if there is one, else the fault. -/
def ofOption {α : Type} (fault : Fault) : Option α → Answer α
  | some a => Answer.pure a
  | none => raise fault

/-- A silent outcome as an answer. -/
def ofExcept {α : Type} (outcome : Except Fault α) : Answer α :=
  ⟨[], outcome⟩

end Answer

end ParserAlgebra
