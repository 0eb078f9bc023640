import ParserAlgebra.Input

/-!
Parser states.

A state is the whole input, a cursor into it, the last result, and the failure flag with its
message. Nothing ties the fields together: a failed state keeps the index and the result it had,
and a state may carry the message of an earlier failure without being failed.
-/
namespace ParserAlgebra

/-- Where a parse stands. The index counts characters of a text; the bit readers count bits. -/
structure State where
  input : Input
  index : Nat := 0
  result : Value := .absent
  failed : Bool := false
  error : Value := .absent
deriving Repr, DecidableEq, Inhabited

namespace State

/-- The state before anything is read. -/
def initial (input : Input) : State where
  input := input

/-- Moves the cursor and records a new result. -/
def advance (s : State) (index : Nat) (result : Value) : State :=
  { s with index := index, result := result }

/-- Records a new result. -/
def withResult (s : State) (result : Value) : State :=
  { s with result := result }

/-- Marks the state failed; index and result are kept for the report. -/
def withError (s : State) (message : Value) : State :=
  { s with failed := true, error := message }

/-- Marks the state failed with a message in words. -/
def failWith (s : State) (message : String) : State :=
  s.withError (.text message)

/-- What the cursor has not passed yet. -/
def remaining (s : State) : Except Fault Value :=
  s.input.slice s.index s.input.size

/-- The next `length` tokens. -/
def upcoming (s : State) (length : Nat) : Except Fault Value :=
  s.input.slice s.index (s.index + length)

/-- Whether the cursor is at the end or beyond it; a fault when the input has no end. -/
def atEnd (s : State) : Except Fault Bool :=
  if s.input.isSized then .ok (s.input.size ≤ s.index) else .error .typeMismatch

/-- The looser equality of values, on all fields. -/
def alike (s t : State) : Bool :=
  s.input.toValue.alike t.input.toValue && s.index == t.index && s.result.alike t.result &&
    s.failed == t.failed && s.error.alike t.error

end State

/-- The report of a failed parse. -/
structure ParseError where
  index : Nat
  message : Value
deriving Repr, DecidableEq

/-- The report in one line. -/
def ParseError.describe (e : ParseError) : String :=
  "Parse error at index " ++ toString e.index ++ ": " ++ e.message.display

end ParserAlgebra
