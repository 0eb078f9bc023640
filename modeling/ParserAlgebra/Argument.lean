import ParserAlgebra.Parser.Combinators
import ParserAlgebra.Value.Operators

/-!
Combinators applied to arbitrary arguments.

A described grammar may hand a combinator something that is no parser. Each combinator has its
own way of noticing: those that take any number of parsers look at once, those that use an
operation of their first argument find it missing at once, and the rest notice only when the
argument is to be run, which may never happen.
-/
namespace ParserAlgebra

/-- What can be handed to a combinator: a parser, a plain value, or a list or tuple of arguments. -/
inductive Argument where
  | parser (p : Parser)
  | plain (value : Value)
  | list (items : List Argument)
  | tuple (items : List Argument)

namespace Argument

/-- The name by which messages call an argument's kind. -/
def kindName : Argument → String
  | parser _ => "Parser"
  | plain value => value.kindName
  | list _ => "list"
  | tuple _ => "tuple"

/-- The items of a list or tuple, whether of parsers or of plain values. -/
def items? : Argument → Option (List Argument)
  | list items => some items
  | tuple items => some items
  | plain (.list values) => some (values.map plain)
  | plain (.tuple values) => some (values.map plain)
  | _ => none

-- ================================================================ how a non-parser is noticed

/-- The argument as a parser that is only looked at when it is run. -/
def onRun : Argument → Parser
  | parser p => p
  | _ => .raise .typeMismatch

/-- The parser of which an operation is used. -/
def receiver : Argument → Except Fault Parser
  | parser p => .ok p
  | _ => .error .missingOperation

/-- The left operand of an operator that only parsers have. -/
def operand : Argument → Except Fault Parser
  | parser p => .ok p
  | _ => .error .typeMismatch

/-- The parser that a continuation gives. -/
def asContinuation : Argument → Parser
  | parser p => p
  | other => .raise (.continuationNotParser other.kindName)

/-- The parsers among which a collecting combinator was asked to work. A single list or tuple
stands for its items. -/
def collect (collector : Collector) (args : List Argument) : Except Fault (List Parser) :=
  match args with
  | [arg] => (arg.items?.getD [arg]).mapM check
  | args => args.mapM check
where
  /-- An argument that has to be a parser. -/
  check : Argument → Except Fault Parser
    | parser p => .ok p
    | other => .error (.argumentNotParser collector other.kindName)

-- ================================================================ collecting combinators

/-- All arguments one after another. -/
def sequence (args : List Argument) : Except Fault Parser :=
  (collect .sequence args).map .sequence

/-- The first argument that succeeds. -/
def choice (args : List Argument) : Except Fault Parser :=
  (collect .choice args).map .choice

/-- An argument between two others. -/
def between (left right arg : Argument) : Except Fault Parser :=
  (sequence [left, arg, right]).map fun p => p.mapPure (Parser.itemAt 1)

/-- How often a repeated argument is asked for: a whole number, or a fraction that is not
positive. -/
def times : Value → Except Fault Nat
  | .bool b => .ok (if b then 1 else 0)
  | .int n => .ok n.toNat
  | .real decimal =>
    if decimal.startsWith "-" || decimal == "0.0" then .ok 0 else .error .typeMismatch
  | _ => .error .typeMismatch

/-- An argument a number of times. No times at all succeeds whatever the argument is. -/
def count (n : Value) (arg : Argument) : Except Fault Parser := do
  match ← times n with
  | 0 => .ok (.succeed (.list []))
  | n => sequence (List.replicate n arg)

-- ================================================================ operators

/-!
The signs of the binary combinators have a meaning for plain values too: two of them give a plain
value, which is no parser, unless they cannot be combined at all.
-/

/-- What an operator gives for two plain values. -/
def ofCombination (value : Option Value) : Except Fault Argument :=
  match value with
  | some value => .ok (plain value)
  | none => .error .typeMismatch

/-- The right argument when the left fails. -/
def orElse : Argument → Argument → Except Fault Argument
  | parser p, right => .ok (parser (p.orElse right.onRun))
  | plain a, plain b => ofCombination (a.union? b)
  | _, _ => .error .typeMismatch

/-- An argument, or a default when it fails. -/
def option (default : Value) (arg : Argument) : Except Fault Parser :=
  arg.operand.map (Parser.option default)

/-- Both arguments, with both results. -/
def both : Argument → Argument → Except Fault Argument
  | parser p, parser q => .ok (parser (p.both q))
  | parser p, _ => .ok (parser (p.chain fun _ => .raise .missingOperation))
  | plain a, plain b => ofCombination (a.meet? b)
  | _, _ => .error .typeMismatch

/-- The first parser's result, unless the second argument is none. -/
def keepFirst (p : Parser) : Argument → Parser
  | parser q => p.keepLeft q
  | _ => p.chain fun _ => .raise .missingOperation

/-- The second argument's result, unless it is no parser. -/
def keepSecond (p : Parser) (right : Argument) : Parser :=
  p.chain fun _ => right.asContinuation

/-- Both arguments, with the right result. A comparison sign can be read from either side, so a
parser on the right alone takes it over as `keepLeft`. -/
def keepRight : Argument → Argument → Except Fault Argument
  | parser p, right => .ok (parser (keepSecond p right))
  | left, parser q => .ok (parser (keepFirst q left))
  | plain a, plain b => ofCombination ((b.less? a).map .bool)
  | _, _ => .error .typeMismatch

/-- Both arguments, with the left result; read from the right like `keepRight`. -/
def keepLeft : Argument → Argument → Except Fault Argument
  | parser p, right => .ok (parser (keepFirst p right))
  | left, parser q => .ok (parser (keepSecond q left))
  | plain a, plain b => ofCombination ((a.less? b).map .bool)
  | _, _ => .error .typeMismatch

end Argument

end ParserAlgebra
