import ParserAlgebra.Value.Show

/-!
What goes wrong when parsers are misused.

A parse that fails is an ordinary state. A fault is different: the grammar itself is wrong, or a
function it calls refuses its argument, and the whole run is abandoned. Faults are listed by
cause; those that the parsers raise on their own account carry a message, all others only their
kind.
-/
namespace ParserAlgebra

/-- The two combinators that take any number of parsers. -/
inductive Collector where
  | sequence
  | choice
deriving DecidableEq, Repr

/-- The combinator's name in messages. -/
def Collector.label : Collector → String
  | .sequence => "sequence_of"
  | .choice => "choice"

/-- How the bits of an integer field are read. -/
inductive Signedness where
  | unsigned
  | signed
deriving DecidableEq, Repr

/-- The reader's name in messages. -/
def Signedness.label : Signedness → String
  | .unsigned => "Uint"
  | .signed => "Int"

/-- The widest integer field, in bits. -/
def maxWidth : Nat := 32

/-- The causes for which a run is abandoned. -/
inductive Fault where
  /-- A deferred rule was built and turned out to be no parser. -/
  | deferredNotParser (kind : String)
  /-- The continuation of a parser gave no parser. -/
  | continuationNotParser (kind : String)
  /-- A combinator of many parsers was given something else among them. -/
  | argumentNotParser (collector : Collector) (kind : String)
  /-- A step program handed out something that is no parser. -/
  | stepNotParser (kind : String)
  /-- A literal text to match was empty. -/
  | emptyLiteral
  /-- A field width that is no whole number. -/
  | widthNotInteger (sign : Signedness) (width : Value)
  /-- A field width below one bit. -/
  | widthTooSmall (sign : Signedness) (width : Int)
  /-- A field width above `maxWidth` bits. -/
  | widthTooLarge (sign : Signedness) (width : Int)
  /-- A literal of raw bytes was empty. -/
  | emptyRawLiteral
  /-- A character of a raw literal is no single byte. -/
  | wideRawCharacter (c : Char)
  /-- There is no literal syntax for such a type. -/
  | unknownType (type : Value)
  /-- A grammar's own function gave up with this message. -/
  | user (message : Value)
  /-- A state was asked to change one of its fields in place. -/
  | unassignable (field : String)
  /-- A value of the wrong kind for what was done with it. -/
  | typeMismatch
  /-- A value that lacks the operation asked of it. -/
  | missingOperation
  /-- A text that is no numeral, or a number with too many digits. -/
  | malformedNumeral
  /-- A position outside a list. -/
  | outOfRange
  /-- A key that a table does not have. -/
  | missingKey
  /-- A division by zero. -/
  | zeroDivision
  /-- A name that nothing is bound to. -/
  | unbound (name : String)
  /-- A definition that is part of itself, so that building it would never end. -/
  | circular (name : String)
  /-- A pattern that does not follow the pattern syntax. -/
  | malformedPattern
  /-- Bytes that are no encoded text. -/
  | undecodable
deriving Repr, DecidableEq

/-- The message of a fault; nothing for the faults that carry only their kind. -/
def Fault.message? : Fault → Option String
  | deferredNotParser kind => some ("lazy: thunk must return a Parser, got " ++ kind)
  | continuationNotParser kind => some ("chain: continuation must return a Parser, got " ++ kind)
  | argumentNotParser collector kind =>
    some (collector.label ++ ": expected Parser arguments, got " ++ kind)
  | stepNotParser kind =>
    some ("contextual: yielded values must always be parsers, got " ++ kind)
  | emptyLiteral => some "string: literal must not be empty"
  | widthNotInteger sign width =>
    some (sign.label ++ ": n must be an integer, but got " ++ width.literal)
  | widthTooSmall sign width =>
    some (sign.label ++ ": n must be larger than 0, but got " ++ toString width)
  | widthTooLarge sign width =>
    some (sign.label ++ ": n must be at most " ++ toString maxWidth ++ ", but got " ++
      toString width)
  | emptyRawLiteral => some "RawString: s must be at least 1 character"
  | wideRawCharacter c =>
    some ("RawString: " ++ Text.quoted (String.singleton c) ++ " does not fit in a single byte")
  | unknownType type => some ("value_parser: unknown type " ++ type.literal)
  | user message => some message.display
  | unassignable field => some ("cannot assign to field " ++ Text.quoted field)
  | typeMismatch | missingOperation | malformedNumeral | outOfRange | missingKey
  | zeroDivision | unbound _ | circular _ | malformedPattern | undecodable => none

end ParserAlgebra
