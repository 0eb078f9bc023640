import ParserAlgebra.Answer
import ParserAlgebra.Grammar.Basic
import ParserAlgebra.Pattern.Matcher
import ParserAlgebra.State

/-!
Parsers as data.

A parser is a finite tree: leaves that read from the input, and combinators that run other
parsers. Where the next parser depends on a value just read, the tree branches over all values,
so every finite tree can be run by recursion on it, and facts about all parsers are proved by
induction on it.

Recursive grammars need more than a tree. A `deferred` node stands for a tree that is built when
the node is run: a rule of the grammar, by name, or a described body, each closed over the
variables in scope. A body is built at every run. A rule is built once for each object that
refers to it. Each time a tree is built it gets a frame, and a node with a numbered site is one
object per frame, so copies of a node with one number are the same object.
-/
namespace ParserAlgebra

/-- A named rule, closed over the variables it may use. -/
structure Rule where
  name : String
  scope : Scope
deriving DecidableEq, Repr

/-- Where a tree that is built at run time is put to use. -/
inductive Place where
  | rule
  | continuation
  | step
deriving DecidableEq, Repr

/-- The fault of something other than a parser in such a place. -/
def Place.notParser (place : Place) (kind : String) : Fault :=
  match place with
  | .rule => .deferredNotParser kind
  | .continuation => .continuationNotParser kind
  | .step => .stepNotParser kind

/-- What a deferred node stands for. -/
inductive Deferred where
  /-- A rule, as the object at a numbered site of its frame. -/
  | own (site : Nat) (rule : Rule)
  /-- A rule, as the single object of that rule in the whole grammar. -/
  | shared (rule : Rule)
  /-- A described body, built anew at each run. -/
  | body (place : Place) (g : Grammar) (scope : Scope)

mutual

/-- Parsers. -/
inductive Parser where
  /-- Gives a value and reads nothing. -/
  | succeed (value : Value)
  /-- Fails with a message. -/
  | fail (message : Value)
  /-- Reads one token that passes a test; the name is for messages. -/
  | satisfy (test : Value → Answer Bool) (name : String)
  /-- Reads exactly this literal. -/
  | literal (expected : Value)
  /-- Reads what a pattern matches at the cursor; the name is for messages. -/
  | pattern (shape : Matcher) (name : String)
  /-- Succeeds when nothing is left. -/
  | endOfInput
  /-- Reads one bit. -/
  | bit
  /-- Moves the cursor anywhere, with a new result. -/
  | jump (target : Nat → Answer (Nat × Value))
  /-- Returns the state as it is, with the result it has, if a value is alike to the expected one.
  The message of a failure sees the value and the index of the last unit read. -/
  | check (value expected : Value) (message : Option (Value → Int → Answer Value))
  /-- Transforms the result. -/
  | map (p : Parser) (f : Value → Answer Value)
  /-- Goes on with the parser that the result selects. -/
  | chain (p : Parser) (next : Value → Parser)
  /-- Rewords the message of a failure, from the old message and the index. -/
  | errorMap (p : Parser) (f : Value → Nat → Answer Value)
  /-- Takes the result and gives back the input. -/
  | lookAhead (p : Parser)
  /-- Zero or more times. -/
  | many (p : Parser)
  /-- One or more times. -/
  | many1 (p : Parser)
  /-- The second parser from the same start when the first fails. -/
  | orElse (p q : Parser)
  /-- Zero or more values with separators between them. -/
  | sepBy (separator value : Parser)
  /-- One or more values with separators between them. -/
  | sepBy1 (separator value : Parser)
  /-- All parsers one after another; the result lists theirs. -/
  | sequence (ps : List Parser)
  /-- The first parser that succeeds, each from the same start. -/
  | choice (ps : List Parser)
  /-- Runs a step program; the tag, if any, is noted when the program ends. -/
  | contextual (tag : Option String) (program : Program)
  /-- Runs a tree that is built at run time. -/
  | deferred (object : Deferred)
  /-- Logs the upcoming input and leaves the state as it is. -/
  | trace (label : String)
  /-- Logs before a parser is run and again when it fails. -/
  | traced (label : String) (p : Parser)
  /-- Raises a fault. -/
  | raise (fault : Fault)

/-- Step programs: they hand out parsers one by one and get the results back. -/
inductive Program where
  /-- Ends with a result. -/
  | done (value : Value)
  /-- Hands out a parser and goes on with its result. -/
  | step (p : Parser) (next : Value → Program)
  /-- A program that caused these events. -/
  | noting (events : List Event) (rest : Program)
  /-- Raises a fault. -/
  | raise (fault : Fault)

end

instance : Inhabited Parser := ⟨.endOfInput⟩

end ParserAlgebra
