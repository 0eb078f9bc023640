import ParserAlgebra.Expr.Basic
import ParserAlgebra.Fault

/-!
Described grammars.

A description is a tree of combinators whose functions are expressions over the variables in
scope. The body of a continuation and the steps of a step program are described too: they are
built at each run, with the values read so far as variables. A description may name the
definitions of its grammar, and so refer to itself.
-/
namespace ParserAlgebra

/-- How a continuation is attached: by an operation of the parser or by an operator. -/
inductive Attachment where
  | operation
  | operator
deriving DecidableEq, Repr

/-- The parsers without parameters. -/
inductive Ready where
  | letters | digits | spaces | endOfInput
  | bit | zero | one
  | keyword | variableName | typeName | declaration | declarations
  | fixedHeader | header
deriving DecidableEq, Repr

mutual

/-- Descriptions of parsers. -/
inductive Grammar where
  | ready (p : Ready)
  /-- A plain value in the place of a parser. -/
  | value (e : Expr)
  | list (items : List Grammar)
  | tuple (items : List Grammar)
  /-- One of two descriptions, by the truth of a condition. -/
  | branch (condition : Expr) (yes no : Grammar)
  /-- A definition, built in place. -/
  | reference (name : String)
  /-- A definition, built with the variables in scope when it is first run. -/
  | deferred (name : String)
  /-- A definition, built without variables once for the whole grammar. -/
  | shared (name : String)
  | jump (index result : Expr)
  | succeed (value : Expr)
  | fail (message : Expr)
  | lookAhead (g : Grammar)
  | many (g : Grammar)
  | many1 (g : Grammar)
  | expect (g : Grammar) (expected : Expr) (message : Option Expr)
  | map (g : Grammar) (e : Expr)
  /-- Goes on with the body, which is built with the result as a variable at each run. -/
  | chain (attachment : Attachment) (g : Grammar) (name : String) (body : Grammar)
  | errorMap (g : Grammar) (e : Expr)
  | label (g : Grammar) (name : Expr)
  | orElse (left right : Grammar)
  | both (left right : Grammar)
  | keepRight (left right : Grammar)
  | keepLeft (left right : Grammar)
  | satisfy (test : Expr) (name : Expr)
  | char (c : Expr)
  | literal (expected : Expr)
  | pattern (written name : String)
  | sequence (items : List Grammar)
  | choice (items : List Grammar)
  | sepBy (separator value : Grammar)
  | sepBy1 (separator value : Grammar)
  | between (left right value : Grammar)
  | count (n : Expr) (g : Grammar)
  | option (default : Expr) (g : Grammar)
  | trace (label : String)
  | traced (label : String) (g : Grammar)
  | integer (sign : Signedness) (width : Expr)
  | rawString (literal : Expr)
  | typedLiteral (type : Expr)
  | contextual (steps : List Step) (result : Expr) (tag : Option String)

/-- The steps of a described step program. -/
inductive Step where
  /-- Builds a parser, runs it, and may keep its result in a variable. -/
  | yield (g : Grammar) (name : Option String)
  | set (name : String) (e : Expr)
  | branch (condition : Expr) (yes no : List Step)
  | times (n : Expr) (body : List Step)

end

instance : Inhabited Grammar := ⟨.value (.constant .absent)⟩

end ParserAlgebra
