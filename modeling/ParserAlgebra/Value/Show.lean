import ParserAlgebra.Text.Quoted
import ParserAlgebra.Value.Basic

/-!
The two texts of a value.

`literal` is the exact form, with texts in quotes, as it would be written in a program; `display`
is the plain form that messages splice in, where a text stands for itself. They differ only for
texts and type tags: inside a compound value every part has its literal form.
-/
namespace ParserAlgebra

/-- A type tag's name in capitals, qualified by its type. -/
def TypeTag.qualified (t : TypeTag) : String :=
  "VarType." ++ match t with
    | .int => "INT"
    | .string => "STRING"
    | .boolean => "BOOLEAN"

/-- The literal form of a byte buffer, which names its kind unless it is a fixed one. -/
def BufferKind.literal (kind : BufferKind) (data : List UInt8) : String :=
  match kind with
  | .fixed => Text.quotedBytes data
  | .growable => Text.quotedGrowable data
  | .view => "<memory of " ++ Text.quotedBytes data ++ ">"

namespace Value

mutual

/-- The exact form of a value. -/
def literal : Value → String
  | absent => "None"
  | bool b => if b then "True" else "False"
  | int n => toString n
  | real decimal => decimal
  | text s => Text.quoted s
  | list items => "[" ++ ", ".intercalate (literals items) ++ "]"
  | tuple [item] => "(" ++ literal item ++ ",)"
  | tuple items => "(" ++ ", ".intercalate (literals items) ++ ")"
  | bytes kind data => kind.literal data
  | tag t => "<" ++ t.qualified ++ ": " ++ Text.quoted t.word ++ ">"
  | field type value => "Field(type=" ++ literal type ++ ", value=" ++ literal value ++ ")"
  | declaration kind name type value =>
    "Declaration(declaration_type=" ++ literal kind ++ ", name=" ++ literal name ++ ", type=" ++
      literal type ++ ", value=" ++ literal value ++ ")"
  | table entries => "\x7b" ++ ", ".intercalate (entryLiterals entries) ++ "\x7d"

/-- The exact forms of the values of a list. -/
def literals : List Value → List String
  | [] => []
  | v :: rest => literal v :: literals rest

/-- The exact forms of the entries of a table. -/
def entryLiterals : List (Value × Value) → List String
  | [] => []
  | (k, v) :: rest => (literal k ++ ": " ++ literal v) :: entryLiterals rest

end

/-- The plain form of a value. -/
def display : Value → String
  | text s => s
  | tag t => t.qualified
  | v => v.literal

end Value

end ParserAlgebra
