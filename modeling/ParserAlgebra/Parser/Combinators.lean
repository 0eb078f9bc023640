import ParserAlgebra.Parser.Basic
import ParserAlgebra.Pattern.Bounds

/-!
Combinators defined from the primitive ones.
-/
namespace ParserAlgebra.Parser

-- ================================================================ sequencing

/-- Transforms the result by a function that always answers. -/
def mapPure (p : Parser) (f : Value → Value) : Parser :=
  p.map fun v => .pure (f v)

/-- Both parsers in order, with the pair of their results. -/
def both (p q : Parser) : Parser :=
  p.chain fun first => q.mapPure fun second => .tuple [first, second]

/-- Both parsers in order, with the second result. -/
def keepRight (p q : Parser) : Parser :=
  p.chain fun _ => q

/-- Both parsers in order, with the first result. -/
def keepLeft (p q : Parser) : Parser :=
  p.chain fun first => q.mapPure fun _ => first

/-- Lets only results alike to `expected` through. -/
def expect (p : Parser) (expected : Value) (message : Option (Value → Int → Answer Value)) :
    Parser :=
  p.chain fun value => check value expected message

/-- The item at a position of a list or tuple. -/
def itemAt (i : Nat) : Value → Value
  | .list items => items.getD i .absent
  | .tuple items => items.getD i .absent
  | _ => .absent

/-- A parser between two others, with its result alone. -/
def between (left right p : Parser) : Parser :=
  (sequence [left, p, right]).mapPure (itemAt 1)

/-- A parser `n` times, with the list of the results. -/
def count (n : Nat) (p : Parser) : Parser :=
  if n = 0 then succeed (.list []) else sequence (List.replicate n p)

/-- A parser, or a default value when it fails. -/
def option (default : Value) (p : Parser) : Parser :=
  p.orElse (succeed default)

-- ================================================================ messages

/-- Names what a parser reads in the message of its failure. -/
def label (p : Parser) (name : Value) : Parser :=
  p.errorMap fun _ index =>
    .pure (.text ("expected " ++ name.display ++ " at index " ++ toString index))

-- ================================================================ characters

/-- Reads one character or byte alike to `c`. -/
def char (c : Value) : Parser :=
  satisfy (fun token => .pure (token.alike c)) ("char " ++ c.literal)

/-- Reads one given character. -/
def symbol (c : Char) : Parser :=
  char (.text (String.singleton c))

/-- Reads one given word. -/
def word (s : String) : Parser :=
  literal (.text s)

/-- The ASCII letters. -/
def letterSet : CharSet := ⟨false, [('a', 'z'), ('A', 'Z')]⟩

/-- The ASCII digits. -/
def digitSet : CharSet := ⟨false, [('0', '9')]⟩

/-- The longest run of letters, at least one. -/
def letters : Parser :=
  pattern (Pattern.runOf letterSet).matcher "letters"

/-- The longest run of digits, at least one. -/
def digits : Parser :=
  pattern (Pattern.runOf digitSet).matcher "digits"

/-- Joins a list of texts to one text. -/
def joinTexts (p : Parser) : Parser :=
  p.map fun
    | .list items => Answer.ofOption .typeMismatch ((Value.joined? items).map .text)
    | _ => .raise .typeMismatch

/-- The longest run of spaces, possibly empty. -/
def spaces : Parser :=
  joinTexts (many (symbol ' '))

end ParserAlgebra.Parser
