/-!
Decimal numerals and their values.

A numeral is read digit by digit, most significant first. Readers of numerals accept at most
`maxDigits` digits, leading zeros included; a longer run of digits is no numeral.
-/
namespace ParserAlgebra.Text

/-- The most digits a numeral may have. -/
def maxDigits : Nat := 4300

/-- The value of a decimal digit; other characters count as zero. -/
def digitValue (c : Char) : Nat :=
  if c.isDigit then c.toNat - '0'.toNat else 0

/-- The value of a run of digits, most significant first. -/
def numeralValue (cs : List Char) : Nat :=
  cs.foldl (fun n c => 10 * n + digitValue c) 0

/-- The number a run of digits denotes; nothing for an empty or overlong run, or when some
character is no digit. -/
def numeral? (cs : List Char) : Option Nat :=
  if cs ≠ [] ∧ cs.all Char.isDigit ∧ cs.length ≤ maxDigits then some (numeralValue cs) else none

/-- The number denoted by digits with an optional sign in front and blanks around them. Single
underscores may stand between digits. -/
def signedNumeral? (s : String) : Option Int :=
  let isBlank := fun (c : Char) => c = ' ' || (9 ≤ c.toNat && c.toNat ≤ 13)
  let trimmed := ((s.toList.dropWhile isBlank).reverse.dropWhile isBlank).reverse
  let magnitude := fun (cs : List Char) => numeral? (joinDigits cs)
  match trimmed with
  | '-' :: cs => (magnitude cs).map fun n => - (n : Int)
  | '+' :: cs => (magnitude cs).map fun n => (n : Int)
  | cs => (magnitude cs).map fun n => (n : Int)
where
  /-- Drops each underscore that stands between two digits. -/
  joinDigits : List Char → List Char
    | c :: '_' :: d :: rest =>
      if c.isDigit && d.isDigit then c :: joinDigits (d :: rest)
      else c :: '_' :: joinDigits (d :: rest)
    | c :: rest => c :: joinDigits rest
    | [] => []

end ParserAlgebra.Text
