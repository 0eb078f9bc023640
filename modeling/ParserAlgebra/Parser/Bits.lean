import ParserAlgebra.Parser.Combinators

/-!
Bit fields: single bits, unsigned and signed integers of up to 32 bits, and literal bytes. All of
them read bit by bit, so a field may start anywhere and cross byte boundaries.
-/
namespace ParserAlgebra

-- ================================================================ bits as numbers

/-- The numbers in a list of results. -/
def Value.bits : Value → List Int
  | .list items => items.filterMap Value.number?
  | _ => []

/-- The number written by bits, most significant first. -/
def foldBits (bits : List Int) : Int :=
  bits.foldl (fun n b => 2 * n + b) 0

/-- The number written by bits in two's complement: the first bit counts negatively. -/
def foldSigned : List Int → Int
  | [] => 0
  | sign :: rest => foldBits rest - sign * ((1 <<< rest.length : Nat) : Int)

namespace Parser

-- ================================================================ fields

/-- Reads a zero bit. -/
def zero : Parser :=
  bit.expect (.int 0) <| some fun value index =>
    .pure (.text ("Zero: Expected 0, but got " ++ value.display ++ " at index " ++ toString index))

/-- Reads a one bit. -/
def one : Parser :=
  bit.expect (.int 1) <| some fun value index =>
    .pure (.text ("One: Expected 1, but got " ++ value.display ++ " at index " ++ toString index))

/-- An unsigned integer of `n` bits. -/
def uint (n : Nat) : Parser :=
  (count n bit).mapPure fun v => .int (foldBits v.bits)

/-- A signed integer of `n` bits. -/
def sint (n : Nat) : Parser :=
  (count n bit).mapPure fun v => .int (foldSigned v.bits)

-- ================================================================ literal bytes

/-- The character whose code a value is. -/
def charOf (value : Value) : String :=
  String.singleton (Char.ofNat ((value.number?.getD 0).toNat))

/-- Reads the byte that is the code of a character. -/
def byteOf (c : Char) : Parser :=
  (uint Input.byteWidth).expect (.int c.toNat) <| some fun value _ =>
    .pure (.text ("RawString: Expected " ++ Text.quoted (String.singleton c) ++ ", but got " ++
      Text.quoted (charOf value)))

/-- Reads one byte for each character and gives `result`. -/
def rawBytes (cs : List Char) (result : Value) : Parser :=
  (sequence (cs.map byteOf)).mapPure fun _ => result

/-- Reads a literal of one byte per character and gives the literal. -/
def rawString (s : String) : Parser :=
  rawBytes s.toList (.text s)

end Parser

-- ================================================================ checked widths

/-- The width of a field, checked to be a whole number from 1 to `maxWidth`. -/
def fieldWidth (sign : Signedness) : Value → Except Fault Nat
  | .int n =>
    if n < 1 then .error (.widthTooSmall sign n)
    else if (maxWidth : Int) < n then .error (.widthTooLarge sign n)
    else .ok n.toNat
  | width => .error (.widthNotInteger sign width)

/-- An integer field of a checked width. -/
def integerField (sign : Signedness) (width : Value) : Except Fault Parser :=
  (fieldWidth sign width).map fun n =>
    match sign with
    | .unsigned => .uint n
    | .signed => .sint n

/-- A character of a raw literal, checked to be a single byte. -/
def rawCharacter (c : Char) : Except Fault Char :=
  if 0xFF < c.toNat then .error (.wideRawCharacter c) else .ok c

/-- The characters of a raw literal, checked from left to right: those of a text, or of a list of
single characters. -/
def rawCharacters : Value → Except Fault (List Char)
  | .text s => s.toList.mapM rawCharacter
  | .tag t => t.word.toList.mapM rawCharacter
  | .list items => items.mapM single
  | .tuple items => items.mapM single
  | .table entries => entries.mapM fun entry => single entry.1
  | _ => .error .typeMismatch
where
  /-- The one character of a text. -/
  single (item : Value) : Except Fault Char :=
    match item.word?.map String.toList with
    | some [c] => rawCharacter c
    | _ => .error .typeMismatch

/-- A raw literal, checked to be nonempty and of single bytes. -/
def rawLiteral (literal : Value) : Except Fault Parser :=
  if literal.isTrue then (rawCharacters literal).map fun cs => .rawBytes cs literal
  else .error .emptyRawLiteral

end ParserAlgebra
