import ParserAlgebra.Fault

/-!
Inputs: a text, a buffer of bytes, or a sequence of values.

A text is indexed by its characters. A buffer is indexed in two ways: the character readers count
bytes, the bit readers count bits, most significant first within each byte. A list or tuple is
indexed by its items, which are then the tokens. Any other value may stand where an input is
expected, but looking at it is a fault.
-/
namespace ParserAlgebra

/-- What a parser reads from. -/
inductive Input where
  | text (chars : Array Char)
  | buffer (kind : BufferKind) (data : Array UInt8)
  | other (value : Value)
deriving Repr, DecidableEq, Inhabited

namespace Input

/-- A text as an input. -/
def ofString (s : String) : Input :=
  .text s.toList.toArray

/-- A fixed byte string as an input. -/
def ofBytes (data : List UInt8) : Input :=
  .buffer .fixed data.toArray

/-- The input a value stands for. -/
def ofValue : Value → Input
  | .text s => ofString s
  | .tag t => ofString t.word
  | .bytes kind data => .buffer kind data.toArray
  | v => .other v

/-- The input as one value. -/
def toValue : Input → Value
  | text chars => .text (String.ofList chars.toList)
  | buffer kind data => .bytes kind data.toList
  | other value => value

-- ================================================================ tokens

/-- Whether an input has a size. -/
def isSized : Input → Bool
  | text _ | buffer _ _ | other (.list _) | other (.tuple _) | other (.table _) => true
  | other _ => false

/-- The number of tokens of an input; none when it has no size. -/
def size : Input → Nat
  | text chars => chars.size
  | buffer _ data => data.size
  | other (.list items) | other (.tuple items) => items.length
  | other (.table entries) => entries.length
  | other _ => 0

/-- The token at a position, and nothing past the end: a character as a text, a byte as a number,
an item as it is. A table has tokens only under the numbers among its keys. -/
def token (i : Nat) : Input → Except Fault (Option Value)
  | text chars => .ok (chars[i]?.map fun c => .text (String.singleton c))
  | buffer _ data => .ok (data[i]?.map fun b => .int b.toNat)
  | other (.list items) | other (.tuple items) => .ok items[i]?
  | other (.table entries) =>
    if entries.length ≤ i then .ok none
    else
      match entries.find? fun e => e.1.alike (.int i) with
      | some e => .ok (some e.2)
      | none => .error .missingKey
  | other _ => .error .typeMismatch

/-- The tokens from `lo` up to `hi`, or up to the end, as a value of the input's own kind. -/
def slice (lo hi : Nat) : Input → Except Fault Value
  | text chars => .ok (.text (String.ofList (chars.extract lo hi).toList))
  | buffer kind data => .ok (.bytes kind (data.extract lo hi).toList)
  | other (.list items) => .ok (.list ((items.take hi).drop lo))
  | other (.tuple items) => .ok (.tuple ((items.take hi).drop lo))
  | other _ => .error .typeMismatch

-- ================================================================ bits

/-- Bits per byte. -/
def byteWidth : Nat := 8

/-- Bit `i` of a buffer, counted from the most significant bit of the first byte. -/
def bit? (data : Array UInt8) (i : Nat) : Option Nat :=
  data[i / byteWidth]?.map fun b => b.toNat >>> (byteWidth - 1 - i % byteWidth) % 2

/-- The bit of a number that position `i` of a sequence of numbers asks for. -/
def bitOf (n : Int) (i : Nat) : Int :=
  (n >>> (byteWidth - 1 - i % byteWidth)) % 2

end Input

end ParserAlgebra
