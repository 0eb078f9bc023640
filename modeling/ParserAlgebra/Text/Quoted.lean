import ParserAlgebra.Text.Printable

/-!
Quoted forms of texts and byte strings, as messages and trace lines show them.

A quoted text stands between two equal quotes: apostrophes, unless the text holds an apostrophe
and no double quote. Inside, the quote in use and the backslash are escaped by a backslash, line
feed, carriage return and tab have short escapes, and every other unprintable character is
written by its code point in the shortest of the two-, four- and eight-digit forms.
-/
namespace ParserAlgebra.Text

-- ================================================================ pieces

def apostrophe : Char := '\x27'
def doubleQuote : Char := '\x22'
def backslash : Char := '\x5c'

/-- `n` in lower-case hexadecimal, filled with zeros on the left up to `width` digits. -/
def hex (width n : Nat) : List Char :=
  let digits := Nat.toDigits 16 n
  List.replicate (width - digits.length) '0' ++ digits

/-- The quote that needs the fewest escapes: a double quote only for texts that hold an
apostrophe and no double quote. -/
def quoteFor (cs : List Char) : Char :=
  if cs.contains apostrophe && !cs.contains doubleQuote then doubleQuote else apostrophe

-- ================================================================ texts

/-- How one character is written between the quotes `quote`. -/
def escape (quote c : Char) : List Char :=
  if c = quote ∨ c = backslash then [backslash, c]
  else if c = '\n' then [backslash, 'n']
  else if c = '\r' then [backslash, 'r']
  else if c = '\t' then [backslash, 't']
  else if isPrintable c then [c]
  else if c.toNat < 0x100 then backslash :: 'x' :: hex 2 c.toNat
  else if c.toNat < 0x10000 then backslash :: 'u' :: hex 4 c.toNat
  else backslash :: 'U' :: hex 8 c.toNat

/-- The quoted form of a list of characters. -/
def quotedChars (cs : List Char) : List Char :=
  let quote := quoteFor cs
  quote :: (cs.flatMap (escape quote) ++ [quote])

/-- The quoted form of a text. -/
def quoted (s : String) : String :=
  String.ofList (quotedChars s.toList)

-- ================================================================ byte strings

/-- How one byte is written where `guarded` is the quote to escape: printable ASCII as it is, the
rest by short escapes or two hexadecimal digits. -/
def escapeByte (guarded : Char) (b : UInt8) : List Char :=
  if b.toNat < 0x80 then escape guarded (Char.ofNat b.toNat)
  else backslash :: 'x' :: hex 2 b.toNat

/-- The quote that stands around a byte string, chosen as for a text. -/
def byteQuote (data : List UInt8) : Char :=
  quoteFor (data.map fun b => Char.ofNat b.toNat)

/-- A byte string between quotes, marked by a leading `b`, with the quote `guarded` escaped. -/
def markedBytes (guarded : Char) (data : List UInt8) : String :=
  let quote := byteQuote data
  String.ofList ('b' :: quote :: (data.flatMap (escapeByte guarded) ++ [quote]))

/-- The quoted form of a byte string, in which the quote around it is escaped. -/
def quotedBytes (data : List UInt8) : String :=
  markedBytes (byteQuote data) data

/-- The quoted form of a growable byte string: apostrophes are escaped whatever the quote. -/
def quotedGrowable (data : List UInt8) : String :=
  "bytearray(" ++ markedBytes apostrophe data ++ ")"

end ParserAlgebra.Text
