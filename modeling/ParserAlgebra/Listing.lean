import ParserAlgebra.Declaration
import ParserAlgebra.Ipv4
import ParserAlgebra.Parser.Eval

/-!
Two listings of files: the declarations of a source text, and the header fields of a packet.

A listing is what a program would write: lines for the standard output, lines for the log, and
the exit code. A source text is decoded from bytes first, and each of the three line endings
counts as a line feed.
-/
namespace ParserAlgebra

/-- What a listing program writes, and its exit code. -/
structure Listing where
  output : List String
  log : List String
  exit : Nat
deriving DecidableEq, Repr

namespace Listing

-- ================================================================ texts from bytes

/-- Replaces the line endings of carriage returns by line feeds. -/
def unifyLines : List Char → List Char
  | '\r' :: '\n' :: rest => '\n' :: unifyLines rest
  | '\r' :: rest => '\n' :: unifyLines rest
  | c :: rest => c :: unifyLines rest
  | [] => []

/-- The text that bytes encode in UTF-8, with line feeds alone between its lines. -/
def decode (data : ByteArray) : Except Fault (List Char) :=
  match String.fromUTF8? data with
  | some s => .ok (unifyLines s.toList)
  | none => .error .undecodable

-- ================================================================ declarations

/-- The line of one declaration. -/
def declarationLine : Value → String
  | .declaration kind name type value =>
    kind.display ++ " " ++ name.display ++ ": " ++ (type.word?.getD "") ++ " = " ++ value.literal
  | other => other.display

/-- The items of a list of results. -/
def items : Value → List Value
  | .list items => items
  | _ => []

/-- Lists the declarations of a text. -/
def declarations (chars : List Char) : Outcome Listing :=
  match Declaration.lines.parse (.text chars.toArray) with
  | .done s =>
    match s.verdict with
    | .ok result => .done ⟨(items result).map declarationLine, [], 0⟩
    | .error e => .done ⟨[], ["ERROR: Parsing failed: " ++ e.describe], 1⟩
  | .raised fault => .raised fault
  | .exhausted => .exhausted

/-- Lists the declarations of an encoded text. -/
def declarationsOf (data : ByteArray) : Outcome Listing :=
  match decode data with
  | .ok chars => declarations chars
  | .error fault => .raised fault

-- ================================================================ packets

/-- The width of the column of field names. -/
def nameWidth : Nat := 24

/-- A text set flush right in a column. -/
def flushRight (width : Nat) (s : String) : String :=
  String.ofList (List.replicate (width - s.length) ' ') ++ s

/-- The line of one field. -/
def fieldLine : Value → String
  | .field type value => flushRight nameWidth type.display ++ ": " ++ value.display
  | other => other.display

/-- Lists the header fields of a packet. -/
def packet (data : List UInt8) : Outcome Listing :=
  match Ipv4.header.parse (.ofBytes data) with
  | .done s =>
    if s.failed then
      .done ⟨[], ["ERROR: Decoding failed at bit " ++ toString s.index ++ ": " ++
        s.error.display], 1⟩
    else
      .done ⟨(items s.result).map fieldLine,
        ["INFO: decoded " ++ toString s.index ++ " bits"], 0⟩
  | .raised fault => .raised fault
  | .exhausted => .exhausted

-- ================================================================ sample files

/-- A source text to list when none is given. -/
def sampleDeclarations : String :=
  "let x: int = 42\nconst greeting: string = \"hello\"\nlet is_ready: boolean = true"

/-- A packet to list when none is given. -/
def samplePacket : List UInt8 :=
  [0x46, 0x00, 0x00, 0x18, 0x1c, 0x46, 0x40, 0x00, 0x40, 0x06,
   0x00, 0x00, 0xef, 0xbf, 0xbd, 0xef, 0xbf, 0xbd, 0x00, 0x68,
   0xef, 0xbf, 0xbd, 0xef, 0xbf, 0xbd, 0x00, 0x01, 0x01, 0x01, 0x00, 0x00]

/-- The lines of a text, each with its line feed. -/
def written (lines : List String) : String :=
  String.join (lines.map fun line => line ++ "\n")

end Listing

end ParserAlgebra
