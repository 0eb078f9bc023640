import ParserAlgebra.Parser.Bits

/-!
The header of an IPv4 packet, read bit by bit.

The result lists the fields in the order of the wire. The header length counts words of 32 bits;
when it is above its minimum of five, the octets of the further words follow as one field of
options.
-/
namespace ParserAlgebra.Ipv4

-- ================================================================ layout

/-- The name and width in bits of every fixed field, in the order of the wire. -/
def layout : List (String × Nat) :=
  [("Version", 4),
   ("IHL", 4),
   ("DSCP", 6),
   ("ECN", 2),
   ("Total Length", 16),
   ("Identification", 16),
   ("Flags", 3),
   ("Fragment Offset", 13),
   ("TTL", 8),
   ("Protocol", 8),
   ("Header Checksum", 16),
   ("Source IP Address", 32),
   ("Destination IP Address", 32)]

/-- The words of a header without options. -/
def minLength : Int := 5

/-- The octets of a word. -/
def wordOctets : Int := 4

/-- The number of option octets that a header length stands for. -/
def optionsLength (headerLength : Int) : Int :=
  max (headerLength - minLength) 0 * wordOctets

-- ================================================================ parsers

/-- The fixed fields. -/
def fixedHeader : Parser :=
  .sequence (layout.map fun (name, width) => (Parser.uint width).mapPure (.field (.text name)))

/-- The header length among the fields of a header. -/
def headerLength : Value → Int
  | .list (_ :: .field _ length :: _) => length.number?.getD 0
  | _ => 0

/-- The fields with one more at the end. -/
def appendField (fields field : Value) : Value :=
  match fields with
  | .list items => .list (items ++ [field])
  | other => other

/-- The header after its fixed fields: the options, if the header length leaves room for any. -/
def options (fields : Value) : Parser :=
  if headerLength fields ≤ minLength then .succeed fields
  else
    (Parser.count (optionsLength (headerLength fields)).toNat (.uint Input.byteWidth)).mapPure
      fun octets => appendField fields (.field (.text "Options") octets)

/-- A whole header. -/
def header : Parser :=
  fixedHeader.chain options

-- ================================================================ lookup

/-- The type and the value of a field; a declaration has both as well. -/
def typed? : Value → Option (Value × Value)
  | .field type value => some (type, value)
  | .declaration _ _ type value => some (type, value)
  | _ => none

/-- Adds the fields of a list to a table, by type. -/
def addFields : List Value → List (Value × Value) → Except Fault (List (Value × Value))
  | [], entries => .ok entries
  | field :: rest, entries =>
    match typed? field with
    | some (type, value) =>
      if type.isKey then addFields rest (Value.insertEntry type value entries)
      else .error .typeMismatch
    | none => .error .missingOperation

/-- The values of fields by type. A type that occurs again keeps its place and takes the later
value. -/
def fieldsByType : Value → Except Fault Value
  | .list fields | .tuple fields => (addFields fields []).map .table
  | .text "" | .bytes _ [] | .table [] => .ok (.table [])
  | .text _ | .tag _ | .bytes _ _ | .table _ => .error .missingOperation
  | _ => .error .typeMismatch

end ParserAlgebra.Ipv4
