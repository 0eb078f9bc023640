import ParserAlgebra.Listing

/-!
The command line: `declarations [FILE]` lists the declarations of a source text, `packet [FILE]`
the header fields of a packet. Without a file the built-in sample is listed.
-/
open ParserAlgebra

/-- Writes a listing and gives its exit code. -/
def writeListing (outcome : Outcome Listing) : IO UInt32 := do
  match outcome with
  | .done listing =>
    IO.print (Listing.written listing.output)
    IO.eprint (Listing.written listing.log)
    return listing.exit.toUInt32
  | .raised fault =>
    IO.eprintln (fault.message?.getD "the file could not be read")
    return 1
  | .exhausted =>
    IO.eprintln "the file is too large"
    return 1

def main (args : List String) : IO UInt32 := do
  match args with
  | ["declarations"] => writeListing (Listing.declarationsOf Listing.sampleDeclarations.toUTF8)
  | ["declarations", file] => do
    writeListing (Listing.declarationsOf (← IO.FS.readBinFile file))
  | ["packet"] => writeListing (Listing.packet Listing.samplePacket)
  | ["packet", file] => do
    writeListing (Listing.packet (← IO.FS.readBinFile file).toList)
  | _ =>
    IO.eprintln "usage: declarations [FILE] | packet [FILE]"
    return 2
