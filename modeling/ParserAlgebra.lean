import ParserAlgebra.Evaluation
import ParserAlgebra.Listing
import ParserAlgebra.Main
import ParserAlgebra.Proofs.Simulation
import ParserAlgebra.Proofs.History
import ParserAlgebra.Proofs.Transcript
import ParserAlgebra.Proofs.Cursor
import ParserAlgebra.Proofs.Dependence
import ParserAlgebra.Proofs.Termination
import ParserAlgebra.Proofs.Translation
import ParserAlgebra.Proofs.Success
import ParserAlgebra.Proofs.Remembering
import ParserAlgebra.Proofs.Desugaring
import ParserAlgebra.Proofs.BitLayout
import ParserAlgebra.Proofs.IntegerField
import ParserAlgebra.Proofs.RawLiteral
import ParserAlgebra.Proofs.Ipv4Header
import ParserAlgebra.Proofs.Scanning
import ParserAlgebra.Proofs.Token
import ParserAlgebra.Proofs.DeclarationGrammar
import ParserAlgebra.Proofs.DeclarationLines
import ParserAlgebra.Proofs.DeclarationFailure
import ParserAlgebra.Proofs.LongestRow
import ParserAlgebra.Proofs.NestedGrammar
import ParserAlgebra.Proofs.Chaining
import ParserAlgebra.Proofs.Lossless
import ParserAlgebra.Proofs.Erasure
import ParserAlgebra.Proofs.Tracing
import ParserAlgebra.Proofs.Repetition
import ParserAlgebra.Proofs.Separation
import ParserAlgebra.Proofs.Alternation
import ParserAlgebra.Proofs.Sequencing
import ParserAlgebra.Proofs.Counting
import ParserAlgebra.Proofs.LookAhead
import ParserAlgebra.Proofs.Lives
import ParserAlgebra.Proofs.Chronicle
import ParserAlgebra.Proofs.Lifecycle
