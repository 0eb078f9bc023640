import ParserAlgebra.Parser.Combinators
import ParserAlgebra.Text.Numeral

/-!
Typed variable declarations, one per line:

    let x: int = 42
    const greeting: string = "hello"
    let flag: boolean = true

The syntax of the value is chosen by the type read before it, so a declaration is a step program.
-/
namespace ParserAlgebra.Declaration

-- ================================================================ words and names

/-- The keyword that opens a declaration. -/
def keyword : Parser :=
  .choice [.word "let", .word "const"]

/-- A name of letters and underscores. -/
def variableName : Parser :=
  (Parser.joinTexts (.many1 (.orElse .letters (.symbol '_')))).errorMap fun _ index =>
    .pure (.text ("declaration: expected variable name at index " ++ toString index))

/-- The name of a type, with the type as result. -/
def typeName : Parser :=
  (Parser.choice [.word "int", .word "string", .word "boolean"]).map fun word =>
    .ofOption .typeMismatch ((word.word?.bind TypeTag.ofWord?).map .tag)

-- ================================================================ literals

/-- The number a run of digits denotes. -/
def numberOf (digits : Value) : Answer Value :=
  .ofOption .malformedNumeral
    ((digits.word?.bind fun s => Text.numeral? s.toList).map fun n => .int n)

/-- Either quote. -/
def quote : Parser :=
  .choice [.symbol Text.apostrophe, .symbol Text.doubleQuote]

/-- The literals of a type: digits, letters in quotes, or a truth value. The two quotes need not
be the same. -/
def literalOf : TypeTag → Parser
  | .int => Parser.digits.map numberOf
  | .string => .between quote quote .letters
  | .boolean =>
    (Parser.choice [.word "true", .word "false"]).mapPure fun word =>
      .bool (word.alike (.text "true"))

/-- The literals of the type a value stands for. -/
def literalFor : Value → Except Fault Parser
  | .tag t => .ok (literalOf t)
  | type => .error (.unknownType type)

-- ================================================================ declarations

/-- The steps of a declaration. -/
def program : Program :=
  .step keyword fun kind =>
  .step .spaces fun _ =>
  .step variableName fun name =>
  .step (.keepRight (.symbol ':') .spaces) fun _ =>
  .step typeName fun type =>
  .step (.keepRight (.keepRight .spaces (.symbol '=')) .spaces) fun _ =>
  match literalFor type with
  | .ok literal => .step literal fun value => .done (.declaration kind name type value)
  | .error fault => .raise fault

/-- One declaration. -/
def parser : Parser :=
  .contextual none program

/-- Declarations on lines of their own, as many as there are. -/
def lines : Parser :=
  .sepBy (.word "\n") parser

end ParserAlgebra.Declaration
