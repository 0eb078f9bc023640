import ParserAlgebra.Declaration
import ParserAlgebra.Expr.Eval
import ParserAlgebra.Parser.Eval
import ParserAlgebra.Pattern.Reader

/-!
The parsers that described grammars build.

Building a description evaluates its parameters, children before their parent, and gives a parser
or the plain value that a misused description stands for. References are built in place, as deep
as they nest. The body of a continuation and the steps of a step program are not built with their
parser: they are left as deferred bodies, and built, references included, whenever they are run.
-/
namespace ParserAlgebra

-- ================================================================ constructions

/-- A construction in progress: it numbers the sites of the tree, and answers for the parameters
it evaluates. -/
abbrev Construction := StateT Nat Answer

namespace Construction

/-- Lets an answer take part in a construction. -/
def ofAnswer {α : Type} (answer : Answer α) : Construction α :=
  StateT.lift answer

/-- Lets a silent outcome take part in a construction. -/
def ofExcept {α : Type} (outcome : Except Fault α) : Construction α :=
  ofAnswer (.ofExcept outcome)

/-- A checked combinator as the construction of an argument. -/
def checked (outcome : Except Fault Parser) : Construction Argument :=
  ofExcept (outcome.map Argument.parser)

/-- The number of a new site. -/
def newSite : Construction Nat :=
  modifyGet fun n => (n, n + 1)

/-- What a whole construction answers. -/
def answer {α : Type} (c : Construction α) : Answer α := do
  let (a, _) ← c.run 0
  return a

end Construction

-- ================================================================ step programs

/-- A program that goes on with what an answer gives. -/
def Program.ofAnswer {α : Type} (answer : Answer α) (next : α → Program) : Program :=
  .noting answer.events <|
    match answer.outcome with
    | .ok a => next a
    | .error fault => .raise fault

/-- Repeats a piece of a program that hands a scope on. -/
def Program.repeated (piece : Scope → (Scope → Program) → Program) :
    Nat → Scope → (Scope → Program) → Program
  | 0, scope, next => next scope
  | n + 1, scope, next => piece scope fun scope => repeated piece n scope next

/-- How often a repeated step is asked for. -/
def stepCount (v : Value) : Except Fault Nat :=
  match v.integer? with
  | some n => .ok n.toNat
  | none => .error .typeMismatch

mutual

/-- The program of described steps, and what follows them in the scope they leave. -/
def programOf : List Step → Scope → (Scope → Program) → Program
  | [], scope, next => next scope
  | step :: rest, scope, next => step.program scope fun scope => programOf rest scope next

/-- The program of one described step, and what follows it in the scope it leaves. -/
def Step.program : Step → Scope → (Scope → Program) → Program
  | .yield g name, scope, next =>
    .step (.deferred (.body .step g scope)) fun value =>
      match name with
      | some name => next (scope.set name value)
      | none => next scope
  | .set name e, scope, next =>
    .ofAnswer (e.eval scope) fun value => next (scope.set name value)
  | .branch condition yes no, scope, next =>
    .ofAnswer (condition.eval scope) fun value =>
      if value.isTrue then programOf yes scope next else programOf no scope next
  | .times n body, scope, next =>
    .ofAnswer (n.eval scope) fun value =>
      match stepCount value with
      | .ok n => .repeated (programOf body) n scope next
      | .error fault => .raise fault

end

-- ================================================================ building

/-- The parser that a name without parameters stands for. -/
def Ready.parser : Ready → Parser
  | .letters => .letters
  | .digits => .digits
  | .spaces => .spaces
  | .endOfInput => .endOfInput
  | .bit => .bit
  | .zero => .zero
  | .one => .one
  | .keyword => Declaration.keyword
  | .variableName => Declaration.variableName
  | .typeName => Declaration.typeName
  | .declaration => Declaration.parser
  | .declarations => Declaration.lines
  | .fixedHeader => Ipv4.fixedHeader
  | .header => Ipv4.header

/-- What a reference stands for in a scope. -/
abbrev References := String → Scope → Construction Argument

/-- What a fixed name of a test, message or label is for the parsers it appears in. -/
def displayed (scope : Scope) (e : Expr) : Construction String :=
  return (← Construction.ofAnswer (e.eval scope)).display

mutual

/-- Builds a description in a scope. -/
def Grammar.build (refs : References) : Grammar → Scope → Construction Argument
  | .ready p, _ => return .parser p.parser
  | .value e, scope => return .plain (← Construction.ofAnswer (e.eval scope))
  | .list items, scope => return .list (← buildAll refs items scope)
  | .tuple items, scope => return .tuple (← buildAll refs items scope)
  | .branch condition yes no, scope => do
    let value ← Construction.ofAnswer (condition.eval scope)
    if value.isTrue then yes.build refs scope else no.build refs scope
  | .reference name, scope => refs name scope
  | .deferred name, scope =>
    return .parser (.deferred (.own (← Construction.newSite) ⟨name, scope⟩))
  | .shared name, _ => return .parser (.deferred (.shared ⟨name, []⟩))
  | .jump index result, scope =>
    return .parser <| .jump fun i => do
      let target ← index.eval (scope.set "index" (.int i))
      let result ← result.eval scope
      match target.integer? with
      | some n => return (n.toNat, result)
      | none => Answer.raise .typeMismatch
  | .succeed value, scope =>
    return .parser (.succeed (← Construction.ofAnswer (value.eval scope)))
  | .fail message, scope =>
    return .parser (.fail (← Construction.ofAnswer (message.eval scope)))
  | .lookAhead g, scope => return .parser (.lookAhead (← g.build refs scope).onRun)
  | .many g, scope => return .parser (.many (← g.build refs scope).onRun)
  | .many1 g, scope => return .parser (.many1 (← g.build refs scope).onRun)
  | .expect g expected message, scope => do
    let p ← Construction.ofExcept (← g.build refs scope).receiver
    let expected ← Construction.ofAnswer (expected.eval scope)
    return .parser <| p.expect expected <| message.map fun e value index =>
      e.eval ((scope.set "value" value).set "index" (.int index))
  | .map g e, scope => do
    let p ← Construction.ofExcept (← g.build refs scope).receiver
    return .parser (p.map fun value => e.eval (scope.set "it" value))
  | .chain attachment g name body, scope => do
    let arg ← g.build refs scope
    let p ← Construction.ofExcept <|
      match attachment with
      | .operation => arg.receiver
      | .operator => arg.operand
    return .parser <| p.chain fun value =>
      .deferred (.body .continuation body (scope.set name value))
  | .errorMap g e, scope => do
    let p ← Construction.ofExcept (← g.build refs scope).receiver
    return .parser <| p.errorMap fun message index =>
      e.eval ((scope.set "msg" message).set "index" (.int index))
  | .label g name, scope => do
    let p ← Construction.ofExcept (← g.build refs scope).receiver
    return .parser (p.label (← Construction.ofAnswer (name.eval scope)))
  | .orElse left right, scope => do
    let left ← left.build refs scope
    Construction.ofExcept (Argument.orElse left (← right.build refs scope))
  | .both left right, scope => do
    let left ← left.build refs scope
    Construction.ofExcept (Argument.both left (← right.build refs scope))
  | .keepRight left right, scope => do
    let left ← left.build refs scope
    Construction.ofExcept (Argument.keepRight left (← right.build refs scope))
  | .keepLeft left right, scope => do
    let left ← left.build refs scope
    Construction.ofExcept (Argument.keepLeft left (← right.build refs scope))
  | .satisfy test name, scope => do
    let name ← displayed scope name
    let accepts := fun token => return (← test.eval (scope.set "it" token)).isTrue
    return .parser (.satisfy accepts name)
  | .char c, scope => return .parser (.char (← Construction.ofAnswer (c.eval scope)))
  | .literal expected, scope => do
    let expected ← Construction.ofAnswer (expected.eval scope)
    if expected.isTrue then return .parser (.literal expected)
    else Construction.ofExcept (.error .emptyLiteral)
  | .pattern written name, _ =>
    match Pattern.ofString? written with
    | some shape => return .parser (.pattern shape.matcher name)
    | none => Construction.ofExcept (.error .malformedPattern)
  | .sequence items, scope => do
    Construction.checked (Argument.sequence (← buildAll refs items scope))
  | .choice items, scope => do
    Construction.checked (Argument.choice (← buildAll refs items scope))
  | .sepBy separator value, scope => do
    let separator ← separator.build refs scope
    let value ← value.build refs scope
    return .parser (.sepBy separator.onRun value.onRun)
  | .sepBy1 separator value, scope => do
    let separator ← separator.build refs scope
    let value ← value.build refs scope
    return .parser (.sepBy1 separator.onRun value.onRun)
  | .between left right value, scope => do
    let left ← left.build refs scope
    let right ← right.build refs scope
    Construction.checked (Argument.between left right (← value.build refs scope))
  | .count n g, scope => do
    let n ← Construction.ofAnswer (n.eval scope)
    Construction.checked (Argument.count n (← g.build refs scope))
  | .option default g, scope => do
    let default ← Construction.ofAnswer (default.eval scope)
    Construction.checked (Argument.option default (← g.build refs scope))
  | .trace label, _ => return .parser (.trace label)
  | .traced label g, scope => return .parser (.traced label (← g.build refs scope).onRun)
  | .integer sign width, scope => do
    Construction.checked (integerField sign (← Construction.ofAnswer (width.eval scope)))
  | .rawString literal, scope => do
    Construction.checked (rawLiteral (← Construction.ofAnswer (literal.eval scope)))
  | .typedLiteral type, scope => do
    Construction.checked (Declaration.literalFor (← Construction.ofAnswer (type.eval scope)))
  | .contextual steps result tag, scope =>
    return .parser <| .contextual tag <| programOf steps scope fun scope =>
      .ofAnswer (result.eval scope) .done

/-- Builds descriptions from left to right. -/
def buildAll (refs : References) : List Grammar → Scope → Construction (List Argument)
  | [], _ => return []
  | g :: rest, scope => do
    let arg ← g.build refs scope
    let args ← buildAll refs rest scope
    return arg :: args

end

-- ================================================================ definitions

/-- The definitions of a grammar. -/
abbrev Definitions := List (String × Grammar)

namespace Definitions

/-- What references stand for when they may still nest `depth` deep. One that nests deeper than
there are definitions is part of itself. -/
def expand (defs : Definitions) : (depth : Nat) → References
  | 0, name, _ =>
    Construction.ofExcept <| .error <|
      if (defs.lookup name).isSome then .circular name else .unbound name
  | depth + 1, name, scope =>
    match defs.lookup name with
    | some g => g.build (expand defs depth) scope
    | none => Construction.ofExcept (.error (.unbound name))

/-- What a description builds with these definitions. -/
def build (defs : Definitions) (g : Grammar) (scope : Scope) : Answer Argument :=
  (g.build (expand defs defs.length) scope).answer

/-- What is built at run time with these definitions. -/
def rules (defs : Definitions) : Rules where
  rule rule :=
    match defs.lookup rule.name with
    | some g => defs.build g rule.scope
    | none => .raise (.unbound rule.name)
  body := defs.build

end Definitions

/-- Builds a whole grammar in a frame of its own. -/
def Grammar.construct (g : Grammar) (defs : Definitions) : Run (Nat × Argument) := do
  let arg ← Run.ofAnswer (defs.build g [])
  return (← Run.openFrame, arg)

end ParserAlgebra
