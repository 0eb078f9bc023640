import ParserAlgebra.Session

/-!
What a parser does to a state.

`Parser.denote` runs a parser by recursion on its tree. Two things are left open: what a deferred
node does, and how many rounds a repetition may take before the run ends `exhausted`. No other
node costs anything, so equations between parsers hold at every number of rounds.

A failed state is terminal: every parser returns it unchanged.

# Machines

The evaluator is written once, over what any run is made of (`Machine`): computations in a row,
answers to carry out, events to note. `Run` is the machine of programs. Others forget the session,
or keep more of a run than its session tells; for them it is marked where a tracing wrapper is
applied, where a generator lives, and what it hands out and gets back.
-/
namespace ParserAlgebra

-- ================================================================ leaves

/-- How much of the input a mismatch message quotes. -/
def snippetLength : Nat := 10

/-- How much of the input a trace line quotes. -/
def traceLength : Nat := 30

/-- Whether the characters from `i` on begin with `expected`. -/
def charsAt (chars : Array Char) (i : Nat) (expected : List Char) : Bool :=
  (chars.extract i (i + expected.length)).toList == expected

/-- Whether the bytes from `i` on begin with `expected`. -/
def bytesAt (data : Array UInt8) (i : Nat) (expected : List UInt8) : Bool :=
  (data.extract i (i + expected.length)).toList == expected

/-- Whether an input has a literal at a position. The literal must be of the input's own kind; of
a tuple of literals one has to be there. A buffer that is only a view cannot be asked, and neither
can a sequence of values. -/
def Input.hasLiteral (input : Input) (i : Nat) (expected : Value) : Except Fault Bool :=
  match input, expected with
  | .buffer .view _, _ | .other _, _ => .error .missingOperation
  | input, .tuple items => anyItem input items
  | input, item => single input item
where
  /-- Whether one literal is there. -/
  single (input : Input) (item : Value) : Except Fault Bool :=
    match input, item with
    | .text chars, .text s => .ok (charsAt chars i s.toList)
    | .text chars, .tag t => .ok (charsAt chars i t.word.toList)
    | .buffer _ data, .bytes _ expected => .ok (bytesAt data i expected)
    | _, _ => .error .typeMismatch
  /-- Whether one of several literals is there; they are asked in order. -/
  anyItem (input : Input) : List Value → Except Fault Bool
    | [] => .ok false
    | item :: rest => do
      if ← single input item then .ok true else anyItem input rest

/-- How far a literal moves the cursor. -/
def literalLength : Value → Nat
  | .text s => s.length
  | .tag t => t.word.length
  | .bytes _ data => data.length
  | .tuple items => items.length
  | _ => 0

namespace State

/-- Reads one token that passes a test. -/
def readToken (s : State) (test : Value → Answer Bool) (name : String) : Answer State := do
  match ← Answer.ofExcept (s.input.token s.index) with
  | none => return s.failWith (name ++ ": Unexpected end of input")
  | some token =>
    if ← test token then
      return s.advance (s.index + 1) token
    else
      return s.failWith
        (name ++ ": Unexpected " ++ token.literal ++ " at index " ++ toString s.index)

/-- Reads a literal. -/
def readLiteral (s : State) (expected : Value) : Except Fault State := do
  if ← s.atEnd then
    return s.failWith "str: Unexpected end of input"
  else if ← s.input.hasLiteral s.index expected then
    return s.advance (s.index + literalLength expected) expected
  else
    let snippet ← s.upcoming snippetLength
    return s.failWith
      ("str: Tried to match " ++ expected.literal ++ ", but got " ++ snippet.literal)

/-- Reads what a pattern matches. -/
def readPattern (s : State) (shape : Matcher) (name : String) : Except Fault State := do
  if ← s.atEnd then
    return s.failWith (name ++ ": Unexpected end of input")
  else
    match ← shape.matchEnd? s.input s.index with
    | some stop => return s.advance stop (← s.input.matched s.index stop)
    | none =>
      return s.failWith
        (name ++ ": Couldn't match " ++ name ++ " at index " ++ toString s.index)

/-- Succeeds when nothing is left. -/
def readEnd (s : State) : Except Fault State := do
  if ← s.atEnd then return s.withResult .absent
  else
    let snippet ← s.upcoming snippetLength
    return s.failWith ("end_of_input: Expected end of input, but got " ++ snippet.literal)

/-- Reads one bit: of a buffer, or of a sequence of numbers with eight bits each. -/
def readBit (s : State) : Except Fault State :=
  match s.input with
  | .buffer _ data =>
    match Input.bit? data s.index with
    | some b => .ok (s.advance (s.index + 1) (.int b))
    | none => .ok (s.failWith "Bit: Unexpected end of input")
  | input => do
    match ← input.token (s.index / Input.byteWidth) with
    | none => return s.failWith "Bit: Unexpected end of input"
    | some token =>
      match token.integer? with
      | some n => return s.advance (s.index + 1) (.int (Input.bitOf n s.index))
      | none => .error .typeMismatch

/-- Lets the state pass if a value is alike to the expected one. -/
def checkValue (s : State) (value expected : Value)
    (message : Option (Value → Int → Answer Value)) : Answer State :=
  if value.alike expected then return s
  else
    match message with
    | none => return s.failWith "Invalid value"
    | some message => return s.withError (← message value (s.index - 1))

/-- The line that traces where a parser starts. -/
def entryLine (s : State) (label : String) : Except Fault String := do
  let snippet ← s.upcoming traceLength
  return label ++ ": " ++ snippet.literal ++ " at index " ++ toString s.index

/-- The line that traces a failure. -/
def backtrackLine (s : State) (label : String) : String :=
  label ++ " backtracked at index " ++ toString s.index ++ ": " ++ s.error.display

/-- The failure of a choice, from the messages of its alternatives. -/
def failChoice (s : State) (errors : List Value) : State :=
  match errors with
  | [] => s.failWith "choice: no alternatives"
  | errors =>
    s.failWith ("choice: Unable to match with any parser at index " ++ toString s.index ++
      " (tried: " ++ "; ".intercalate (errors.map Value.display) ++ ")")

end State

-- ================================================================ machines

/-- What runs of parsers are made of. -/
class Machine (m : Type → Type) extends Monad m where
  /-- Ends without an answer. -/
  exhaust {α : Type} : m α
  /-- Carries out a silent outcome. -/
  ofExcept {α : Type} (outcome : Except Fault α) : m α
  /-- Carries out what a supplied function answered. -/
  ofAnswer {α : Type} (answer : Answer α) : m α
  /-- Adds events to the history. -/
  note (events : List Event) : m Unit
  /-- Runs `x`, what a tracing wrapper has inside, from a live state. -/
  traced (label : String) (s : State) (x : m State) : m State := do
    note [.log .tracer (← ofExcept (s.entryLine label))]
    let t ← x
    if t.failed then note [.log .tracer (t.backtrackLine label)]
    return t
  /-- Runs `x`, the generator of a step program that is started from a live state. -/
  living (tag : Option String) (program : Program) (s : State) (x : m State) : m State
  /-- Runs `x`, a parser that a generator has handed out. -/
  handed (p : Parser) (s : State) (x : m State) : m State := x
  /-- Resumes a generator with the result of the parser that it has handed out. -/
  resumed (value : Value) : m Unit := pure ()

instance : Machine Run where
  exhaust := Run.exhaust
  ofExcept := Run.ofExcept
  ofAnswer := Run.ofAnswer
  note := Run.note
  living tag _ _ x := Run.ensuring x (tag.toList.map Event.finished)

namespace Run

variable {α : Type}

@[simp] theorem machine_exhaust : (Machine.exhaust : Run α) = exhaust := rfl

@[simp] theorem machine_ofExcept (outcome : Except Fault α) :
    (Machine.ofExcept outcome : Run α) = ofExcept outcome := rfl

@[simp] theorem machine_ofAnswer (answer : Answer α) :
    (Machine.ofAnswer answer : Run α) = ofAnswer answer := rfl

@[simp] theorem machine_note (events : List Event) :
    (Machine.note events : Run Unit) = note events := rfl

@[simp] theorem machine_handed (p : Parser) (s : State) (x : Run State) :
    Machine.handed p s x = x := rfl

@[simp] theorem machine_resumed (value : Value) : (Machine.resumed value : Run Unit) = pure () :=
  rfl

end Run

section

variable {m : Type → Type} [Machine m]

-- ================================================================ repetitions

/-- Rounds of `attempt` as long as it succeeds and moves the cursor; `results` are those of the
rounds so far, latest first. -/
def manyLoop (attempt : State → m State) : (rounds : Nat) → List Value → State → m State
  | 0, _, _ => Machine.exhaust
  | rounds + 1, results, s => do
    let t ← attempt s
    if t.failed || t.index == s.index then
      return s.withResult (.list results.reverse)
    else
      manyLoop attempt rounds (t.result :: results) t

/-- Rounds of a separator and a value as long as both succeed and move the cursor. A separator
counts only once a value follows it. -/
def separatedLoop (separator value : State → m State) :
    (rounds : Nat) → List Value → State → m State
  | 0, _, _ => Machine.exhaust
  | rounds + 1, results, s => do
    let t ← separator s
    if t.failed then
      return s.withResult (.list results.reverse)
    else
      let u ← value t
      if u.failed || u.index == s.index then
        return s.withResult (.list results.reverse)
      else
        separatedLoop separator value rounds (u.result :: results) u

/-- A value and the rounds after it; the empty list when there is no first value. -/
def separated (separator value : State → m State) (rounds : Nat) (s : State) : m State := do
  let first ← value s
  if first.failed then
    return s.withResult (.list [])
  else
    separatedLoop separator value rounds [first.result] first

/-- The list with one more value in front. -/
def prepend (first : Value) : Value → Value
  | .list rest => .list (first :: rest)
  | other => other

-- ================================================================ trees

mutual

/-- Runs a parser; `defer` runs its deferred nodes. -/
def Parser.denote (defer : Deferred → State → m State) (rounds : Nat) :
    Parser → State → m State
  | p, s =>
    if s.failed then return s
    else
      match p with
      | .succeed value => return s.withResult value
      | .fail message => return s.withError message
      | .satisfy test name => Machine.ofAnswer (s.readToken test name)
      | .literal expected => Machine.ofExcept (s.readLiteral expected)
      | .pattern shape name => Machine.ofExcept (s.readPattern shape name)
      | .endOfInput => Machine.ofExcept s.readEnd
      | .bit => Machine.ofExcept s.readBit
      | .jump target => do
        let (index, result) ← Machine.ofAnswer (target s.index)
        return s.advance index result
      | .check value expected message =>
        Machine.ofAnswer (s.checkValue value expected message)
      | .map p f => do
        let t ← p.denote defer rounds s
        if t.failed then return t
        else return t.withResult (← Machine.ofAnswer (f t.result))
      | .chain p next => do
        let t ← p.denote defer rounds s
        if t.failed then return t
        else (next t.result).denote defer rounds t
      | .errorMap p f => do
        let t ← p.denote defer rounds s
        if t.failed then return t.withError (← Machine.ofAnswer (f t.error t.index))
        else return t
      | .lookAhead p => do
        let t ← p.denote defer rounds s
        if t.failed then return t else return s.withResult t.result
      | .many p => manyLoop (p.denote defer rounds) rounds [] s
      | .many1 p => do
        let first ← p.denote defer rounds s
        if first.failed then
          return s.failWith
            ("many1: Unable to match any input using parser at index " ++ toString s.index)
        else
          let rest ← manyLoop (p.denote defer rounds) rounds [] first
          return rest.withResult (prepend first.result rest.result)
      | .orElse p q => do
        let t ← p.denote defer rounds s
        if t.failed then q.denote defer rounds s else return t
      | .sepBy separator value =>
        separated (separator.denote defer rounds) (value.denote defer rounds) rounds s
      | .sepBy1 separator value => do
        let t ← separated (separator.denote defer rounds) (value.denote defer rounds) rounds s
        if t.result.isTrue then return t
        else
          return s.failWith
            ("sepBy1: Unable to capture any results at index " ++ toString s.index)
      | .sequence ps => denoteAll defer rounds ps [] s
      | .choice ps => denoteFirst defer rounds ps [] s
      | .contextual tag program => Machine.living tag program s (program.denote defer rounds s)
      | .deferred object => defer object s
      | .trace label => do
        Machine.note [.log .tracer (← Machine.ofExcept (s.entryLine label))]
        return s
      | .traced label p => Machine.traced label s (p.denote defer rounds s)
      | .raise fault => Machine.ofExcept (.error fault)

/-- Runs parsers one after another; `results` are those so far, latest first. -/
def denoteAll (defer : Deferred → State → m State) (rounds : Nat) :
    List Parser → (results : List Value) → State → m State
  | [], results, s => return s.withResult (.list results.reverse)
  | p :: ps, results, s => do
    let t ← p.denote defer rounds s
    if t.failed then return t
    else denoteAll defer rounds ps (t.result :: results) t

/-- Runs parsers from one start until one succeeds; `errors` are the messages so far, latest
first. -/
def denoteFirst (defer : Deferred → State → m State) (rounds : Nat) :
    List Parser → (errors : List Value) → State → m State
  | [], errors, s => return s.failChoice errors.reverse
  | p :: ps, errors, s => do
    let t ← p.denote defer rounds s
    if t.failed then denoteFirst defer rounds ps (t.error :: errors) s
    else return t

/-- Runs a step program. -/
def Program.denote (defer : Deferred → State → m State) (rounds : Nat) :
    Program → State → m State
  | .done value, s => return s.withResult value
  | .step p next, s => do
    let t ← Machine.handed p s (p.denote defer rounds s)
    if t.failed then return t
    else
      Machine.resumed t.result
      (next t.result).denote defer rounds t
  | .noting events rest, s => do
    Machine.note events
    rest.denote defer rounds s
  | .raise fault, _ => Machine.ofExcept (.error fault)

end

end

end ParserAlgebra
