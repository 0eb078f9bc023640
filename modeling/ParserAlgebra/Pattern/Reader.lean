import ParserAlgebra.Pattern.Basic

/-!
Reading patterns from text.

The written form: a character stands for itself, `.` for any character of a line, `[...]` for a
set with ranges and `[^...]` for its complement, a backslash takes away the meaning of the
punctuation after it, round brackets group (an opening `(?:` as well), `|` separates
alternatives, `^` and `$` stand for the two ends of the text, and `*`, `+`, `?` and counts in
braces repeat what is before them, with a further `?` preferring fewer rounds. A text that does
not follow this form is no pattern.

Every reader takes fuel for its nesting and gives what it has read with the characters left.
-/
namespace ParserAlgebra.Pattern

-- ================================================================ escapes and sets

/-- The character that an escaped character stands for; letters and digits other than the usual
blanks cannot be escaped. -/
def escaped? (c : Char) : Option Char :=
  match c with
  | 'n' => some '\n'
  | 'r' => some '\r'
  | 't' => some '\t'
  | 'f' => some '\x0c'
  | 'v' => some '\x0b'
  | 'a' => some '\x07'
  | c => if c.isAlphanum then none else some c

/-- One character of a set, possibly escaped. -/
def readSetChar : List Char → Option (Char × List Char)
  | '\\' :: c :: rest => (escaped? c).map fun c => (c, rest)
  | '\\' :: [] => none
  | c :: rest => some (c, rest)
  | [] => none

/-- The ranges of a set up to its closing bracket. A bracket in first place is a member, and so
is a dash that no character follows. -/
def readRanges : (fuel : Nat) → (isFirst : Bool) → List Char →
    Option (List (Char × Char) × List Char)
  | 0, _, _ => none
  | _ + 1, false, ']' :: rest => some ([], rest)
  | fuel + 1, _, cs => do
    let (lo, rest) ← readSetChar cs
    match rest with
    | '-' :: ']' :: rest => some ([(lo, lo), ('-', '-')], rest)
    | '-' :: rest => do
      let (hi, rest) ← readSetChar rest
      if hi < lo then none
      else do
        let (ranges, rest) ← readRanges fuel false rest
        some ((lo, hi) :: ranges, rest)
    | rest => do
      let (ranges, rest) ← readRanges fuel false rest
      some ((lo, lo) :: ranges, rest)

/-- A set after its opening bracket. -/
def readSet (fuel : Nat) : List Char → Option (CharSet × List Char)
  | '^' :: rest => (readRanges fuel true rest).map fun (ranges, rest) => (⟨true, ranges⟩, rest)
  | rest => (readRanges fuel true rest).map fun (ranges, rest) => (⟨false, ranges⟩, rest)

-- ================================================================ repetitions

/-- The number a run of digits in front denotes, if there is one, and what follows it. -/
def readCount (cs : List Char) : Option Nat × List Char :=
  ((String.ofList (cs.takeWhile Char.isDigit)).toNat?, cs.dropWhile Char.isDigit)

/-- Bounds on the rounds, written after the opening brace; nothing when the braces hold no
bounds and so stand for themselves. -/
def readBounds (cs : List Char) : Option ((Nat × Option Nat) × List Char) :=
  match readCount cs with
  | (some n, '}' :: rest) => some ((n, some n), rest)
  | (least, ',' :: rest) =>
    match readCount rest with
    | (most, '}' :: rest) => some ((least.getD 0, most), rest)
    | _ => none
  | _ => none

/-- The bounds of the repetition sign in front, if there is one. -/
def readRepetition : List Char → Option ((Nat × Option Nat) × List Char)
  | '*' :: rest => some ((0, none), rest)
  | '+' :: rest => some ((1, none), rest)
  | '?' :: rest => some ((0, some 1), rest)
  | '{' :: rest => readBounds rest
  | _ => none

/-- A pattern repeated: runs of a set are kept apart from other loops. -/
def repeated (p : Pattern) (least : Nat) (most : Option Nat) (greed : Greed) : Pattern :=
  match p with
  | one set => run set least most greed
  | p => loop p least most greed

/-- Reads the repetition sign after a pattern, if there is one. Two signs in a row, bounds in the
wrong order, and a sign after the end of the text are refused. -/
def readRepeated (p : Pattern) (cs : List Char) : Option (Pattern × List Char) :=
  match readRepetition cs with
  | none => some (p, cs)
  | some ((least, most), rest) =>
    if p = start ∨ p = finish ∨ most.any (· < least) then none
    else
      let (greed, rest) :=
        match rest with
        | '?' :: rest => (Greed.shortest, rest)
        | rest => (Greed.longest, rest)
      if (readRepetition rest).isSome then none else some (repeated p least most greed, rest)

-- ================================================================ patterns

mutual

/-- Alternatives up to a closing bracket or the end. -/
def readAlternatives : (fuel : Nat) → List Char → Option (Pattern × List Char)
  | 0, _ => none
  | fuel + 1, cs => do
    let (first, rest) ← readSequence fuel cs
    match rest with
    | '|' :: rest => do
      let (second, rest) ← readAlternatives fuel rest
      some (alt first second, rest)
    | rest => some (first, rest)

/-- A sequence of repeated atoms up to a bar, a closing bracket or the end. -/
def readSequence : (fuel : Nat) → List Char → Option (Pattern × List Char)
  | 0, _ => none
  | _ + 1, [] => some (empty, [])
  | _ + 1, '|' :: rest => some (empty, '|' :: rest)
  | _ + 1, ')' :: rest => some (empty, ')' :: rest)
  | fuel + 1, cs => do
    let (atom, rest) ← readAtom fuel cs
    let (item, rest) ← readRepeated atom rest
    let (others, rest) ← readSequence fuel rest
    some (seq item others, rest)

/-- One atom: a character, a set, an end of the text or a group. -/
def readAtom : (fuel : Nat) → List Char → Option (Pattern × List Char)
  | 0, _ => none
  | fuel + 1, cs =>
    if (readRepetition cs).isSome then none
    else
      match cs with
      | '^' :: rest => some (start, rest)
      | '$' :: rest => some (finish, rest)
      | '.' :: rest => some (one .anyInLine, rest)
      | '[' :: rest => (readSet fuel rest).map fun (set, rest) => (one set, rest)
      | '\\' :: c :: rest => (escaped? c).map fun c => (one (.only c), rest)
      | '\\' :: [] => none
      | '(' :: '?' :: ':' :: rest => readGroup fuel rest
      | '(' :: '?' :: _ => none
      | '(' :: rest => readGroup fuel rest
      | c :: rest => some (one (.only c), rest)
      | [] => none

/-- The alternatives of a group and its closing bracket. -/
def readGroup : (fuel : Nat) → List Char → Option (Pattern × List Char)
  | 0, _ => none
  | fuel + 1, cs => do
    let (p, rest) ← readAlternatives fuel cs
    match rest with
    | ')' :: rest => some (p, rest)
    | _ => none

end

/-- The pattern a text denotes; nothing when the text is not of the written form. -/
def ofString? (s : String) : Option Pattern :=
  let cs := s.toList
  match readAlternatives (4 * cs.length + 4) cs with
  | some (p, []) => some p
  | _ => none

end ParserAlgebra.Pattern
