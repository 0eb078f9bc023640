/-!
Patterns and where they match.

A pattern is matched at a position of a text by backtracking search: the branches of an
alternative are tried from left to right, a greedy repetition prefers more rounds to fewer, and
the first way that lets the rest of the pattern match decides where the match ends. The matcher
takes what is to follow as a function from end positions to outcomes, so that backtracking is
asking again with another end.
-/
namespace ParserAlgebra

-- ================================================================ the types

/-- A set of characters: those in some closed range, or all others. -/
structure CharSet where
  negated : Bool
  ranges : List (Char × Char)
deriving Repr, DecidableEq

namespace CharSet

/-- Exactly one character. -/
def only (c : Char) : CharSet :=
  ⟨false, [(c, c)]⟩

/-- Every character except the line feed. -/
def anyInLine : CharSet :=
  ⟨true, [('\n', '\n')]⟩

/-- Whether a character belongs to the set. -/
def contains (set : CharSet) (c : Char) : Bool :=
  (set.ranges.any fun (lo, hi) => lo ≤ c && c ≤ hi) != set.negated

/-- The length of the run of members that starts at `i`, counted up to `limit`. -/
def runLength (set : CharSet) (chars : Array Char) : (limit i : Nat) → Nat
  | 0, _ => 0
  | limit + 1, i =>
    match chars[i]? with
    | some c => if set.contains c then runLength set chars limit (i + 1) + 1 else 0
    | none => 0

end CharSet

/-- Which repetitions a loop tries first. -/
inductive Greed where
  | longest
  | shortest
deriving Repr, DecidableEq

/-- Patterns over characters. `run` repeats a set of characters, `loop` any other pattern; both
count their rounds between `least` and `most`. -/
inductive Pattern where
  | empty
  | one (set : CharSet)
  | start
  | finish
  | seq (first second : Pattern)
  | alt (first second : Pattern)
  | run (set : CharSet) (least : Nat) (most : Option Nat) (greed : Greed)
  | loop (body : Pattern) (least : Nat) (most : Option Nat) (greed : Greed)
deriving Repr, DecidableEq

namespace Pattern

-- ================================================================ repetitions

/-- Asks `rest` at the ends `i + n`, …, `i + least`, in this order. -/
def longestFirst (rest : Nat → Option Nat) (i least : Nat) : Nat → Option Nat
  | 0 => if least = 0 then rest i else none
  | n + 1 =>
    if n + 1 < least then none
    else
      match rest (i + (n + 1)) with
      | some stop => some stop
      | none => longestFirst rest i least n

/-- Asks `rest` at the `n + 1` ends from `i` upwards. -/
def shortestFirst (rest : Nat → Option Nat) (i : Nat) : Nat → Option Nat
  | 0 => rest i
  | n + 1 =>
    match rest i with
    | some stop => some stop
    | none => shortestFirst rest (i + 1) n

/-- The longest run that a bound on its rounds allows. -/
def bounded (most : Option Nat) (length : Nat) : Nat :=
  match most with
  | some most => min most length
  | none => length

/-- Rounds of `body` from `i` on, then `rest`. The `least` rounds still due are taken whatever
they consume; a further round that consumes nothing is the last. `fuel` bounds the rounds. -/
def rounds (body : Nat → (Nat → Option Nat) → Option Nat) (greed : Greed)
    (rest : Nat → Option Nat) : (fuel least : Nat) → (most : Option Nat) → Nat → Option Nat
  | 0, _, _, i => rest i
  | fuel + 1, least, most, i =>
    if most = some 0 then rest i
    else
      let another := fun (_ : Unit) => body i fun j =>
        if least = 0 ∧ j = i then rest i
        else rounds body greed rest fuel (least - 1) (most.map (· - 1)) j
      if 0 < least then another ()
      else
        match greed with
        | .longest =>
          match another () with
          | some stop => some stop
          | none => rest i
        | .shortest =>
          match rest i with
          | some stop => some stop
          | none => another ()

-- ================================================================ matching

/-- Matches a pattern at position `i` so that `rest` accepts where it ends; the answer is what
`rest` answers there. -/
def matchThen (chars : Array Char) : Pattern → Nat → (Nat → Option Nat) → Option Nat
  | empty, i, rest => rest i
  | one set, i, rest =>
    match chars[i]? with
    | some c => if set.contains c then rest (i + 1) else none
    | none => none
  | start, i, rest => if i = 0 then rest i else none
  | finish, i, rest =>
    if i = chars.size ∨ (i + 1 = chars.size ∧ chars[i]? = some '\n') then rest i else none
  | seq first second, i, rest =>
    first.matchThen chars i fun j => second.matchThen chars j rest
  | alt first second, i, rest =>
    match first.matchThen chars i rest with
    | some stop => some stop
    | none => second.matchThen chars i rest
  | run set least most greed, i, rest =>
    let length := bounded most (set.runLength chars (chars.size - i) i)
    match greed with
    | .longest => longestFirst rest i least length
    | .shortest => if length < least then none else shortestFirst rest (i + least) (length - least)
  | loop body least most greed, i, rest =>
    rounds (fun j next => body.matchThen chars j next) greed rest (chars.size - i + least + 1)
      least most i

/-- Where the match of a pattern that starts at `i` ends. -/
def matchEnd? (p : Pattern) (chars : Array Char) (i : Nat) : Option Nat :=
  p.matchThen chars i some

/-- One or more members of a set, as many as there are. -/
def runOf (set : CharSet) : Pattern :=
  run set 1 none .longest

end Pattern

end ParserAlgebra
