import ParserAlgebra.Input

/-!
What a parser needs of a pattern.

A parser asks a pattern one thing only: where the match that starts at a position ends. Any way to
tell will do, whatever language the pattern is written in, and whether it looks at characters or
bytes, ahead or back. All that is asked of a match is that it lies within the input.
-/
namespace ParserAlgebra

/-- Tells where matches end. An input of the wrong kind is a fault. -/
structure Matcher where
  /-- The end of the match that starts at a position, if there is one. -/
  matchEnd? : Input → Nat → Except Fault (Option Nat)
  /-- A match ends between its start and the end of the input. -/
  bounds {input : Input} {i stop : Nat} (hi : i ≤ input.size)
    (h : matchEnd? input i = .ok (some stop)) : i ≤ stop ∧ stop ≤ input.size

/-- What is matched between two positions. Of a buffer of any kind it is a fixed byte string. -/
def Input.matched (lo hi : Nat) : Input → Except Fault Value
  | buffer _ data => .ok (.bytes .fixed (data.extract lo hi).toList)
  | input => input.slice lo hi

end ParserAlgebra
