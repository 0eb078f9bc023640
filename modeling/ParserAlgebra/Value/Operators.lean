import ParserAlgebra.Value.Basic

/-!
The order of values, and the operators on them.

Not all values can be compared: numbers are ordered among themselves, so are words, and byte
buffers, lists and tuples are ordered by their first difference. The operators combine truth
values, whole numbers bit by bit, and tables. Whatever two values have no order or no combination
give nothing.
-/
namespace ParserAlgebra.Value

-- ================================================================ order

/-- Whether buffers of two kinds can be compared. A view can be compared with a growable buffer
alone. -/
def comparable (k l : BufferKind) : Bool :=
  k == .growable || l == .growable || (k == .fixed && l == .fixed)

mutual

/-- Whether a value comes before another; nothing when the two have no order. -/
def less? : Value → Value → Option Bool
  | list a, list b => lessAll? a b
  | tuple a, tuple b => lessAll? a b
  | bytes k a, bytes l b => if comparable k l then some (decide (a < b)) else none
  | a, b =>
    match a.number?, b.number?, a.word?, b.word? with
    | some m, some n, _, _ => some (decide (m < n))
    | _, _, some s, some t => some (decide (s < t))
    | _, _, _, _ => none

/-- The order of two sequences: that of the first items that differ, or else the shorter one is
first. -/
def lessAll? : List Value → List Value → Option Bool
  | [], b => some (!b.isEmpty)
  | _ :: _, [] => some false
  | x :: xs, y :: ys => if x.alike y then lessAll? xs ys else less? x y

end

-- ================================================================ operators

/-- A number of bits in which both numbers can be written in two's complement. -/
def commonWidth (m n : Int) : Nat :=
  max m.natAbs.log2 n.natAbs.log2 + 2

/-- Combines two numbers bit by bit, each with as many leading sign bits as it takes. -/
def bitwise (f : (w : Nat) → BitVec w → BitVec w → BitVec w) (m n : Int) : Int :=
  let w := commonWidth m n
  (f w (.ofInt w m) (.ofInt w n)).toInt

/-- Combines two whole numbers; truth values count as zero and one. -/
def bitwise? (f : (w : Nat) → BitVec w → BitVec w → BitVec w) (a b : Value) : Option Value :=
  match a.integer?, b.integer? with
  | some m, some n => some (int (bitwise f m n))
  | _, _ => none

/-- What either of two values has: of truth values, the bits of numbers, or the entries of tables,
where the second table's values win. -/
def union? : Value → Value → Option Value
  | bool a, bool b => some (bool (a || b))
  | table a, table b =>
    some (table (b.foldl (fun entries e => insertEntry e.1 e.2 entries) a))
  | a, b => bitwise? (fun _ x y => x ||| y) a b

/-- What both of two values have: of truth values, or the bits of numbers. -/
def meet? : Value → Value → Option Value
  | bool a, bool b => some (bool (a && b))
  | a, b => bitwise? (fun _ x y => x &&& y) a b

end ParserAlgebra.Value
