import ParserAlgebra.Expr.Basic
import ParserAlgebra.Ipv4
import ParserAlgebra.Text.Numeral
import ParserAlgebra.Value.Operators

/-!
The values of expressions.

An expression is evaluated in a scope. It answers with a value, or with the fault of the
operation that refused its arguments, and notes a mark for each `mark` on the way. The arguments
of an operation are all evaluated first, from left to right.
-/
namespace ParserAlgebra

-- ================================================================ operations

namespace Operation

/-- The number a text denotes; numbers stand for themselves. -/
def toNumber : Value → Except Fault Value
  | .int n => .ok (.int n)
  | .bool b => .ok (.int (if b then 1 else 0))
  | v =>
    match v.word? with
    | some s =>
      match Text.signedNumeral? s with
      | some n => .ok (.int n)
      | none => .error .malformedNumeral
    | none => .error .typeMismatch

/-- The number of parts of a collection. -/
def lengthOf : Value → Except Fault Value
  | .list items => .ok (.int items.length)
  | .tuple items => .ok (.int items.length)
  | .bytes _ data => .ok (.int data.length)
  | .table entries => .ok (.int entries.length)
  | v =>
    match v.word? with
    | some s => .ok (.int s.length)
    | none => .error .typeMismatch

/-- Arithmetic on two whole numbers. -/
def arithmetic (f : Int → Int → Except Fault Int) (a b : Value) : Except Fault Value :=
  match a.integer?, b.integer? with
  | some m, some n => (f m n).map .int
  | _, _ => .error .typeMismatch

/-- Sums of numbers, and concatenations of two collections of one kind. -/
def sum (a b : Value) : Except Fault Value :=
  match a, b with
  | .list xs, .list ys => .ok (.list (xs ++ ys))
  | .tuple xs, .tuple ys => .ok (.tuple (xs ++ ys))
  | .bytes k xs, .bytes _ ys => .ok (.bytes k (xs ++ ys))
  | a, b =>
    match a.word?, b.word? with
    | some s, some t => .ok (.text (s ++ t))
    | _, _ => arithmetic (fun m n => .ok (m + n)) a b

/-- A text, list or tuple a number of times; none when the number is not positive. -/
def repeated (v : Value) (n : Int) : Except Fault Value :=
  match v with
  | .list items => .ok (.list (List.replicate n.toNat items).flatten)
  | .tuple items => .ok (.tuple (List.replicate n.toNat items).flatten)
  | .bytes k data => .ok (.bytes k (List.replicate n.toNat data).flatten)
  | v =>
    match v.word? with
    | some s => .ok (.text (String.join (List.replicate n.toNat s)))
    | none => .error .typeMismatch

/-- Products of numbers, and repeated collections. -/
def product (a b : Value) : Except Fault Value :=
  match a.integer?, b.integer? with
  | some m, some n => .ok (.int (m * n))
  | some m, none => repeated b m
  | none, some n => repeated a n
  | none, none => .error .typeMismatch

/-- The remainder with the sign of the divisor. -/
def remainder (m n : Int) : Except Fault Int :=
  if n = 0 then .error .zeroDivision else .ok (Int.fmod m n)

/-- Whether a value comes before another. -/
def isLess (a b : Value) : Except Fault Value :=
  match a.less? b with
  | some answer => .ok (.bool answer)
  | none => .error .typeMismatch

/-- The item at a position; negative positions count from the end. -/
def itemOf {α : Type} (items : List α) (i : Int) : Except Fault α :=
  let position := if i < 0 then i + items.length else i
  if position < 0 then .error .outOfRange
  else
    match items[position.toNat]? with
    | some item => .ok item
    | none => .error .outOfRange

/-- The value under a key of a table. -/
def entryOf (entries : List (Value × Value)) (key : Value) : Except Fault Value :=
  if key.isKey then
    match entries.find? fun e => e.1.alike key with
    | some e => .ok e.2
    | none => .error .missingKey
  else .error .typeMismatch

/-- The part of a collection at a position, or the entry of a table under a key. -/
def part (v i : Value) : Except Fault Value :=
  match v, i.integer? with
  | .table entries, _ => entryOf entries i
  | .list items, some i => itemOf items i
  | .tuple items, some i => itemOf items i
  | .bytes _ data, some i => (itemOf data i).map fun b => .int b.toNat
  | v, some i =>
    match v.word? with
    | some s => (itemOf s.toList i).map fun c => .text (String.singleton c)
    | none => .error .typeMismatch
  | _, none => .error .typeMismatch

/-- Whether the characters of a text occur in a row within another. -/
def occurs (inner : List Char) : List Char → Bool
  | [] => inner.isEmpty
  | c :: rest => inner.isPrefixOf (c :: rest) || occurs inner rest

/-- Whether a text holds another, or a collection holds an item. -/
def holds (v item : Value) : Except Fault Value :=
  match v with
  | .list items => .ok (.bool (items.any fun x => x.alike item))
  | .tuple items => .ok (.bool (items.any fun x => x.alike item))
  | .table entries => .ok (.bool (entries.any fun e => e.1.alike item))
  | v =>
    match v.word?, item.word? with
    | some s, some t => .ok (.bool (occurs t.toList s.toList))
    | _, _ => .error .typeMismatch

/-- The code point of a single character, or the one byte of a buffer. -/
def codeOf (v : Value) : Except Fault Value :=
  match v, v.word?.map String.toList with
  | _, some [c] => .ok (.int c.toNat)
  | .bytes .fixed [b], _ | .bytes .growable [b], _ => .ok (.int b.toNat)
  | _, _ => .error .typeMismatch

/-- A collection from its end to its start. -/
def reversed (v : Value) : Except Fault Value :=
  match v with
  | .list items => .ok (.list items.reverse)
  | .tuple items => .ok (.tuple items.reverse)
  | .bytes k data => .ok (.bytes k data.reverse)
  | v =>
    match v.word? with
    | some s => .ok (.text (String.ofList s.toList.reverse))
    | none => .error .typeMismatch

/-- The concatenation of a list of texts; a text is that of its own characters. -/
def joinAll : Value → Except Fault Value
  | .list items | .tuple items =>
    match Value.joined? items with
    | some s => .ok (.text s)
    | none => .error .typeMismatch
  | v =>
    match v.word? with
    | some s => .ok (.text s)
    | none => .error .typeMismatch

/-- A text with its ASCII letters in upper case. -/
def upperCase (v : Value) : Except Fault Value :=
  match v.word? with
  | some s => .ok (.text (String.ofList (s.toList.map Char.toUpper)))
  | none => .error .missingOperation

mutual

/-- Whether no number in a value has more digits than may be written. -/
def isWritable : Value → Bool
  | .int n => n.natAbs < Nat.pow 10 Text.maxDigits
  | .list items | .tuple items => areWritable items
  | .field type value => isWritable type && isWritable value
  | .declaration kind name type value =>
    isWritable kind && isWritable name && isWritable type && isWritable value
  | .table entries => entriesWritable entries
  | _ => true

/-- Whether no number in any of the values has more digits than may be written. -/
def areWritable : List Value → Bool
  | [] => true
  | v :: rest => isWritable v && areWritable rest

/-- Whether no number in any of the entries has more digits than may be written. -/
def entriesWritable : List (Value × Value) → Bool
  | [] => true
  | (k, v) :: rest => isWritable k && isWritable v && entriesWritable rest

end

/-- The written form of values, unless a number among them is too long. -/
def written (form : String) (args : List Value) : Except Fault Value :=
  if areWritable args then .ok (.text form) else .error .malformedNumeral

/-- What an operation answers for its arguments. -/
def apply (operation : Operation) (args : List Value) : Answer Value :=
  match operation, args with
  | number, [v] => .ofExcept (toNumber v)
  | length, [v] => .ofExcept (lengthOf v)
  | join, [v] => .ofExcept (joinAll v)
  | upper, [v] => .ofExcept (upperCase v)
  | add, [a, b] => .ofExcept (sum a b)
  | sub, [a, b] => .ofExcept (arithmetic (fun m n => .ok (m - n)) a b)
  | mul, [a, b] => .ofExcept (product a b)
  | mod, [a, b] => .ofExcept (arithmetic remainder a b)
  | eq, [a, b] => .pure (.bool (a.alike b))
  | less, [a, b] => .ofExcept (isLess a b)
  | not, [v] => .pure (.bool (!v.isTrue))
  | and, args => .pure (.bool (args.all Value.isTrue))
  | or, args => .pure (.bool (args.any Value.isTrue))
  | times, [v, n] =>
    match n.integer? with
    | some n => .ofExcept (repeated v n)
    | none => .raise .typeMismatch
  | get, [v, i] => .ofExcept (part v i)
  | contains, [v, item] => .ofExcept (holds v item)
  | code, [v] => .ofExcept (codeOf v)
  | reverse, [v] => .ofExcept (reversed v)
  | literal, [v] => .ofExcept (written v.literal [v])
  | concat, args => .ofExcept (written (String.join (args.map Value.display)) args)
  | raise, [v] => Answer.raise (.user v)
  | mark, [v] => ⟨[.mark v], .ok v⟩
  | fieldsByType, [v] => .ofExcept (Ipv4.fieldsByType v)
  | _, _ => .raise .typeMismatch

end Operation

-- ================================================================ expressions

namespace Expr

mutual

/-- The value of an expression in a scope. -/
def eval (scope : Scope) : Expr → Answer Value
  | constant value => .pure value
  | var name => .ofOption (.unbound name) (scope.lookup name)
  | list items => return .list (← evalAll scope items)
  | tuple items => return .tuple (← evalAll scope items)
  | field type value => return .field type (← value.eval scope)
  | declaration kind name type value => do
    let kind ← kind.eval scope
    let name ← name.eval scope
    let type ← type.eval scope
    let value ← value.eval scope
    return .declaration kind name type value
  | table entries => return .table (← evalEntries scope entries [])
  | call operation args => do operation.apply (← evalAll scope args)

/-- The values of expressions, from left to right. -/
def evalAll (scope : Scope) : List Expr → Answer (List Value)
  | [] => .pure []
  | e :: rest => do
    let value ← e.eval scope
    let values ← evalAll scope rest
    return value :: values

/-- Adds the entries of a table in order. -/
def evalEntries (scope : Scope) :
    List (Value × Expr) → List (Value × Value) → Answer (List (Value × Value))
  | [], entries => .pure entries
  | (key, e) :: rest, entries => do
    let value ← e.eval scope
    if key.isKey then evalEntries scope rest (Value.insertEntry key value entries)
    else Answer.raise .typeMismatch

end

end Expr

end ParserAlgebra
