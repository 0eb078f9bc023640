/-!
The values that parsers produce and grammars compute with.

Results are dynamic: one parser may give a number and the next a list of texts, and a grammar
decides by looking at them. Two notions of sameness live here. Lean's own equality (decidable, by
`Value.beq`) tells every two values apart. `alike` is the looser equality that grammars test
with: a truth value is alike to the number zero or one, a type tag to the word that names it, and
two byte buffers of different kinds are alike when they hold the same bytes.
-/
namespace ParserAlgebra

-- ================================================================ the type

/-- How a byte buffer is held: a fixed string of bytes, a growable one, or a view of one. -/
inductive BufferKind where
  | fixed
  | growable
  | view
deriving DecidableEq, Repr, Inhabited

/-- The types a variable can be declared with. -/
inductive TypeTag where
  | int
  | string
  | boolean
deriving DecidableEq, Repr, Inhabited

/-- The word that names a declared type. -/
def TypeTag.word : TypeTag → String
  | .int => "int"
  | .string => "string"
  | .boolean => "boolean"

/-- The type a word names. -/
def TypeTag.ofWord? (word : String) : Option TypeTag :=
  [TypeTag.int, .string, .boolean].find? fun t => t.word == word

/-- What a parser can produce. A fractional number is held by its decimal text only: nothing
computes with one. -/
inductive Value where
  | absent
  | bool (b : Bool)
  | int (n : Int)
  | real (decimal : String)
  | text (s : String)
  | list (items : List Value)
  | tuple (items : List Value)
  | bytes (kind : BufferKind) (data : List UInt8)
  | tag (type : TypeTag)
  | field (type value : Value)
  | declaration (kind name type value : Value)
  | table (entries : List (Value × Value))
deriving Repr, Inhabited

namespace Value

-- ================================================================ exact equality

mutual

/-- Whether two values are the same in every part. -/
def beq : Value → Value → Bool
  | absent, absent => true
  | bool a, bool b => a == b
  | int a, int b => a == b
  | real a, real b => a == b
  | text a, text b => a == b
  | list a, list b => beqAll a b
  | tuple a, tuple b => beqAll a b
  | bytes k a, bytes l b => k == l && a == b
  | tag a, tag b => a == b
  | field a x, field b y => beq a b && beq x y
  | declaration a b c d, declaration e f g h => beq a e && beq b f && beq c g && beq d h
  | table a, table b => beqEntries a b
  | _, _ => false

/-- `beq` item by item. -/
def beqAll : List Value → List Value → Bool
  | [], [] => true
  | a :: as, b :: bs => beq a b && beqAll as bs
  | _, _ => false

/-- `beq` entry by entry, in order. -/
def beqEntries : List (Value × Value) → List (Value × Value) → Bool
  | [], [] => true
  | (a, x) :: as, (b, y) :: bs => beq a b && beq x y && beqEntries as bs
  | _, _ => false

end

mutual

theorem eq_of_beq : (a b : Value) → beq a b = true → a = b
  | absent, b, h => by cases b <;> simp [beq] at h ⊢
  | bool _, b, h => by cases b <;> simp [beq] at h ⊢; exact h
  | int _, b, h => by cases b <;> simp [beq] at h ⊢; exact h
  | real _, b, h => by cases b <;> simp [beq] at h ⊢; exact h
  | text _, b, h => by cases b <;> simp [beq] at h ⊢; exact h
  | list as, b, h => by cases b <;> simp [beq] at h ⊢; exact eq_of_beqAll as _ h
  | tuple as, b, h => by cases b <;> simp [beq] at h ⊢; exact eq_of_beqAll as _ h
  | bytes _ _, b, h => by cases b <;> simp [beq] at h ⊢; exact h
  | tag _, b, h => by cases b <;> simp [beq] at h ⊢; exact h
  | field a x, b, h => by
    cases b <;> simp [beq] at h ⊢
    exact ⟨eq_of_beq a _ h.1, eq_of_beq x _ h.2⟩
  | declaration a b c d, e, h => by
    cases e <;> simp [beq] at h ⊢
    exact ⟨eq_of_beq a _ h.1.1.1, eq_of_beq b _ h.1.1.2, eq_of_beq c _ h.1.2, eq_of_beq d _ h.2⟩
  | table as, b, h => by cases b <;> simp [beq] at h ⊢; exact eq_of_beqEntries as _ h

theorem eq_of_beqAll : (as bs : List Value) → beqAll as bs = true → as = bs
  | [], bs, h => by cases bs <;> simp [beqAll] at h ⊢
  | a :: as, bs, h => by
    cases bs <;> simp [beqAll] at h ⊢
    exact ⟨eq_of_beq a _ h.1, eq_of_beqAll as _ h.2⟩

theorem eq_of_beqEntries :
    (as bs : List (Value × Value)) → beqEntries as bs = true → as = bs
  | [], bs, h => by cases bs <;> simp [beqEntries] at h ⊢
  | (a, x) :: as, bs, h => by
    cases bs with
    | nil => simp [beqEntries] at h
    | cons b bs =>
      obtain ⟨b, y⟩ := b
      simp [beqEntries] at h
      rw [eq_of_beq a b h.1.1, eq_of_beq x y h.1.2, eq_of_beqEntries as bs h.2]

end

mutual

theorem beq_self : (a : Value) → beq a a = true
  | absent => rfl
  | bool _ => by simp [beq]
  | int _ => by simp [beq]
  | real _ => by simp [beq]
  | text _ => by simp [beq]
  | list as => by simp [beq, beqAll_self as]
  | tuple as => by simp [beq, beqAll_self as]
  | bytes _ _ => by simp [beq]
  | tag _ => by simp [beq]
  | field a x => by simp [beq, beq_self a, beq_self x]
  | declaration a b c d => by simp [beq, beq_self a, beq_self b, beq_self c, beq_self d]
  | table as => by simp [beq, beqEntries_self as]

theorem beqAll_self : (as : List Value) → beqAll as as = true
  | [] => rfl
  | a :: as => by simp [beqAll, beq_self a, beqAll_self as]

theorem beqEntries_self : (as : List (Value × Value)) → beqEntries as as = true
  | [] => rfl
  | (a, x) :: as => by simp [beqEntries, beq_self a, beq_self x, beqEntries_self as]

end

instance : DecidableEq Value := fun a b =>
  decidable_of_iff (beq a b = true) ⟨eq_of_beq a b, fun h => h ▸ beq_self a⟩

-- ================================================================ loose equality

/-- The whole number written by a decimal text such as `-2.0`. -/
def wholeReal? (decimal : String) : Option Int :=
  match decimal.toList.reverse with
  | '0' :: '.' :: digits => (String.ofList digits.reverse).toInt?
  | _ => none

/-- The whole number a value stands for: truth values count as zero and one. -/
def integer? : Value → Option Int
  | bool b => some (if b then 1 else 0)
  | int n => some n
  | _ => none

/-- The number a value stands for; a fractional one has to be written as a whole. -/
def number? : Value → Option Int
  | real decimal => wholeReal? decimal
  | v => v.integer?

/-- The word a value stands for: a type tag counts as the word that names it. -/
def word? : Value → Option String
  | text s => some s
  | tag t => some t.word
  | _ => none

mutual

/-- The equality grammars test with. Numbers are compared as numbers, words as words, buffers by
their bytes, and compound values part by part; a list is never alike to a tuple. -/
def alike : Value → Value → Bool
  | absent, absent => true
  | bool a, b => b.number? == some (if a then 1 else 0)
  | int a, b => b.number? == some a
  | real a, b =>
    match wholeReal? a with
    | some n => b.number? == some n
    | none => a != "nan" && b == real a
  | text a, b => b.word? == some a
  | tag a, b => b.word? == some a.word
  | bytes _ a, bytes _ b => a == b
  | list a, list b => alikeAll a b
  | tuple a, tuple b => alikeAll a b
  | field a x, field b y => alike a b && alike x y
  | declaration a b c d, declaration e f g h => alike a e && alike b f && alike c g && alike d h
  | table a, table b => a.length == b.length && within a b
  | _, _ => false

/-- `alike` item by item. -/
def alikeAll : List Value → List Value → Bool
  | [], [] => true
  | a :: as, b :: bs => alike a b && alikeAll as bs
  | _, _ => false

/-- Every entry of the first table has an alike entry in the second. -/
def within : List (Value × Value) → List (Value × Value) → Bool
  | [], _ => true
  | (k, v) :: rest, other =>
    (other.any fun e => alike k e.1 && alike v e.2) && within rest other

end

-- ================================================================ truth, kinds, parts

/-- Whether a value counts as true: everything but nothing, zero and the empty collections. -/
def isTrue : Value → Bool
  | absent => false
  | bool b => b
  | int n => n != 0
  | real decimal => wholeReal? decimal != some 0
  | text s => s != ""
  | list items => !items.isEmpty
  | tuple items => !items.isEmpty
  | bytes _ data => !data.isEmpty
  | tag _ => true
  | field _ _ => true
  | declaration _ _ _ _ => true
  | table entries => !entries.isEmpty

/-- The name by which messages call a value's kind. -/
def kindName : Value → String
  | absent => "NoneType"
  | bool _ => "bool"
  | int _ => "int"
  | real _ => "float"
  | text _ => "str"
  | list _ => "list"
  | tuple _ => "tuple"
  | bytes .fixed _ => "bytes"
  | bytes .growable _ => "bytearray"
  | bytes .view _ => "memoryview"
  | tag _ => "VarType"
  | field _ _ => "Field"
  | declaration _ _ _ _ => "Declaration"
  | table _ => "dict"

/-- The concatenation of a list of texts; nothing when some item is no text. -/
def joined? (items : List Value) : Option String :=
  (items.mapM word?).map String.join

/-- Whether a value can be a key of a table: it holds no list, table or growable buffer. -/
def isKey : Value → Bool
  | list _ | table _ | field _ _ | declaration _ _ _ _ | bytes .growable _ => false
  | tuple items => keys items
  | _ => true
where
  /-- Whether all of the values can be keys. -/
  keys : List Value → Bool
    | [] => true
    | v :: rest => isKey v && keys rest

/-- Puts a value under a key. A key alike to one already there keeps the first key and its place,
and takes the new value. -/
def insertEntry (key value : Value) : List (Value × Value) → List (Value × Value)
  | [] => [(key, value)]
  | (k, v) :: rest =>
    if k.alike key then (k, value) :: rest else (k, v) :: insertEntry key value rest

end Value

end ParserAlgebra
