import ParserAlgebra.Value.Basic

/-!
Expressions: the functions of a described grammar, as they are written.
-/
namespace ParserAlgebra

/-- Variables and their values, innermost first. -/
abbrev Scope := List (String × Value)

/-- The scope with one variable set. -/
def Scope.set (scope : Scope) (name : String) (value : Value) : Scope :=
  (name, value) :: scope.filter fun binding => binding.1 != name

/-- The operations of expressions. -/
inductive Operation where
  | number | length | join | upper
  | add | sub | mul | mod
  | eq | less | not | and | or
  | times | get | contains | code | reverse
  | literal | concat | raise | mark | fieldsByType
deriving DecidableEq, Repr

/-- Expressions. -/
inductive Expr where
  | constant (value : Value)
  | var (name : String)
  | list (items : List Expr)
  | tuple (items : List Expr)
  | field (type : Value) (value : Expr)
  | declaration (kind name type value : Expr)
  | table (entries : List (Value × Expr))
  | call (operation : Operation) (args : List Expr)
deriving Repr, Inhabited

end ParserAlgebra
