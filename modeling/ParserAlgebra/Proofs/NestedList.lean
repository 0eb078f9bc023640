import ParserAlgebra.Declaration
import ParserAlgebra.Proofs.Meaning

/-!
The smallest recursive grammar: numbers, and lists of such values in brackets, nested to any
depth. Its one rule refers to itself through a deferred node, so it is the grammar to try a
statement about deferred nodes on.
-/
namespace ParserAlgebra.NestedList

/-- The rule of the grammar. -/
def rule : Rule :=
  ⟨"nested list", []⟩

/-- A number. -/
def number : Parser :=
  Parser.digits.map Declaration.numberOf

/-- A number, or a list of values. -/
def parser : Parser :=
  .choice
    [number,
     .between (.symbol '[') (.symbol ']') (.sepBy (.symbol ',') (.deferred (.own 0 rule)))]

/-- Every rule is the one rule of the grammar. -/
def rules : Rules where
  rule _ := .pure (.parser parser)
  body _ _ := .raise .missingOperation

/-- The rule builds nothing but the parser. -/
theorem eq_parser_of_tree {object : Deferred} {p : Parser} (h : rules.tree object = .ok p) :
    p = parser := by
  cases object with
  | own | shared => exact (Except.ok.inj h).symm
  | body => cases h

/-- What holds of every node of the parser holds of every node of its rules. -/
theorem rules_every {ok : Parser → Prop} (h : parser.Every ok) : rules.Every ok := by
  intro object p hp
  rw [eq_parser_of_tree hp]
  exact h

/-- The text `[1,[]]`. -/
def sample : Input :=
  .text #['[', '1', ',', '[', ']', ']']

theorem eval_sample :
    (parser.eval rules 3 0 (.initial sample) {}).1 =
      .done { input := sample, index := 6, result := .list [.int 1, .list []] } := by
  rw [Parser.eval_eq_apply (Session.faithful_empty rules)]
  rfl

end ParserAlgebra.NestedList
