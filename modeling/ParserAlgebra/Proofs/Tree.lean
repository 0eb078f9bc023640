import ParserAlgebra.Parser.Eval

/-!
Induction over parser trees, and what every node of a tree is like.

# One induction for all parsers

A parser holds other parsers in three ways: directly, in a list, and along the continuations of a
step program. `Parser.induct` gives a hypothesis for each of them, so that a fact about all
parsers is one induction with one case per combinator. A step program has its own induction,
`Program.induct`.

# Predicates on all nodes

`p.Every ok` says that `ok` holds of every node of `p`, whatever values the continuations are
given. A deferred node is a node like any other: what it stands for is a matter of the rules
(`Rules.Every`) and is not looked into here.
-/
namespace ParserAlgebra

-- ================================================================ induction

/-- All parsers that a step program can hand out satisfy `P`. -/
def Program.All (P : Parser → Prop) : Program → Prop
  | .done _ => True
  | .step p next => P p ∧ ∀ value, (next value).All P
  | .noting _ rest => rest.All P
  | .raise _ => True

/-- Induction over parsers, one case per combinator. -/
@[elab_as_elim, induction_eliminator]
theorem Parser.induct {motive : Parser → Prop}
    (succeed : ∀ value, motive (.succeed value))
    (fail : ∀ message, motive (.fail message))
    (satisfy : ∀ test name, motive (.satisfy test name))
    (literal : ∀ expected, motive (.literal expected))
    (pattern : ∀ shape name, motive (.pattern shape name))
    (endOfInput : motive .endOfInput)
    (bit : motive .bit)
    (jump : ∀ target, motive (.jump target))
    (check : ∀ value expected message, motive (.check value expected message))
    (map : ∀ p f, motive p → motive (.map p f))
    (chain : ∀ p next, motive p → (∀ value, motive (next value)) → motive (.chain p next))
    (errorMap : ∀ p f, motive p → motive (.errorMap p f))
    (lookAhead : ∀ p, motive p → motive (.lookAhead p))
    (many : ∀ p, motive p → motive (.many p))
    (many1 : ∀ p, motive p → motive (.many1 p))
    (orElse : ∀ p q, motive p → motive q → motive (.orElse p q))
    (sepBy : ∀ separator value, motive separator → motive value → motive (.sepBy separator value))
    (sepBy1 : ∀ separator value, motive separator → motive value →
      motive (.sepBy1 separator value))
    (sequence : ∀ ps, (∀ p ∈ ps, motive p) → motive (.sequence ps))
    (choice : ∀ ps, (∀ p ∈ ps, motive p) → motive (.choice ps))
    (contextual : ∀ tag program, Program.All motive program → motive (.contextual tag program))
    (deferred : ∀ object, motive (.deferred object))
    (trace : ∀ label, motive (.trace label))
    (traced : ∀ label p, motive p → motive (.traced label p))
    (raise : ∀ fault, motive (.raise fault)) (p : Parser) : motive p :=
  @Parser.rec motive (Program.All motive) (fun ps => ∀ p ∈ ps, motive p)
    succeed fail satisfy literal pattern endOfInput bit jump check map chain errorMap lookAhead
    many many1 orElse sepBy sepBy1 sequence choice contextual deferred trace traced raise
    (fun _ => trivial) (fun _ _ hp hnext => ⟨hp, hnext⟩) (fun _ _ hrest => hrest)
    (fun _ => trivial) (fun _ h => nomatch h)
    (fun _ _ hp hps => List.forall_mem_cons.mpr ⟨hp, hps⟩) p

/-- Induction over step programs. -/
@[elab_as_elim, induction_eliminator]
theorem Program.induct {motive : Program → Prop}
    (done : ∀ value, motive (.done value))
    (step : ∀ p next, (∀ value, motive (next value)) → motive (.step p next))
    (noting : ∀ events rest, motive rest → motive (.noting events rest))
    (raise : ∀ fault, motive (.raise fault)) : ∀ program, motive program
  | .done value => done value
  | .step p next => step p next fun value => Program.induct done step noting raise (next value)
  | .noting events rest => noting events rest (Program.induct done step noting raise rest)
  | .raise fault => raise fault

-- ================================================================ all nodes

mutual

/-- Every node of a parser satisfies `ok`. -/
def Parser.Every (ok : Parser → Prop) : Parser → Prop
  | .map p f => ok (.map p f) ∧ p.Every ok
  | .chain p next => ok (.chain p next) ∧ p.Every ok ∧ ∀ value, (next value).Every ok
  | .errorMap p f => ok (.errorMap p f) ∧ p.Every ok
  | .lookAhead p => ok (.lookAhead p) ∧ p.Every ok
  | .many p => ok (.many p) ∧ p.Every ok
  | .many1 p => ok (.many1 p) ∧ p.Every ok
  | .orElse p q => ok (.orElse p q) ∧ p.Every ok ∧ q.Every ok
  | .sepBy separator value => ok (.sepBy separator value) ∧ separator.Every ok ∧ value.Every ok
  | .sepBy1 separator value => ok (.sepBy1 separator value) ∧ separator.Every ok ∧ value.Every ok
  | .sequence ps => ok (.sequence ps) ∧ everyOf ok ps
  | .choice ps => ok (.choice ps) ∧ everyOf ok ps
  | .contextual tag program => ok (.contextual tag program) ∧ program.Every ok
  | .traced label p => ok (.traced label p) ∧ p.Every ok
  | leaf => ok leaf

/-- Every node of every parser of a list satisfies `ok`. -/
def everyOf (ok : Parser → Prop) : List Parser → Prop
  | [] => True
  | p :: ps => p.Every ok ∧ everyOf ok ps

/-- Every node of every parser of a step program satisfies `ok`. A program that gives up counts
as the parser that gives up. -/
def Program.Every (ok : Parser → Prop) : Program → Prop
  | .done _ => True
  | .step p next => p.Every ok ∧ ∀ value, (next value).Every ok
  | .noting _ rest => rest.Every ok
  | .raise fault => ok (.raise fault)

end

/-- A condition on a list is one on its members. -/
theorem everyOf_iff {ok : Parser → Prop} {ps : List Parser} :
    everyOf ok ps ↔ ∀ p ∈ ps, p.Every ok := by
  induction ps with
  | nil => simp [everyOf]
  | cons p ps ih => rw [everyOf, ih, List.forall_mem_cons]

/-- A weaker predicate holds wherever a stronger one does. -/
theorem Parser.Every.mono {ok ok' : Parser → Prop} (weaker : ∀ p, ok p → ok' p) {p : Parser}
    (h : p.Every ok) : p.Every ok' := by
  induction p with
  | succeed | fail | satisfy | literal | pattern | endOfInput | bit | jump | check | deferred
  | trace | raise => exact weaker _ h
  | map _ _ ih | errorMap _ _ ih | lookAhead _ ih | many _ ih | many1 _ ih
  | traced _ _ ih => exact ⟨weaker _ h.1, ih h.2⟩
  | chain p next ihp ihnext =>
      exact ⟨weaker _ h.1, ihp h.2.1, fun value => ihnext value (h.2.2 value)⟩
  | orElse _ _ ihp ihq | sepBy _ _ ihp ihq | sepBy1 _ _ ihp ihq =>
      exact ⟨weaker _ h.1, ihp h.2.1, ihq h.2.2⟩
  | sequence ps ih | choice ps ih =>
      refine ⟨weaker _ h.1, everyOf_iff.mpr fun p hp => ih p hp ?_⟩
      exact everyOf_iff.mp h.2 p hp
  | contextual tag program ih =>
      refine ⟨weaker _ h.1, ?_⟩
      obtain ⟨-, hprogram⟩ := h
      induction program with
      | done => trivial
      | step p next ihnext =>
          exact ⟨ih.1 hprogram.1, fun value => ihnext value (ih.2 value) (hprogram.2 value)⟩
      | noting events rest ihrest => exact ihrest ih hprogram
      | raise fault => exact weaker _ hprogram

/-- What holds of all parsers holds of every node. -/
theorem Parser.every_of_forall {ok : Parser → Prop} (all : ∀ p, ok p) (p : Parser) :
    p.Every ok := by
  induction p with
  | succeed | fail | satisfy | literal | pattern | endOfInput | bit | jump | check | deferred
  | trace | raise => exact all _
  | map _ _ ih | errorMap _ _ ih | lookAhead _ ih | many _ ih | many1 _ ih
  | traced _ _ ih => exact ⟨all _, ih⟩
  | chain _ _ ihp ihnext => exact ⟨all _, ihp, ihnext⟩
  | orElse _ _ ihp ihq | sepBy _ _ ihp ihq | sepBy1 _ _ ihp ihq => exact ⟨all _, ihp, ihq⟩
  | sequence _ ih | choice _ ih => exact ⟨all _, everyOf_iff.mpr ih⟩
  | contextual tag program ih =>
      refine ⟨all _, ?_⟩
      induction program with
      | done => trivial
      | step p next ihnext => exact ⟨ih.1, fun value => ihnext value (ih.2 value)⟩
      | noting events rest ihrest => exact ihrest ih
      | raise fault => exact all _

/-- A counted repetition is a sequence of copies, or nothing at all. -/
theorem Parser.every_count {ok : Parser → Prop} (hnone : ok (.succeed (.list [])))
    (hsome : ∀ ps, ok (.sequence ps)) {p : Parser} (hp : p.Every ok) (n : Nat) :
    (count n p).Every ok := by
  unfold count
  split
  · exact hnone
  · refine ⟨hsome _, everyOf_iff.mpr fun q hq => ?_⟩
    rw [List.eq_of_mem_replicate hq]
    exact hp

/-- A fact about all parsers with good nodes holds of those a program with good nodes hands
out. -/
theorem Program.All.of_every {ok P : Parser → Prop} {program : Program}
    (h : program.All fun p => p.Every ok → P p) (hok : program.Every ok) : program.All P := by
  induction program with
  | done => trivial
  | step p next ih => exact ⟨h.1 hok.1, fun value => ih value (h.2 value) (hok.2 value)⟩
  | noting events rest ih => exact ih h hok
  | raise => trivial

-- ================================================================ rules

/-- The parser that something built at run time is, if it is one. -/
def Place.parserOf (place : Place) : Except Fault Argument → Except Fault Parser
  | .ok (.parser p) => .ok p
  | .ok other => .error (place.notParser other.kindName)
  | .error fault => .error fault

/-- The parser that a deferred node stands for. -/
def Rules.tree (rules : Rules) : Deferred → Except Fault Parser
  | .own _ rule => Place.rule.parserOf (rules.rule rule).outcome
  | .shared rule => Place.rule.parserOf (rules.rule rule).outcome
  | .body place g scope => place.parserOf (rules.body g scope).outcome

/-- Every node of everything that rules build satisfies `ok`. -/
def Rules.Every (ok : Parser → Prop) (rules : Rules) : Prop :=
  ∀ object p, rules.tree object = .ok p → p.Every ok

end ParserAlgebra
