import ParserAlgebra.Proofs.Meaning

/-!
A step program abbreviates nested binds.

# The binds

A program that ends with a value is the parser that succeeds with it. A program that hands out a
parser and goes on with the result is that parser, bound to the rest of the program
(`Program.desugar`). A program may also do something between two steps: what it notes there is
noted, and where it gives up the binds give up.

# The run of a program

The run of a program carries a state along and asks the program for the next parser as long as the
steps succeed. The binds carry the state through nested continuations instead. Both hand the same
states to the same parsers in the same order (`Program.denote_eq_desugar`), so they end alike, in
the same session. The only trace of the program itself is the event of its end
(`Parser.eval_contextual`).
-/
namespace ParserAlgebra

-- ================================================================ the binds

/-- Notes events and goes on with a parser. The events are those of a first alternative that fails,
so that the parser starts from an unchanged state. -/
def Parser.afterNoting (events : List Event) (p : Parser) : Parser :=
  ((Parser.fail .absent).errorMap fun message _ => ⟨events, .ok message⟩).orElse p

/-- The binds that a step program abbreviates. -/
def Program.desugar : Program → Parser
  | .done value => .succeed value
  | .step p next => .chain p fun value => (next value).desugar
  | .noting events rest => rest.desugar.afterNoting events
  | .raise fault => .raise fault

-- ================================================================ one parser for another

section

variable {defer : Deferred → State → Run State} {rounds : Nat} {s : State}

/-- Noting first leaves the parser what it is. -/
theorem Parser.denote_afterNoting (hs : s.failed = false) (events : List Event) (p : Parser) :
    (p.afterNoting events).denote defer rounds s =
      (Run.note events >>= fun _ => p.denote defer rounds s) := by
  have hlive : ¬s.failed = true := by rw [hs]; exact Bool.false_ne_true
  rw [Parser.afterNoting, Parser.denote, if_neg hlive, Parser.denote, if_neg hlive,
    Parser.denote, if_neg hlive]
  rfl

/-- From a live state a program runs as its binds do. -/
theorem Program.denote_eq_desugar (program : Program) :
    ∀ {s : State}, s.failed = false →
      program.denote defer rounds s = program.desugar.denote defer rounds s := by
  induction program with
  | done value =>
      intro s hs
      rw [Program.denote, Program.desugar, Parser.denote, hs]
      rfl
  | step p next ih =>
      intro s hs
      rw [Program.denote, Program.desugar, Parser.denote, hs, if_neg Bool.false_ne_true]
      -- the rest of the program is reached from live states only
      refine congrArg (p.denote defer rounds s >>= ·) (funext fun t => ?_)
      cases ht : t.failed with
      | true => rfl
      | false => exact ih t.result ht
  | noting events rest ih =>
      intro s hs
      rw [Program.denote, Run.machine_note, Program.desugar, Parser.denote_afterNoting hs, ih hs]
  | raise fault =>
      intro s hs
      rw [Program.denote, Program.desugar, Parser.denote, hs]
      rfl

end

-- ================================================================ runs

/-- The run of a step program and that of its binds, from any state, live or failed, in any session
and with any fuel: they end in the same way, with the same state in every field, the same fault or
both without an answer, and they leave the same session, but for the event that notes the end of
the program. There is no such event from a failed state, where the program is not started. -/
theorem Parser.eval_contextual (rules : Rules) (fuel : Nat) (tag : Option String)
    (program : Program) (frame : Nat) (s : State) (session : Session) :
    let direct := (Parser.contextual tag program).eval rules fuel frame s session
    let bound := program.desugar.eval rules fuel frame s session
    direct.1 = bound.1 ∧
      direct.2 = { bound.2 with
        history := bound.2.history ++ if s.failed then [] else tag.toList.map Event.finished } := by
  dsimp only
  rw [Parser.eval_eq_denote, Parser.eval_eq_denote]
  cases hs : s.failed with
  | true =>
      rw [Parser.denote_of_failed _ hs, Parser.denote_of_failed _ hs]
      exact ⟨rfl, by simp⟩
  | false =>
      rw [Parser.denote, hs, if_neg Bool.false_ne_true, program.denote_eq_desugar hs]
      exact ⟨rfl, rfl⟩

end ParserAlgebra
