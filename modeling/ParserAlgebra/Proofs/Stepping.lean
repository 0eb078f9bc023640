import ParserAlgebra.Proofs.Meaning

/-!
Running a parser by hand.

For every combinator that goes on after a part has returned, two rules: what it does when the part
has succeeded, and what it does when the part has failed. A run on a given input is followed by
applying one rule after another, without looking into the evaluator again. The rules for a failure
say where a failed state is handed on as it is and where it is given up for another attempt.

A parser without deferred nodes ends in one way in all sessions and with all rules
(`Parser.eval_of_immediate`), so what is found by hand holds of its runs.
-/
namespace ParserAlgebra

variable {tree : Deferred → State → Outcome State} {rounds : Nat} {s t : State}

/-- A live state is one that parsers act on. -/
theorem State.not_failed (h : s.failed = false) : ¬s.failed = true := by
  rw [h]
  exact Bool.false_ne_true

-- ================================================================ one parser

namespace Parser

variable {p q : Parser}

/-- The function is asked about the result of a success. -/
theorem denote_map_of_live {f : Value → Answer Value} (hs : s.failed = false)
    (hp : p.denote tree rounds s = .done t) (ht : t.failed = false) :
    (p.map f).denote tree rounds s =
      (Outcome.ofExcept (f t.result).outcome >>= fun value => .done (t.withResult value)) := by
  rw [Parser.denote, if_neg (State.not_failed hs), hp, Outcome.done_bind,
    if_neg (State.not_failed ht)]
  rfl

theorem denote_map_of_failed {f : Value → Answer Value} (hs : s.failed = false)
    (hp : p.denote tree rounds s = .done t) (ht : t.failed = true) :
    (p.map f).denote tree rounds s = .done t := by
  rw [Parser.denote, if_neg (State.not_failed hs), hp, Outcome.done_bind, if_pos ht]
  rfl

/-- A plain function is applied to the result of a success. -/
theorem denote_mapPure_of_live {f : Value → Value} (hs : s.failed = false)
    (hp : p.denote tree rounds s = .done t) (ht : t.failed = false) :
    (p.mapPure f).denote tree rounds s = .done (t.withResult (f t.result)) :=
  denote_map_of_live hs hp ht

/-- The continuation goes on from a success. -/
theorem denote_chain_of_live {next : Value → Parser} (hs : s.failed = false)
    (hp : p.denote tree rounds s = .done t) (ht : t.failed = false) :
    (p.chain next).denote tree rounds s = (next t.result).denote tree rounds t := by
  rw [Parser.denote, if_neg (State.not_failed hs), hp, Outcome.done_bind,
    if_neg (State.not_failed ht)]

theorem denote_chain_of_failed {next : Value → Parser} (hs : s.failed = false)
    (hp : p.denote tree rounds s = .done t) (ht : t.failed = true) :
    (p.chain next).denote tree rounds s = .done t := by
  rw [Parser.denote, if_neg (State.not_failed hs), hp, Outcome.done_bind, if_pos ht]
  rfl

/-- A check lets the state through, with the result it has. -/
theorem denote_check_of_alike {value expected : Value}
    {message : Option (Value → Int → Answer Value)} (hs : s.failed = false)
    (hsame : value.alike expected = true) :
    (check value expected message).denote tree rounds s = .done s := by
  rw [Parser.denote, if_neg (State.not_failed hs)]
  unfold State.checkValue
  rw [if_pos hsame]
  rfl

/-- A check fails where it stands, with the message for the value and the position before. -/
theorem denote_check_of_unlike {value expected : Value} {message : Value → Int → Answer Value}
    (hs : s.failed = false) (hother : value.alike expected = false) :
    (check value expected (some message)).denote tree rounds s =
      (Outcome.ofExcept (message value (s.index - 1)).outcome >>= fun text =>
        .done (s.withError text)) := by
  rw [Parser.denote, if_neg (State.not_failed hs), Outcome.machine_ofAnswer]
  unfold State.checkValue
  rw [if_neg (Bool.eq_false_iff.mp hother), Answer.outcome_bind, Outcome.ofExcept_bind]
  rfl

/-- An expected result is as good as any success. -/
theorem denote_expect_of_alike {expected : Value} {message : Option (Value → Int → Answer Value)}
    (hs : s.failed = false) (hp : p.denote tree rounds s = .done t) (ht : t.failed = false)
    (hsame : t.result.alike expected = true) :
    (p.expect expected message).denote tree rounds s = .done t := by
  rw [expect, denote_chain_of_live hs hp ht, denote_check_of_alike ht hsame]

/-- What is read but not expected stays read; only the message is new. -/
theorem denote_expect_of_unlike {expected : Value} {message : Value → Int → Answer Value}
    (hs : s.failed = false) (hp : p.denote tree rounds s = .done t) (ht : t.failed = false)
    (hother : t.result.alike expected = false) :
    (p.expect expected (some message)).denote tree rounds s =
      (Outcome.ofExcept (message t.result (t.index - 1)).outcome >>= fun text =>
        .done (t.withError text)) := by
  rw [expect, denote_chain_of_live hs hp ht, denote_check_of_unlike ht hother]

/-- From a live state a sequence is a row of parsers without results so far. -/
theorem denote_sequence_of_live (hs : s.failed = false) (ps : List Parser) :
    (sequence ps).denote tree rounds s = denoteAll tree rounds ps [] s := by
  rw [Parser.denote, if_neg (State.not_failed hs)]

/-- From a live state a repetition is its loop without results so far. -/
theorem denote_many (hs : s.failed = false) :
    (many p).denote tree rounds s = manyLoop (p.denote tree rounds) rounds [] s := by
  rw [Parser.denote, if_neg (State.not_failed hs)]

/-- Behind a first success comes a repetition, and the first result stands in front of the others.
-/
theorem denote_many1_of_live (hs : s.failed = false) (hp : p.denote tree rounds s = .done t)
    (ht : t.failed = false) :
    (many1 p).denote tree rounds s =
      (manyLoop (p.denote tree rounds) rounds [] t >>= fun rest =>
        .done (rest.withResult (prepend t.result rest.result))) := by
  rw [Parser.denote, if_neg (State.not_failed hs), hp, Outcome.done_bind,
    if_neg (State.not_failed ht)]
  rfl

/-- Without a first success the repetition fails where it has started. -/
theorem denote_many1_of_failed (hs : s.failed = false) (hp : p.denote tree rounds s = .done t)
    (ht : t.failed = true) :
    (many1 p).denote tree rounds s = .done (s.failWith
      ("many1: Unable to match any input using parser at index " ++ toString s.index)) := by
  rw [Parser.denote, if_neg (State.not_failed hs), hp, Outcome.done_bind, if_pos ht]
  rfl

end Parser

-- ================================================================ one step

namespace Program

variable {p : Parser} {next : Value → Program}

/-- The program goes on with the result of a step that succeeds. -/
theorem denote_step_of_live (hp : p.denote tree rounds s = .done t) (ht : t.failed = false) :
    (step p next).denote tree rounds s = (next t.result).denote tree rounds t := by
  rw [Program.denote, Outcome.machine_handed, hp, Outcome.done_bind,
    if_neg (State.not_failed ht)]
  rfl

/-- A step that fails is the last one. -/
theorem denote_step_of_failed (hp : p.denote tree rounds s = .done t) (ht : t.failed = true) :
    (step p next).denote tree rounds s = .done t := by
  rw [Program.denote, Outcome.machine_handed, hp, Outcome.done_bind, if_pos ht]
  rfl

end Program

-- ================================================================ several parsers

section

variable {p : Parser} {ps : List Parser}

/-- A row of parsers goes on behind a success. -/
theorem denoteAll_of_live {results : List Value} (hp : p.denote tree rounds s = .done t)
    (ht : t.failed = false) :
    denoteAll tree rounds (p :: ps) results s =
      denoteAll tree rounds ps (t.result :: results) t := by
  rw [denoteAll, hp, Outcome.done_bind, if_neg (State.not_failed ht)]

/-- A row of parsers ends with a failure. -/
theorem denoteAll_of_failed {results : List Value} (hp : p.denote tree rounds s = .done t)
    (ht : t.failed = true) : denoteAll tree rounds (p :: ps) results s = .done t := by
  rw [denoteAll, hp, Outcome.done_bind, if_pos ht]
  rfl

theorem denoteFirst_of_live {errors : List Value} (hp : p.denote tree rounds s = .done t)
    (ht : t.failed = false) : denoteFirst tree rounds (p :: ps) errors s = .done t := by
  rw [denoteFirst, hp, Outcome.done_bind, if_neg (State.not_failed ht)]
  rfl

/-- Behind a failure the next alternative is tried, from the same start. -/
theorem denoteFirst_of_failed {errors : List Value} (hp : p.denote tree rounds s = .done t)
    (ht : t.failed = true) :
    denoteFirst tree rounds (p :: ps) errors s =
      denoteFirst tree rounds ps (t.error :: errors) s := by
  rw [denoteFirst, hp, Outcome.done_bind, if_pos ht]

/-- Without alternatives left a choice fails. -/
theorem denoteFirst_nil (errors : List Value) :
    ∃ t, denoteFirst tree rounds [] errors s = .done t ∧ t.failed = true := by
  refine ⟨s.failChoice errors.reverse, by rw [denoteFirst]; rfl, ?_⟩
  unfold State.failChoice
  split <;> rfl

end

-- ================================================================ rounds

section

variable {attempt : State → Outcome State} {n : Nat} {results : List Value}

/-- The attempt that fails ends the rounds, and the state before it is kept. -/
theorem manyLoop_of_failed (ht : attempt s = .done t) (hfailed : t.failed = true) :
    manyLoop attempt (n + 1) results s = .done (s.withResult (.list results.reverse)) := by
  rw [manyLoop, ht, Outcome.done_bind, hfailed, Bool.true_or, if_pos rfl]
  rfl

/-- A round that succeeds and moves the cursor is one result more. -/
theorem manyLoop_of_live (ht : attempt s = .done t) (hlive : t.failed = false)
    (hmoved : t.index ≠ s.index) :
    manyLoop attempt (n + 1) results s = manyLoop attempt n (t.result :: results) t := by
  rw [manyLoop, ht, Outcome.done_bind, hlive, Bool.false_or, if_neg (by rwa [beq_iff_eq])]

end

-- ================================================================ separated values

section

variable {separator value : State → Outcome State} {n : Nat} {results : List Value} {u : State}

/-- Without a separator the loop ends. -/
theorem separatedLoop_of_failed (ht : separator s = .done t) (hfailed : t.failed = true) :
    separatedLoop separator value (n + 1) results s =
      .done (s.withResult (.list results.reverse)) := by
  rw [separatedLoop, ht, Outcome.done_bind, if_pos hfailed]
  rfl

/-- A separator before something that is no value is given back. -/
theorem separatedLoop_of_value_failed (ht : separator s = .done t) (hlive : t.failed = false)
    (hu : value t = .done u) (hfailed : u.failed = true) :
    separatedLoop separator value (n + 1) results s =
      .done (s.withResult (.list results.reverse)) := by
  rw [separatedLoop, ht, Outcome.done_bind, if_neg (State.not_failed hlive), hu,
    Outcome.done_bind, hfailed, Bool.true_or, if_pos rfl]
  rfl

/-- So is a separator and a value behind it, which move the cursor together. -/
theorem separatedLoop_of_live (ht : separator s = .done t) (hlive : t.failed = false)
    (hu : value t = .done u) (hvalue : u.failed = false) (hmoved : u.index ≠ s.index) :
    separatedLoop separator value (n + 1) results s =
      separatedLoop separator value n (u.result :: results) u := by
  rw [separatedLoop, ht, Outcome.done_bind, if_neg (State.not_failed hlive), hu,
    Outcome.done_bind, hvalue, Bool.false_or, if_neg (by rwa [beq_iff_eq])]

/-- A fault behind a separator is a fault of the loop. -/
theorem separatedLoop_of_raised {fault : Fault} (ht : separator s = .done t)
    (hlive : t.failed = false) (hu : value t = .raised fault) :
    separatedLoop separator value (n + 1) results s = .raised fault := by
  rw [separatedLoop, ht, Outcome.done_bind, if_neg (State.not_failed hlive), hu]
  rfl

/-- However the loop ends, its state is live. -/
theorem separatedLoop_live :
    ∀ {n : Nat} {results : List Value} {s : State}, s.failed = false →
      separatedLoop separator value n results s = .done t → t.failed = false := by
  intro n
  induction n with
  | zero => intro results s _ h; cases h
  | succ n ih =>
      intro results s hs h
      obtain ⟨t₁, ht₁, h⟩ := Outcome.bind_eq_done h
      by_cases hfailed : t₁.failed = true
      · rw [if_pos hfailed] at h
        obtain rfl := Outcome.done.inj h
        exact hs
      · rw [if_neg hfailed] at h
        obtain ⟨u, hu, h⟩ := Outcome.bind_eq_done h
        by_cases hstop : (u.failed || u.index == s.index) = true
        · rw [if_pos hstop] at h
          obtain rfl := Outcome.done.inj h
          exact hs
        · rw [if_neg hstop] at h
          have hlive : u.failed = false := by
            rw [Bool.or_eq_true, not_or] at hstop
            exact Bool.eq_false_iff.mpr hstop.1
          exact ih hlive h

namespace Parser

variable {p q : Parser}

/-- Without a first value the list is empty. -/
theorem denote_sepBy_of_failed (hs : s.failed = false) (hq : q.denote tree rounds s = .done t)
    (ht : t.failed = true) :
    (sepBy p q).denote tree rounds s = .done (s.withResult (.list [])) := by
  rw [Parser.denote, if_neg (State.not_failed hs), separated, hq, Outcome.done_bind, if_pos ht]
  rfl

/-- Behind a first value the loop starts with one result. -/
theorem denote_sepBy_of_live (hs : s.failed = false) (hq : q.denote tree rounds s = .done t)
    (ht : t.failed = false) :
    (sepBy p q).denote tree rounds s =
      separatedLoop (p.denote tree rounds) (q.denote tree rounds) rounds [t.result] t := by
  rw [Parser.denote, if_neg (State.not_failed hs), separated, hq, Outcome.done_bind,
    if_neg (State.not_failed ht)]

theorem denote_sepBy_of_raised {fault : Fault} (hs : s.failed = false)
    (hq : q.denote tree rounds s = .raised fault) :
    (sepBy p q).denote tree rounds s = .raised fault := by
  rw [Parser.denote, if_neg (State.not_failed hs), separated, hq]
  rfl

/-- A list of separated values may be empty, but it never fails. -/
theorem denote_sepBy_live (hs : s.failed = false) (h : (sepBy p q).denote tree rounds s = .done t) :
    t.failed = false := by
  rw [Parser.denote, if_neg (State.not_failed hs)] at h
  obtain ⟨first, hfirst, h⟩ := Outcome.bind_eq_done h
  by_cases hfailed : first.failed = true
  · rw [if_pos hfailed] at h
    obtain rfl := Outcome.done.inj h
    exact hs
  · rw [if_neg hfailed] at h
    exact separatedLoop_live (Bool.eq_false_iff.mpr hfailed) h

end Parser

end

-- ================================================================ parsers without deferred nodes

/-- A node that is not deferred. -/
def Parser.Immediate : Parser → Prop
  | .deferred _ => False
  | _ => True

/-- Copies of a parser defer nothing if it does not. -/
theorem Parser.immediate_count {p : Parser} (hp : p.Every Immediate) (n : Nat) :
    (count n p).Every Immediate :=
  every_count trivial (fun _ => trivial) hp n

/-- Without deferred nodes neither the rules nor the session matter. -/
theorem Parser.eval_of_immediate {p : Parser} (hp : p.Every Immediate) (rules : Rules)
    (fuel frame : Nat) (s : State) (session : Session) :
    (p.eval rules fuel frame s session).1 = p.denote (fun _ _ => .exhausted) fuel s := by
  have hsimulated : p.Every (Simulated (fun α (x : Run α) (out : Outcome α) =>
      x.Ends (fun _ => True) out) (rules.deferral fuel frame) (fun _ _ => .exhausted) fuel) := by
    refine hp.mono fun q hq => ?_
    cases q with
    | deferred => exact hq.elim
    | contextual tag program => exact fun s _ h => Run.ends_ensuring h _
    | _ => trivial
  exact (p.denote_simulated (simulates_ends _) hsimulated s session trivial).1

end ParserAlgebra
