import ParserAlgebra.Proofs.Alternation
import ParserAlgebra.Proofs.Repetition

/-!
The loops for separated values, and for one value or more, are repetitions in disguise.

# One loop for the other

A round of the loop for separated values is a separator and then a value; it counts only if both
succeed and the cursor has moved at the end. That is a round of the repetition of the two in a row,
since a chain hands the failure of its first part on (`separatedLoop_eq_manyLoop`). What differs is
where the first value goes. The loop for separated values starts with it in its list, while a
repetition starts with nothing, and the value is put in front of the list afterwards
(`manyLoop_concat`).

# Where the ways part

A list of separated values that may be empty is an option of such a repetition, and the two runs are
one and the same from every state. The forms that want one value or more say something of their own
when there is none: they fail from the start, with a message of their own. Wherever the first value
does not fail they run as the plain forms do, and that includes faults and runs without an end.
-/
namespace ParserAlgebra

-- ================================================================ the loops

/-- The first result of a loop may as well be put in front of the list at the end. -/
theorem manyLoop_concat (attempt : State → Run State) (x : Value) :
    ∀ rounds results s,
      manyLoop attempt rounds (results ++ [x]) s =
        manyLoop attempt rounds results s >>= fun t =>
          pure (t.withResult (prepend x t.result)) := by
  intro rounds
  induction rounds with
  | zero => intro results s; rfl
  | succ rounds ih =>
      intro results s
      rw [manyLoop, manyLoop, bind_assoc]
      congr 1
      funext t
      by_cases hstop : (t.failed || t.index == s.index) = true
      · rw [if_pos hstop, if_pos hstop, pure_bind, List.reverse_append]
        rfl
      · rw [if_neg hstop, if_neg hstop]
        exact ih (t.result :: results) t

/-- A loop that starts from a live state returns one. -/
theorem manyLoop_live {attempt : State → Run State} {rounds : Nat} {results : List Value}
    {s t : State} {session after : Session} (hs : s.failed = false)
    (h : manyLoop attempt rounds results s session = (.done t, after)) : t.failed = false := by
  obtain ⟨chain, hrounds, -, rfl⟩ := rounds_of_manyLoop h
  exact hrounds.last_live hs

section

variable {defer : Deferred → State → Run State} {rounds : Nat}

/-- Rounds of a separator and a value are rounds of the two in a row. -/
theorem separatedLoop_eq_manyLoop (separator value : Parser) :
    ∀ n results s,
      separatedLoop (separator.denote defer rounds) (value.denote defer rounds) n
          results s =
        manyLoop ((separator.keepRight value).denote defer rounds) n results s := by
  intro n
  induction n with
  | zero => intro results s; rfl
  | succ n ih =>
      intro results s
      rw [separatedLoop, manyLoop, Parser.keepRight, Parser.denote_chain, bind_assoc]
      congr 1
      funext t
      by_cases ht : t.failed = true
      · rw [if_pos ht, State.andThen_of_failed ht, pure_bind, ht, Bool.true_or, if_pos rfl]
      · rw [if_neg ht, State.andThen_of_live (Bool.eq_false_iff.mpr ht)]
        congr 1
        funext u
        rw [ih]
        rfl

namespace Parser

/-- A function mapped over a repetition is applied to its list, for there is no failure to hand
on. -/
theorem denote_many_mapPure {p : Parser} {s : State} (hs : s.failed = false) (f : Value → Value) :
    ((many p).mapPure f).denote defer rounds s =
      manyLoop (p.denote defer rounds) rounds [] s >>= fun t =>
        pure (t.withResult (f t.result)) := by
  rw [mapPure, denote_map, denote, if_neg (State.not_failed hs)]
  funext session
  refine Run.bind_congr_at fun t middle hrun => ?_
  rw [State.andThen_of_live (manyLoop_live hs hrun)]
  rfl

/-- A first value in front of a repetition is the start of its list. -/
theorem denote_many_prepend {p : Parser} {s : State} (hs : s.failed = false) (x : Value) :
    ((many p).mapPure (prepend x)).denote defer rounds s =
      manyLoop (p.denote defer rounds) rounds [x] s := by
  rw [denote_many_mapPure hs, ← manyLoop_concat]
  rfl

-- ================================================================ a value and a repetition

/-- The list of what `first` reads and of what `rest` reads after it, again and again. -/
def listed (first rest : Parser) : Parser :=
  first.chain fun x => (many rest).mapPure (prepend x)

/-- The list of a first result and the others is a loop with one result so far. -/
theorem denote_listed (first rest : Parser) (s : State) :
    (listed first rest).denote defer rounds s =
      first.denote defer rounds s >>= fun t => t.andThen fun t =>
        manyLoop (rest.denote defer rounds) rounds [t.result] t := by
  rw [listed, denote_chain]
  congr 1
  funext t
  by_cases ht : t.failed = true
  · rw [State.andThen_of_failed ht, State.andThen_of_failed ht]
  · rw [Bool.not_eq_true] at ht
    rw [State.andThen_of_live ht, State.andThen_of_live ht, denote_many_prepend ht]

/-- A repetition does not come to the other way. -/
theorem manyLoop_orElse {attempt : State → Run State} {n : Nat} {results : List Value} {s : State}
    (hs : s.failed = false) (other : Run State) :
    (manyLoop attempt n results s >>= fun t => if t.failed then other else pure t) =
      manyLoop attempt n results s := by
  funext session
  rw [Run.bind_of_not_fails, bind_pure]
  intro hfails
  obtain ⟨after, t, hfailed, hrun⟩ := hfails
  rw [manyLoop_live hs hrun] at hfailed
  cases hfailed

/-- Separated values are optional, and listed with their separators. -/
theorem denote_sepBy (separator value : Parser) (s : State) :
    (sepBy separator value).denote defer rounds s =
      (option (.list []) (listed value (separator.keepRight value))).denote defer rounds
        s := by
  by_cases hs : s.failed = true
  · rw [denote_of_failed _ hs, denote_of_failed _ hs]
  rw [denote, if_neg hs, separated, option, denote_orElse, denote_listed, bind_assoc]
  congr 1
  funext first
  by_cases hfirst : first.failed = true
  · rw [if_pos hfirst, State.andThen_of_failed hfirst, pure_bind, if_pos hfirst, denote, if_neg hs]
  · -- behind a first value nothing fails, so the option keeps what the loop returns
    rw [Bool.not_eq_true] at hfirst
    rw [if_neg (State.not_failed hfirst), State.andThen_of_live hfirst, manyLoop_orElse hfirst,
      separatedLoop_eq_manyLoop]

/-- Separated values after a first one are a list that counts as true. -/
theorem separated_isTrue {separator value : Parser} {s t : State} {session after : Session}
    (hvalue : ¬∃ after, (value.denote defer rounds s).Fails session after)
    (h : separated (separator.denote defer rounds) (value.denote defer rounds) rounds s
      session = (.done t, after)) : t.result.isTrue = true := by
  rw [separated, Run.bind_of_not_fails hvalue] at h
  obtain ⟨first, middle, -, h⟩ := Run.bind_eq_done h
  rw [separatedLoop_eq_manyLoop] at h
  obtain ⟨chain, -, -, rfl⟩ := rounds_of_manyLoop h
  rfl

end Parser

end

-- ================================================================ one or more

namespace Parser

section

variable {rules : Rules} {fuel frame : Nat} {s : State} {session after : Session}

theorem eval_sepBy1_of_fails (hs : s.failed = false) {separator value : Parser}
    (h : (value.eval rules fuel frame s).Fails session after) :
    (sepBy1 separator value).eval rules fuel frame s session =
      (.done (s.failWith ("sepBy1: Unable to capture any results at index " ++
        toString s.index)), after) := by
  rw [eval_eq_denote] at h ⊢
  obtain ⟨t, hfailed, hrun⟩ := h
  rw [denote, if_neg (State.not_failed hs), separated, bind_assoc, Run.bind_of_done hrun,
    if_pos hfailed]
  rfl

theorem eval_sepBy1_of_not_fails (hs : s.failed = false) {separator value : Parser}
    (h : ¬∃ after, (value.eval rules fuel frame s).Fails session after) :
    (sepBy1 separator value).eval rules fuel frame s session =
      (sepBy separator value).eval rules fuel frame s session := by
  rw [eval_eq_denote] at h ⊢
  rw [eval_eq_denote, denote, if_neg (State.not_failed hs), denote, if_neg (State.not_failed hs)]
  conv => rhs; rw [← bind_pure (separated _ _ _ _)]
  refine Run.bind_congr_at fun t middle hrun => ?_
  rw [if_pos (separated_isTrue h hrun)]

theorem eval_many1_of_fails (hs : s.failed = false) {p : Parser}
    (h : (p.eval rules fuel frame s).Fails session after) :
    (many1 p).eval rules fuel frame s session =
      (.done (s.failWith ("many1: Unable to match any input using parser at index " ++
        toString s.index)), after) := by
  rw [eval_eq_denote] at h ⊢
  obtain ⟨t, hfailed, hrun⟩ := h
  rw [denote, if_neg (State.not_failed hs), Run.bind_of_done hrun, if_pos hfailed]
  rfl

/-- Without a failure at once, at least one result is asked for like a first one and the others. -/
theorem eval_many1_of_not_fails (hs : s.failed = false) {p : Parser}
    (h : ¬∃ after, (p.eval rules fuel frame s).Fails session after) :
    (many1 p).eval rules fuel frame s session =
      (listed p p).eval rules fuel frame s session := by
  rw [eval_eq_denote] at h ⊢
  rw [eval_eq_denote, denote_listed, denote, if_neg (State.not_failed hs),
    Run.bind_of_not_fails h, Run.bind_andThen_of_not_fails h]
  refine Run.bind_congr_at fun first middle hrun => ?_
  exact congrFun (manyLoop_concat _ first.result fuel [] first).symm middle

end

/-- Loops as combinations of other parsers. From every state, separated values run as an option: a
value, and a repetition of the separator and a value after it, with the empty list where there is no
first value. From a live state, the form that wants a value fails there if the value fails, and runs
as the plain form if it does not; and a repetition that wants a round fails there if its parser
fails, and runs as the parser and a repetition of it if it does not. All these runs are the same in
state, events and faults, and with any fuel, so that one goes on for ever if the other does. -/
theorem eval_loops (rules : Rules) (fuel frame : Nat) (separator value p : Parser) (s : State) :
    (sepBy separator value).eval rules fuel frame s =
      (option (.list []) (listed value (separator.keepRight value))).eval rules fuel frame s ∧
    (s.failed = false → ∀ session,
      (∀ after, (value.eval rules fuel frame s).Fails session after →
        (sepBy1 separator value).eval rules fuel frame s session =
          (.done (s.failWith ("sepBy1: Unable to capture any results at index " ++
            toString s.index)), after)) ∧
      ((¬∃ after, (value.eval rules fuel frame s).Fails session after) →
        (sepBy1 separator value).eval rules fuel frame s session =
          (sepBy separator value).eval rules fuel frame s session) ∧
      (∀ after, (p.eval rules fuel frame s).Fails session after →
        (many1 p).eval rules fuel frame s session =
          (.done (s.failWith ("many1: Unable to match any input using parser at index " ++
            toString s.index)), after)) ∧
      ((¬∃ after, (p.eval rules fuel frame s).Fails session after) →
        (many1 p).eval rules fuel frame s session =
          (listed p p).eval rules fuel frame s session)) := by
  refine ⟨?_, fun hs session => ⟨fun after h => ?_, fun h => ?_, fun after h => ?_, fun h => ?_⟩⟩
  · rw [eval_eq_denote, eval_eq_denote, denote_sepBy]
  · exact eval_sepBy1_of_fails hs h
  · exact eval_sepBy1_of_not_fails hs h
  · exact eval_many1_of_fails hs h
  · exact eval_many1_of_not_fails hs h

end Parser

-- ================================================================ numbers with commas between them

namespace Rows

/-- Numbers with commas between them, at least one. -/
def row : Parser :=
  .sepBy1 (.symbol ',') .digits

/-- The text `1,2,`, in which no number follows the last comma. -/
def sample : State :=
  .initial (.text #['1', ',', '2', ','])

/-- The text `x`. -/
def empty : State :=
  .initial (.text #['x'])

/-- The last comma is given back, however the row is read. Where there is no number at all, both
forms that want one fail at the start. -/
theorem eval_loops_samples :
    let read : State := { sample with index := 3, result := .list [.text "1", .text "2"] }
    row.eval noRules 3 0 sample {} = (.done read, {}) ∧
      (Parser.option (.list []) (.listed .digits (.keepRight (.symbol ',') .digits))).eval noRules 3
        0 sample {} = (.done read, {}) ∧
      (Parser.many1 .digits).eval noRules 3 0 sample {} =
        (Parser.listed .digits .digits).eval noRules 3 0 sample {} ∧
      row.eval noRules 3 0 empty {} =
        (.done (empty.failWith "sepBy1: Unable to capture any results at index 0"), {}) ∧
      (Parser.many1 .digits).eval noRules 3 0 empty {} =
        (.done (empty.failWith "many1: Unable to match any input using parser at index 0"),
          {}) := by
  obtain ⟨hoption, hlive⟩ := Parser.eval_loops noRules 3 0 (.symbol ',') .digits .digits sample
  obtain ⟨-, hplain, -, hrounds⟩ := hlive rfl {}
  obtain ⟨-, hnone⟩ := Parser.eval_loops noRules 3 0 (.symbol ',') .digits .digits empty
  obtain ⟨hrow, -, hmany, -⟩ := hnone rfl {}
  have hdigits : ¬∃ after, (Parser.digits.eval noRules 3 0 sample).Fails {} after := by
    rintro ⟨after, hfails⟩
    exact hfails.not_live (t := { sample with index := 1, result := .text "1" }) rfl rfl
  have hempty : (Parser.digits.eval noRules 3 0 empty).Fails {} {} := ⟨_, rfl, rfl⟩
  refine ⟨?_, ?_, hrounds hdigits, hrow {} hempty, hmany {} hempty⟩
  · exact hplain hdigits
  · exact congrFun hoption.symm {}

end Rows

end ParserAlgebra
