import ParserAlgebra.Proofs.Meaning

/-!
What computations add to the history of a session.

The history only grows: no computation looks at it, and none takes anything away (`Run.Appends`).
Most of them do nothing else to a session (`Run.Notes`). Those that build parsers also open frames
and remember objects; of them it is said here which events they leave. A rule that is called leaves
its name and the events of its answer (`Rules.callEvents`), an object that has its parser leaves
none.

A complete run leaves the events of its parser, and one line more if it fails (`Parser.run_eq`).
-/
namespace ParserAlgebra

-- ================================================================ sessions with more events

/-- A session with more events in its history. -/
def Session.noting (session : Session) (events : List Event) : Session :=
  { session with history := session.history ++ events }

/-- The events come last, in their order. -/
theorem Session.toList_noting (session : Session) (events : List Event) :
    (session.noting events).history.toList = session.history.toList ++ events :=
  Array.toList_appendList

/-- To note nothing changes nothing. -/
@[simp] theorem Session.noting_nil (session : Session) : session.noting [] = session := by
  simp [noting]

namespace Run

variable {α β : Type}

/-- The computation adds to the history and takes nothing away. -/
def Appends (x : Run α) : Prop :=
  ∀ session, session.history.toList <+: (x session).2.history.toList

/-- All that the computation does to a session is to note events. -/
def Notes (x : Run α) : Prop :=
  ∀ session, ∃ events, (x session).2 = session.noting events

-- ================================================================ the operations of a run

theorem notes_exhaust : (exhaust : Run α).Notes :=
  fun session => ⟨[], session.noting_nil.symm⟩

theorem notes_note (events : List Event) : (note events).Notes :=
  fun _ => ⟨events, rfl⟩

/-- A silent outcome has no events. -/
theorem notes_ofExcept (outcome : Except Fault α) : (ofExcept outcome).Notes := by
  intro session
  refine ⟨[], ?_⟩
  cases outcome with
  | ok | error => exact session.noting_nil.symm

/-- An answer has its own events and does nothing else. -/
theorem notes_ofAnswer (answer : Answer α) : (ofAnswer answer).Notes := by
  intro session
  refine ⟨answer.events, ?_⟩
  unfold ofAnswer
  cases answer.outcome with
  | ok | error => rfl

/-- What follows a computation may leave the history to it. -/
theorem bind_history {x : Run α} {f : α → Run β}
    (hf : ∀ a session, (f a session).2.history = session.history) (session : Session) :
    ((x >>= f) session).2.history = (x session).2.history := by
  rcases hrun : x session with ⟨a | fault | _, after⟩
  · rw [bind_of_done hrun]
    exact hf a after
  · rw [bind_of_raised hrun]
  · rw [bind_of_exhausted hrun]

end Run

-- ================================================================ building

/-- To build a tree leaves the events of its answer. -/
theorem build_history (place : Place) (tree : Answer Argument) (session : Session) :
    (build place tree session).2.history = session.history ++ tree.events := by
  obtain ⟨events, outcome⟩ := tree
  rcases outcome with fault | arg
  · rfl
  · cases arg <;> rfl

/-- The events of calling a rule. -/
def Rules.callEvents (rules : Rules) (rule : Rule) : List Event :=
  .built rule.name :: (rules.rule rule).events

section

variable {rules : Rules} {slot : Slot} {session : Session}

/-- A rule is called for an object without a parser, whether it then gives a parser or not. -/
theorem fetch_history_of_unknown (h : session.built[slot]? = none) :
    (fetch rules slot session).2.history.toList =
      session.history.toList ++ rules.callEvents slot.rule := by
  rw [fetch_of_unknown h, Run.bind_history fun _ _ => rfl, build_history, Array.toList_appendList,
    Array.toList_appendList, List.append_assoc]
  rfl

/-- To look for the parser of an object takes no event away. -/
theorem appends_fetch (rules : Rules) (slot : Slot) : (fetch rules slot).Appends := by
  intro session
  cases h : session.built[slot]? with
  | some object => exact ⟨[], by rw [fetch_of_known h, List.append_nil]⟩
  | none =>
      rw [fetch_history_of_unknown h]
      exact List.prefix_append _ _

/-- So it is for every deferred node. -/
theorem appends_resolve (rules : Rules) (frame : Nat) (object : Deferred) :
    (resolve rules frame object).Appends := by
  cases object with
  | own site rule => exact appends_fetch rules ⟨some (frame, site), rule⟩
  | shared rule => exact appends_fetch rules ⟨none, rule⟩
  | body place g scope =>
      intro session
      show _ <+: (build place (rules.body g scope) session).2.history.toList
      rw [build_history, Array.toList_appendList]
      exact List.prefix_append _ _

end

-- ================================================================ complete runs

/-- One line when a state is failed, and none in any other case. -/
def failureRecords (channel : Channel) (line : State → String) : Outcome State → List Event
  | .done t => if t.failed then [.log channel (line t)] else []
  | .raised _ => []
  | .exhausted => []

/-- Logs a failure at the end of a computation. -/
def Run.loggingFailure (channel : Channel) (line : State → String) (x : Run State) :
    Run State := do
  let t ← x
  if t.failed then Run.log channel (line t)
  return t

/-- The line is all that is added, and how the computation ends stays what it is. -/
theorem Run.loggingFailure_eq (channel : Channel) (line : State → String) (x : Run State)
    (session : Session) :
    Run.loggingFailure channel line x session =
      ((x session).1, (x session).2.noting (failureRecords channel line (x session).1)) := by
  unfold Run.loggingFailure
  rcases hrun : x session with ⟨t | fault | _, after⟩
  · rw [Run.bind_of_done hrun]
    by_cases ht : t.failed = true
    · simp only [failureRecords, ht, if_true]
      rfl
    · simp only [failureRecords, ht, Bool.false_eq_true, if_false, Session.noting_nil]
      rfl
  · rw [Run.bind_of_raised hrun]
    simp only [failureRecords, Session.noting_nil]
  · rw [Run.bind_of_exhausted hrun]
    simp only [failureRecords, Session.noting_nil]

/-- The line that a complete run logs when it fails. -/
def State.runnerLine (t : State) : String :=
  "parse failed at index " ++ toString t.index ++ ": " ++ t.error.display

namespace Parser

variable (p : Parser) (rules : Rules) (fuel frame : Nat) (input : Input) (session : Session)

/-- A complete run is the run of the parser, with a line for its failure. -/
theorem run_eq :
    p.run rules fuel frame input session =
      ((p.eval rules fuel frame (.initial input) session).1,
        (p.eval rules fuel frame (.initial input) session).2.noting
          (failureRecords .runner State.runnerLine
            (p.eval rules fuel frame (.initial input) session).1)) :=
  Run.loggingFailure_eq .runner State.runnerLine (p.eval rules fuel frame (.initial input)) session

/-- The line that a failed run logs does not change how it ends. -/
theorem run_fst :
    (p.run rules fuel frame input session).1 =
      (p.eval rules fuel frame (.initial input) session).1 := by
  rw [run_eq]

/-- Nor does it change what is remembered. -/
theorem run_built :
    (p.run rules fuel frame input session).2.built =
      (p.eval rules fuel frame (.initial input) session).2.built := by
  rw [run_eq]
  rfl

end Parser

end ParserAlgebra
