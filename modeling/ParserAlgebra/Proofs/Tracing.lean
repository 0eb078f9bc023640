import ParserAlgebra.Proofs.Desugaring
import ParserAlgebra.Proofs.Erasure
import ParserAlgebra.Proofs.Termination
import ParserAlgebra.Proofs.Transcript

/-!
Tracing wrappers only watch.

# The log of a run

The history of a session is a flat list, in which a line of a wrapper looks like the line of any
other tracer. The log of a run has more structure (`Entry`): an application of a wrapper is one
entry, with the state it starts from, the log of what is wrapped, and how that ends. Entries can be
read in two ways (`Entry.events`): with the records of the wrappers, one before what is wrapped and
one behind it if it fails, or without them.

# Keeping it

On the machine of entries an application of a wrapper is kept as one. `Parser.watch` runs a parser
on it, and what is kept comes with the run itself: read in the first way, the log has the history of
the run (`Parser.watch_tells`).

Read in the second way it has the history of the run without wrappers, which ends in the same state
or the same fault. Here the two runs are of two parsers, and of two grammars, so this is a relation
between what is kept of the one and the run of the other (`Logged.Bares`), which every combinator
keeps (`Parser.watch_bares`).

A wrapper looks at the input in front of it, so inputs have to be texts or buffers, and no parser
changes the input it is given.
-/
namespace ParserAlgebra

open Outcome

-- ================================================================ entries

/-- An entry in the log of a run: an event, or an application of a tracing wrapper to a live state,
with the log of what is wrapped and how it ends. -/
inductive Entry where
  | event (event : Event)
  | application (label : String) (start : State) (live : ¬start.failed)
      (inner : List Entry) (out : Outcome State)

/-- What is written of the applications of wrappers. -/
structure Records where
  before : (label : String) → (start : State) → List Event
  after : (label : String) → (out : Outcome State) → List Event

/-- The records of wrappers: the next thirty tokens and the index at the start, and the index and
the message of a failure. -/
def Records.tracing : Records where
  before label start :=
    match start.upcoming traceLength with
    | .ok snippet =>
      [.log .tracer (label ++ ": " ++ snippet.literal ++ " at index " ++ toString start.index)]
    | .error _ => []
  after label := failureRecords .tracer fun t =>
    label ++ " backtracked at index " ++ toString t.index ++ ": " ++ t.error.display

/-- No records. -/
def Records.none : Records where
  before _ _ := []
  after _ _ := []

mutual

/-- The events of an entry. -/
def Entry.events (records : Records) : Entry → List Event
  | .event event => [event]
  | .application label start _ inner out =>
    records.before label start ++ eventsOf records inner ++ records.after label out

/-- The events of a log. -/
def eventsOf (records : Records) : List Entry → List Event
  | [] => []
  | entry :: rest => entry.events records ++ eventsOf records rest

end

/-- A log is read entry by entry. -/
theorem eventsOf_append (records : Records) (log more : List Entry) :
    eventsOf records (log ++ more) = eventsOf records log ++ eventsOf records more := by
  induction log with
  | nil => rfl
  | cons entry log ih => rw [List.cons_append, eventsOf, ih, eventsOf, List.append_assoc]

/-- Events are read as they are, with records or without. -/
theorem eventsOf_events (records : Records) (events : List Event) :
    eventsOf records (events.map .event) = events := by
  induction events with
  | nil => rfl
  | cons event events ih => rw [List.map_cons, eventsOf, ih]; rfl

-- ================================================================ the machine

namespace Logged

/-- An application of a wrapper to a live state, which gives up where its first line cannot be
written. -/
def application (label : String) (start : State) (live : ¬start.failed)
    (x : Logged Entry State) : Logged Entry State :=
  fun session =>
    match start.entryLine label with
    | .ok line =>
      let told := x (session.noting [.log .tracer line])
      { told with
        session := told.session.noting (Records.tracing.after label told.outcome)
        log := [.application label start live told.log told.outcome] }
    | .error fault => ⟨.raised fault, session, []⟩

end Logged

open Logged

/-- Only the application to a live state is one. -/
instance : Machine (Logged Entry) :=
  { plain Entry.event with
    traced := fun label s x => if live : ¬s.failed then application label s live x else x }

/-- Runs a parser with the rules of a grammar and keeps the log. -/
def Parser.watch (rules : Rules) (fuel : Nat) (p : Parser) (frame : Nat) (s : State) :
    Logged Entry State :=
  p.execute (fun frame object _ => ofRun Entry.event (resolve rules frame object)) fuel frame s

-- ================================================================ the log of the run

/-- Where its first line can be written, it is the record in front of what is wrapped. -/
theorem State.before_of_entryLine {s : State} {label line : String}
    (h : s.entryLine label = .ok line) : Records.tracing.before label s = [.log .tracer line] := by
  unfold State.entryLine at h
  cases hupcoming : s.upcoming traceLength with
  | error fault =>
      rw [hupcoming] at h
      cases h
  | ok snippet =>
      rw [hupcoming] at h
      cases h
      simp only [Records.tracing, hupcoming]

/-- A wrapper adds its records to the history and nothing else. -/
theorem Logged.tells_application {s : State} (live : ¬s.failed) (label : String)
    {w : Logged Entry State} {x : Run State} (hw : w.Tells (Adds (eventsOf .tracing)) x) :
    (application label s live w).Tells (Adds (eventsOf .tracing)) (Machine.traced label s x) := by
  intro session
  have htraced : (Machine.traced label s x : Run State) session =
      (Run.ofExcept (s.entryLine label) >>= fun line => Run.log .tracer line >>= fun _ =>
        Run.loggingFailure .tracer (State.backtrackLine · label) x) session := rfl
  rw [htraced, application]
  cases hline : s.entryLine label with
  | error fault => exact ⟨rfl, (List.append_nil _).symm⟩
  | ok line =>
      obtain ⟨hrun, hhistory⟩ := hw (session.noting [.log .tracer line])
      have hopened : (Run.ofExcept (.ok line : Except Fault String) >>= fun line =>
          Run.log .tracer line >>= fun _ =>
            Run.loggingFailure .tracer (State.backtrackLine · label) x) session =
          Run.loggingFailure .tracer (State.backtrackLine · label) x
            (session.noting [.log .tracer line]) := rfl
      rw [hopened, Run.loggingFailure_eq, hrun]
      refine ⟨rfl, ?_⟩
      unfold Adds at hhistory ⊢
      rw [Session.toList_noting, hhistory, Session.toList_noting, eventsOf, eventsOf, Entry.events,
        State.before_of_entryLine hline, List.append_nil, List.append_assoc, List.append_assoc,
        List.append_assoc]

/-- What is watched of a run comes with the run, and the log has its history. -/
theorem Parser.watch_tells (rules : Rules) (fuel : Nat) (p : Parser) (frame : Nat) (s : State) :
    (p.watch rules fuel frame s).Tells (Adds (eventsOf .tracing)) (p.eval rules fuel frame s) := by
  have hreading : Reading Entry.event (Adds (eventsOf .tracing)) :=
    reading_adds (eventsOf_events _) (eventsOf_append _)
  have hsimulates : Machine.Simulates fun α (w : Logged Entry α) (x : Run α) =>
      w.Tells (Adds (eventsOf .tracing)) x :=
    { simulates_tells hreading with
      traced := by
        intro label s hs w x hw
        have live : ¬s.failed = true := Bool.eq_false_iff.mp hs
        show (if live : ¬s.failed = true then application label s live w else w).Tells _ _
        rw [dif_pos live]
        exact tells_application live label hw }
  refine p.execute_simulated hsimulates (fun frame object _ _ => ?_) ?_ fuel frame s
  · exact tells_ofRun_of_appends (eventsOf_events _) (appends_resolve rules frame object)
  · exact fun _ _ tag program s _ h => tells_ensuring hreading h (finishing tag)

-- ================================================================ the run without wrappers

namespace Logged

variable {α β : Type} {P : α → α → Prop} {Q : β → β → Prop}

/-- The log that is kept tells of the run without wrappers, in a session without wrappers: it ends
alike, and has the history that is read without their records. -/
def Bares (P : α → α → Prop) (w : Logged Entry α) (y : Run α) : Prop :=
  ∀ session erased, session.Erases erased →
    (w session).outcome.Alike P (y erased).1 ∧ (w session).session.Erases (y erased).2 ∧
      Adds (eventsOf .none) erased (w session).log (y erased).2

theorem bares_pure {a b : α} (h : P a b) : Bares P (pure a) (pure b) :=
  fun _ _ herases => ⟨.done h, herases, (List.append_nil _).symm⟩

/-- The logs of two parts, one behind the other, are read alike. -/
theorem bares_bind {w : Logged Entry α} {y : Run α} {v : α → Logged Entry β} {g : α → Run β}
    (hw : Bares P w y) (hv : ∀ a b, P a b → Bares Q (v a) (g b)) :
    Bares Q (w >>= v) (y >>= g) := by
  intro session erased herases
  obtain ⟨hout, hafter, hbare⟩ := hw session erased herases
  rcases hwrun : w session with ⟨out, after, log⟩
  rcases hyrun : y erased with ⟨out', after'⟩
  rw [hwrun, hyrun] at hout hafter hbare
  dsimp only at hout hafter hbare
  cases hout with
  | done hab =>
      obtain ⟨hout, hlast, hmore⟩ := hv _ _ hab after after' hafter
      rw [bind_of_done hwrun, Run.bind_of_done hyrun]
      refine ⟨hout, hlast, ?_⟩
      unfold Adds at hbare hmore ⊢
      rw [hmore, hbare, eventsOf_append, List.append_assoc]
  | raised fault =>
      rw [bind_of_raised hwrun, Run.bind_of_raised hyrun]
      exact ⟨.raised fault, hafter, hbare⟩
  | exhausted =>
      rw [bind_of_exhausted hwrun, Run.bind_of_exhausted hyrun]
      exact ⟨.exhausted, hafter, hbare⟩

theorem bares_ite {c : Prop} [Decidable c] {w v : Logged Entry α} {y g : Run α}
    (hw : Bares P w y) (hv : Bares P v g) : Bares P (if c then w else v) (if c then y else g) := by
  split
  · exact hw
  · exact hv

/-- Computations side by side have no records to differ in. -/
theorem bares_ofRun {x y : Run α} (h : x.Parallel P y) : Bares P (ofRun Entry.event x) y := by
  intro session erased herases
  obtain ⟨events, hout, hafter, hhistory, hbare⟩ := h session erased herases
  refine ⟨hout, hafter, ?_⟩
  show Adds _ _ (added Entry.event session (x session).2) _
  rw [added_of_history hhistory, Adds, eventsOf_events]
  exact hbare

/-- What is noted at the end belongs to both runs. -/
theorem bares_ensuring {w : Logged Entry α} {y : Run α} (hw : Bares P w y) (events : List Event) :
    Bares P (ensuring Entry.event w events) (y.ensuring events) := by
  intro session erased herases
  obtain ⟨hout, hafter, hbare⟩ := hw session erased herases
  refine ⟨hout, hafter.noting events, ?_⟩
  show ((y erased).2.noting events).history.toList =
    _ ++ eventsOf .none ((w session).log ++ events.map .event)
  rw [Session.toList_noting, hbare, eventsOf_append, eventsOf_events, List.append_assoc]

end Logged

section

variable {medium : Medium}

/-- On a text or a buffer the first line of a wrapper can be written, and what it has inside is all
that the run without it does. -/
theorem Logged.bares_application {P : State → State → Prop} {s : State}
    (hs : medium.Admits s.input) (live : ¬s.failed) (label : String) {w : Logged Entry State}
    {y : Run State} (hw : w.Bares P y) : (application label s live w).Bares P y := by
  intro session erased herases
  obtain ⟨line, hline⟩ := State.entryLine_returns hs label
  obtain ⟨hout, hafter, hbare⟩ := hw (session.noting [.log .tracer line]) erased
    ⟨herases.frames, herases.built⟩
  rw [application, Outcome.ofExcept_eq_done hline]
  refine ⟨hout, ⟨hafter.frames, hafter.built⟩, ?_⟩
  unfold Adds at hbare ⊢
  rw [hbare, eventsOf, eventsOf, Entry.events, List.append_nil]
  show _ = _ ++ ([] ++ _ ++ [])
  rw [List.nil_append, List.append_nil]

-- ================================================================ readers

/-- The same state in both runs, with an input that wrappers can look at. -/
def State.SameOn (medium : Medium) (t u : State) : Prop :=
  u = t ∧ medium.Admits t.input

/-- To look for a literal leaves the input, also for a tuple of them. -/
theorem State.readLiteral_input (s : State) (expected : Value) :
    (Outcome.ofExcept (s.readLiteral expected)).Only fun t => t.input = s.input := by
  rw [readLiteral, Outcome.ofExcept_bind]
  refine only_bind_any fun atEnd => ?_
  cases atEnd with
  | true => exact only_done rfl
  | false =>
      rw [if_neg Bool.false_ne_true, Outcome.ofExcept_bind]
      refine only_bind_any fun found => ?_
      cases found with
      | true => exact only_done rfl
      | false =>
          rw [if_neg Bool.false_ne_true, Outcome.ofExcept_bind]
          exact only_bind_any fun snippet => only_done rfl

theorem State.failChoice_input (s : State) (errors : List Value) :
    (s.failChoice errors).input = s.input := by
  unfold failChoice
  split <;> rfl

/-- A reader is the same in both runs and keeps the input. -/
theorem State.alike_read {s : State} (hs : medium.Admits s.input) {x : Except Fault State}
    (hx : (Outcome.ofExcept x).Only fun t => t.input = s.input) :
    (Outcome.ofExcept x).Alike (SameOn medium) (.ofExcept x) := by
  cases x with
  | ok t =>
      refine .done ⟨rfl, ?_⟩
      rw [hx t rfl]
      exact hs
  | error fault => exact .raised fault

-- ================================================================ combinators

open Logged

section

variable {w v : State → Logged Entry State} {y g : State → Run State}

/-- Each round has a log of its own. -/
theorem manyLoop_bares
    (hw : ∀ s, medium.Admits s.input → (w s).Bares (State.SameOn medium) (y s)) :
    ∀ rounds results s, medium.Admits s.input →
      (manyLoop w rounds results s).Bares (State.SameOn medium) (manyLoop y rounds results s) := by
  intro rounds
  induction rounds with
  | zero => intro results s hs; exact bares_ofRun Run.parallel_exhaust
  | succ rounds ih =>
      intro results s hs
      rw [manyLoop, manyLoop]
      refine bares_bind (hw s hs) ?_
      rintro _ t ⟨rfl, ht⟩
      exact bares_ite (bares_pure ⟨rfl, hs⟩) (ih _ t ht)

/-- So has each separator and each value. -/
theorem separatedLoop_bares
    (hw : ∀ s, medium.Admits s.input → (w s).Bares (State.SameOn medium) (y s))
    (hv : ∀ s, medium.Admits s.input → (v s).Bares (State.SameOn medium) (g s)) :
    ∀ rounds results s, medium.Admits s.input →
      (separatedLoop w v rounds results s).Bares (State.SameOn medium)
        (separatedLoop y g rounds results s) := by
  intro rounds
  induction rounds with
  | zero => intro results s hs; exact bares_ofRun Run.parallel_exhaust
  | succ rounds ih =>
      intro results s hs
      rw [separatedLoop, separatedLoop]
      refine bares_bind (hw s hs) ?_
      rintro _ t ⟨rfl, ht⟩
      refine bares_ite (bares_pure ⟨rfl, hs⟩) (bares_bind (hv t ht) ?_)
      rintro _ u ⟨rfl, hu⟩
      exact bares_ite (bares_pure ⟨rfl, hs⟩) (ih _ u hu)

/-- A repetition with separators keeps the relation if its two parsers do. -/
theorem separated_bares
    (hw : ∀ s, medium.Admits s.input → (w s).Bares (State.SameOn medium) (y s))
    (hv : ∀ s, medium.Admits s.input → (v s).Bares (State.SameOn medium) (g s))
    (rounds : Nat) {s : State} (hs : medium.Admits s.input) :
    (separated w v rounds s).Bares (State.SameOn medium) (separated y g rounds s) := by
  rw [separated, separated]
  refine bares_bind (hv s hs) ?_
  rintro _ first ⟨rfl, hfirst⟩
  exact bares_ite (bares_pure ⟨rfl, hs⟩) (separatedLoop_bares hw hv rounds _ first hfirst)

end

section

variable {defer : Deferred → State → Logged Entry State} {bare : Deferred → State → Run State}
  {rounds : Nat}

/-- Parsers one after another keep the relation, each with its wrappers taken off. -/
theorem denoteAll_bares (ps : List Parser)
    (h : ∀ p ∈ ps, ∀ s, medium.Admits s.input →
      (p.denote defer rounds s).Bares (State.SameOn medium) (p.erase.denote bare rounds s)) :
    ∀ results s, medium.Admits s.input →
      (denoteAll defer rounds ps results s).Bares (State.SameOn medium)
        (denoteAll bare rounds (eraseAll ps) results s) := by
  induction ps with
  | nil =>
      intro results s hs
      rw [denoteAll, eraseAll, denoteAll]
      exact bares_pure ⟨rfl, hs⟩
  | cons p ps ih =>
      intro results s hs
      obtain ⟨hp, hps⟩ := List.forall_mem_cons.mp h
      rw [denoteAll, eraseAll, denoteAll]
      refine bares_bind (hp s hs) ?_
      rintro _ t ⟨rfl, ht⟩
      exact bares_ite (bares_pure ⟨rfl, ht⟩) (ih hps _ t ht)

/-- So do alternatives. -/
theorem denoteFirst_bares (ps : List Parser)
    (h : ∀ p ∈ ps, ∀ s, medium.Admits s.input →
      (p.denote defer rounds s).Bares (State.SameOn medium) (p.erase.denote bare rounds s)) :
    ∀ errors s, medium.Admits s.input →
      (denoteFirst defer rounds ps errors s).Bares (State.SameOn medium)
        (denoteFirst bare rounds (eraseAll ps) errors s) := by
  induction ps with
  | nil =>
      intro errors s hs
      rw [denoteFirst, eraseAll, denoteFirst]
      refine bares_pure ⟨rfl, ?_⟩
      rw [s.failChoice_input]
      exact hs
  | cons p ps ih =>
      intro errors s hs
      obtain ⟨hp, hps⟩ := List.forall_mem_cons.mp h
      rw [denoteFirst, eraseAll, denoteFirst]
      refine bares_bind (hp s hs) ?_
      rintro _ t ⟨rfl, ht⟩
      exact bares_ite (ih hps _ s hs) (bares_pure ⟨rfl, ht⟩)

/-- So do the steps of a program. -/
theorem Program.denote_bares (program : Program)
    (h : program.All fun p => ∀ s, medium.Admits s.input →
      (p.denote defer rounds s).Bares (State.SameOn medium) (p.erase.denote bare rounds s)) :
    ∀ s, medium.Admits s.input →
      (program.denote defer rounds s).Bares (State.SameOn medium)
        (program.erase.denote bare rounds s) := by
  induction program with
  | done value =>
      intro s hs
      rw [Program.denote, Program.erase, Program.denote]
      exact bares_pure ⟨rfl, hs⟩
  | step p next ih =>
      intro s hs
      rw [Program.denote, Program.erase, Program.denote]
      refine bares_bind (h.1 s hs) ?_
      rintro _ t ⟨rfl, ht⟩
      exact bares_ite (bares_pure ⟨rfl, ht⟩) (ih t.result (h.2 t.result) t ht)
  | noting events rest ih =>
      intro s hs
      rw [Program.denote, Program.erase, Program.denote]
      refine bares_bind (bares_ofRun (Run.parallel_note events)) fun _ _ _ => ?_
      exact ih h s hs
  | raise fault =>
      intro s hs
      rw [Program.denote, Program.erase, Program.denote]
      exact bares_ofRun (Run.parallel_raise fault)

/-- A failed state is returned as it is. -/
theorem bares_live {s : State} (hs : medium.Admits s.input) {w : Logged Entry State}
    {y : Run State} (h : ¬s.failed = true → w.Bares (State.SameOn medium) y) :
    Bares (State.SameOn medium) (if s.failed = true then pure s else w)
      (if s.failed = true then pure s else y) := by
  by_cases hfailed : s.failed = true
  · rw [if_pos hfailed, if_pos hfailed]
    exact bares_pure ⟨rfl, hs⟩
  · rw [if_neg hfailed, if_neg hfailed]
    exact h hfailed

/-- A supplied function answers the same in both runs. -/
theorem bares_answer {α : Type} (answer : Answer α) :
    Bares Eq (Machine.ofAnswer answer) (Machine.ofAnswer answer : Run α) :=
  bares_ofRun (Run.parallel_ofAnswer answer.events (alike_refl _))

/-- What is read of the input is the same in both runs. -/
theorem bares_read {s : State} (hs : medium.Admits s.input) {x : Except Fault State}
    (hx : (Outcome.ofExcept x).Only fun t => t.input = s.input) :
    Bares (State.SameOn medium) (Machine.ofExcept x) (Machine.ofExcept x : Run State) :=
  bares_ofRun (Run.parallel_ofExcept (State.alike_read hs hx))

/-- So is what is read of it by a supplied function. -/
theorem bares_ask {s : State} (hs : medium.Admits s.input) {answer : Answer State}
    (h : (Outcome.ofExcept answer.outcome).Only s.Advances) :
    Bares (State.SameOn medium) (Machine.ofAnswer answer) (Machine.ofAnswer answer : Run State) :=
  bares_ofRun (Run.parallel_ofAnswer _ (State.alike_read hs fun t ht => (h t ht).input))

/-- The log of a parser tells of its run and of the run without wrappers, if the logs of deferred
nodes do. -/
theorem Parser.denote_bares
    (hdefer : ∀ object s, medium.Admits s.input →
      (defer object s).Bares (State.SameOn medium) (bare object s)) (p : Parser) :
    ∀ s, medium.Admits s.input →
      (p.denote defer rounds s).Bares (State.SameOn medium) (p.erase.denote bare rounds s) := by
  induction p with
  | succeed value =>
      intro s hs
      show Bares _ _ ((succeed value).denote bare rounds s)
      rw [Parser.denote, Parser.denote]
      exact bares_live hs fun _ => bares_pure ⟨rfl, hs⟩
  | fail message =>
      intro s hs
      show Bares _ _ ((fail message).denote bare rounds s)
      rw [Parser.denote, Parser.denote]
      exact bares_live hs fun _ => bares_pure ⟨rfl, hs⟩
  | satisfy test name =>
      intro s hs
      show Bares _ _ ((satisfy test name).denote bare rounds s)
      rw [Parser.denote, Parser.denote]
      exact bares_live hs fun _ => bares_ask hs (s.readToken_advances test name)
  | literal expected =>
      intro s hs
      show Bares _ _ ((literal expected).denote bare rounds s)
      rw [Parser.denote, Parser.denote]
      exact bares_live hs fun _ => bares_read hs (s.readLiteral_input expected)
  | pattern shape name =>
      intro s hs
      show Bares _ _ ((pattern shape name).denote bare rounds s)
      rw [Parser.denote, Parser.denote]
      refine bares_live hs fun _ => bares_read hs fun t ht => ?_
      exact (s.readPattern_advances shape name t ht).input
  | endOfInput =>
      intro s hs
      show Bares _ _ (endOfInput.denote bare rounds s)
      rw [Parser.denote, Parser.denote]
      exact bares_live hs fun _ => bares_read hs fun t ht => (s.readEnd_advances t ht).input
  | bit =>
      intro s hs
      show Bares _ _ (bit.denote bare rounds s)
      rw [Parser.denote, Parser.denote]
      exact bares_live hs fun _ => bares_read hs fun t ht => (s.readBit_advances t ht).input
  | jump target =>
      intro s hs
      show Bares _ _ ((jump target).denote bare rounds s)
      rw [Parser.denote, Parser.denote]
      refine bares_live hs fun _ => bares_bind (bares_answer _) ?_
      rintro _ moved rfl
      exact bares_pure ⟨rfl, hs⟩
  | check value expected message =>
      intro s hs
      show Bares _ _ ((check value expected message).denote bare rounds s)
      rw [Parser.denote, Parser.denote]
      exact bares_live hs fun _ => bares_ask hs (s.checkValue_advances value expected message)
  | map p f ih =>
      intro s hs
      rw [Parser.denote, Parser.erase, Parser.denote]
      refine bares_live hs fun _ => bares_bind (ih s hs) ?_
      rintro _ t ⟨rfl, ht⟩
      refine bares_ite (bares_pure ⟨rfl, ht⟩) (bares_bind (bares_answer _) ?_)
      rintro _ value rfl
      exact bares_pure ⟨rfl, ht⟩
  | chain p next ihp ihnext =>
      intro s hs
      rw [Parser.denote, Parser.erase, Parser.denote]
      refine bares_live hs fun _ => bares_bind (ihp s hs) ?_
      rintro _ t ⟨rfl, ht⟩
      exact bares_ite (bares_pure ⟨rfl, ht⟩) (ihnext t.result t ht)
  | errorMap p f ih =>
      intro s hs
      rw [Parser.denote, Parser.erase, Parser.denote]
      refine bares_live hs fun _ => bares_bind (ih s hs) ?_
      rintro _ t ⟨rfl, ht⟩
      refine bares_ite (bares_bind (bares_answer _) ?_) (bares_pure ⟨rfl, ht⟩)
      rintro _ value rfl
      exact bares_pure ⟨rfl, ht⟩
  | lookAhead p ih =>
      intro s hs
      rw [Parser.denote, Parser.erase, Parser.denote]
      refine bares_live hs fun _ => bares_bind (ih s hs) ?_
      rintro _ t ⟨rfl, ht⟩
      exact bares_ite (bares_pure ⟨rfl, ht⟩) (bares_pure ⟨rfl, hs⟩)
  | many p ih =>
      intro s hs
      rw [Parser.denote, Parser.erase, Parser.denote]
      exact bares_live hs fun _ => manyLoop_bares ih rounds [] s hs
  | many1 p ih =>
      intro s hs
      rw [Parser.denote, Parser.erase, Parser.denote]
      refine bares_live hs fun _ => bares_bind (ih s hs) ?_
      rintro _ first ⟨rfl, hfirst⟩
      refine bares_ite (bares_pure ⟨rfl, hs⟩) ?_
      refine bares_bind (manyLoop_bares ih rounds [] first hfirst) ?_
      rintro _ rest ⟨rfl, hrest⟩
      exact bares_pure ⟨rfl, hrest⟩
  | orElse p q ihp ihq =>
      intro s hs
      rw [Parser.denote, Parser.erase, Parser.denote]
      refine bares_live hs fun _ => bares_bind (ihp s hs) ?_
      rintro _ t ⟨rfl, ht⟩
      exact bares_ite (ihq s hs) (bares_pure ⟨rfl, ht⟩)
  | sepBy separator value ihs ihv =>
      intro s hs
      rw [Parser.denote, Parser.erase, Parser.denote]
      exact bares_live hs fun _ => separated_bares ihs ihv rounds hs
  | sepBy1 separator value ihs ihv =>
      intro s hs
      rw [Parser.denote, Parser.erase, Parser.denote]
      refine bares_live hs fun _ => ?_
      refine bares_bind (separated_bares ihs ihv rounds hs) ?_
      rintro _ t ⟨rfl, ht⟩
      exact bares_ite (bares_pure ⟨rfl, ht⟩) (bares_pure ⟨rfl, hs⟩)
  | sequence ps ih =>
      intro s hs
      rw [Parser.denote, Parser.erase, Parser.denote]
      exact bares_live hs fun _ => denoteAll_bares ps ih [] s hs
  | choice ps ih =>
      intro s hs
      rw [Parser.denote, Parser.erase, Parser.denote]
      exact bares_live hs fun _ => denoteFirst_bares ps ih [] s hs
  | contextual tag program ih =>
      intro s hs
      rw [Parser.denote, Parser.erase, Parser.denote]
      exact bares_live hs fun _ => bares_ensuring (program.denote_bares ih s hs) _
  | deferred object =>
      intro s hs
      show Bares _ _ ((deferred object).denote bare rounds s)
      rw [Parser.denote, Parser.denote]
      exact bares_live hs fun _ => hdefer object s hs
  | trace label =>
      intro s hs
      show Bares _ _ ((trace label).denote bare rounds s)
      rw [Parser.denote, Parser.denote]
      refine bares_live hs fun _ => ?_
      refine bares_bind (bares_ofRun (Run.parallel_ofExcept (alike_refl _))) ?_
      rintro _ line rfl
      refine bares_bind (bares_ofRun (Run.parallel_note _)) fun _ _ _ => ?_
      exact bares_pure ⟨rfl, hs⟩
  | traced label p ih =>
      intro s hs
      -- here alone the bare run has no node, so a failed start needs a case of its own
      rw [Parser.denote, Parser.erase]
      by_cases hfailed : s.failed = true
      · rw [if_pos hfailed, Parser.denote_of_failed _ hfailed]
        exact bares_pure ⟨rfl, hs⟩
      · rw [if_neg hfailed]
        show Bares _ (if live : ¬s.failed = true then application label s live _ else _) _
        rw [dif_pos hfailed]
        exact bares_application hs hfailed label (ih s hs)
  | raise fault =>
      intro s hs
      show Bares _ _ ((raise fault).denote bare rounds s)
      rw [Parser.denote, Parser.denote]
      exact bares_live hs fun _ => bares_ofRun (Run.parallel_raise fault)

end

-- ================================================================ rules

/-- Deferred nodes keep the relation at every fuel: what the rules build is built without wrappers.
-/
theorem deferral_bares (rules : Rules) (fuel : Nat) :
    ∀ frame object (s : State), medium.Admits s.input →
      Bares (State.SameOn medium)
        (deferral (fun frame object _ => ofRun Entry.event (resolve rules frame object)) fuel frame
          object s)
        (deferral (fun frame object _ => resolve rules.erase frame object) fuel frame
          object s) := by
  induction fuel with
  | zero => intro frame object s hs; exact bares_ofRun Run.parallel_exhaust
  | succ fuel ih =>
      intro frame object s hs
      rw [deferral, deferral]
      refine bares_bind (bares_ofRun (resolve_parallel rules frame object)) ?_
      rintro tree _ rfl
      exact tree.parser.denote_bares (ih tree.frame) s hs

/-- The log of a run with the rules of a grammar tells of the run without wrappers in the parser
and in the rules. -/
theorem Parser.watch_bares (rules : Rules) (fuel : Nat) (p : Parser) (frame : Nat) {s : State}
    (hs : medium.Admits s.input) :
    (p.watch rules fuel frame s).Bares (State.SameOn medium)
      (p.erase.eval rules.erase fuel frame s) :=
  p.denote_bares (deferral_bares rules fuel frame) s hs

end

/-- Tracing wrappers only watch. On a text or a buffer, a run goes the same way with all wrappers
and with none of them, in the parser and in what rules build: it ends in the same state, or in the
same fault, or not at all. The log of the run has an entry for each application of a wrapper to a
live state. Its events, with one record in front of what is wrapped and one behind it if it fails,
are those of the run; without these records they are those of the run without wrappers. So it is
from any state, and for complete runs, which log a failure of their own; and so it is again for the
next run in the two sessions. -/
theorem Parser.tracing_observes (rules : Rules) (p : Parser) (fuel frame : Nat) {medium : Medium}
    {input : Input} (hinput : medium.Admits input) {session erased : Session}
    (herases : session.Erases erased) :
    (∀ s : State, s.input = input →
      let seen := p.watch rules fuel frame s session
      let run := p.eval rules fuel frame s session
      let bare := p.erase.eval rules.erase fuel frame s erased
      run = (seen.outcome, seen.session) ∧ bare.1 = run.1 ∧
        run.2.history.toList = session.history.toList ++ eventsOf .tracing seen.log ∧
        bare.2.history.toList = erased.history.toList ++ eventsOf .none seen.log ∧
        run.2.Erases bare.2) ∧
    (let seen := p.watch rules fuel frame (.initial input) session
      let run := p.run rules fuel frame input session
      let bare := p.erase.run rules.erase fuel frame input erased
      let last := failureRecords .runner State.runnerLine seen.outcome
      run.1 = seen.outcome ∧ bare.1 = run.1 ∧
        run.2.history.toList = session.history.toList ++ eventsOf .tracing seen.log ++ last ∧
        bare.2.history.toList = erased.history.toList ++ eventsOf .none seen.log ++ last ∧
        run.2.Erases bare.2) := by
  -- both readings of one log, from any state over the input
  have hlog : ∀ s : State, s.input = input →
      let seen := p.watch rules fuel frame s session
      let bare := p.erase.eval rules.erase fuel frame s erased
      p.eval rules fuel frame s session = (seen.outcome, seen.session) ∧
        bare.1 = seen.outcome ∧
        Adds (eventsOf .tracing) session seen.log seen.session ∧
        Adds (eventsOf .none) erased seen.log bare.2 ∧ seen.session.Erases bare.2 := by
    rintro s rfl
    obtain ⟨hrun, hhistory⟩ := p.watch_tells rules fuel frame s session
    obtain ⟨hout, hafter, hbare⟩ := p.watch_bares rules fuel frame hinput session erased herases
    exact ⟨hrun, hout.eq fun t u h => h.1, hhistory, hbare, hafter⟩
  refine ⟨fun s hs => ?_, ?_⟩
  · obtain ⟨hrun, hout, hhistory, hbare, hafter⟩ := hlog s hs
    dsimp only
    rw [hrun]
    exact ⟨rfl, hout, hhistory, hbare, hafter⟩
  · obtain ⟨hrun, hout, hhistory, hbare, hafter⟩ := hlog (.initial input) rfl
    dsimp only
    rw [p.run_eq, p.erase.run_eq, hrun, hout]
    refine ⟨rfl, rfl, ?_, ?_, hafter.noting _⟩
    · rw [Session.toList_noting, hhistory]
    · rw [Session.toList_noting, hbare]

-- ================================================================ words and numbers

namespace Items

/-- A word. -/
def word : Parser :=
  .traced "word" .letters

/-- A number. -/
def number : Parser :=
  .traced "number" .digits

/-- Words and numbers, in any order. -/
def items : Parser :=
  .many (.traced "item" (.orElse word number))

/-- The text `a1+`. -/
def sample : Input :=
  .text #['a', '1', '+']

/-- Three items are tried. The word is read; the number is no word, which is traced; and what
follows is neither of them, which is traced as well. That makes twelve records, of which the run
without wrappers has none, and both runs read the word and the number. -/
theorem tracing_observes_sample :
    ∃ t, (items.run noRules 4 0 sample {}).1 = .done t ∧ t.index = 2 ∧
      t.result = .list [.text "a", .text "1"] ∧
      (items.erase.run noRules.erase 4 0 sample {}).1 = .done t ∧
      (items.run noRules 4 0 sample {}).2.history.size = 12 ∧
      (items.erase.run noRules.erase 4 0 sample {}).2.history.size = 0 := by
  obtain ⟨-, hrun, hbare, hhistory, hsilent, -⟩ :=
    Parser.tracing_observes noRules items 4 0 (show Medium.text.Admits sample from trivial)
      Session.erases_empty
  refine ⟨_, hrun, rfl, rfl, hbare.trans hrun, ?_, ?_⟩
  · rw [← Array.length_toList, hhistory]
    rfl
  · rw [← Array.length_toList, hsilent]
    rfl

end Items

end ParserAlgebra
