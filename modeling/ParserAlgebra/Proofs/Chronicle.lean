import ParserAlgebra.Proofs.Lives
import ParserAlgebra.Proofs.Stepping

/-!
Runs whose lives are kept.

# The machine

On the machine of acts a generator that comes to life is resumed with nothing first, and its life is
one act; so is the run of each parser that it hands out. `Parser.recount` runs a parser on this
machine.

# What is kept

What is kept of a step program is what a generator of it lives through (`Program.denote_iff_lives`).
The log of a parser tells of its run: its events are those of the run, if every life is read with
its finalisation at the end, and all lives in it, however deep, are as they should be. All
operations of the machine keep this (`simulates_accounts`). What a life should be is asked for at
one place only, where a contextual parser starts a generator (`tells_living`).
-/
namespace ParserAlgebra

namespace Logged

/-- A generator is resumed. -/
def resume (value : Value) : Logged Act Unit :=
  fun session => ⟨.done (), session, [.resumed value]⟩

/-- A parser that was handed out is run. -/
def running (p : Parser) (s : State) (x : Logged Act State) : Logged Act State :=
  fun session =>
    { x session with log := [.ran p s (x session).log (x session).outcome] }

/-- A generator lives, and is finalised. -/
def living (tag : Option String) (program : Program) (s : State) (x : Logged Act State) :
    Logged Act State :=
  fun session =>
    { x session with
      session := (x session).session.noting (finishing tag)
      log := [.life tag program s (x session).log (x session).outcome] }

end Logged

open Logged

instance : Machine (Logged Act) :=
  { plain Act.event with
    living := fun tag program s x => living tag program s (resume .absent >>= fun _ => x)
    handed := running
    resumed := resume }

/-- Runs a parser with the rules of a grammar and keeps the log. -/
def Parser.recount (rules : Rules) (fuel : Nat) (p : Parser) (frame : Nat) (s : State) :
    Logged Act State :=
  p.execute (fun frame object _ => ofRun Act.event (resolve rules frame object)) fuel frame s

namespace Logged

/-- What follows a resumption has it in front of its log. -/
theorem resume_bind (value : Value) (x : Logged Act State) (session : Session) :
    (resume value >>= fun _ => x) session =
      ⟨(x session).outcome, (x session).session, .resumed value :: (x session).log⟩ :=
  rfl

variable {x : Logged Act State} {session after : Session} {out : Outcome State} {log : List Act}

/-- What a parser does that was handed out is one act. -/
theorem running_eq (p : Parser) (s : State) (h : x session = ⟨out, after, log⟩) :
    running p s x session = ⟨out, after, [.ran p s log out]⟩ := by
  rw [running, h]

/-- What a generator does is one act, behind its first resumption. -/
theorem living_resume (tag : Option String) (program : Program) (s : State)
    (h : x session = ⟨out, after, log⟩) :
    living tag program s (resume .absent >>= fun _ => x) session =
      ⟨out, after.noting (finishing tag),
        [.life tag program s (.resumed .absent :: log) out]⟩ := by
  rw [living, resume_bind, h]

end Logged

-- ================================================================ step programs

section

variable {defer : Deferred → State → Logged Act State} {rounds : Nat} {s : State}
  {session after : Session}

namespace Program

/-- A step that does not succeed is the last act. -/
theorem denote_step_of_stop {p : Parser} {next : Value → Program} {log : List Act}
    {out : Outcome State} (h : p.denote defer rounds s session = ⟨out, after, log⟩)
    (hout : ¬out.Succeeds) :
    (step p next).denote defer rounds s session = ⟨out, after, [.ran p s log out]⟩ := by
  have hran := running_eq p s h
  rw [Program.denote]
  cases out with
  | done t =>
      refine (bind_of_done hran).trans ?_
      rw [if_pos (Outcome.failed_of_not_succeeds hout)]
      rfl
  | raised fault => exact bind_of_raised hran
  | exhausted => exact bind_of_exhausted hran

/-- A step that succeeds, the resumption, and what comes after it. -/
theorem denote_step_of_success {p : Parser} {next : Value → Program} {t : State}
    {middle : Session} {log : List Act} {told : Transcript Act State}
    (h : p.denote defer rounds s session = ⟨.done t, middle, log⟩) (ht : t.failed = false)
    (hrest : (next t.result).denote defer rounds t middle = told) :
    (step p next).denote defer rounds s session =
      ⟨told.outcome, told.session, .ran p s log (.done t) :: .resumed t.result :: told.log⟩ := by
  rw [Program.denote]
  refine (bind_of_done (running_eq p s h)).trans ?_
  rw [if_neg (State.not_failed ht), ← hrest]
  rfl

/-- Events that a program notes are acts of their own. -/
theorem denote_noting {events : List Event} {rest : Program} {told : Transcript Act State}
    (h : rest.denote defer rounds s (session.noting events) = told) :
    (noting events rest).denote defer rounds s session =
      ⟨told.outcome, told.session, events.map .event ++ told.log⟩ := by
  rw [← h, ← added_noting Act.event session events, Program.denote]
  rfl

/-- A program that gives up does nothing more. -/
theorem denote_raise (fault : Fault) (s : State) (session : Session) :
    (raise fault).denote defer rounds s session = ⟨.raised fault, session, []⟩ := by
  have hlog : added Act.event session session = [] := added_of_history (List.append_nil _).symm
  rw [← hlog, Program.denote]
  rfl

/-- The log of a step program says what its generator lives through, once it has been resumed. -/
theorem denote_iff_lives {program : Program} {acts : List Act} {out : Outcome State} :
    program.denote defer rounds s session = ⟨out, after, acts⟩ ↔
      Lives (fun p => p.denote defer rounds) program s session acts out after := by
  constructor
  · intro h
    -- Each equation of the evaluator gives the acts in the form of one constructor.
    induction program generalizing s session acts with
    | done value =>
        rw [Program.denote] at h
        cases h
        exact .returned value s _
    | step p next ih =>
        rcases hp : p.denote defer rounds s session with ⟨first, middle, log⟩
        by_cases hfirst : first.Succeeds
        · obtain ⟨t, rfl, ht⟩ := hfirst
          rw [denote_step_of_success hp ht rfl] at h
          cases h
          exact .resumed hp ht (ih t.result rfl)
        · rw [denote_step_of_stop hp hfirst] at h
          cases h
          exact .stopped hp hfirst
    | noting events rest ih =>
        rw [denote_noting rfl] at h
        cases h
        exact .noted (ih rfl)
    | raise fault =>
        rw [denote_raise] at h
        cases h
        exact .raised fault s _
  · intro h
    induction h with
    | returned => rw [Program.denote]; rfl
    | raised => exact denote_raise _ _ _
    | noted _ ih => exact denote_noting ih
    | stopped htell hout => exact denote_step_of_stop htell hout
    | resumed htell hlive _ ih => exact denote_step_of_success htell hlive ih

end Program

end

-- ================================================================ what the log tells

/-- The log accounts for the history, and all lives in it are `ok`. -/
def Accounts (ok : Life → Prop) (before : Session) (log : List Act) (after : Session) : Prop :=
  Adds (eventsAmong finishing) before log after ∧ ∀ life ∈ livesAmong log, ok life

section

variable {ok : Life → Prop}

/-- Events alone account for what they add, and have no lives among them. -/
theorem accounts_events (ok : Life → Prop) {before after : Session} {events : List Event}
    (h : after.history.toList = before.history.toList ++ events) :
    Accounts ok before (events.map .event) after := by
  refine ⟨?_, fun life hlife => ?_⟩
  · unfold Adds
    rw [eventsAmong_events, h]
  · rw [livesAmong_events] at hlife
    cases hlife

/-- What the log tells goes along logs: events add up, and so do lives. -/
theorem reading_accounts (ok : Life → Prop) : Reading Act.event (Accounts ok) := by
  refine ⟨fun session => ?_, fun h hmore => ⟨?_, fun life hlife => ?_⟩, fun session events => ?_⟩
  · exact accounts_events ok (List.append_nil _).symm
  · exact (reading_adds (eventsAmong_events _) (eventsAmong_append _)).append h.1 hmore.1
  · rw [livesAmong_append, List.mem_append] at hlife
    exact hlife.elim (h.2 life) (hmore.2 life)
  · exact accounts_events ok (session.toList_noting events)

/-- All operations of the machine keep what the log tells. -/
theorem simulates_accounts (ok : Life → Prop) :
    Machine.Simulates fun α (w : Logged Act α) (x : Run α) => w.Tells (Accounts ok) x :=
  { simulates_tells (reading_accounts ok) with
    handed := by
      intro p s w x hw session
      obtain ⟨hrun, hhistory, hlives⟩ := hw session
      refine ⟨hrun, ?_, ?_⟩
      · show Adds _ _ [Act.ran p s (w session).log (w session).outcome] _
        rw [Adds, eventsAmong_ran]
        exact hhistory
      · show ∀ life ∈ livesAmong [.ran p s (w session).log (w session).outcome], ok life
        rw [livesAmong_ran]
        exact hlives
    resumed := fun _ _ => ⟨rfl, (List.append_nil _).symm, fun _ h => nomatch h⟩ }

/-- What is resolved has no lives of its own. -/
theorem tells_resolve (ok : Life → Prop) (rules : Rules) (frame : Nat) (object : Deferred) :
    (ofRun Act.event (resolve rules frame object)).Tells (Accounts ok)
      (resolve rules frame object) := by
  intro session
  obtain ⟨events, hevents⟩ := appends_resolve rules frame object session
  have hlog : (ofRun Act.event (resolve rules frame object) session).log = events.map .event :=
    added_of_history hevents.symm
  refine ⟨rfl, ?_⟩
  rw [hlog]
  exact accounts_events ok hevents.symm

/-- A life as a whole tells of the run of a step program and of its finalisation. -/
theorem tells_living {tag : Option String} {program : Program} {s : State}
    {w : Logged Act State} {x : Run State} (h : w.Tells (Accounts ok) x)
    (hok : ∀ session, ok ⟨tag, program, s, .resumed .absent :: (w session).log,
      (w session).outcome⟩) :
    (living tag program s (resume .absent >>= fun _ => w)).Tells (Accounts ok)
      (Run.ensuring x (finishing tag)) := by
  intro session
  obtain ⟨hrun, hhistory, hlives⟩ := h session
  have hlife := hok session
  rcases htold : w session with ⟨out, after, acts⟩
  rw [htold] at hrun hhistory hlives hlife
  rw [living_resume tag program s htold]
  refine ⟨?_, ?_, ?_⟩
  · unfold Run.ensuring
    rw [hrun]
    rfl
  · unfold Adds at hhistory ⊢
    rw [eventsAmong_life, Session.toList_noting, hhistory, List.append_assoc]
    rfl
  · intro life hmem
    rw [livesAmong_life, List.mem_append, List.mem_singleton] at hmem
    rcases hmem with hmem | rfl
    · exact hlives life hmem
    · exact hlife

end

end ParserAlgebra
