import ParserAlgebra.Proofs.Transcript

/-!
The lives of step programs.

# Acts

Whenever a contextual parser is run from a live state, its step program is started anew: a generator
comes to life. The history of a session is a flat list, and a life leaves nothing in it but events.
The log of a run has more structure (`Act`): a life is one act, with all that happens in it, and the
run of a parser that was handed out is one act of that life, with its own log. Lives nest, and their
events are read with what the finalisation leaves at the end of each.

# Lives

A generator is resumed with nothing first, hands out parsers one after another, and is resumed with
the result of each. It comes to its end by returning, by giving up, or because a parser that it has
handed out has not succeeded; it is then not resumed again. `Lives` says this of one generator, with
the logs of the runs of its parsers in the session that they are given.
-/
namespace ParserAlgebra

-- ================================================================ acts

/-- What happens in a run. -/
inductive Act where
  /-- An event is noted. -/
  | event (event : Event)
  /-- A generator is started from a state, lives through these acts, and is finalised. -/
  | life (tag : Option String) (program : Program) (start : State) (acts : List Act)
      (out : Outcome State)
  /-- A generator is resumed with a value. -/
  | resumed (value : Value)
  /-- A parser that a generator has handed out is run from a state. -/
  | ran (p : Parser) (start : State) (log : List Act) (out : Outcome State)

mutual

/-- The events of an act, where the finalisations leave those of `ending`. -/
def Act.events (ending : Option String → List Event) : Act → List Event
  | .event event => [event]
  | .life tag _ _ acts _ => eventsAmong ending acts ++ ending tag
  | .resumed _ => []
  | .ran _ _ log _ => eventsAmong ending log

/-- The events of acts. -/
def eventsAmong (ending : Option String → List Event) : List Act → List Event
  | [] => []
  | act :: rest => act.events ending ++ eventsAmong ending rest

end

/-- The life of a generator. -/
structure Life where
  tag : Option String
  program : Program
  start : State
  acts : List Act
  out : Outcome State

mutual

/-- The lives in an act, in the order in which they end. -/
def Act.lives : Act → List Life
  | .event _ => []
  | .life tag program start acts out => livesAmong acts ++ [⟨tag, program, start, acts, out⟩]
  | .resumed _ => []
  | .ran _ _ log _ => livesAmong log

/-- The lives among acts. -/
def livesAmong : List Act → List Life
  | [] => []
  | act :: rest => act.lives ++ livesAmong rest

end

theorem livesAmong_ran (p : Parser) (start : State) (log : List Act) (out : Outcome State) :
    livesAmong [.ran p start log out] = livesAmong log := by
  rw [livesAmong, livesAmong, Act.lives, List.append_nil]

/-- A life comes behind the lives in it. -/
theorem livesAmong_life (tag : Option String) (program : Program) (start : State)
    (acts : List Act) (out : Outcome State) :
    livesAmong [.life tag program start acts out] =
      livesAmong acts ++ [⟨tag, program, start, acts, out⟩] := by
  rw [livesAmong, livesAmong, Act.lives, List.append_nil]

section

variable (ending : Option String → List Event)

/-- What is run has its own events. -/
theorem eventsAmong_ran (p : Parser) (start : State) (log : List Act) (out : Outcome State) :
    eventsAmong ending [.ran p start log out] = eventsAmong ending log := by
  rw [eventsAmong, eventsAmong, Act.events, List.append_nil]

/-- A life ends with the events of its finalisation. -/
theorem eventsAmong_life (tag : Option String) (program : Program) (start : State)
    (acts : List Act) (out : Outcome State) :
    eventsAmong ending [.life tag program start acts out] =
      eventsAmong ending acts ++ ending tag := by
  rw [eventsAmong, eventsAmong, Act.events, List.append_nil]

/-- Logs in a row have their events in a row. -/
theorem eventsAmong_append (log more : List Act) :
    eventsAmong ending (log ++ more) = eventsAmong ending log ++ eventsAmong ending more := by
  induction log with
  | nil => rfl
  | cons act log ih => rw [List.cons_append, eventsAmong, ih, eventsAmong, List.append_assoc]

theorem eventsAmong_events (events : List Event) :
    eventsAmong ending (events.map .event) = events := by
  induction events with
  | nil => rfl
  | cons event events ih =>
      rw [List.map_cons, eventsAmong, ih]
      rfl

/-- Logs in a row have their lives in a row. -/
theorem livesAmong_append (log more : List Act) :
    livesAmong (log ++ more) = livesAmong log ++ livesAmong more := by
  induction log with
  | nil => rfl
  | cons act log ih => rw [List.cons_append, livesAmong, ih, livesAmong, List.append_assoc]

/-- An event is no life. -/
theorem livesAmong_events (events : List Event) : livesAmong (events.map .event) = [] := by
  induction events with
  | nil => rfl
  | cons event events ih =>
      rw [List.map_cons, livesAmong, ih]
      rfl

mutual

/-- The events of a life stand together among the events of any act that it is part of, and what its
finalisation leaves is the last of them. -/
theorem Act.infix_events {life : Life} : ∀ act : Act, life ∈ act.lives →
    eventsAmong ending life.acts ++ ending life.tag <:+: act.events ending
  | .event _, h => nomatch h
  | .resumed _, h => nomatch h
  | .ran _ _ log _, h => infix_eventsAmong log h
  | .life tag program start acts out, h => by
      rw [Act.lives, List.mem_append, List.mem_singleton] at h
      rw [Act.events]
      rcases h with h | rfl
      · exact (infix_eventsAmong acts h).trans (List.prefix_append _ _).isInfix
      · exact List.infix_rfl

/-- The events of a life stand together in the log that has it. -/
theorem infix_eventsAmong {life : Life} : ∀ log : List Act, life ∈ livesAmong log →
    eventsAmong ending life.acts ++ ending life.tag <:+: eventsAmong ending log
  | [], h => nomatch h
  | act :: rest, h => by
      rw [livesAmong, List.mem_append] at h
      rw [eventsAmong]
      rcases h with h | h
      · exact (Act.infix_events act h).trans (List.prefix_append _ _).isInfix
      · exact (infix_eventsAmong rest h).trans (List.suffix_append _ _).isInfix

end

end

mutual

/-- Each life leaves one event of its end, apart from what is noted elsewhere. -/
theorem Act.count_finished (tag : String) : ∀ act : Act,
    (act.events finishing).count (.finished tag) =
      act.lives.countP (fun life => life.tag = some tag) +
        (act.events fun _ => []).count (.finished tag)
  | .event _ => (Nat.zero_add _).symm
  | .resumed _ => rfl
  | .ran _ _ log _ => count_finished_among tag log
  | .life other program start acts out => by
      -- The last event is that of the life itself; all others are counted among its acts.
      have hend : (finishing other).count (.finished tag) =
          [Life.mk other program start acts out].countP fun life => life.tag = some tag := by
        cases other with
        | none => rfl
        | some other => simp [finishing, List.count_singleton, List.countP_singleton]
      rw [Act.events, Act.events, Act.lives, List.count_append, List.countP_append,
        List.append_nil, count_finished_among tag acts, hend]
      omega

/-- Finalisations are those of lives, or were noted by something else. -/
theorem count_finished_among (tag : String) : ∀ log : List Act,
    (eventsAmong finishing log).count (.finished tag) =
      (livesAmong log).countP (fun life => life.tag = some tag) +
        (eventsAmong (fun _ => []) log).count (.finished tag)
  | [] => rfl
  | act :: rest => by
      rw [eventsAmong, eventsAmong, livesAmong, List.count_append, List.count_append,
        List.countP_append, Act.count_finished tag act, count_finished_among tag rest]
      omega

end

-- ================================================================ the life of a generator

/-- The outcome of a step that succeeds. -/
def Outcome.Succeeds (out : Outcome State) : Prop :=
  ∃ t, out = .done t ∧ t.failed = false

theorem Outcome.failed_of_not_succeeds {t : State} (h : ¬(Outcome.done t).Succeeds) :
    t.failed = true := by
  cases ht : t.failed with
  | true => rfl
  | false => exact absurd ⟨t, rfl, ht⟩ h

/-- What a generator of a program lives through once it has been resumed, from a state and in a
session, where `tell` runs the parsers that it hands out. It ends in the outcome and leaves the
second session. -/
inductive Lives (tell : Parser → State → Logged Act State) :
    Program → State → Session → List Act → Outcome State → Session → Prop
  /-- It returns. -/
  | returned (value : Value) (s : State) (session : Session) :
      Lives tell (.done value) s session [] (.done (s.withResult value)) session
  /-- It gives up, or what it has handed out is no parser. -/
  | raised (fault : Fault) (s : State) (session : Session) :
      Lives tell (.raise fault) s session [] (.raised fault) session
  /-- It notes events and goes on. -/
  | noted {events : List Event} {rest : Program} {s : State} {session after : Session}
      {acts : List Act} {out : Outcome State}
      (hrest : Lives tell rest s (session.noting events) acts out after) :
      Lives tell (.noting events rest) s session (events.map .event ++ acts) out after
  /-- The parser that it has handed out does not succeed, and that is the end. -/
  | stopped {p : Parser} {next : Value → Program} {s : State} {session after : Session}
      {log : List Act} {out : Outcome State} (htell : tell p s session = ⟨out, after, log⟩)
      (hout : ¬out.Succeeds) :
      Lives tell (.step p next) s session [.ran p s log out] out after
  /-- The parser that it has handed out succeeds, and it is resumed with the result. -/
  | resumed {p : Parser} {next : Value → Program} {s t : State} {session middle after : Session}
      {log acts : List Act} {out : Outcome State}
      (htell : tell p s session = ⟨.done t, middle, log⟩) (hlive : t.failed = false)
      (hrest : Lives tell (next t.result) t middle acts out after) :
      Lives tell (.step p next) s session
        (.ran p s log (.done t) :: .resumed t.result :: acts) out after

/-- The value that a generator is resumed with. -/
def Act.sent? : Act → Option Value
  | .resumed value => some value
  | _ => none

/-- The result of a step that succeeds. -/
def Act.result? : Act → Option Value
  | .ran _ _ _ (.done t) => if t.failed then none else some t.result
  | _ => none

/-- The act is a step that does not succeed. -/
def Act.Stops : Act → Prop
  | .ran _ _ _ out => ¬out.Succeeds
  | _ => False

/-- Events say nothing that a function does not see in them. -/
theorem filterMap_events {α : Type} {f : Act → Option α} (h : ∀ event, f (.event event) = none)
    (events : List Event) : (events.map Act.event).filterMap f = [] := by
  rw [List.filterMap_map]
  exact List.filterMap_eq_nil_iff.mpr fun event _ => h event

/-- Only a success has a result to send back. -/
theorem Act.result?_of_not_succeeds {p : Parser} {s : State} {log : List Act}
    {out : Outcome State} (h : ¬out.Succeeds) : Act.result? (.ran p s log out) = none := by
  cases out with
  | done t => exact if_pos (Outcome.failed_of_not_succeeds h)
  | raised | exhausted => rfl

namespace Lives

variable {tell : Parser → State → Logged Act State} {program : Program} {s : State}
  {session after : Session} {acts : List Act} {out : Outcome State}

/-- It is resumed with the results of its steps, in their order. -/
theorem sent_eq_results (h : Lives tell program s session acts out after) :
    acts.filterMap Act.sent? = acts.filterMap Act.result? := by
  induction h with
  | returned | raised => rfl
  | noted _ ih =>
      rw [List.filterMap_append, List.filterMap_append, ih, filterMap_events fun _ => rfl,
        filterMap_events fun _ => rfl]
  | @stopped p next s session after log out _ hout =>
      have hnone : Act.result? (.ran p s log out) = none := Act.result?_of_not_succeeds hout
      rw [List.filterMap_cons_none rfl, List.filterMap_cons_none hnone]
      rfl
  | resumed _ hlive _ ih =>
      simp only [List.filterMap_cons, Act.sent?, Act.result?, hlive, Bool.false_eq_true, if_false,
        ih]

/-- Nothing comes after a step that does not succeed. -/
theorem nothing_after_stop (h : Lives tell program s session acts out after) :
    acts.Pairwise fun act _ => ¬act.Stops := by
  induction h with
  | returned | raised => exact .nil
  | noted _ ih =>
      have hevents : ∀ events : List Event,
          (events.map Act.event).Pairwise fun act _ => ¬act.Stops := by
        intro events
        exact List.pairwise_map.mpr (List.pairwise_of_forall fun _ _ => id)
      refine List.pairwise_append.mpr ⟨hevents _, ih, fun act hact _ _ => ?_⟩
      obtain ⟨event, -, rfl⟩ := List.mem_map.mp hact
      exact id
  | stopped => exact List.pairwise_singleton _ _
  | resumed _ hlive _ ih =>
      refine .cons (fun _ _ hstops => hstops ⟨_, rfl, hlive⟩) (.cons (fun _ _ => id) ih)

end Lives

end ParserAlgebra
