import ParserAlgebra.Proofs.History

/-!
Runs that keep a log.

# Logs

The history of a session is a flat list of events. A log may say more of a run, in entries of any
kind that has a place for events. `Logged` computes in a session and keeps a log. On the machine
`Logged.plain` the log is made of events alone; others mark something more in it, at those
operations that a run has no use for.

# What a log tells

A log leads from the session at the start to the session in the end, in whatever sense one needs: it
may account for the history, for what is remembered, or for both. Such a sense is a `Reading` if it
goes along logs. Then all operations of the plain machine keep it (`simulates_tells`), and what is
kept of a run comes with the run itself (`Logged.Tells`).
-/
namespace ParserAlgebra

/-- What is left of a run whose log is kept. -/
structure Transcript (ε α : Type) where
  outcome : Outcome α
  session : Session
  log : List ε

/-- A computation in a session that keeps its log. -/
def Logged (ε α : Type) : Type :=
  Session → Transcript ε α

variable {ε α β : Type}

-- ================================================================ the machine

/-- The event that the finalisation of a generator leaves, if it has a tag. -/
def finishing (tag : Option String) : List Event :=
  tag.toList.map Event.finished

namespace Logged

/-- Nothing happens. -/
protected def pure (a : α) : Logged ε α :=
  fun session => ⟨.done a, session, []⟩

/-- The log of what follows comes behind the log so far. -/
protected def bind (x : Logged ε α) (f : α → Logged ε β) : Logged ε β :=
  fun session =>
    match x session with
    | ⟨.done a, after, log⟩ =>
      let rest := f a after
      { rest with log := log ++ rest.log }
    | ⟨.raised fault, after, log⟩ => ⟨.raised fault, after, log⟩
    | ⟨.exhausted, after, log⟩ => ⟨.exhausted, after, log⟩

instance : Monad (Logged ε) where
  pure := Logged.pure
  bind := Logged.bind

section

variable {x : Logged ε α} {f : α → Logged ε β} {session after : Session} {log : List ε}

theorem bind_of_done {a : α} (h : x session = ⟨.done a, after, log⟩) :
    (x >>= f) session = ⟨(f a after).outcome, (f a after).session, log ++ (f a after).log⟩ := by
  show Logged.bind x f session = _
  rw [Logged.bind, h]

theorem bind_of_raised {fault : Fault} (h : x session = ⟨.raised fault, after, log⟩) :
    (x >>= f) session = ⟨.raised fault, after, log⟩ := by
  show Logged.bind x f session = _
  rw [Logged.bind, h]

theorem bind_of_exhausted (h : x session = ⟨.exhausted, after, log⟩) :
    (x >>= f) session = ⟨.exhausted, after, log⟩ := by
  show Logged.bind x f session = _
  rw [Logged.bind, h]

/-- What follows a computation adds to its log. -/
theorem log_bind (x : Logged ε α) (f : α → Logged ε β) (session : Session) :
    (x session).log <+: ((x >>= f) session).log := by
  rcases h : x session with ⟨a | fault | _, after, log⟩
  · exact ⟨(f a after).log, by rw [bind_of_done h]⟩
  · exact ⟨[], by rw [bind_of_raised h, List.append_nil]⟩
  · exact ⟨[], by rw [bind_of_exhausted h, List.append_nil]⟩

end

/-- The entries of the events that have been added to the history of a session. -/
def added (event : Event → ε) (before after : Session) : List ε :=
  (after.history.toList.drop before.history.size).map event

/-- A computation of which nothing is kept but its events. -/
def ofRun (event : Event → ε) (x : Run α) : Logged ε α :=
  fun session => ⟨(x session).1, (x session).2, added event session (x session).2⟩

/-- Notes events at the end of a computation, however it ends. -/
def ensuring (event : Event → ε) (x : Logged ε α) (events : List Event) : Logged ε α :=
  fun session =>
    { x session with
      session := (x session).session.noting events
      log := (x session).log ++ events.map event }

/-- The machine whose logs are made of events alone. -/
@[reducible] def plain (event : Event → ε) : Machine (Logged ε) where
  exhaust := ofRun event Run.exhaust
  ofExcept outcome := ofRun event (Run.ofExcept outcome)
  ofAnswer answer := ofRun event (Run.ofAnswer answer)
  note events := ofRun event (Run.note events)
  living tag _ _ x := ensuring event x (finishing tag)

theorem added_of_history {event : Event → ε} {before after : Session} {events : List Event}
    (h : after.history.toList = before.history.toList ++ events) :
    added event before after = events.map event := by
  rw [added, h, ← Array.length_toList, List.drop_left]

/-- Of noted events, exactly these are added. -/
theorem added_noting (event : Event → ε) (session : Session) (events : List Event) :
    added event session (session.noting events) = events.map event :=
  added_of_history (session.toList_noting events)

end Logged

-- ================================================================ readings

/-- A sense in which logs lead from one session to another. -/
structure Reading (event : Event → ε) (T : Session → List ε → Session → Prop) : Prop where
  nil (session : Session) : T session [] session
  append {before between after : Session} {log more : List ε} (h : T before log between)
    (hmore : T between more after) : T before (log ++ more) after
  events (session : Session) (events : List Event) :
    T session (events.map event) (session.noting events)

section

variable {event : Event → ε} {T : Session → List ε → Session → Prop}

/-- The log is `read` as the events that have been added to the history. -/
def Adds (read : List ε → List Event) (before : Session) (log : List ε) (after : Session) : Prop :=
  after.history.toList = before.history.toList ++ read log

/-- To read events off a log is a reading, if events are read as they are and logs part by part. -/
theorem reading_adds {read : List ε → List Event}
    (hevents : ∀ events, read (events.map event) = events)
    (happend : ∀ log more, read (log ++ more) = read log ++ read more) :
    Reading event (Adds read) where
  nil session := by
    have hnil : read [] = [] := hevents []
    unfold Adds
    rw [hnil, List.append_nil]
  append {before between after log more} h hmore := by
    unfold Adds at h hmore ⊢
    rw [hmore, h, happend, List.append_assoc]
  events session events := by
    unfold Adds
    rw [session.toList_noting, hevents]

-- ================================================================ what a log tells

/-- What is kept of a run in a session comes with the run, and its log leads to where it ends. -/
structure Transcript.Tells (T : Session → List ε → Session → Prop) (session : Session)
    (told : Transcript ε α) (run : Outcome α × Session) : Prop where
  run : run = (told.outcome, told.session)
  log : T session told.log told.session

/-- What is kept of `w` tells of `x`, in every session. -/
def Logged.Tells (T : Session → List ε → Session → Prop) (w : Logged ε α) (x : Run α) : Prop :=
  ∀ session, (w session).Tells T session (x session)

namespace Logged

/-- Where nothing happens, nothing is told. -/
theorem tells_pure (hT : Reading event T) (a : α) : Tells T (pure a) (pure a) :=
  fun session => ⟨rfl, hT.nil session⟩

/-- The logs of two parts, one behind the other, tell of both. -/
theorem tells_bind (hT : Reading event T) {w : Logged ε α} {x : Run α} {v : α → Logged ε β}
    {f : α → Run β} (hw : Tells T w x) (hv : ∀ a, Tells T (v a) (f a)) :
    Tells T (w >>= v) (x >>= f) := by
  intro session
  obtain ⟨hrun, hlog⟩ := hw session
  rcases hw : w session with ⟨a | fault | _, after, log⟩
  · rw [hw] at hrun hlog
    obtain ⟨hrest, hmore⟩ := hv a after
    rw [bind_of_done hw, Run.bind_of_done hrun]
    exact ⟨hrest, hT.append hlog hmore⟩
  · rw [hw] at hrun hlog
    rw [bind_of_raised hw, Run.bind_of_raised hrun]
    exact ⟨rfl, hlog⟩
  · rw [hw] at hrun hlog
    rw [bind_of_exhausted hw, Run.bind_of_exhausted hrun]
    exact ⟨rfl, hlog⟩

/-- What only notes events is kept as these events. -/
theorem tells_ofRun (hT : Reading event T) {x : Run α} (hx : x.Notes) :
    Tells T (ofRun event x) x := by
  intro session
  obtain ⟨events, hevents⟩ := hx session
  refine ⟨rfl, ?_⟩
  show T session (added event session (x session).2) (x session).2
  rw [hevents, added_noting]
  exact hT.events session events

/-- For the history alone it is enough that nothing is taken away. -/
theorem tells_ofRun_of_appends {read : List ε → List Event}
    (hevents : ∀ events, read (events.map event) = events) {x : Run α} (hx : x.Appends) :
    Tells (Adds read) (ofRun event x) x := by
  intro session
  obtain ⟨events, hadded⟩ := hx session
  refine ⟨rfl, ?_⟩
  show Adds read session (added event session (x session).2) (x session).2
  rw [added_of_history hadded.symm, Adds, hevents, hadded]

/-- What is noted at the end is told at the end. -/
theorem tells_ensuring (hT : Reading event T) {w : Logged ε α} {x : Run α} (hw : Tells T w x)
    (events : List Event) : Tells T (ensuring event w events) (Run.ensuring x events) := by
  intro session
  obtain ⟨hrun, hlog⟩ := hw session
  refine ⟨?_, hT.append hlog (hT.events _ events)⟩
  unfold Run.ensuring
  rw [hrun]
  rfl

/-- All operations of the plain machine keep what a log tells. -/
theorem simulates_tells (hT : Reading event T) :
    @Machine.Simulates (Logged ε) Run (plain event) _ fun _ w x => w.Tells T x :=
  letI := plain event
  { pure := tells_pure hT
    bind := tells_bind hT
    exhaust := tells_ofRun hT Run.notes_exhaust
    ofExcept := fun outcome => tells_ofRun hT (Run.notes_ofExcept outcome)
    ofAnswer := fun answer => tells_ofRun hT (Run.notes_ofAnswer answer)
    note := fun events => tells_ofRun hT (Run.notes_note events)
    traced := by
      intro label s hs w x hw
      refine tells_bind hT (tells_ofRun hT (Run.notes_ofExcept _)) fun line => ?_
      refine tells_bind hT (tells_ofRun hT (Run.notes_note _)) fun _ => ?_
      refine tells_bind hT hw fun t => ?_
      by_cases ht : t.failed = true
      · rw [if_pos ht, if_pos ht]
        exact tells_bind hT (tells_ofRun hT (Run.notes_note _)) fun _ => tells_pure hT t
      · rw [if_neg ht, if_neg ht]
        exact tells_pure hT t
    handed := fun _ _ _ _ hw => hw
    resumed := fun _ => tells_pure hT () }

end Logged

end

end ParserAlgebra
