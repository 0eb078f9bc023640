import ParserAlgebra.Evaluation
import ParserAlgebra.Proofs.NestedList
import ParserAlgebra.Proofs.Transcript

/-!
Rules are called once, and nobody can tell.

# Building anew

`Parser.evalAnew` runs a parser without a memory: wherever a deferred node is run, its rule is
called. Like `Parser.eval` in a faithful session it ends as the plain evaluator says, and it does so
in every session, so remembering is never seen in how a run ends.

# Watching a run

A call of a rule leaves its name in the history, but not the object that it is called for. On the
machine of marks the log of a run has an entry for every use of an object (`Use`): the object, the
state it is run from, and whatever is added to the history until its parser is there. So how often
a rule is called for an object is read off the events of the run itself (`Parser.observe_tells`).

# What a use does

A use finds the parser of its object, or has it built, or is refused (`Use.Step`); in the last two
cases it writes what a call of the rule writes, and in the first nothing. Nothing else changes what
is remembered, so the uses of a whole run lead from the objects remembered before to those
remembered after (`Traces`), and the calls for one object are counted by induction on such a path,
whatever the combinators around it.
-/
namespace ParserAlgebra

-- ================================================================ building anew

/-- The parser of a deferred node, built whether or not it has been built before. -/
def resolveAnew (rules : Rules) : Deferred → Run Instance
  | .own _ rule | .shared rule => do
    Run.note [.built rule.name]
    build .rule (rules.rule rule)
  | .body place g scope => build place (rules.body g scope)

/-- Runs a parser with the rules of a grammar and remembers nothing. -/
def Parser.evalAnew (rules : Rules) (fuel : Nat) (p : Parser) (frame : Nat) (s : State) :
    Run State :=
  p.execute (fun _ object _ => resolveAnew rules object) fuel frame s

/-- What is built anew is what the rules give, whatever is remembered. -/
theorem resolveAnew_finds (rules : Rules) (object : Deferred) :
    (resolveAnew rules object).Finds (fun _ => True) (rules.tree object) := by
  cases object with
  | own site rule | shared rule =>
      intro session h
      exact build_finds (fun _ => True) .rule (rules.rule rule)
        { session with history := session.history ++ [Event.built rule.name] } h
  | body place g scope => exact build_finds _ place (rules.body g scope)

/-- Without a memory, a run ends as the plain evaluator says in every session. -/
theorem Parser.evalAnew_ends (rules : Rules) (fuel : Nat) (p : Parser) (frame : Nat) (s : State) :
    (p.evalAnew rules fuel frame s).Ends (fun _ => True) (p.apply rules fuel s) :=
  p.execute_ends (fun _ object _ => resolveAnew_finds rules object) fuel frame s

-- ================================================================ watching a run

/-- The object that a deferred node of a frame is, if it stands for a rule. -/
def Deferred.slot? (frame : Nat) : Deferred → Option Slot
  | .own site rule => some ⟨some (frame, site), rule⟩
  | .shared rule => some ⟨none, rule⟩
  | .body _ _ _ => none

/-- One use of an object that stands for a rule: the state it is run from, and what is written in
the history until its parser is there. -/
structure Use where
  slot : Slot
  state : State
  written : List Event

/-- An entry in the log of a run: an event, or a use with the events it has written. -/
inductive Mark where
  | event (event : Event)
  | use (use : Use)

/-- The events of an entry. -/
def Mark.events : Mark → List Event
  | .event e => [e]
  | .use u => u.written

/-- The use that an entry is, if it is one. -/
def Mark.use? : Mark → Option Use
  | .event _ => none
  | .use u => some u

/-- The events of a log. -/
def marksEvents (log : List Mark) : List Event :=
  log.flatMap Mark.events

/-- The uses in a log. -/
def usesIn (log : List Mark) : List Use :=
  log.filterMap Mark.use?

/-- All events are their own marks, and the uses are marked where parsers of objects are found. -/
instance : Machine (Logged Mark) :=
  Logged.plain Mark.event

/-- Finds the parser of a deferred node of a frame. If the node is an object, all that this adds to
the history is one use. -/
def Rules.use (rules : Rules) (frame : Nat) (object : Deferred) (s : State) :
    Logged Mark Instance :=
  let found := resolve rules frame object
  match object.slot? frame with
  | some slot => fun session =>
    let after := (found session).2
    ⟨(found session).1, after, [.use ⟨slot, s, Logged.added id session after⟩]⟩
  | none => Logged.ofRun Mark.event found

/-- Runs a parser with the rules of a grammar and marks the uses of objects. -/
def Parser.observe (rules : Rules) (fuel : Nat) (p : Parser) (frame : Nat) (s : State) :
    Logged Mark State :=
  p.execute rules.use fuel frame s

section

variable (events : List Event) (log more : List Mark)

theorem marksEvents_append : marksEvents (log ++ more) = marksEvents log ++ marksEvents more :=
  List.flatMap_append

theorem marksEvents_events : marksEvents (events.map .event) = events := by
  induction events with
  | nil => rfl
  | cons event events ih => exact congrArg (event :: ·) ih

theorem usesIn_append : usesIn (log ++ more) = usesIn log ++ usesIn more :=
  List.filterMap_append

theorem usesIn_events : usesIn (events.map .event) = [] := by
  simp [usesIn, List.filterMap_map, Mark.use?]

end

-- ================================================================ what a use does

/-- What a use does to the objects that are remembered, and what it writes. -/
inductive Use.Step (rules : Rules) (use : Use) : Cache → Cache → Prop
  /-- The object has its parser. -/
  | found {cache : Cache} {object : Instance} (known : cache[use.slot]? = some object)
      (silent : use.written = []) : Step rules use cache cache
  /-- The rule is called and gives a parser, which the object keeps. -/
  | built {cache : Cache} {p : Parser} (frame : Nat) (unknown : cache[use.slot]? = none)
      (tree : rules.tree (.shared use.slot.rule) = .ok p)
      (called : use.written = rules.callEvents use.slot.rule) :
      Step rules use cache (cache.insert use.slot ⟨frame, p⟩)
  /-- The rule is called and gives no parser, and the object stays without one. -/
  | refused {cache : Cache} {fault : Fault} (unknown : cache[use.slot]? = none)
      (tree : rules.tree (.shared use.slot.rule) = .error fault)
      (called : use.written = rules.callEvents use.slot.rule) : Step rules use cache cache

/-- Uses one after another, from the objects remembered before to those remembered after. -/
inductive Traces (rules : Rules) : Cache → List Use → Cache → Prop
  | nil (cache : Cache) : Traces rules cache [] cache
  | cons {before between after : Cache} {use : Use} {uses : List Use}
      (step : use.Step rules before between) (rest : Traces rules between uses after) :
      Traces rules before (use :: uses) after

/-- What the log of a run tells: its events are those of the run, its uses lead from what was
remembered to what is remembered, and each of them is made from a live state. -/
structure Recalls (rules : Rules) (before : Session) (log : List Mark) (after : Session) :
    Prop where
  events : Adds marksEvents before log after
  uses : Traces rules before.built (usesIn log) after.built
  live : ∀ use ∈ usesIn log, use.state.failed = false

section

variable {rules : Rules}

theorem Traces.append {before between after : Cache} {uses later : List Use}
    (h : Traces rules before uses between) (hlater : Traces rules between later after) :
    Traces rules before (uses ++ later) after := by
  induction h with
  | nil => exact hlater
  | cons step _ ih => exact .cons step (ih hlater)

/-- To look for the parser of an object is what a use of it does. -/
theorem fetch_step (slot : Slot) (s : State) (session : Session) :
    Use.Step rules ⟨slot, s, Logged.added id session (fetch rules slot session).2⟩ session.built
      (fetch rules slot session).2.built := by
  cases hslot : session.built[slot]? with
  | some object =>
      rw [fetch_of_known hslot]
      exact .found hslot (Logged.added_of_history (List.append_nil _).symm)
  | none =>
      have hcalled : Logged.added id session (fetch rules slot session).2 =
          rules.callEvents slot.rule := by
        rw [Logged.added_of_history (fetch_history_of_unknown hslot), List.map_id]
      rw [hcalled]
      cases htree : rules.tree (.shared slot.rule) with
      | ok p =>
          obtain ⟨frame, after, hbuilt, hrun⟩ := fetch_of_ok hslot htree
          rw [hrun, hbuilt]
          exact .built frame hslot htree rfl
      | error fault =>
          obtain ⟨after, hbuilt, hrun⟩ := fetch_of_error hslot htree
          rw [hrun, hbuilt]
          exact .refused hslot htree rfl

/-- Events alone are no use, and tell of a session in which nothing else has been remembered. -/
theorem recalls_events {before after : Session} {events : List Event}
    (hhistory : after.history.toList = before.history.toList ++ events)
    (hbuilt : after.built = before.built) :
    Recalls rules before (events.map .event) after := by
  refine ⟨?_, ?_, fun use huse => ?_⟩
  · unfold Adds
    rw [marksEvents_events, hhistory]
  · rw [usesIn_events, hbuilt]
    exact .nil _
  · rw [usesIn_events] at huse
    cases huse

/-- What the log tells goes along logs. -/
theorem reading_recalls (rules : Rules) : Reading Mark.event (Recalls rules) := by
  refine ⟨fun session => ?_, fun h hmore => ?_, fun session events => ?_⟩
  · exact recalls_events (List.append_nil _).symm rfl
  · refine ⟨?_, ?_, fun use huse => ?_⟩
    · exact (reading_adds marksEvents_events marksEvents_append).append h.events hmore.events
    · rw [usesIn_append]
      exact h.uses.append hmore.uses
    · rw [usesIn_append, List.mem_append] at huse
      exact huse.elim (h.live use) (hmore.live use)
  · exact recalls_events (session.toList_noting events) rfl

/-- What is marked of an object tells of the search for its parser. -/
theorem fetch_recalls (slot : Slot) {s : State} (hs : s.failed = false) (session : Session) :
    Recalls rules session
      [.use ⟨slot, s, Logged.added id session (fetch rules slot session).2⟩]
      (fetch rules slot session).2 := by
  refine ⟨?_, .cons (fetch_step slot s session) (.nil _), fun use huse => ?_⟩
  · obtain ⟨events, hadded⟩ := appends_fetch rules slot session
    show _ = _ ++ (Logged.added id session (fetch rules slot session).2 ++ [])
    rw [Logged.added_of_history hadded.symm, List.map_id, List.append_nil, hadded]
  · rw [List.mem_singleton.mp huse]
    exact hs

/-- What is marked of a deferred node tells of the search for its parser. -/
theorem Rules.use_tells (frame : Nat) (object : Deferred) {s : State} (hs : s.failed = false) :
    (rules.use frame object s).Tells (Recalls rules) (resolve rules frame object) := by
  intro session
  cases object with
  | own site rule => exact ⟨rfl, fetch_recalls ⟨some (frame, site), rule⟩ hs session⟩
  | shared rule => exact ⟨rfl, fetch_recalls ⟨none, rule⟩ hs session⟩
  | body place g scope =>
      -- a body is no object, and nothing is remembered of it
      have hhistory : (resolve rules frame (.body place g scope) session).2.history.toList =
          session.history.toList ++ (rules.body g scope).events := by
        rw [resolve, build_history, Array.toList_appendList]
      have hlog : (rules.use frame (.body place g scope) s session).log =
          (rules.body g scope).events.map .event := Logged.added_of_history hhistory
      refine ⟨rfl, ?_⟩
      rw [hlog]
      exact recalls_events hhistory (build_built place _ session)

/-- What is observed of a parser tells of its run. -/
theorem Parser.observe_tells (rules : Rules) (fuel : Nat) (p : Parser) (frame : Nat) (s : State) :
    (p.observe rules fuel frame s).Tells (Recalls rules) (p.eval rules fuel frame s) := by
  have hT := reading_recalls rules
  refine p.execute_simulated (Logged.simulates_tells hT)
    (fun frame object _ hs => Rules.use_tells frame object hs) ?_ fuel frame s
  exact fun _ _ tag program s _ h => Logged.tells_ensuring hT h (finishing tag)

/-- An object that is run from a live state is used there. -/
theorem Parser.deferred_used (rules : Rules) (fuel : Nat) {frame : Nat} {object : Deferred}
    {slot : Slot} {s : State} (hslot : object.slot? frame = some slot) (hs : s.failed = false)
    (session : Session) :
    ∃ use ∈ usesIn ((deferred object).observe rules (fuel + 1) frame s session).log,
      use.slot = slot ∧ use.state = s := by
  have hlog : (rules.use frame object s session).log =
      [.use ⟨slot, s, Logged.added id session (resolve rules frame object session).2⟩] := by
    rw [Rules.use, hslot]
  rw [observe, execute, denote, if_neg (Bool.eq_false_iff.mp hs), deferral]
  obtain ⟨more, hmore⟩ := Logged.log_bind (rules.use frame object s)
    (fun tree => tree.parser.denote (deferral rules.use fuel tree.frame) fuel s) session
  rw [← hmore, hlog, usesIn_append]
  exact ⟨_, List.mem_append_left _ (List.mem_singleton_self _), rfl, rfl⟩

-- ================================================================ counting calls

/-- The uses of one object. -/
def usesOf (slot : Slot) (uses : List Use) : List Use :=
  uses.filter (·.slot = slot)

/-- What the uses of one object have written, where they have written anything. -/
def callsFor (slot : Slot) (uses : List Use) : List (List Event) :=
  ((usesOf slot uses).map Use.written).filter (· ≠ [])

section

variable {slot : Slot} {use : Use} {uses : List Use} {before after : Cache}

theorem usesOf_cons_self (h : use.slot = slot) :
    usesOf slot (use :: uses) = use :: usesOf slot uses := by
  simp [usesOf, h]

theorem usesOf_cons_other (h : ¬use.slot = slot) :
    usesOf slot (use :: uses) = usesOf slot uses := by
  simp [usesOf, h]

theorem callsFor_cons_silent (h : use.slot = slot) (hsilent : use.written = []) :
    callsFor slot (use :: uses) = callsFor slot uses := by
  simp [callsFor, usesOf_cons_self h, hsilent]

/-- A call is seen, since it writes the name of its rule at least. -/
theorem callsFor_cons_called (h : use.slot = slot)
    (hcalled : use.written = rules.callEvents use.slot.rule) :
    callsFor slot (use :: uses) = rules.callEvents slot.rule :: callsFor slot uses := by
  subst h
  simp [callsFor, usesOf_cons_self, hcalled, Rules.callEvents]

theorem callsFor_cons_other (h : ¬use.slot = slot) :
    callsFor slot (use :: uses) = callsFor slot uses := by
  simp [callsFor, usesOf_cons_other h]

/-- A use of one object leaves the others as they are. -/
theorem Use.Step.other (h : use.Step rules before after) (hslot : ¬use.slot = slot) :
    after[slot]? = before[slot]? := by
  cases h with
  | found | refused => rfl
  | built frame unknown tree called => simp [Std.HashMap.getElem?_insert, hslot]

/-- No rule is called for an object that has its parser, and the object keeps it. -/
theorem Traces.calls_of_known (h : Traces rules before uses after) {object : Instance}
    (hknown : before[slot]? = some object) :
    callsFor slot uses = [] ∧ after[slot]? = some object := by
  induction h with
  | nil => exact ⟨rfl, hknown⟩
  | @cons before between after use uses step rest ih =>
      by_cases hslot : use.slot = slot
      · subst hslot
        cases step with
        | found known silent =>
            rw [callsFor_cons_silent rfl silent]
            exact ih hknown
        | built frame unknown | refused unknown =>
            rw [hknown] at unknown
            cases unknown
      · rw [callsFor_cons_other hslot]
        exact ih ((step.other hslot).trans hknown)

/-- A rule that gives a parser is called at the first use of an object, and only there; the object
has its parser from then on. -/
theorem Traces.calls_of_ok (h : Traces rules before uses after) {p : Parser}
    (htree : rules.tree (.shared slot.rule) = .ok p) (hunknown : before[slot]? = none) :
    callsFor slot uses =
        (if (usesOf slot uses).isEmpty then [] else [rules.callEvents slot.rule]) ∧
      after[slot]?.map Instance.parser =
        if (usesOf slot uses).isEmpty then none else some p := by
  induction h with
  | nil => exact ⟨rfl, congrArg (Option.map Instance.parser) hunknown⟩
  | @cons before between after use uses step rest ih =>
      by_cases hslot : use.slot = slot
      · subst hslot
        cases step with
        | found known =>
            rw [hunknown] at known
            cases known
        | @built q frame unknown tree called =>
            obtain rfl : q = p := Except.ok.inj (tree.symm.trans htree)
            -- from here on the object is known
            obtain ⟨hcalls, hafter⟩ := rest.calls_of_known Std.HashMap.getElem?_insert_self
            rw [callsFor_cons_called rfl called, usesOf_cons_self rfl, hcalls, hafter]
            exact ⟨rfl, rfl⟩
        | refused unknown tree =>
            rw [htree] at tree
            cases tree
      · rw [callsFor_cons_other hslot, usesOf_cons_other hslot]
        exact ih ((step.other hslot).trans hunknown)

/-- A rule that gives no parser is called at every use of an object, which never gets one. -/
theorem Traces.calls_of_error (h : Traces rules before uses after) {fault : Fault}
    (htree : rules.tree (.shared slot.rule) = .error fault) (hunknown : before[slot]? = none) :
    callsFor slot uses =
        List.replicate (usesOf slot uses).length (rules.callEvents slot.rule) ∧
      after[slot]? = none := by
  induction h with
  | nil => exact ⟨rfl, hunknown⟩
  | @cons before between after use uses step rest ih =>
      by_cases hslot : use.slot = slot
      · subst hslot
        cases step with
        | found known =>
            rw [hunknown] at known
            cases known
        | built frame unknown tree =>
            rw [htree] at tree
            cases tree
        | refused unknown tree called =>
            obtain ⟨hcalls, hafter⟩ := ih hunknown
            rw [callsFor_cons_called rfl called, usesOf_cons_self rfl, hcalls]
            exact ⟨rfl, hafter⟩
      · rw [callsFor_cons_other hslot, usesOf_cons_other hslot]
        exact ih ((step.other hslot).trans hunknown)

end

end

-- ================================================================ one input after another

/-- The session that computations carried out one after another leave. -/
def Session.afterAll {α : Type} (session : Session) : List (Run α) → Session
  | [] => session
  | x :: rest => (session.call x).2.afterAll rest

/-- What is observed of complete runs on inputs one after another. -/
def Parser.observeAll (rules : Rules) (fuel : Nat) (p : Parser) (frame : Nat) :
    Session → List Input → List (Transcript Mark State)
  | _, [] => []
  | session, input :: rest =>
    p.observe rules fuel frame (.initial input) { session with history := #[] } ::
      observeAll rules fuel p frame (session.call (p.run rules fuel frame input)).2 rest

/-- The uses in the logs of all runs. -/
def usesAll (told : List (Transcript Mark State)) : List Use :=
  told.flatMap fun one => usesIn one.log

/-- The events that a complete run reports: those of its log, and a line more for a failure. -/
def Transcript.report (told : Transcript Mark State) : List Event :=
  marksEvents told.log ++ failureRecords .runner State.runnerLine told.outcome

section

variable (rules : Rules) (fuel : Nat) (p : Parser) (frame : Nat)

/-- A complete run reports what is observed of it. -/
theorem Parser.call_run_eq (input : Input) (session : Session) :
    let told := p.observe rules fuel frame (.initial input) { session with history := #[] }
    (session.call (p.run rules fuel frame input)).1 = ⟨told.outcome, told.report⟩ ∧
      (session.call (p.run rules fuel frame input)).2.built = told.session.built := by
  obtain ⟨heval, hlog⟩ :=
    p.observe_tells rules fuel frame (.initial input) { session with history := #[] }
  have hevents := hlog.events
  unfold Adds at hevents
  have hrun := p.run_eq rules fuel frame input { session with history := #[] }
  rw [heval] at hrun
  show Reply.mk (p.run rules fuel frame input _).1 (p.run rules fuel frame input _).2.history.toList
    = _ ∧ (p.run rules fuel frame input _).2.built = _
  rw [hrun]
  refine ⟨congrArg (Reply.mk _) ?_, rfl⟩
  rw [Session.toList_noting, hevents]
  rfl

/-- The uses of runs one after another lead from what was remembered before the first to what is
remembered after the last, and all of them are made from live states. -/
theorem Parser.observeAll_traces (inputs : List Input) :
    ∀ session : Session,
      Traces rules session.built (usesAll (p.observeAll rules fuel frame session inputs))
          (session.afterAll (inputs.map (p.run rules fuel frame))).built ∧
        ∀ use ∈ usesAll (p.observeAll rules fuel frame session inputs),
          use.state.failed = false := by
  induction inputs with
  | nil => exact fun session => ⟨.nil session.built, fun _ h => nomatch h⟩
  | cons input rest ih =>
      intro session
      obtain ⟨-, hlog⟩ :=
        p.observe_tells rules fuel frame (.initial input) { session with history := #[] }
      have hfirst := hlog.uses
      rw [← (p.call_run_eq rules fuel frame input session).2] at hfirst
      obtain ⟨hrest, hlive⟩ := ih (session.call (p.run rules fuel frame input)).2
      refine ⟨hfirst.append hrest, fun use huse => ?_⟩
      exact (List.mem_append.mp huse).elim (hlog.live use) (hlive use)

/-- A deferred node that is an object is used by the first of the runs. -/
theorem Parser.observeAll_used {object : Deferred} {slot : Slot}
    (hslot : object.slot? frame = some slot) (input : Input) (rest : List Input)
    (session : Session) :
    (usesOf slot (usesAll ((deferred object).observeAll rules (fuel + 1) frame session
      (input :: rest)))).isEmpty = false := by
  have hlive : (State.initial input).failed = false := rfl
  obtain ⟨use, huse, huseslot, -⟩ :=
    deferred_used rules fuel hslot hlive { session with history := #[] }
  refine List.isEmpty_eq_false_iff_exists_mem.mpr ⟨use, List.mem_filter.mpr ⟨?_, ?_⟩⟩
  · exact List.mem_append_left _ huse
  · exact decide_eq_true huseslot

/-- The events that runs one after another report. -/
theorem Parser.events_callAll (inputs : List Input) :
    ∀ session : Session,
      (session.callAll (inputs.map (p.run rules fuel frame))).map Reply.events =
        (p.observeAll rules fuel frame session inputs).map Transcript.report := by
  induction inputs with
  | nil => exact fun _ => rfl
  | cons input rest ih =>
      intro session
      rw [List.map_cons, Session.callAll, List.map_cons, ih, Parser.observeAll, List.map_cons,
        (p.call_run_eq rules fuel frame input session).1]

/-- How runs one after another end, from a faithful session. -/
theorem Parser.outcomes_callAll (inputs : List Input) :
    ∀ session : Session, session.Faithful rules →
      (session.callAll (inputs.map (p.run rules fuel frame))).map Reply.outcome =
        inputs.map fun input => p.apply rules fuel (.initial input) := by
  induction inputs with
  | nil => intro session h; rfl
  | cons input rest ih =>
      intro session h
      have hstart : Session.Faithful rules { session with history := #[] } := h
      have hrun : (session.call (p.run rules fuel frame input)).1.outcome =
          p.apply rules fuel (.initial input) := by
        show (p.run rules fuel frame input _).1 = _
        rw [p.run_fst]
        exact Parser.eval_eq_apply hstart fuel p frame (.initial input)
      have hafter : (session.call (p.run rules fuel frame input)).2.Faithful rules := by
        show Cache.Faithful rules (p.run rules fuel frame input _).2.built
        rw [p.run_built]
        exact Parser.eval_faithful hstart fuel p frame (.initial input)
      rw [List.map_cons, List.map_cons, Session.callAll, List.map_cons, ih _ hafter, hrun]

end

/-- Remembering is never seen, and saves every call but the first. Runs on inputs one after another,
from a session with whatever the rules have built in it, end each as a run on that input alone
which builds anew wherever it can. The events that a run reports are those of its log, in which
every use of an object, always from a live state, has the events that it writes itself.

An object with a parser has nothing written by any use, and keeps the parser. For an object without
one at the start, in all the runs together: if the rule gives a parser, one use writes what a call
of the rule writes, if there is a use at all, and no other writes anything; after a use the object
has that parser, and without one it has none. A rule that gives no parser is called at every use of
the object, for which nothing is remembered. -/
theorem Parser.runs_transparent (rules : Rules) (fuel : Nat) (p : Parser) (frame : Nat)
    {session : Session} (h : session.Faithful rules) (inputs : List Input) :
    let replies := session.callAll (inputs.map (p.run rules fuel frame))
    let after := session.afterAll (inputs.map (p.run rules fuel frame))
    let told := p.observeAll rules fuel frame session inputs
    let uses := usesAll told
    replies.map Reply.outcome =
        inputs.map (fun input => (p.evalAnew rules fuel frame (.initial input) {}).1) ∧
      replies.map Reply.events = told.map Transcript.report ∧
      (∀ use ∈ uses, use.state.failed = false) ∧
      (∀ slot object, session.built[slot]? = some object →
        callsFor slot uses = [] ∧ after.built[slot]? = some object) ∧
      ∀ slot, session.built[slot]? = none →
        (∀ q, rules.tree (.shared slot.rule) = .ok q →
          callsFor slot uses =
              (if (usesOf slot uses).isEmpty then [] else [rules.callEvents slot.rule]) ∧
            after.built[slot]?.map Instance.parser =
              if (usesOf slot uses).isEmpty then none else some q) ∧
        ∀ fault, rules.tree (.shared slot.rule) = .error fault →
          callsFor slot uses =
              List.replicate (usesOf slot uses).length (rules.callEvents slot.rule) ∧
            after.built[slot]? = none := by
  obtain ⟨htraces, hlive⟩ := p.observeAll_traces rules fuel frame inputs session
  refine ⟨?_, p.events_callAll rules fuel frame inputs session, hlive,
    fun slot object hknown => htraces.calls_of_known hknown, fun slot hunknown => ?_⟩
  · rw [p.outcomes_callAll rules fuel frame inputs session h]
    refine List.map_congr_left fun input _ => ?_
    exact (p.evalAnew_ends rules fuel frame (.initial input) {} trivial).1.symm
  · exact ⟨fun q hq => htraces.calls_of_ok hq hunknown,
      fun fault hfault => htraces.calls_of_error hfault hunknown⟩

/-- The rule of nested lists is called once for the object of a grammar that is run twice. A rule
that is not there is asked for, and leaves nothing behind. -/
theorem NestedList.runs_transparent_samples :
    (Session.Faithful rules { frames := 1 } ∧
      callsFor ⟨some (0, 0), rule⟩
          (usesAll ((Parser.deferred (.own 0 rule)).observeAll rules 4 0 { frames := 1 }
            [sample, sample])) =
        [[.built rule.name]]) ∧
    Session.Faithful noRules {} ∧
      [.built rule.name] ∈ callsFor ⟨none, rule⟩
          (usesAll ((Parser.deferred (.shared rule)).observeAll noRules 1 0 {}
            [sample, sample])) ∧
      (Session.afterAll {} ([sample, sample].map
          ((Parser.deferred (.shared rule)).run noRules 1 0))).built[(⟨none, rule⟩ : Slot)]? =
        none := by
  have hnested : Session.Faithful rules { frames := 1 } := Session.faithful_empty rules
  have hnone : Session.Faithful noRules {} := Session.faithful_empty noRules
  obtain ⟨-, -, -, -, hbuilt⟩ :=
    Parser.runs_transparent rules 4 (.deferred (.own 0 rule)) 0 hnested [sample, sample]
  obtain ⟨hgives, -⟩ := hbuilt ⟨some (0, 0), rule⟩ Std.HashMap.getElem?_empty
  obtain ⟨-, -, -, -, hrefused⟩ :=
    Parser.runs_transparent noRules 1 (.deferred (.shared rule)) 0 hnone [sample, sample]
  obtain ⟨-, hnever⟩ := hrefused ⟨none, rule⟩ Std.HashMap.getElem?_empty
  obtain ⟨hcalls, hafter⟩ := hnever (.unbound rule.name) rfl
  -- the first run uses the object at once
  have hown : (Deferred.own 0 rule).slot? 0 = some ⟨some (0, 0), rule⟩ := rfl
  have hshared : (Deferred.shared rule).slot? 0 = some ⟨none, rule⟩ := rfl
  have hused := Parser.observeAll_used rules 3 0 hown sample [sample] { frames := 1 }
  have hasked := Parser.observeAll_used noRules 0 0 hshared sample [sample] {}
  refine ⟨⟨hnested, ?_⟩, hnone, ?_, hafter⟩
  · rw [(hgives parser rfl).1, hused]
    rfl
  · rw [hcalls]
    refine List.mem_replicate.mpr ⟨fun hnone => ?_, rfl⟩
    rw [List.isEmpty_iff_length_eq_zero.mpr hnone] at hasked
    cases hasked

end ParserAlgebra
