import ParserAlgebra.Proofs.Outcome
import ParserAlgebra.Proofs.Simulation

/-!
What a parser does to a state, with the session left out.

# The plain evaluator

Outcomes are a machine of their own: no events are noted and no objects are remembered, so that
`Parser.denote` at outcomes says how a run ends, and nothing else. `Parser.apply` closes it with the
rules of a grammar, at a fuel that bounds rounds and nesting just as in `Parser.eval`; a deferred
node is built wherever it is met.

# Sessions do not matter

`Parser.eval_eq_apply`: in every session whose cache holds what the rules build, `Parser.eval`
ends exactly as `Parser.apply` says, and leaves such a session. So a fact about how runs end can
be proved of `Parser.apply`, where there is no session to carry along.

The cache is the only part of a session that a run ever looks at. `Run.Ends` therefore speaks of
computations that end in one way in all sessions whose cache satisfies a condition `I`, and keep
the condition. All operations of the machines keep this relation (`simulates_ends`).
-/
namespace ParserAlgebra

-- ================================================================ the plain evaluator

/-- A wrapper may give up where it cannot write its first line; nothing else of it is seen. -/
instance : Machine Outcome where
  exhaust := .exhausted
  ofExcept := .ofExcept
  ofAnswer answer := .ofExcept answer.outcome
  note _ := .done ()
  traced label s x := do
    let _ ← Outcome.ofExcept (s.entryLine label)
    x
  living _ _ _ x := x

namespace Outcome

variable {α : Type}

@[simp] theorem machine_exhaust : (Machine.exhaust : Outcome α) = .exhausted := rfl

@[simp] theorem machine_ofExcept (outcome : Except Fault α) :
    (Machine.ofExcept outcome : Outcome α) = ofExcept outcome := rfl

@[simp] theorem machine_ofAnswer (answer : Answer α) :
    (Machine.ofAnswer answer : Outcome α) = ofExcept answer.outcome := rfl

@[simp] theorem machine_handed (p : Parser) (s : State) (x : Outcome State) :
    Machine.handed p s x = x := rfl

@[simp] theorem machine_resumed (value : Value) :
    (Machine.resumed value : Outcome Unit) = .done () := rfl

end Outcome

/-- How a deferred node ends when such nodes may still nest `fuel` deep. -/
def Rules.unfold (rules : Rules) : Nat → Deferred → State → Outcome State
  | 0, _, _ => .exhausted
  | fuel + 1, object, s => do
    let p ← Outcome.ofExcept (rules.tree object)
    p.denote (rules.unfold fuel) fuel s

/-- How the run of a parser ends with the rules of a grammar. -/
def Parser.apply (rules : Rules) (fuel : Nat) (p : Parser) (s : State) : Outcome State :=
  p.denote (rules.unfold fuel) fuel s

-- ================================================================ computations that end in one way

/-- The objects a session remembers. -/
abbrev Cache := Std.HashMap Slot Instance

namespace Run

variable {α β : Type} {I : Cache → Prop}

/-- A computation that ends in `out` in every session whose cache satisfies `I`, and keeps `I`. -/
def Ends (I : Cache → Prop) (x : Run α) (out : Outcome α) : Prop :=
  ∀ session, I session.built → (x session).1 = out ∧ I (x session).2.built

theorem ends_pure (a : α) : Ends I (pure a) (.done a) :=
  fun _ h => ⟨rfl, h⟩

theorem ends_raise (fault : Fault) : Ends I (raise fault : Run α) (.raised fault) :=
  fun _ h => ⟨rfl, h⟩

theorem ends_exhaust : Ends I (exhaust : Run α) .exhausted :=
  fun _ h => ⟨rfl, h⟩

/-- The events of an answer are no part of its end. -/
theorem ends_ofAnswer (answer : Answer α) :
    Ends I (ofAnswer answer) (.ofExcept answer.outcome) := by
  intro session h
  unfold ofAnswer
  cases answer.outcome with
  | ok a => exact ⟨rfl, h⟩
  | error fault => exact ⟨rfl, h⟩

/-- A silent outcome ends as it is. -/
theorem ends_ofExcept (outcome : Except Fault α) :
    Ends I (ofExcept outcome) (.ofExcept outcome) := by
  cases outcome with
  | ok a => exact ends_pure a
  | error fault => exact ends_raise fault

/-- Computations in a row end as their ends in a row. -/
theorem ends_bind {x : Run α} {f : α → Run β} {out : Outcome α} {g : α → Outcome β}
    (hx : Ends I x out) (hf : ∀ a, Ends I (f a) (g a)) : Ends I (x >>= f) (out >>= g) := by
  intro session h
  obtain ⟨hout, hkeep⟩ := hx session h
  show (Run.bind x f session).1 = _ ∧ I (Run.bind x f session).2.built
  unfold Run.bind
  rcases hrun : x session with ⟨_ | _ | _, after⟩ <;> rw [hrun] at hout hkeep <;> subst hout
  · exact hf _ after hkeep
  · exact ⟨rfl, hkeep⟩
  · exact ⟨rfl, hkeep⟩

/-- A computation that returns hands on its value and its session. -/
theorem bind_of_done {x : Run α} {f : α → Run β} {a : α} {session after : Session}
    (h : x session = (.done a, after)) : (x >>= f) session = f a after := by
  show Run.bind x f session = _
  rw [Run.bind, h]

/-- Behind a fault nothing is done. -/
theorem bind_of_raised {x : Run α} {f : α → Run β} {fault : Fault} {session after : Session}
    (h : x session = (.raised fault, after)) : (x >>= f) session = (.raised fault, after) := by
  show Run.bind x f session = _
  rw [Run.bind, h]

/-- Behind a run without an end nothing is done. -/
theorem bind_of_exhausted {x : Run α} {f : α → Run β} {session after : Session}
    (h : x session = (.exhausted, after)) : (x >>= f) session = (.exhausted, after) := by
  show Run.bind x f session = _
  rw [Run.bind, h]

/-- Two computations in a row end with a value only through a value of the first. -/
theorem bind_eq_done {x : Run α} {f : α → Run β} {b : β} {session after : Session}
    (h : (x >>= f) session = (.done b, after)) :
    ∃ a middle, x session = (.done a, middle) ∧ f a middle = (.done b, after) := by
  rcases hrun : x session with ⟨a | fault | _, middle⟩
  · rw [bind_of_done hrun] at h
    exact ⟨a, middle, rfl, h⟩
  · rw [bind_of_raised hrun] at h
    cases h
  · rw [bind_of_exhausted hrun] at h
    cases h

/-- What follows a computation matters only where the computation returns. -/
theorem bind_congr_at {x : Run α} {f g : α → Run β} {session : Session}
    (h : ∀ a middle, x session = (.done a, middle) → f a middle = g a middle) :
    (x >>= f) session = (x >>= g) session := by
  rcases hrun : x session with ⟨a | fault | _, middle⟩
  · rw [bind_of_done hrun, bind_of_done hrun]
    exact h a middle hrun
  · rw [bind_of_raised hrun, bind_of_raised hrun]
  · rw [bind_of_exhausted hrun, bind_of_exhausted hrun]

/-- A computation that ends with a value does so in one way. -/
theorem done_unique {x : Run α} {a b : α} {session after after' : Session}
    (h : x session = (.done a, after)) (h' : x session = (.done b, after')) :
    a = b ∧ after = after' := by
  rw [h] at h'
  obtain ⟨hvalue, hafter⟩ := Prod.mk.inj h'
  exact ⟨Outcome.done.inj hvalue, hafter⟩

/-- What is noted at the end is no part of it. -/
theorem ends_ensuring {x : Run α} {out : Outcome α} (hx : Ends I x out) (events : List Event) :
    Ends I (ensuring x events) out :=
  hx

/-- Noting events first changes nothing. -/
theorem ends_note_bind {y : Run β} {out : Outcome β} (events : List Event) (hy : Ends I y out) :
    Ends I (note events >>= fun _ => y) out :=
  fun session h => hy { session with history := session.history ++ events } h

/-- What is done after a computation and hands its value on changes nothing. -/
theorem ends_bind_same {x : Run α} {f : α → Run α} {out : Outcome α}
    (hx : Ends I x out) (hf : ∀ a, Ends I (f a) (.done a)) : Ends I (x >>= f) out := by
  have h := ends_bind hx hf
  cases out <;> exact h

end Run

-- ================================================================ runs and their ends

/-- Computations that end in one way, and how they end. -/
theorem simulates_ends (I : Cache → Prop) :
    Machine.Simulates fun α (x : Run α) (out : Outcome α) => x.Ends I out where
  pure := Run.ends_pure
  bind := Run.ends_bind
  exhaust := Run.ends_exhaust
  ofExcept := Run.ends_ofExcept
  ofAnswer := Run.ends_ofAnswer
  note events := Run.ends_note_bind events (Run.ends_pure ())
  traced label s _ x out h := by
    refine Run.ends_bind (Run.ends_ofExcept _) fun line => ?_
    refine Run.ends_note_bind _ (Run.ends_bind_same h fun t => ?_)
    by_cases ht : t.failed = true
    · rw [if_pos ht]
      exact Run.ends_note_bind _ (Run.ends_pure t)
    · rw [if_neg ht]
      exact Run.ends_pure t
  handed _ _ _ _ h := h
  resumed _ := Run.ends_pure ()

/-- The run of a parser ends as the plain evaluator says, once its deferred nodes do. -/
theorem Parser.denote_ends {I : Cache → Prop} {defer : Deferred → State → Run State}
    {tree : Deferred → State → Outcome State} {rounds : Nat}
    (hdefer : ∀ object s, (defer object s).Ends I (tree object s)) (p : Parser) (s : State) :
    (p.denote defer rounds s).Ends I (p.denote tree rounds s) := by
  refine p.denote_simulated (simulates_ends I) (every_of_forall (fun q => ?_) p) s
  cases q with
  | deferred object => exact fun s _ => hdefer object s
  | contextual tag program => exact fun s _ h => Run.ends_ensuring h _
  | _ => trivial

-- ================================================================ faithful caches

/-- A cache that holds what the rules build. -/
def Cache.Faithful (rules : Rules) (cache : Cache) : Prop :=
  ∀ (slot : Slot) (object : Instance), cache[slot]? = some object →
    rules.tree (.shared slot.rule) = .ok object.parser

/-- A session whose cache holds what the rules build. -/
def Session.Faithful (rules : Rules) (session : Session) : Prop :=
  Cache.Faithful rules session.built

/-- Nothing is remembered at first. -/
theorem Session.faithful_empty (rules : Rules) : Session.Faithful rules {} := by
  intro slot object h
  simp at h

/-- What the rule gives may be remembered. -/
theorem Cache.Faithful.insert {rules : Rules} {cache : Cache} (h : cache.Faithful rules)
    {slot : Slot} {object : Instance}
    (hobject : rules.tree (.shared slot.rule) = .ok object.parser) :
    Cache.Faithful rules (cache.insert slot object) := by
  intro other found hfound
  rw [Std.HashMap.getElem?_insert] at hfound
  split at hfound
  · next heq =>
      rw [beq_iff_eq] at heq
      rw [← heq, ← Option.some.inj hfound]
      exact hobject
  · exact h other found hfound

/-- A search for a parser that gives `found`, in whatever frame, in all sessions whose cache
satisfies `I`, and keeps `I`. -/
def Run.Finds (I : Cache → Prop) (x : Run Instance) (found : Except Fault Parser) : Prop :=
  ∀ session, I session.built → ∃ frame after, I after.built ∧
    x session = (.ofExcept (found.map (Instance.mk frame)), after)

/-- A search that gives a parser, and the end of that parser in any frame. -/
theorem Run.Finds.ends_bind {I : Cache → Prop} {x : Run Instance} {found : Except Fault Parser}
    {f : Instance → Run State} {g : Parser → Outcome State} (hx : x.Finds I found)
    (hf : ∀ frame p, (f ⟨frame, p⟩).Ends I (g p)) :
    (x >>= f).Ends I (Outcome.ofExcept found >>= g) := by
  intro session h
  obtain ⟨frame, after, hkeep, hrun⟩ := hx session h
  cases found with
  | ok p =>
      rw [Run.bind_of_done hrun]
      exact hf frame p after hkeep
  | error fault =>
      rw [Run.bind_of_raised hrun]
      exact ⟨rfl, hkeep⟩

/-- To build a tree gives its parser, and remembers nothing. -/
theorem build_finds (I : Cache → Prop) (place : Place) (tree : Answer Argument) :
    (build place tree).Finds I (place.parserOf tree.outcome) := by
  intro session h
  obtain ⟨events, outcome⟩ := tree
  let noted := { session with history := session.history ++ events }
  rcases outcome with fault | arg
  · exact ⟨0, noted, h, rfl⟩
  · cases arg with
    | parser p => exact ⟨noted.frames, { noted with frames := noted.frames + 1 }, h, rfl⟩
    | plain | list | tuple => exact ⟨0, noted, h, rfl⟩

/-- Building changes nothing that is remembered. -/
theorem build_built (place : Place) (tree : Answer Argument) (session : Session) :
    (build place tree session).2.built = session.built := by
  obtain ⟨frame, after, hkeep, hrun⟩ :=
    build_finds (fun cache => cache = session.built) place tree session rfl
  rw [hrun]
  exact hkeep

section

variable {rules : Rules} {slot : Slot} {session : Session}

/-- A parser that is remembered is given as it is. -/
theorem fetch_of_known {object : Instance} (h : session.built[slot]? = some object) :
    fetch rules slot session = (.done object, session) := by
  have hlookup : Run.lookup slot session = (.done session.built[slot]?, session) := rfl
  rw [fetch, Run.bind_of_done hlookup, h]
  rfl

/-- Where nothing is remembered, the rule is called. -/
theorem fetch_of_unknown (h : session.built[slot]? = none) :
    fetch rules slot session =
      (build .rule (rules.rule slot.rule) >>= fun object =>
        Run.remember slot object >>= fun _ => pure object)
      { session with history := session.history ++ [Event.built slot.rule.name] } := by
  have hlookup : Run.lookup slot session = (.done session.built[slot]?, session) := rfl
  rw [fetch, Run.bind_of_done hlookup, h]
  rfl

/-- The parser that the rule gives is remembered. -/
theorem fetch_of_ok (h : session.built[slot]? = none) {p : Parser}
    (htree : rules.tree (.shared slot.rule) = .ok p) :
    ∃ frame after, after.built = session.built.insert slot ⟨frame, p⟩ ∧
      fetch rules slot session = (.done ⟨frame, p⟩, after) := by
  obtain ⟨frame, after, hkeep, hrun⟩ :=
    build_finds (fun cache => cache = session.built) .rule (rules.rule slot.rule)
      { session with history := session.history ++ [Event.built slot.rule.name] } rfl
  rw [show Place.rule.parserOf (rules.rule slot.rule).outcome = .ok p from htree] at hrun
  rw [fetch_of_unknown h, Run.bind_of_done hrun, ← hkeep]
  exact ⟨frame, { after with built := after.built.insert slot ⟨frame, p⟩ }, rfl, rfl⟩

/-- A rule that gives no parser leaves nothing to remember. -/
theorem fetch_of_error (h : session.built[slot]? = none) {fault : Fault}
    (htree : rules.tree (.shared slot.rule) = .error fault) :
    ∃ after, after.built = session.built ∧
      fetch rules slot session = (.raised fault, after) := by
  obtain ⟨frame, after, hkeep, hrun⟩ :=
    build_finds (fun cache => cache = session.built) .rule (rules.rule slot.rule)
      { session with history := session.history ++ [Event.built slot.rule.name] } rfl
  rw [show Place.rule.parserOf (rules.rule slot.rule).outcome = .error fault from htree] at hrun
  rw [fetch_of_unknown h, Run.bind_of_raised hrun]
  exact ⟨after, hkeep, rfl⟩

end

/-- The object that stands for a rule gives the parser of the rule, remembered or not. -/
theorem fetch_finds (rules : Rules) (slot : Slot) :
    (fetch rules slot).Finds (Cache.Faithful rules) (rules.tree (.shared slot.rule)) := by
  intro session h
  cases hslot : session.built[slot]? with
  | some object =>
      rw [h slot object hslot]
      exact ⟨object.frame, session, h, fetch_of_known hslot⟩
  | none =>
      cases htree : rules.tree (.shared slot.rule) with
      | ok p =>
          obtain ⟨frame, after, hbuilt, hrun⟩ := fetch_of_ok hslot htree
          refine ⟨frame, after, ?_, hrun⟩
          rw [hbuilt]
          exact h.insert htree
      | error fault =>
          obtain ⟨after, hbuilt, hrun⟩ := fetch_of_error hslot htree
          refine ⟨0, after, ?_, hrun⟩
          rw [hbuilt]
          exact h

/-- Every deferred node is found as the rules give it. -/
theorem resolve_finds (rules : Rules) (frame : Nat) (object : Deferred) :
    (resolve rules frame object).Finds (Cache.Faithful rules) (rules.tree object) := by
  cases object with
  | own site rule => exact fetch_finds rules ⟨some (frame, site), rule⟩
  | shared rule => exact fetch_finds rules ⟨none, rule⟩
  | body place g scope => exact build_finds _ place (rules.body g scope)

-- ================================================================ sessions do not matter

/-- A run ends as the plain evaluator says, once the parsers of deferred nodes are those that the
rules give. -/
theorem Parser.execute_ends {I : Cache → Prop} {rules : Rules}
    {find : Nat → Deferred → State → Run Instance}
    (hfind : ∀ frame object s, (find frame object s).Finds I (rules.tree object)) (fuel : Nat)
    (p : Parser) (frame : Nat) (s : State) :
    (p.execute find fuel frame s).Ends I (p.apply rules fuel s) := by
  have hdefer : ∀ frame object s,
      (deferral find fuel frame object s).Ends I (rules.unfold fuel object s) := by
    induction fuel with
    | zero => exact fun _ _ _ => Run.ends_exhaust
    | succ fuel ih =>
        intro frame object s
        refine (hfind frame object s).ends_bind fun frame q => ?_
        exact q.denote_ends (ih frame) s
  exact p.denote_ends (hdefer frame) s

/-- What the deferred nodes of a frame do at some fuel, with the rules of a grammar. -/
def Rules.deferral (rules : Rules) : (fuel frame : Nat) → Deferred → State → Run State :=
  ParserAlgebra.deferral fun frame object _ => resolve rules frame object

/-- A run is the evaluator over what deferred nodes do. -/
theorem Parser.eval_eq_denote (rules : Rules) (fuel : Nat) (p : Parser) (frame : Nat) (s : State) :
    p.eval rules fuel frame s = p.denote (rules.deferral fuel frame) fuel s :=
  rfl

/-- A run in a faithful session ends as the plain evaluator says and leaves the session
faithful. -/
theorem Parser.eval_ends (rules : Rules) (fuel : Nat) (p : Parser) (frame : Nat) (s : State) :
    (p.eval rules fuel frame s).Ends (Cache.Faithful rules) (p.apply rules fuel s) :=
  p.execute_ends (fun frame object _ => resolve_finds rules frame object) fuel frame s

/-- The result of a run in a faithful session. -/
theorem Parser.eval_eq_apply {rules : Rules} {session : Session} (h : session.Faithful rules)
    (fuel : Nat) (p : Parser) (frame : Nat) (s : State) :
    (p.eval rules fuel frame s session).1 = p.apply rules fuel s :=
  (p.eval_ends rules fuel frame s session h).1

/-- Runs keep sessions faithful. -/
theorem Parser.eval_faithful {rules : Rules} {session : Session} (h : session.Faithful rules)
    (fuel : Nat) (p : Parser) (frame : Nat) (s : State) :
    (p.eval rules fuel frame s session).2.Faithful rules :=
  (p.eval_ends rules fuel frame s session h).2

end ParserAlgebra
