import ParserAlgebra.Proofs.History

/-!
Grammars without their tracing wrappers.

# Erasing

`Parser.erase` takes every `traced` wrapper off a parser and leaves what was wrapped: in lists, in
step programs, and in whatever a continuation may select. `Rules.erase` does so to all that rules
and bodies build. A bare `trace` is a parser of its own and stays.

# Building side by side

What is remembered for an object in one session is remembered without its wrappers in the other
(`Session.Erases`). From two such sessions, looking up or building the parser of a deferred node
finds parsers in the same frame, one of which is the other without wrappers, and causes the same
events (`resolve_parallel`).
-/
namespace ParserAlgebra

-- ================================================================ erasing

mutual

/-- A parser without tracing wrappers. -/
def Parser.erase : Parser → Parser
  | .map p f => .map p.erase f
  | .chain p next => .chain p.erase fun value => (next value).erase
  | .errorMap p f => .errorMap p.erase f
  | .lookAhead p => .lookAhead p.erase
  | .many p => .many p.erase
  | .many1 p => .many1 p.erase
  | .orElse p q => .orElse p.erase q.erase
  | .sepBy separator value => .sepBy separator.erase value.erase
  | .sepBy1 separator value => .sepBy1 separator.erase value.erase
  | .sequence ps => .sequence (eraseAll ps)
  | .choice ps => .choice (eraseAll ps)
  | .contextual tag program => .contextual tag program.erase
  | .traced _ p => p.erase
  | leaf => leaf

/-- Parsers without tracing wrappers. -/
def eraseAll : List Parser → List Parser
  | [] => []
  | p :: ps => p.erase :: eraseAll ps

/-- A step program that hands out parsers without tracing wrappers. -/
def Program.erase : Program → Program
  | .done value => .done value
  | .step p next => .step p.erase fun value => (next value).erase
  | .noting events rest => .noting events rest.erase
  | .raise fault => .raise fault

end

/-- Only a parser can be run, so nothing else has wrappers to lose. -/
def Argument.erase : Argument → Argument
  | .parser p => .parser p.erase
  | other => other

/-- What is built, without its wrappers. -/
def Answer.eraseTree (tree : Answer Argument) : Answer Argument :=
  ⟨tree.events, tree.outcome.map Argument.erase⟩

/-- Rules that build parsers without wrappers. -/
def Rules.erase (rules : Rules) : Rules where
  rule rule := (rules.rule rule).eraseTree
  body g scope := (rules.body g scope).eraseTree

/-- A parser without wrappers, in the frame it was built in. -/
def Instance.erase (object : Instance) : Instance :=
  { object with parser := object.parser.erase }

/-- A session in which every object has its parser without wrappers. -/
structure Session.Erases (session erased : Session) : Prop where
  frames : erased.frames = session.frames
  built : ∀ slot : Slot, erased.built[slot]? = session.built[slot]?.map Instance.erase

/-- Nothing is remembered at first, with wrappers or without. -/
theorem Session.erases_empty : Session.Erases {} {} := by
  refine ⟨rfl, fun slot => ?_⟩
  simp

theorem Session.Erases.noting {session erased : Session} (h : session.Erases erased)
    (events : List Event) : (session.noting events).Erases (erased.noting events) :=
  ⟨h.frames, h.built⟩

-- ================================================================ runs side by side

namespace Run

variable {α β : Type} {P : α → α → Prop} {Q : β → β → Prop}

/-- Two computations, the second in a session without wrappers, that end alike, keep their sessions
side by side, and note the same events. -/
def Parallel (P : α → α → Prop) (x y : Run α) : Prop :=
  ∀ session erased, session.Erases erased → ∃ events,
    (x session).1.Alike P (y erased).1 ∧ (x session).2.Erases (y erased).2 ∧
      (x session).2.history.toList = session.history.toList ++ events ∧
      (y erased).2.history.toList = erased.history.toList ++ events

/-- Two computations that note nothing. -/
theorem parallel_of_silent {x y : Run α}
    (h : ∀ session erased, session.Erases erased →
      (x session).1.Alike P (y erased).1 ∧ (x session).2.Erases (y erased).2 ∧
        (x session).2.history = session.history ∧ (y erased).2.history = erased.history) :
    Parallel P x y := by
  intro session erased herases
  obtain ⟨hout, hafter, hhistory, hbare⟩ := h session erased herases
  refine ⟨[], hout, hafter, ?_, ?_⟩
  · rw [hhistory, List.append_nil]
  · rw [hbare, List.append_nil]

theorem parallel_pure {a b : α} (h : P a b) : Parallel P (pure a) (pure b) :=
  parallel_of_silent fun _ _ herases => ⟨.done h, herases, rfl, rfl⟩

theorem parallel_raise (fault : Fault) : Parallel P (raise fault) (raise fault) :=
  parallel_of_silent fun _ _ herases => ⟨.raised fault, herases, rfl, rfl⟩

theorem parallel_exhaust : Parallel P (exhaust : Run α) exhaust :=
  parallel_of_silent fun _ _ herases => ⟨.exhausted, herases, rfl, rfl⟩

/-- What is remembered for an object is found on both sides. -/
theorem parallel_lookup (slot : Slot) :
    Parallel (fun object found => found = object.map Instance.erase) (lookup slot) (lookup slot) :=
  parallel_of_silent fun _ _ herases => ⟨.done (herases.built slot), herases, rfl, rfl⟩

/-- Both sessions open the frame of one number. -/
theorem parallel_openFrame : Parallel Eq openFrame openFrame := by
  refine parallel_of_silent fun session erased herases => ⟨?_, ⟨?_, herases.built⟩, rfl, rfl⟩
  · exact .done herases.frames.symm
  · exact congrArg (· + 1) herases.frames

/-- What is remembered from now on is remembered on both sides. -/
theorem parallel_remember (slot : Slot) (object : Instance) :
    Parallel (fun _ _ => True) (remember slot object) (remember slot object.erase) := by
  refine parallel_of_silent fun session erased herases =>
    ⟨.done trivial, ⟨herases.frames, fun other => ?_⟩, rfl, rfl⟩
  show (erased.built.insert slot object.erase)[other]? =
    (session.built.insert slot object)[other]?.map Instance.erase
  rw [Std.HashMap.getElem?_insert, Std.HashMap.getElem?_insert, herases.built other]
  split <;> rfl

/-- The same events are noted. -/
theorem parallel_note (events : List Event) :
    Parallel (fun _ _ => True) (note events) (note events) :=
  fun session erased herases =>
    ⟨events, .done trivial, herases.noting events, session.toList_noting events,
      erased.toList_noting events⟩

/-- Computations in a row go side by side if the first do and what follows them does. -/
theorem parallel_bind {x y : Run α} {f g : α → Run β} (hx : Parallel P x y)
    (hf : ∀ a b, P a b → Parallel Q (f a) (g b)) : Parallel Q (x >>= f) (y >>= g) := by
  intro session erased herases
  obtain ⟨events, hout, hafter, hhistory, hbare⟩ := hx session erased herases
  show ∃ events, (Run.bind x f session).1.Alike Q (Run.bind y g erased).1 ∧
    (Run.bind x f session).2.Erases (Run.bind y g erased).2 ∧
      (Run.bind x f session).2.history.toList = session.history.toList ++ events ∧
      (Run.bind y g erased).2.history.toList = erased.history.toList ++ events
  unfold Run.bind
  generalize x session = first at *
  generalize y erased = bare at *
  obtain ⟨out, after⟩ := first
  obtain ⟨out', after'⟩ := bare
  dsimp only at hout hafter hhistory hbare
  cases hout with
  | done hab =>
      obtain ⟨more, hout, hlast, hmore, hbaremore⟩ := hf _ _ hab after after' hafter
      refine ⟨events ++ more, hout, hlast, ?_, ?_⟩
      · rw [hmore, hhistory, List.append_assoc]
      · rw [hbaremore, hbare, List.append_assoc]
  | raised fault => exact ⟨events, .raised fault, hafter, hhistory, hbare⟩
  | exhausted => exact ⟨events, .exhausted, hafter, hhistory, hbare⟩

/-- Silent outcomes that end alike. -/
theorem parallel_ofExcept : ∀ {x y : Except Fault α},
    (Outcome.ofExcept x).Alike P (.ofExcept y) → Parallel P (ofExcept x) (ofExcept y)
  | .ok _, .ok _, .done h => parallel_pure h
  | .error fault, .error _, .raised _ => parallel_raise fault

/-- An answer is its events and then its outcome. -/
theorem ofAnswer_eq_note (answer : Answer α) :
    ofAnswer answer = (note answer.events >>= fun _ => ofExcept answer.outcome) := by
  obtain ⟨events, outcome⟩ := answer
  cases outcome <;> rfl

/-- Two answers with the same events, and with values as `P` says. -/
theorem parallel_ofAnswer (events : List Event) {x y : Except Fault α}
    (h : (Outcome.ofExcept x).Alike P (.ofExcept y)) :
    Parallel P (ofAnswer ⟨events, x⟩) (ofAnswer ⟨events, y⟩) := by
  rw [ofAnswer_eq_note, ofAnswer_eq_note]
  exact parallel_bind (parallel_note events) fun _ _ _ => parallel_ofExcept h

end Run

-- ================================================================ building

open Run

/-- A tree is built in the same frame with and without its wrappers. -/
theorem build_parallel (place : Place) (tree : Answer Argument) :
    (build place tree).Parallel (fun object bare => bare = object.erase)
      (build place tree.eraseTree) := by
  obtain ⟨events, outcome⟩ := tree
  have htree : (Outcome.ofExcept outcome).Alike (fun arg bare => bare = arg.erase)
      (.ofExcept (outcome.map Argument.erase)) := by
    cases outcome with
    | ok arg => exact .done rfl
    | error fault => exact .raised fault
  refine parallel_bind (parallel_ofAnswer events htree) fun arg bare harg => ?_
  subst harg
  cases arg with
  | parser p =>
      refine parallel_bind parallel_openFrame fun frame frame' hframe => ?_
      subst hframe
      exact parallel_pure rfl
  | plain value => exact parallel_raise _
  | list items => exact parallel_raise _
  | tuple items => exact parallel_raise _

/-- An object has its parser on both sides, or its rule is called on both. -/
theorem fetch_parallel (rules : Rules) (slot : Slot) :
    (fetch rules slot).Parallel (fun object bare => bare = object.erase)
      (fetch rules.erase slot) := by
  refine parallel_bind (parallel_lookup slot) fun known found hfound => ?_
  subst hfound
  cases known with
  | some object => exact parallel_pure rfl
  | none =>
      refine parallel_bind (parallel_note _) fun _ _ _ => ?_
      refine parallel_bind (build_parallel .rule (rules.rule slot.rule)) fun object bare hbare => ?_
      subst hbare
      refine parallel_bind (parallel_remember slot object) fun _ _ _ => ?_
      exact parallel_pure rfl

/-- So every deferred node has its parser on both sides, with wrappers and without. -/
theorem resolve_parallel (rules : Rules) (frame : Nat) (object : Deferred) :
    (resolve rules frame object).Parallel (fun tree bare => bare = tree.erase)
      (resolve rules.erase frame object) := by
  cases object with
  | own site rule => exact fetch_parallel rules ⟨some (frame, site), rule⟩
  | shared rule => exact fetch_parallel rules ⟨none, rule⟩
  | body place g scope => exact build_parallel place (rules.body g scope)

end ParserAlgebra
