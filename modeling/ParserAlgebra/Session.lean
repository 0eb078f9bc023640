import ParserAlgebra.Parser.Basic
import Std.Data.HashMap

/-!
Sessions: what outlives the application of a single parser.

A session holds the history of events, the parsers built so far for objects that stand for rules,
and the number of frames opened. A `Run` is a computation in a session. It ends in one of three
ways: with a value, with a fault, or by running out of the rounds it was granted; the session goes
on in each case, with everything that happened until then.
-/
namespace ParserAlgebra

-- ================================================================ the types

/-- One object that stands for a rule: the one at a site of a frame, or the shared one, which
belongs to no frame. -/
structure Slot where
  home : Option (Nat × Nat)
  rule : Rule
deriving DecidableEq, Repr

/-- Frame, site and rule name spread objects well; the variables are left to the comparison. -/
instance : Hashable Slot where
  hash slot := mixHash (hash slot.home) (hash slot.rule.name)

/-- A parser together with the frame it was built in. -/
structure Instance where
  frame : Nat
  parser : Parser

/-- What outlives the application of a single parser. -/
structure Session where
  history : Array Event := #[]
  built : Std.HashMap Slot Instance := {}
  frames : Nat := 0

/-- How a computation ends. -/
inductive Outcome (α : Type) where
  | done (value : α)
  | raised (fault : Fault)
  | exhausted
deriving Repr, DecidableEq

/-- A computation in a session. -/
def Run (α : Type) : Type :=
  Session → Outcome α × Session

namespace Run

-- ================================================================ the monad

@[inline] protected def pure {α : Type} (a : α) : Run α :=
  fun session => (.done a, session)

@[inline] protected def bind {α β : Type} (x : Run α) (f : α → Run β) : Run β :=
  fun session =>
    match x session with
    | (.done a, session) => f a session
    | (.raised fault, session) => (.raised fault, session)
    | (.exhausted, session) => (.exhausted, session)

instance : Monad Run where
  pure := Run.pure
  bind := Run.bind

/-- Doing nothing after a computation changes nothing. -/
theorem bind_pure_id {α : Type} (x : Run α) : Run.bind x Run.pure = x := by
  funext session
  unfold Run.bind Run.pure
  rcases x session with ⟨_ | _ | _, _⟩ <;> rfl

/-- It does not matter how three computations in a row are grouped. -/
theorem bind_bind {α β γ : Type} (x : Run α) (f : α → Run β) (g : β → Run γ) :
    Run.bind (Run.bind x f) g = Run.bind x fun a => Run.bind (f a) g := by
  funext session
  unfold Run.bind
  rcases x session with ⟨_ | _ | _, _⟩ <;> rfl

instance : LawfulMonad Run :=
  LawfulMonad.mk' Run bind_pure_id (fun _ _ => rfl) bind_bind

-- ================================================================ its operations

/-- Gives up with a fault. -/
def raise {α : Type} (fault : Fault) : Run α :=
  fun session => (.raised fault, session)

/-- Ends without an answer. -/
def exhaust {α : Type} : Run α :=
  fun session => (.exhausted, session)

/-- Adds events to the history. -/
def note (events : List Event) : Run Unit :=
  fun session => (.done (), { session with history := session.history ++ events })

/-- Writes a log line. -/
def log (channel : Channel) (line : String) : Run Unit :=
  note [.log channel line]

/-- Carries out what a supplied function answered. -/
def ofAnswer {α : Type} (answer : Answer α) : Run α :=
  fun session =>
    let session := { session with history := session.history ++ answer.events }
    match answer.outcome with
    | .ok a => (.done a, session)
    | .error fault => (.raised fault, session)

/-- Carries out a silent outcome. -/
def ofExcept {α : Type} (outcome : Except Fault α) : Run α :=
  match outcome with
  | .ok a => Run.pure a
  | .error fault => raise fault

/-- Notes events at the end of a computation, however it ends. -/
def ensuring {α : Type} (x : Run α) (events : List Event) : Run α :=
  fun session =>
    let (outcome, session) := x session
    (outcome, { session with history := session.history ++ events })

/-- Opens a frame and gives its number. -/
def openFrame : Run Nat :=
  fun session => (.done session.frames, { session with frames := session.frames + 1 })

/-- The parser built for an object, if there is one. -/
def lookup (slot : Slot) : Run (Option Instance) :=
  fun session => (.done session.built[slot]?, session)

/-- Remembers the parser built for an object. -/
def remember (slot : Slot) (object : Instance) : Run Unit :=
  fun session => (.done (), { session with built := session.built.insert slot object })

end Run

end ParserAlgebra
