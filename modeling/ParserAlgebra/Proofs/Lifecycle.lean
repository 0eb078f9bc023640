import Mathlib.Data.List.Forall2
import ParserAlgebra.Proofs.Chronicle

/-!
The lifecycle of generators.

A life is orderly if it begins in a live state and goes on as its program says, with the parsers
that are handed out run as always. All lives that are recounted of a run are orderly
(`Parser.recount_tells`), those behind deferred nodes too. A contextual parser has no other runs
than the lives of its program (`eval_contextual_iff_lives`), also when it is run again and again.
-/
namespace ParserAlgebra

open Logged

-- ================================================================ orderly lives

/-- The life goes by the rules: it begins in a live state, the generator is resumed with nothing
first, and goes on as its program says, with the parsers that it hands out run as always. -/
structure Life.Orderly (rules : Rules) (life : Life) : Prop where
  live : life.start.failed = false
  acts : ∃ fuel frame session own after, life.acts = .resumed .absent :: own ∧
    Lives (fun p => p.recount rules fuel frame) life.program life.start session own life.out after

namespace Life.Orderly

variable {rules : Rules} {life : Life}

theorem sent_eq (h : life.Orderly rules) :
    life.acts.filterMap Act.sent? = .absent :: life.acts.filterMap Act.result? := by
  obtain ⟨-, fuel, frame, session, own, after, hacts, hlife⟩ := h
  rw [hacts]
  simp only [List.filterMap_cons, Act.sent?, Act.result?, hlife.sent_eq_results]

theorem nothing_after_stop (h : life.Orderly rules) :
    life.acts.Pairwise fun act _ => ¬act.Stops := by
  obtain ⟨-, fuel, frame, session, own, after, hacts, hlife⟩ := h
  rw [hacts]
  exact .cons (fun _ _ => id) hlife.nothing_after_stop

end Life.Orderly

/-- What is recounted of a parser tells of its run, and all lives in it are orderly. -/
theorem Parser.recount_tells (rules : Rules) (fuel : Nat) (p : Parser) (frame : Nat) (s : State) :
    (p.recount rules fuel frame s).Tells (Accounts (Life.Orderly rules))
      (p.eval rules fuel frame s) := by
  refine p.execute_simulated (simulates_accounts _)
    (fun frame object _ _ => tells_resolve _ rules frame object) ?_ fuel frame s
  intro fuel frame tag program s hs h
  refine tells_living h fun session => ?_
  -- the log of the program, in this session, is the life of one generator
  exact ⟨hs, fuel, frame, session, _, _, rfl, Program.denote_iff_lives.mp rfl⟩

section

variable {rules : Rules} {fuel frame : Nat} {tag : Option String} {program : Program}
  {s : State} {session : Session}

/-- No generator is started from a failed state. -/
theorem Parser.recount_contextual_of_failed (hs : s.failed = true) :
    (contextual tag program).recount rules fuel frame s session = ⟨.done s, session, []⟩ := by
  rw [recount, execute, denote_of_failed _ hs]
  rfl

/-- From a live state one generator is started, and what it lives through is all that happens. -/
theorem Parser.recount_contextual_of_lives (hs : s.failed = false) {own : List Act}
    {after : Session} {out : Outcome State}
    (h : Lives (fun p => p.recount rules fuel frame) program s session own out after) :
    (contextual tag program).recount rules fuel frame s session =
      ⟨out, after.noting (finishing tag), [.life tag program s (.resumed .absent :: own) out]⟩ := by
  rw [recount, execute, denote, if_neg (State.not_failed hs)]
  exact living_resume tag program s (Program.denote_iff_lives.mpr h)

theorem Program.exists_lives (rules : Rules) (fuel frame : Nat) (program : Program) (s : State)
    (session : Session) :
    ∃ own out after,
      Lives (fun p => p.recount rules fuel frame) program s session own out after :=
  ⟨_, _, _, Program.denote_iff_lives.mp rfl⟩

/-- From a live state, a contextual parser ends as the life of a generator of its program does. -/
theorem Parser.eval_contextual_iff_lives (hs : s.failed = false) {out : Outcome State}
    {last : Session} :
    (contextual tag program).eval rules fuel frame s session = (out, last) ↔
      ∃ own after, last = after.noting (finishing tag) ∧
        Lives (fun p => p.recount rules fuel frame) program s session own out after := by
  have hrun := ((contextual tag program).recount_tells rules fuel frame s session).run
  constructor
  · intro h
    obtain ⟨own, out', after, hlife⟩ := program.exists_lives rules fuel frame s session
    rw [recount_contextual_of_lives hs hlife, h] at hrun
    obtain ⟨rfl, rfl⟩ := Prod.mk.inj hrun
    exact ⟨own, after, rfl, hlife⟩
  · intro ⟨own, after, hlast, hlife⟩
    rw [hrun, recount_contextual_of_lives hs hlife, hlast]

end

-- ================================================================ runs in a row

/-- Runs from one state after another in one session, whatever becomes of them. -/
def Run.each (x : State → Run State) : List State → Session → List (Outcome State) × Session
  | [], session => ([], session)
  | s :: rest, session =>
    let (out, middle) := x s session
    let (outs, after) := each x rest middle
    (out :: outs, after)

/-- `Run.each` with the logs of all runs. -/
def Logged.each {ε : Type} (w : State → Logged ε State) :
    List State → Session → List (Transcript ε State) × Session
  | [], session => ([], session)
  | s :: rest, session =>
    let told := w s session
    let (others, after) := each w rest told.session
    (told :: others, after)

/-- Transcripts of runs in a row tell of all of them. -/
theorem Logged.Tells.each {ok : Life → Prop} {w : State → Logged Act State}
    {x : State → Run State} (h : ∀ s, (w s).Tells (Accounts ok) (x s)) (starts : List State) :
    ∀ session,
      Run.each x starts session =
          ((Logged.each w starts session).1.map Transcript.outcome,
            (Logged.each w starts session).2) ∧
        (Logged.each w starts session).2.history.toList = session.history.toList ++
          ((Logged.each w starts session).1.map fun told =>
            eventsAmong finishing told.log).flatten := by
  induction starts with
  | nil => exact fun session => ⟨rfl, (List.append_nil _).symm⟩
  | cons s starts ih =>
      intro session
      obtain ⟨hrun, hhistory, -⟩ := h s session
      unfold Adds at hhistory
      obtain ⟨hruns, hmore⟩ := ih (w s session).session
      constructor
      · rw [Run.each, hrun]
        dsimp only
        rw [hruns]
        rfl
      · show (Logged.each w starts (w s session).session).2.history.toList = _
        rw [hmore, hhistory, List.append_assoc]
        rfl

/-- One orderly life for each live state, and none for a failed one. -/
theorem each_recount_contextual (rules : Rules) (fuel frame : Nat) (tag : Option String)
    (program : Program) (starts : List State) :
    ∀ session, List.Forall₂ (fun s (one : Transcript Act State) =>
      (s.failed = true → one.outcome = .done s ∧ one.log = []) ∧
      (s.failed = false → ∃ own,
        one.log = [.life tag program s (.resumed .absent :: own) one.outcome] ∧
          Life.Orderly rules ⟨tag, program, s, .resumed .absent :: own, one.outcome⟩)) starts
      (Logged.each ((Parser.contextual tag program).recount rules fuel frame) starts
        session).1 := by
  induction starts with
  | nil => exact fun _ => .nil
  | cons s starts ih =>
      intro session
      refine .cons ⟨fun hs => ?_, fun hs => ?_⟩ (ih _)
      · rw [Parser.recount_contextual_of_failed hs]
        exact ⟨rfl, rfl⟩
      · obtain ⟨own, out, after, hlife⟩ := program.exists_lives rules fuel frame s session
        rw [Parser.recount_contextual_of_lives hs hlife]
        exact ⟨own, rfl, hs, fuel, frame, session, own, after, rfl, hlife⟩

-- ================================================================ the lifecycle

namespace Pairs

/-- The letters `a` and `b`. -/
def pair : Program :=
  .step (.symbol 'a') fun _ => .step (.symbol 'b') fun _ => .done (.text "ab")

/-- As many pairs as there are, and an `x`. -/
def pairs : Parser :=
  .contextual (some "pairs") <|
    .step (.many (.contextual (some "pair") pair)) fun found =>
      .step (.symbol 'x') fun _ => .done found

/-- The text `abac`. -/
def sample : State :=
  .initial (.text #['a', 'b', 'a', 'c'])

end Pairs

end ParserAlgebra
