import ParserAlgebra.Argument
import ParserAlgebra.Proofs.Sequencing

/-!
What may be counted, and what a counted repetition returns.

# Arguments

A repetition asks for its argument a number of times, and hands the copies to a sequence. A sequence
takes parsers only and refuses the first argument that is none, but a single list or tuple stands
for its items there. To ask for an argument once is to hand over a single argument. So a list of
parsers, which is no parser, is refused by every count but one, and there it is run as the sequence
of its items (`Argument.Repeats`).

# Results

A sequence succeeds if and only if its parsers pass one after another, and returns one result for
each (`Parser.eval_sequence_iff`). For the copies of a parser this is as many results as were asked
for; for the items of a list it is as many as there are items.
-/
namespace ParserAlgebra

-- ================================================================ collecting arguments

namespace Argument

/-- Parsers are collected as they are. -/
theorem mapM_check_parsers (collector : Collector) (ps : List Parser) :
    (ps.map parser).mapM (collect.check collector) = .ok ps := by
  induction ps with
  | nil => rfl
  | cons p ps ih =>
      rw [List.map_cons, List.mapM_cons, ih]
      rfl

/-- The first argument that is no parser is named by its kind. -/
theorem mapM_check_of_refused (collector : Collector) (before : List Parser) {x : Argument}
    (hx : ∀ p, x ≠ parser p) (rest : List Argument) :
    (before.map parser ++ x :: rest).mapM (collect.check collector) =
      .error (.argumentNotParser collector x.kindName) := by
  induction before with
  | nil =>
      rw [List.map_nil, List.nil_append, List.mapM_cons]
      cases x with
      | parser p => exact absurd rfl (hx p)
      | plain value => rfl
      | list items => rfl
      | tuple items => rfl
  | cons p before ih =>
      rw [List.map_cons, List.cons_append, List.mapM_cons, ih]
      rfl

/-- Arguments are parsers throughout, or there is a first one among them that is none. -/
theorem parsers_or_first (args : List Argument) :
    (∃ ps : List Parser, args = ps.map parser) ∨
      ∃ (before : List Parser) (x : Argument) (rest : List Argument),
        args = before.map parser ++ x :: rest ∧ ∀ p, x ≠ parser p := by
  induction args with
  | nil => exact .inl ⟨[], rfl⟩
  | cons arg args ih =>
      by_cases harg : ∃ p, arg = parser p
      · obtain ⟨p, rfl⟩ := harg
        rcases ih with ⟨ps, rfl⟩ | ⟨before, x, rest, rfl, hx⟩
        · exact .inl ⟨p :: ps, rfl⟩
        · exact .inr ⟨p :: before, x, rest, rfl, hx⟩
      · exact .inr ⟨[], arg, args, rfl, fun p hp => harg ⟨p, hp⟩⟩

/-- The arguments that a repetition hands over: the copies, or the items in place of one copy. -/
def copies (n : Nat) (arg : Argument) : List Argument :=
  if n = 1 then arg.items?.getD [arg] else List.replicate n arg

/-- A sequence of equal arguments is a check of all of them. -/
theorem sequence_replicate (n : Nat) (arg : Argument) :
    sequence (List.replicate n arg) =
      ((copies n arg).mapM (collect.check .sequence)).map .sequence := by
  unfold sequence collect copies
  by_cases hn : n = 1
  · subst hn
    rfl
  · rw [if_neg hn]
    split
    · next single heq =>
        have hlength := congrArg List.length heq
        rw [List.length_replicate] at hlength
        exact absurd hlength hn
    · rfl

/-- A number of copies is checked like the sequence of them. -/
theorem count_of_pos {n : Int} (hn : 1 ≤ n) (arg : Argument) :
    count (.int n) arg =
      ((copies n.toNat arg).mapM (collect.check .sequence)).map .sequence := by
  rw [← sequence_replicate]
  obtain ⟨k, hk⟩ : ∃ k, n.toNat = k + 1 := ⟨n.toNat - 1, by omega⟩
  show (times (.int n) >>= _) = _
  rw [times, hk]
  rfl

/-- One copy of a list is the list, which is where the two readings differ. -/
theorem copies_one {arg : Argument} {items : List Argument} (h : arg.items? = some items) :
    copies 1 arg = items := by
  rw [copies, if_pos rfl, h]
  rfl

/-- In all other cases it is the argument, as often as it is asked for. -/
theorem copies_eq_replicate {n : Nat} {arg : Argument} (h : n = 1 → arg.items? = none) :
    copies n arg = List.replicate n arg := by
  unfold copies
  by_cases hn : n = 1
  · rw [if_pos hn, h hn, hn]
    rfl
  · rw [if_neg hn]

/-- The copies are the argument, or items of the argument that is asked for once. -/
theorem mem_copies {n : Nat} {arg x : Argument} (h : x ∈ copies n arg) :
    x = arg ∨ n = 1 ∧ ∃ items, arg.items? = some items ∧ x ∈ items := by
  by_cases hitems : n = 1 → arg.items? = none
  · rw [copies_eq_replicate hitems] at h
    exact .inl (List.eq_of_mem_replicate h)
  · obtain ⟨rfl, hsome⟩ := Classical.not_imp.mp hitems
    obtain ⟨items, hitems⟩ := Option.ne_none_iff_exists'.mp hsome
    rw [copies_one hitems] at h
    exact .inr ⟨rfl, items, hitems, h⟩

/-- The parsers that are run when an argument is asked for `n` times: the copies of a parser, or the
items of a list or tuple that is asked for once. -/
inductive Repeats (n : Int) : Argument → List Parser → Prop
  | parser (p : Parser) : Repeats n (.parser p) (List.replicate n.toNat p)
  | items {arg : Argument} {ps : List Parser} (hn : n = 1)
      (hitems : arg.items? = some (ps.map .parser)) : Repeats n arg ps

/-- A parser is there as often as it is asked for. -/
theorem Repeats.length_of_parser {n : Int} (hn : 1 ≤ n) {p : Parser} {ps : List Parser}
    (h : Repeats n (.parser p) ps) : (ps.length : Int) = n := by
  cases h with
  | parser => rw [List.length_replicate, Int.toNat_of_nonneg (by omega)]
  | items _ hitems => cases hitems

/-- Copies that are parsers are copies of one parser. -/
theorem eq_replicate_of_map {n : Nat} (hn : n ≠ 0) {arg : Argument} {ps : List Parser}
    (h : List.replicate n arg = ps.map parser) :
    ∃ p, arg = parser p ∧ ps = List.replicate n p := by
  have hsame : ∀ q ∈ ps, parser q = arg := by
    intro q hq
    have hmem : parser q ∈ List.replicate n arg := by
      rw [h]
      exact List.mem_map_of_mem hq
    exact List.eq_of_mem_replicate hmem
  have hlength : ps.length = n := by
    rw [← List.length_map (f := parser), ← h, List.length_replicate]
  cases ps with
  | nil => exact absurd hlength.symm hn
  | cons p ps =>
      have hp := hsame p List.mem_cons_self
      refine ⟨p, hp.symm, List.eq_replicate_iff.mpr ⟨hlength, fun q hq => ?_⟩⟩
      exact Argument.parser.inj ((hsame q hq).trans hp.symm)

/-- Copies are parsers exactly if they repeat the argument. -/
theorem copies_eq_iff {n : Int} (hn : 1 ≤ n) {arg : Argument} {ps : List Parser} :
    copies n.toNat arg = ps.map parser ↔ Repeats n arg ps := by
  constructor
  · intro h
    by_cases hitems : n.toNat = 1 → arg.items? = none
    · rw [copies_eq_replicate hitems] at h
      obtain ⟨p, rfl, rfl⟩ := eq_replicate_of_map (by omega) h
      exact .parser p
    · -- a list or tuple that is asked for once gives way to its items
      obtain ⟨hone, hsome⟩ := Classical.not_imp.mp hitems
      obtain ⟨items, hitems⟩ := Option.ne_none_iff_exists'.mp hsome
      rw [hone, copies_one hitems] at h
      subst h
      exact .items (by omega) hitems
  · intro h
    cases h with
    | parser p => rw [copies_eq_replicate fun _ => rfl, List.map_replicate]
    | items hone hitems =>
        subst hone
        exact copies_one hitems

/-- Nothing is run for an argument that is no parser, nor a list or tuple of parsers that is asked
for once. -/
theorem not_repeats_iff {n : Int} {arg : Argument} :
    (∀ ps, ¬Repeats n arg ps) ↔
      (∀ p, arg ≠ .parser p) ∧
        (n = 1 → ∀ ps : List Parser, arg.items? ≠ some (ps.map .parser)) := by
  constructor
  · intro h
    refine ⟨fun p hp => ?_, fun hone ps hps => h ps (.items hone hps)⟩
    subst hp
    exact h _ (.parser p)
  · intro ⟨hparser, hitems⟩ ps h
    cases h with
    | parser p => exact hparser p rfl
    | items hone hps => exact hitems hone ps hps

/-- A repetition is the sequence of the parsers that are run for its argument. -/
theorem count_of_repeats {n : Int} (hn : 1 ≤ n) {arg : Argument} {ps : List Parser}
    (h : Repeats n arg ps) : count (.int n) arg = .ok (.sequence ps) := by
  rw [count_of_pos hn, (copies_eq_iff hn).mpr h, mapM_check_parsers]
  rfl

/-- An argument that no parsers are run for is refused, with the kind of an argument in the message
that is no parser. -/
theorem count_of_not_repeats {n : Int} (hn : 1 ≤ n) {arg : Argument}
    (h : ∀ ps, ¬Repeats n arg ps) :
    ∃ x ∈ copies n.toNat arg, (∀ p, x ≠ parser p) ∧
      count (.int n) arg = .error (.argumentNotParser .sequence x.kindName) := by
  rcases parsers_or_first (copies n.toNat arg) with ⟨ps, hps⟩ | ⟨before, x, rest, hcopies, hx⟩
  · exact absurd ((copies_eq_iff hn).mp hps) (h ps)
  · refine ⟨x, ?_, hx, ?_⟩
    · rw [hcopies]
      exact List.mem_append_right _ List.mem_cons_self
    · rw [count_of_pos hn, hcopies, mapM_check_of_refused .sequence before hx rest]
      rfl

end Argument

-- ================================================================ results of a sequence

namespace Passes

variable {run : Parser → State → Run State} {ps : List Parser} {s : State} {ts : List State}
  {session after : Session}

/-- Every parser passes through one state. -/
theorem length_eq (h : Passes run ps s session ts after) : ts.length = ps.length := by
  induction h with
  | nil => rfl
  | cons _ _ _ ih => rw [List.length_cons, List.length_cons, ih]

/-- All of these states are live. -/
theorem last_live (h : Passes run ps s session ts after) (hs : s.failed = false) :
    (ts.getLastD s).failed = false := by
  induction h with
  | nil => exact hs
  | cons _ hlive _ ih =>
      rw [List.getLastD_cons]
      exact ih hlive

end Passes

namespace Parser

section

variable {rules : Rules} {fuel frame : Nat}

/-- Where all parsers pass, all results are there for the end. -/
theorem eval_binds_of_passes {finish : List Value → Value} {ps : List Parser} {s : State}
    {ts : List State} {session after : Session}
    (h : Passes (fun p => p.eval rules fuel frame) ps s session ts after) (hs : s.failed = false) :
    ∀ results, (binds finish ps results).eval rules fuel frame s session =
      (.done ((ts.getLastD s).withResult (finish (results ++ ts.map State.result))), after) := by
  induction h with
  | nil =>
      intro results
      rw [binds, eval_eq_denote, denote_succeed hs, List.map_nil, List.append_nil]
      rfl
  | cons hrun hlive _ ih =>
      intro results
      rw [binds, eval_chain, Run.bind_of_done hrun, State.andThen_of_live hlive, ih hlive,
        List.getLastD_cons, List.map_cons, List.append_assoc]
      rfl

/-- Binds that succeed have passed all their parsers. -/
theorem passes_of_eval_binds {finish : List Value → Value} (ps : List Parser) :
    ∀ results s session t after, s.failed = false →
      (binds finish ps results).eval rules fuel frame s session = (.done t, after) →
      t.failed = false →
      ∃ ts, Passes (fun p => p.eval rules fuel frame) ps s session ts after := by
  induction ps with
  | nil =>
      intro results s session t after hs h _
      rw [binds, eval_eq_denote, denote_succeed hs] at h
      obtain ⟨-, rfl⟩ := Prod.mk.inj h
      exact ⟨[], .nil s _⟩
  | cons p ps ih =>
      intro results s session t after hs h ht
      rw [binds, eval_chain] at h
      obtain ⟨u, middle, hrun, h⟩ := Run.bind_eq_done h
      by_cases hu : u.failed = true
      · -- a failure on the way would be the state of the whole
        rw [State.andThen_of_failed hu] at h
        obtain ⟨hsame, -⟩ := Prod.mk.inj h
        rw [← Outcome.done.inj hsame, hu] at ht
        cases ht
      · rw [Bool.not_eq_true] at hu
        rw [State.andThen_of_live hu] at h
        obtain ⟨ts, hpasses⟩ := ih _ u middle t after hu h ht
        exact ⟨u :: ts, .cons hrun hu hpasses⟩

/-- A sequence succeeds if and only if its parsers pass, and then with the list of their results. -/
theorem eval_sequence_iff (ps : List Parser) {s : State} (hs : s.failed = false)
    (session : Session) (t : State) (after : Session) :
    ((sequence ps).eval rules fuel frame s session = (.done t, after) ∧ t.failed = false) ↔
      ∃ ts, Passes (fun p => p.eval rules fuel frame) ps s session ts after ∧
        t = (ts.getLastD s).withResult (.list (ts.map State.result)) := by
  rw [eval_eq_denote, denote_sequence, ← eval_eq_denote]
  constructor
  · intro ⟨h, ht⟩
    obtain ⟨ts, hpasses⟩ := passes_of_eval_binds ps [] s session t after hs h ht
    rw [eval_binds_of_passes hpasses hs, List.nil_append] at h
    exact ⟨ts, hpasses, (Outcome.done.inj (Prod.mk.inj h).1).symm⟩
  · intro ⟨ts, hpasses, ht⟩
    subst ht
    exact ⟨eval_binds_of_passes hpasses hs [], hpasses.last_live hs⟩

end

end Parser

-- ================================================================ counted repetitions

/-- To ask for an argument one or more times. It is refused if and only if it is no parser and, when
it is asked for once, no list or tuple of parsers either; the message names the kind of the
argument, or of one of its items that is no parser. What is built otherwise succeeds if and only if
the parsers that stand for the argument pass one after another, and returns one result for each of
them: `n` results for a parser. -/
theorem Argument.count_refuses_iff {n : Int} (hn : 1 ≤ n) (arg : Argument) :
    ((∃ fault, count (.int n) arg = .error fault) ↔
      (∀ p, arg ≠ .parser p) ∧ (n = 1 → ∀ ps : List Parser, arg.items? ≠ some (ps.map .parser))) ∧
    (∀ fault, count (.int n) arg = .error fault →
      ∃ x, (∀ p, x ≠ .parser p) ∧ fault = .argumentNotParser .sequence x.kindName ∧
        (x = arg ∨ n = 1 ∧ ∃ items, arg.items? = some items ∧ x ∈ items)) ∧
    (∀ q, count (.int n) arg = .ok q →
      ∃ ps : List Parser, Repeats n arg ps ∧ ((∃ p, arg = .parser p) → (ps.length : Int) = n) ∧
        ∀ (rules : Rules) (fuel frame : Nat) (s : State) (session : Session) (t : State)
            (after : Session), s.failed = false →
          ((q.eval rules fuel frame s session = (.done t, after) ∧ t.failed = false) ↔
            ∃ ts, ts.length = ps.length ∧
              Passes (fun p => p.eval rules fuel frame) ps s session ts after ∧
              t = (ts.getLastD s).withResult (.list (ts.map State.result)))) := by
  rw [← not_repeats_iff]
  by_cases h : ∃ ps, Repeats n arg ps
  · obtain ⟨ps, hps⟩ := h
    rw [count_of_repeats hn hps]
    refine ⟨⟨fun h => ?_, fun hnone => absurd hps (hnone ps)⟩, fun fault hfault => ?_,
      fun q hq => ?_⟩
    · obtain ⟨fault, hfault⟩ := h
      cases hfault
    · cases hfault
    · cases hq
      refine ⟨ps, hps, fun hparser => ?_, fun rules fuel frame s session t after hs => ?_⟩
      · obtain ⟨p, rfl⟩ := hparser
        exact hps.length_of_parser hn
      · rw [Parser.eval_sequence_iff ps hs]
        exact exists_congr fun ts => ⟨fun h => ⟨h.1.length_eq, h⟩, fun h => h.2⟩
  · have hnone : ∀ ps, ¬Repeats n arg ps := fun ps hps => h ⟨ps, hps⟩
    obtain ⟨x, hmem, hx, hcount⟩ := count_of_not_repeats hn hnone
    rw [hcount]
    refine ⟨⟨fun _ => hnone, fun _ => ⟨_, rfl⟩⟩, fun fault hfault => ?_, fun q hq => ?_⟩
    · refine ⟨x, hx, (Except.error.inj hfault).symm, ?_⟩
      rcases mem_copies hmem with rfl | ⟨hone, hitems⟩
      · exact .inl rfl
      · exact .inr ⟨by omega, hitems⟩
    · cases hq

/-- The text `aa`. -/
def Argument.letterTwice : State :=
  .initial (.text #['a', 'a'])

/-- A list of two parsers is refused when it is asked for twice, and a number when it is asked for
once. A letter that is asked for twice is found twice. -/
theorem Argument.count_refuses_iff_samples :
    (∃ fault, count (.int 2) (.list [.parser (.symbol 'a'), .parser (.symbol 'b')]) =
        .error fault) ∧
      (∃ fault, count (.int 1) (.plain (.int 7)) = .error fault) ∧
      ∃ ts : List State, ts.length = 2 ∧
        (Parser.sequence [.symbol 'a', .symbol 'a']).eval noRules 1 0 letterTwice {} =
          (.done ((ts.getLastD letterTwice).withResult (.list (ts.map State.result))), {}) := by
  refine ⟨?_, ?_, ?_⟩
  · refine (count_refuses_iff (by decide) _).1.mpr ⟨fun p hp => ?_, fun hone => ?_⟩
    · cases hp
    · cases hone
  · refine (count_refuses_iff (by decide) _).1.mpr ⟨fun p hp => ?_, fun _ ps hps => ?_⟩
    · cases hp
    · cases hps
  · obtain ⟨-, -, hbuilt⟩ := count_refuses_iff (n := 2) (by decide) (.parser (.symbol 'a'))
    obtain ⟨ps, -, hlength, hruns⟩ := hbuilt (.sequence [.symbol 'a', .symbol 'a']) rfl
    have hfound : (Parser.sequence [.symbol 'a', .symbol 'a']).eval noRules 1 0 letterTwice {} =
        (.done { letterTwice with index := 2, result := .list [.text "a", .text "a"] }, {}) := rfl
    obtain ⟨ts, hts, -, hresult⟩ := (hruns noRules 1 0 letterTwice {} _ {} rfl).mp ⟨hfound, rfl⟩
    refine ⟨ts, ?_, hresult ▸ hfound⟩
    have := hlength ⟨_, rfl⟩
    omega

/-- A list of two parsers is no parser, and is accepted all the same when it is asked for once: one
time finds two results. -/
theorem Argument.count_once_of_list :
    ∃ arg q, (∀ p, arg ≠ .parser p) ∧ count (.int 1) arg = .ok q ∧
      (q.eval noRules 1 0 (.initial (.text #['a', 'b'])) {}).1 =
        .done { input := .text #['a', 'b'], index := 2,
                result := .list [.text "a", .text "b"] } := by
  refine ⟨.list [.parser (.symbol 'a'), .parser (.symbol 'b')], _, fun p hp => ?_, rfl, rfl⟩
  cases hp

end ParserAlgebra
