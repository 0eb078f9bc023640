import ParserAlgebra.Proofs.Sequencing

/-!
Looking ahead reads without moving on.

# A peek

The run of `lookAhead p` is the run of `p`, and then a function of its last state: a failure stays
what it is, and of a success only the result is carried back to the start (`State.peek`). What
looking ahead does to a session is what `p` does. Peeking is idempotent, so looking ahead is.

# The same run again

Behind a look-ahead, `p` starts from where it has started before, but with its own result for the
result of the state, and in a session that has seen its first run. Neither can be noticed by a
parser that starts with neither a bare trace nor a bare check that lets its value through: a run
that has succeeded succeeds again, with the same state (`Parser.eval_again`). So to look ahead
first and then to read ends as reading alone does, also for a parser that fails, faults or does not
end, since then nothing is read again.
-/
namespace ParserAlgebra

-- ================================================================ peeking

namespace State

/-- A failure as it is, or the state with the result of a success. -/
def peek (s t : State) : State :=
  if t.failed then t else s.withResult t.result

theorem peek_of_failed (s : State) {t : State} (ht : t.failed = true) : s.peek t = t :=
  if_pos ht

theorem peek_of_live (s : State) {t : State} (ht : t.failed = false) :
    s.peek t = s.withResult t.result :=
  if_neg (not_failed ht)

/-- To peek twice from one start is to peek once. -/
theorem peek_peek (s t : State) : s.peek (s.peek t) = s.peek t := by
  by_cases ht : t.failed = true
  · rw [peek_of_failed s ht, peek_of_failed s ht]
  · -- a failed start stays failed with any result, and is then its own peek
    rw [peek_of_live s (Bool.eq_false_iff.mpr ht)]
    unfold peek
    split
    · rfl
    · rfl

/-- A success with a function of its result, or a failure as it is. -/
def mapResult (f : Value → Value) (t : State) : State :=
  if t.failed then t else t.withResult (f t.result)

theorem mapResult_of_failed {t : State} (ht : t.failed = true) (f : Value → Value) :
    t.mapResult f = t :=
  if_pos ht

theorem mapResult_of_live {t : State} (ht : t.failed = false) (f : Value → Value) :
    t.mapResult f = t.withResult (f t.result) :=
  if_neg (not_failed ht)

theorem mapResult_id (t : State) : t.mapResult id = t := by
  unfold mapResult
  split
  · rfl
  · rfl

/-- Live states have no leftover in which they could differ. -/
theorem AgreeBut.eq_of_live {t u : State} (h : t.AgreeBut u) (ht : t.failed = false) : u = t := by
  obtain ⟨input, index, failed, error, result⟩ := h
  cases u
  cases t
  simp_all

end State

namespace Parser

section

variable {rules : Rules} {fuel frame : Nat}

/-- The run of a look-ahead, from a live state or a failed one. -/
theorem eval_lookAhead (p : Parser) (s : State) :
    (lookAhead p).eval rules fuel frame s =
      p.eval rules fuel frame s >>= fun t => pure (s.peek t) := by
  rw [eval_eq_denote, eval_eq_denote]
  by_cases hs : s.failed = true
  · rw [denote_of_failed _ hs, denote_of_failed _ hs, pure_bind, State.peek_of_failed s hs]
  · rw [denote, if_neg hs]
    congr 1
    funext t
    by_cases ht : t.failed = true
    · rw [if_pos ht, State.peek_of_failed s ht]
    · rw [if_neg ht, State.peek_of_live s (Bool.eq_false_iff.mpr ht)]

/-- To look ahead twice is to look ahead once. -/
theorem eval_lookAhead_lookAhead (p : Parser) (s : State) :
    (lookAhead (lookAhead p)).eval rules fuel frame s = (lookAhead p).eval rules fuel frame s := by
  rw [eval_lookAhead, eval_lookAhead, bind_assoc]
  congr 1
  funext t
  rw [pure_bind, State.peek_peek]

/-- To map plainly is to run, and then to change the result of a success. -/
theorem eval_mapPure (p : Parser) (f : Value → Value) (s : State) :
    (p.mapPure f).eval rules fuel frame s =
      p.eval rules fuel frame s >>= fun t => pure (t.mapResult f) := by
  rw [eval_eq_denote, eval_eq_denote, mapPure, denote_map]
  congr 1
  funext t
  by_cases ht : t.failed = true
  · rw [State.andThen_of_failed ht, State.mapResult_of_failed ht]
  · rw [Bool.not_eq_true] at ht
    rw [State.andThen_of_live ht, State.mapResult_of_live ht]
    rfl

/-- What stands behind a look-ahead follows a success only, and starts where that has started. -/
theorem eval_lookAhead_chain (p : Parser) (next : Value → Parser) {s : State}
    (hs : s.failed = false) :
    ((lookAhead p).chain next).eval rules fuel frame s =
      p.eval rules fuel frame s >>= fun t =>
        t.andThen fun t => (next t.result).eval rules fuel frame (s.withResult t.result) := by
  rw [eval_chain, eval_lookAhead, bind_assoc]
  congr 1
  funext t
  rw [pure_bind]
  by_cases ht : t.failed = true
  · rw [State.peek_of_failed s ht, State.andThen_of_failed ht, State.andThen_of_failed ht]
  · have hlive : (s.withResult t.result).failed = false := hs
    rw [Bool.not_eq_true] at ht
    rw [State.peek_of_live s ht, State.andThen_of_live hlive, State.andThen_of_live ht]
    rfl

-- ================================================================ reading again

variable {known : Deferred → Prop} {session : Session}

/-- A parser that has succeeded succeeds again, from any result and in any session. -/
theorem eval_again (hrules : rules.Fresh known)
    (hsession : session.Faithful rules) {p : Parser} (hp : p.Fresh known) {s t : State}
    (h : (p.eval rules fuel frame s session).1 = .done t) (ht : t.failed = false) (r : Value)
    {later : Session} (hlater : later.Faithful rules) :
    (p.eval rules fuel frame (s.withResult r) later).1 = .done t := by
  rw [eval_eq_apply hlater, ← eval_eq_apply hsession fuel p frame]
  rcases eval_agreeBut hrules hsession hp fuel frame s r with ⟨hout, -⟩ | ⟨hmatch, -⟩
  · rw [h] at hout
    cases hout
  · rw [h] at hmatch
    generalize (p.eval rules fuel frame (s.withResult r) session).1 = out at hmatch ⊢
    cases hmatch with
    | done hagree => rw [hagree.eq_of_live ht]

/-- To look ahead, and then to read and to combine the two results, ends as reading alone does, with
the result combined with itself. -/
theorem eval_lookAhead_combine (hrules : rules.Fresh known)
    (hsession : session.Faithful rules) {p : Parser} (hp : p.Fresh known)
    (f : Value → Value → Value) (s : State) :
    (((lookAhead p).chain fun v => p.mapPure (f v)).eval rules fuel frame s session).1 =
      (p.eval rules fuel frame s session).1 >>= fun t => pure (t.mapResult fun v => f v v) := by
  by_cases hs : s.failed = true
  · rw [eval_eq_denote, eval_eq_denote, denote_of_failed _ hs, denote_of_failed _ hs]
    exact congrArg Outcome.done (State.mapResult_of_failed hs _).symm
  rw [Bool.not_eq_true] at hs
  rw [eval_lookAhead_chain p _ hs]
  have hmiddle := eval_faithful hsession fuel p frame s
  rcases hrun : p.eval rules fuel frame s session with ⟨t | fault | _, middle⟩
  · rw [Run.bind_of_done hrun]
    by_cases ht : t.failed = true
    · rw [State.andThen_of_failed ht]
      exact congrArg Outcome.done (State.mapResult_of_failed ht _).symm
    · -- the one case in which the parser is run twice
      rw [Bool.not_eq_true] at ht
      rw [hrun] at hmiddle
      have hagain := eval_again hrules hsession hp (congrArg Prod.fst hrun) ht t.result hmiddle
      rcases hrun' : p.eval rules fuel frame (s.withResult t.result) middle with ⟨out, after⟩
      rw [hrun'] at hagain
      subst hagain
      rw [State.andThen_of_live ht, eval_mapPure, Run.bind_of_done hrun',
        State.mapResult_of_live ht]
      exact congrArg Outcome.done (State.mapResult_of_live ht _).symm
  · rw [Run.bind_of_raised hrun]
    rfl
  · rw [Run.bind_of_exhausted hrun]
    rfl

/-- Behind a look-ahead a fresh parser ends as it ends alone. -/
theorem eval_lookAhead_keepRight (hrules : rules.Fresh known)
    (hsession : session.Faithful rules) {p : Parser} (hp : p.Fresh known) (s : State) :
    (((lookAhead p).keepRight p).eval rules fuel frame s session).1 =
      (p.eval rules fuel frame s session).1 := by
  have hsame : ((lookAhead p).keepRight p).eval rules fuel frame s =
      ((lookAhead p).chain fun _ => p.mapPure id).eval rules fuel frame s := by
    rw [keepRight, eval_chain, eval_chain]
    simp only [eval_mapPure, State.mapResult_id, bind_pure]
  rw [hsame, eval_lookAhead_combine hrules hsession hp (fun _ => id) s]
  show ((p.eval rules fuel frame s session).1 >>= fun t => pure (t.mapResult id)) = _
  simp only [State.mapResult_id]
  cases (p.eval rules fuel frame s session).1 with
  | done t => rfl
  | raised fault => rfl
  | exhausted => rfl

end

/-- A look-ahead is a pure peek. Whatever its parser does from a state and in a session, the
look-ahead leaves the same session; it ends in the same failure, fault or want of fuel, and where
the parser succeeds, in the state it has started from with only the result replaced. Looking ahead
twice is looking ahead once, as an equation of runs. And provided a bare trace, and a bare check
that lets its value through, stand only behind a parser that has succeeded, in the parser and in
what its deferred nodes stand for, to look ahead before reading ends exactly as reading alone does,
and to keep both results gives the one result twice. -/
theorem lookAhead_peeks (rules : Rules) (fuel frame : Nat) (p : Parser) (s : State) :
    (∀ session,
      (∀ t after, p.eval rules fuel frame s session = (.done t, after) →
        (t.failed = true → (lookAhead p).eval rules fuel frame s session = (.done t, after)) ∧
        (t.failed = false → (lookAhead p).eval rules fuel frame s session =
          (.done { s with result := t.result }, after))) ∧
      (∀ fault after, p.eval rules fuel frame s session = (.raised fault, after) →
        (lookAhead p).eval rules fuel frame s session = (.raised fault, after)) ∧
      (∀ after, p.eval rules fuel frame s session = (.exhausted, after) →
        (lookAhead p).eval rules fuel frame s session = (.exhausted, after))) ∧
    (lookAhead (lookAhead p)).eval rules fuel frame s = (lookAhead p).eval rules fuel frame s ∧
    (∀ (known : Deferred → Prop) (session : Session),
      rules.Fresh known → session.Faithful rules → p.Fresh known →
        (((lookAhead p).keepRight p).eval rules fuel frame s session).1 =
            (p.eval rules fuel frame s session).1 ∧
          (((lookAhead p).both p).eval rules fuel frame s session).1 =
            (p.eval rules fuel frame s session).1 >>= fun t =>
              pure (if t.failed then t else t.withResult (.tuple [t.result, t.result]))) := by
  refine ⟨fun session => ⟨fun t after h => ⟨fun ht => ?_, fun ht => ?_⟩, fun fault after h => ?_,
    fun after h => ?_⟩, eval_lookAhead_lookAhead p s, ?_⟩
  · rw [eval_lookAhead, Run.bind_of_done h, State.peek_of_failed s ht]
    rfl
  · rw [eval_lookAhead, Run.bind_of_done h, State.peek_of_live s ht]
    rfl
  · rw [eval_lookAhead, Run.bind_of_raised h]
  · rw [eval_lookAhead, Run.bind_of_exhausted h]
  · intro known session hrules hsession hp
    exact ⟨eval_lookAhead_keepRight hrules hsession hp s,
      eval_lookAhead_combine hrules hsession hp (fun v w => .tuple [v, w]) s⟩

end Parser

/-- A nested list is read ahead without moving on, and read again with the same result; one that is
not closed fails in both runs at the same index. -/
theorem NestedList.lookAhead_peeks_samples :
    (∃ after, (Parser.lookAhead parser).eval rules 3 0 (.initial sample) {} =
        (.done { input := sample, result := .list [.int 1, .list []] }, after)) ∧
      (((Parser.lookAhead parser).both parser).eval rules 3 0 (.initial sample) {}).1 =
        .done { input := sample, index := 6,
                result := .tuple [.list [.int 1, .list []], .list [.int 1, .list []]] } ∧
      ∃ t, (parser.eval rules 3 0 unclosed {}).1 = .done t ∧ t.failed = true ∧
        (((Parser.lookAhead parser).keepRight parser).eval rules 3 0 unclosed {}).1 = .done t := by
  have hempty := Session.faithful_empty rules
  have hrules := rules_fresh fun _ => True
  obtain ⟨hpeek, -, hagain⟩ := Parser.lookAhead_peeks rules 3 0 parser (.initial sample)
  obtain ⟨-, hboth⟩ := hagain (fun _ => True) {} hrules hempty (fresh _)
  refine ⟨?_, ?_, ?_⟩
  · rcases hrun : parser.eval rules 3 0 (.initial sample) {} with ⟨out, after⟩
    have hout := eval_sample
    rw [hrun] at hout
    subst hout
    exact ⟨after, ((hpeek {}).1 _ after hrun).2 rfl⟩
  · rw [hboth, eval_sample]
    rfl
  · obtain ⟨t, ht, hfailed⟩ :
        ∃ t, (parser.eval rules 3 0 unclosed {}).1 = .done t ∧ t.failed = true := by
      rw [Parser.eval_eq_apply hempty]
      exact ⟨_, rfl, rfl⟩
    obtain ⟨-, -, hunclosed⟩ := Parser.lookAhead_peeks rules 3 0 parser unclosed
    obtain ⟨hright, -⟩ := hunclosed (fun _ => True) {} hrules hempty (fresh _)
    exact ⟨t, ht, hfailed, hright.trans ht⟩

/-- To have no bare trace is not enough to read the same again: behind a check that lets its value
through, the second run sees the result of the first. -/
theorem Parser.lookAhead_check_ne :
    let p := (check (.int 0) (.int 0) none).mapPure fun v => .list [v]
    let s : State := { input := .text #[], result := .int 7 }
    p.Every Untraced ∧ s.failed = false ∧
      (((lookAhead p).keepRight p).eval noRules 0 0 s {}).1 =
        .done (s.withResult (.list [.list [.int 7]])) ∧
      (p.eval noRules 0 0 s {}).1 = .done (s.withResult (.list [.int 7])) ∧
      (Value.list [.list [.int 7]]) ≠ .list [.int 7] :=
  ⟨⟨trivial, trivial⟩, rfl, rfl, rfl, nofun⟩

end ParserAlgebra
