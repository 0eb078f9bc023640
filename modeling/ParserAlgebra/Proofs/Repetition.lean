import ParserAlgebra.Proofs.Chaining

/-!
A repetition is the longest row of rounds that move the cursor.

# Rounds

`Rounds` lists the states that a parser passes through when it is run again and again, each time
from the state and the session that the time before left, as long as it succeeds and moves the
cursor. The attempt that ends the row belongs to it, for it may leave events behind, but the state
it reaches does not: it may have read half of something, and none of that is kept. A repetition
returns the last state of the row, with the results of the rounds for its result
(`manyLoop_of_rounds`, `rounds_of_manyLoop`), so it never fails.

# No round is left

A repetition stops in a state from which one more attempt got nowhere. The state that it returns is
the same but for its result, which is the list by now. A parser that starts with neither a bare
trace nor a bare check that lets its value through cannot tell the two apart
(`Parser.eval_agreeBut`), so it gets nowhere from there either, in this session or in a later one,
and the repetition run again finds nothing (`Parser.eval_many_again`).
-/
namespace ParserAlgebra

-- ================================================================ rounds

/-- An attempt from `s` that ended in `t` got nowhere: it failed, or it left the cursor in place. -/
def State.Stalls (s t : State) : Prop :=
  t.failed = true ∨ t.index = s.index

theorem State.stalls_iff {s t : State} :
    s.Stalls t ↔ (t.failed || t.index == s.index) = true := by
  rw [Bool.or_eq_true, beq_iff_eq]
  rfl

/-- Rounds of an attempt, from a state in a session. Each of them succeeds and moves the cursor; the
list holds the states after them. The attempt after the last round gets nowhere, and leaves the last
session. -/
inductive Rounds (attempt : State → Run State) : State → Session → List State → Session → Prop
  | stop {s t : State} {session after : Session} (hrun : attempt s session = (.done t, after))
      (hstalls : s.Stalls t) : Rounds attempt s session [] after
  | next {s t : State} {session middle after : Session} {chain : List State}
      (hrun : attempt s session = (.done t, middle)) (hmoves : ¬s.Stalls t)
      (hrest : Rounds attempt t middle chain after) : Rounds attempt s session (t :: chain) after

section

variable {attempt attempt' : State → Run State} {s t : State} {session after : Session}
  {chain : List State}

/-- The rounds are determined by where they start. -/
theorem Rounds.unique (h : Rounds attempt s session chain after) :
    ∀ {chain' after'}, Rounds attempt s session chain' after' →
      chain = chain' ∧ after = after' := by
  induction h with
  | stop hrun hstalls =>
      intro chain' after' h'
      cases h' with
      | stop hrun' hstalls' => exact ⟨rfl, (Run.done_unique hrun hrun').2⟩
      | next hrun' hmoves hrest =>
          obtain ⟨rfl, -⟩ := Run.done_unique hrun hrun'
          exact absurd hstalls hmoves
  | next hrun hmoves hrest ih =>
      intro chain' after' h'
      cases h' with
      | stop hrun' hstalls =>
          obtain ⟨rfl, -⟩ := Run.done_unique hrun hrun'
          exact absurd hstalls hmoves
      | next hrun' hmoves' hrest' =>
          obtain ⟨rfl, rfl⟩ := Run.done_unique hrun hrun'
          obtain ⟨rfl, rfl⟩ := ih hrest'
          exact ⟨rfl, rfl⟩

/-- What does the same wherever an attempt returns goes through the same rounds. -/
theorem Rounds.mono (h : Rounds attempt s session chain after)
    (hsame : ∀ s session t after, attempt s session = (.done t, after) →
      attempt' s session = (.done t, after)) : Rounds attempt' s session chain after := by
  induction h with
  | stop hrun hstalls => exact .stop (hsame _ _ _ _ hrun) hstalls
  | next hrun hmoves hrest ih => exact .next (hsame _ _ _ _ hrun) hmoves ih

/-- All states of the rounds are live. -/
theorem Rounds.last_live (h : Rounds attempt s session chain after) (hs : s.failed = false) :
    (chain.getLastD s).failed = false := by
  induction h with
  | stop => exact hs
  | next hrun hmoves hrest ih =>
      rw [List.getLastD_cons]
      exact ih (Bool.eq_false_iff.mpr fun hfailed => hmoves (.inl hfailed))

/-- The attempt that ends the rounds, in a session of which everything holds that attempts keep. -/
theorem Rounds.last_attempt {I : Session → Prop}
    (hkeep : ∀ s session, I session → I (attempt s session).2)
    (h : Rounds attempt s session chain after) (hI : I session) :
    ∃ t middle, I middle ∧ attempt (chain.getLastD s) middle = (.done t, after) ∧
      (chain.getLastD s).Stalls t := by
  induction h with
  | stop hrun hstalls => exact ⟨_, _, hI, hrun, hstalls⟩
  | @next s t session middle after chain hrun hmoves hrest ih =>
      have hmiddle : I middle := by
        have hkept := hkeep s session hI
        rwa [hrun] at hkept
      rw [List.getLastD_cons]
      exact ih hmiddle

-- ================================================================ the loop

/-- The loop that takes all the rounds, and one more to see that they are all. -/
theorem manyLoop_of_rounds (h : Rounds attempt s session chain after) :
    ∀ {rounds}, chain.length < rounds → ∀ results,
      manyLoop attempt rounds results s session =
        (.done ((chain.getLastD s).withResult (.list (results.reverse ++ chain.map State.result))),
          after) := by
  induction h with
  | stop hrun hstalls =>
      intro rounds hlt results
      obtain ⟨n, rfl⟩ : ∃ n, rounds = n + 1 := ⟨rounds - 1, by omega⟩
      rw [manyLoop, Run.bind_of_done hrun, if_pos (State.stalls_iff.mp hstalls), List.map_nil,
        List.append_nil]
      rfl
  | @next s t session middle after chain hrun hmoves hrest ih =>
      intro rounds hlt results
      obtain ⟨n, rfl⟩ : ∃ n, rounds = n + 1 := ⟨rounds - 1, by omega⟩
      rw [manyLoop, Run.bind_of_done hrun, if_neg fun hstop => hmoves (State.stalls_iff.mpr hstop),
        ih (Nat.lt_of_succ_lt_succ hlt), List.getLastD_cons, List.reverse_cons, List.append_assoc]
      rfl

/-- A loop that returns has gone through rounds. -/
theorem rounds_of_manyLoop :
    ∀ {rounds : Nat} {results : List Value} {s : State} {session : Session},
      manyLoop attempt rounds results s session = (.done t, after) →
      ∃ chain, Rounds attempt s session chain after ∧ chain.length < rounds ∧
        t = (chain.getLastD s).withResult (.list (results.reverse ++ chain.map State.result)) := by
  intro rounds
  induction rounds with
  | zero =>
      intro results s session h
      cases h
  | succ rounds ih =>
      intro results s session h
      rw [manyLoop] at h
      obtain ⟨u, middle, hrun, h⟩ := Run.bind_eq_done h
      by_cases hstop : (u.failed || u.index == s.index) = true
      · rw [if_pos hstop] at h
        obtain ⟨rfl, rfl⟩ := Run.done_unique h rfl
        refine ⟨[], .stop hrun (State.stalls_iff.mpr hstop), Nat.succ_pos _, ?_⟩
        rw [List.map_nil, List.append_nil]
        rfl
      · rw [if_neg hstop] at h
        obtain ⟨chain, hrounds, hlt, rfl⟩ := ih h
        have hmoves : ¬s.Stalls u := fun hstalls => hstop (State.stalls_iff.mp hstalls)
        refine ⟨u :: chain, .next hrun hmoves hrounds, Nat.succ_lt_succ hlt, ?_⟩
        rw [List.getLastD_cons, List.reverse_cons, List.append_assoc]
        rfl

end

-- ================================================================ repetitions

namespace Parser

section

variable {rules : Rules} {fuel frame : Nat} {p : Parser} {s t : State} {session after : Session}
  {chain : List State}

theorem eval_many (hs : s.failed = false) :
    (many p).eval rules fuel frame s = manyLoop (p.eval rules fuel frame) fuel [] s := by
  rw [eval_eq_denote, denote, if_neg (State.not_failed hs),
    ← funext (eval_eq_denote rules fuel p frame)]

/-- Rounds are the same with more fuel. -/
theorem rounds_mono {more : Nat} (hle : fuel ≤ more)
    (h : Rounds (p.eval rules fuel frame) s session chain after) :
    Rounds (p.eval rules more frame) s session chain after := by
  refine h.mono fun s session t after hrun => ?_
  rw [← hrun]
  refine eval_mono rules hle p frame s ?_
  rw [hrun]
  intro hout
  cases hout

/-- With whatever fuel, there are no other rounds. -/
theorem rounds_unique {fuel' : Nat} {chain' : List State} {after' : Session}
    (h : Rounds (p.eval rules fuel frame) s session chain after)
    (h' : Rounds (p.eval rules fuel' frame) s session chain' after') :
    chain = chain' ∧ after = after' := by
  rcases Nat.le_total fuel fuel' with hle | hle
  · exact (rounds_mono hle h).unique h'
  · exact h.unique (rounds_mono hle h')

theorem eval_many_of_rounds (hs : s.failed = false)
    (h : Rounds (p.eval rules fuel frame) s session chain after) (hlt : chain.length < fuel) :
    (many p).eval rules fuel frame s session =
      (.done ((chain.getLastD s).withResult (.list (chain.map State.result))), after) := by
  rw [eval_many hs]
  exact manyLoop_of_rounds h hlt []

theorem rounds_of_eval_many (hs : s.failed = false)
    (h : (many p).eval rules fuel frame s session = (.done t, after)) :
    ∃ chain, Rounds (p.eval rules fuel frame) s session chain after ∧ chain.length < fuel ∧
      t = (chain.getLastD s).withResult (.list (chain.map State.result)) := by
  rw [eval_many hs] at h
  exact rounds_of_manyLoop h

/-- What gets nowhere from a state gets nowhere from it with another result, in any session. -/
theorem eval_stalls {known : Deferred → Prop} (hrules : rules.Fresh known)
    (hp : p.Fresh known) (hsession : session.Faithful rules)
    (h : p.eval rules fuel frame s session = (.done t, after)) (hstalls : s.Stalls t) (r : Value)
    {later : Session} (hlater : later.Faithful rules) :
    ∃ u last, p.eval rules fuel frame (s.withResult r) later = (.done u, last) ∧
      (s.withResult r).Stalls u := by
  -- the sessions may differ, but faithful ones hold nothing that a parser can see
  have hsame : (p.eval rules fuel frame (s.withResult r) later).1 =
      (p.eval rules fuel frame (s.withResult r) session).1 := by
    rw [eval_eq_apply hlater, eval_eq_apply hsession]
  rcases eval_agreeBut hrules hsession hp fuel frame s r with ⟨hout, -⟩ | ⟨hmatch, -⟩
  · rw [h] at hout
    cases hout
  · rw [h, ← hsame] at hmatch
    rcases hrun : p.eval rules fuel frame (s.withResult r) later with ⟨out, last⟩
    rw [hrun] at hmatch
    cases hmatch with
    | done hagree =>
        refine ⟨_, last, rfl, ?_⟩
        unfold State.Stalls
        rw [hagree.failed, hagree.index]
        exact hstalls

/-- A repetition that is run again has nothing left to do. -/
theorem eval_many_again {known : Deferred → Prop} (hrules : rules.Fresh known)
    (hp : p.Fresh known) (hsession : session.Faithful rules) (hs : s.failed = false)
    (h : (many p).eval rules fuel frame s session = (.done t, after)) {later : Session}
    (hlater : later.Faithful rules) :
    ((many p).eval rules fuel frame t later).1 = .done (t.withResult (.list [])) := by
  obtain ⟨chain, hrounds, hlt, rfl⟩ := rounds_of_eval_many hs h
  -- the attempt that ended the first run, made once more with the list for a result
  obtain ⟨u, middle, hmiddle, hrun, hstalls⟩ := hrounds.last_attempt (I := Session.Faithful rules)
    (fun s session hfaithful => eval_faithful hfaithful fuel p frame s) hsession
  obtain ⟨v, last, hagain, hstalls'⟩ := eval_stalls hrules hp hmiddle hrun hstalls
    (.list (chain.map State.result)) hlater
  have hlive : ((chain.getLastD s).withResult (.list (chain.map State.result))).failed = false :=
    hrounds.last_live hs
  rw [eval_many_of_rounds hlive (.stop hagain hstalls') (Nat.zero_lt_of_lt hlt)]
  rfl

end

/-- A repetition from a live state, whatever its parser is. If it returns, with whatever fuel, it
has gone through rounds, it does not fail, and its state is the one after the last round, with the
results of the rounds for its result. If there are rounds, it returns with enough fuel. They are the
only ones there are. And if a bare trace, and a bare check that lets its value through, stand only
behind a parser that has succeeded, in the parser and in what its deferred nodes stand for, the
repetition finds nothing when it is run again from where it ended. -/
theorem eval_many_rounds (rules : Rules) (frame : Nat) (p : Parser) {s : State}
    (hs : s.failed = false) (session : Session) :
    (∀ fuel t after, (many p).eval rules fuel frame s session = (.done t, after) →
      t.failed = false ∧ ∃ chain, Rounds (p.eval rules fuel frame) s session chain after ∧
        t = (chain.getLastD s).withResult (.list (chain.map State.result))) ∧
    (∀ fuel chain after, Rounds (p.eval rules fuel frame) s session chain after →
      ∀ more, fuel ≤ more → chain.length < more →
        (many p).eval rules more frame s session =
          (.done ((chain.getLastD s).withResult (.list (chain.map State.result))), after)) ∧
    (∀ fuel fuel' chain chain' after after',
      Rounds (p.eval rules fuel frame) s session chain after →
      Rounds (p.eval rules fuel' frame) s session chain' after' →
        chain = chain' ∧ after = after') ∧
    (∀ known : Deferred → Prop,
      rules.Fresh known → p.Fresh known → session.Faithful rules →
      ∀ fuel t after, (many p).eval rules fuel frame s session = (.done t, after) →
        after.Faithful rules ∧ ∀ later, later.Faithful rules →
          ((many p).eval rules fuel frame t later).1 = .done (t.withResult (.list []))) := by
  refine ⟨?_, ?_, ?_, ?_⟩
  · intro fuel t after h
    obtain ⟨chain, hrounds, -, rfl⟩ := rounds_of_eval_many hs h
    exact ⟨hrounds.last_live hs, chain, hrounds, rfl⟩
  · intro fuel chain after hrounds more hle hlt
    exact eval_many_of_rounds hs (rounds_mono hle hrounds) hlt
  · intro fuel fuel' chain chain' after after' hrounds hrounds'
    exact rounds_unique hrounds hrounds'
  · intro known hrules hp hsession fuel t after h
    have hkept := eval_faithful hsession fuel (many p) frame s
    rw [h] at hkept
    exact ⟨hkept, fun later hlater => eval_many_again hrules hp hsession hs h hlater⟩

end Parser

-- ================================================================ numbers with commas after them

namespace Terms

/-- A number and the comma after it. -/
def term : Parser :=
  Parser.digits.keepLeft (.symbol ',')

/-- The text `1,2,3`, in which no comma follows the last number. -/
def sample : State :=
  .initial (.text #['1', ',', '2', ',', '3'])

/-- A term starts with its digits. -/
theorem fresh_term (known : Deferred → Prop) : term.Fresh known :=
  trivial

/-- There are two rounds. The last attempt reads the third number before it fails, which is not
seen in the state; from there nothing more is found. -/
theorem eval_many_rounds_sample :
    ∃ t after chain, (term.many.eval noRules 3 0 sample {}) = (.done t, after) ∧
      Rounds (term.eval noRules 3 0) sample {} chain after ∧ chain.length = 2 ∧
      t = { sample with index := 4, result := .list [.text "1", .text "2"] } ∧
      (term.many.eval noRules 3 0 t after).1 = .done { t with result := .list [] } := by
  obtain ⟨hreturns, -, -, hagain⟩ :=
    Parser.eval_many_rounds noRules 0 term (show sample.failed = false from rfl) {}
  have hrun : term.many.eval noRules 3 0 sample {} =
      (.done { sample with index := 4, result := .list [.text "1", .text "2"] }, {}) := rfl
  obtain ⟨-, chain, hrounds, hlast⟩ := hreturns 3 _ _ hrun
  have hresults : [Value.text "1", .text "2"] = chain.map State.result :=
    Value.list.inj (congrArg State.result hlast)
  have hlength : chain.length = 2 := by
    rw [← List.length_map State.result, ← hresults]
    rfl
  obtain ⟨hafter, hnone⟩ := hagain (fun _ => False) (fun _ _ h _ => h.elim) (fresh_term _)
    (Session.faithful_empty noRules) 3 _ _ hrun
  exact ⟨_, _, chain, hrun, hrounds, hlength, rfl, hnone _ hafter⟩

end Terms

/-- An `a` where a list has been left as the result, and nothing otherwise. -/
def Parser.symbolAfterList : Parser :=
  (check (.int 0) (.int 0) none).chain fun
    | .list _ => symbol 'a'
    | _ => fail (.text "no")

/-- To have no bare trace is not enough to find nothing again: behind a check that lets its value
through, a parser may see the list that the first repetition has left. -/
theorem Parser.many_again_after_check :
    let p := symbolAfterList
    let s := State.initial (.text #['a', 'a'])
    let t := s.withResult (.list [])
    p.Every Untraced ∧ (many p).eval noRules 2 0 s {} = (.done t, {}) ∧
      ((many p).eval noRules 2 0 t {}).1 = .done (t.advance 1 (.list [.text "a"])) :=
  ⟨⟨trivial, trivial, fun value => by cases value <;> trivial⟩, rfl, rfl⟩

end ParserAlgebra
