import ParserAlgebra.Proofs.Chaining

/-!
Two ways to try alternatives: a choice from a list, and a row of parsers each of which is the
other way of the one before it.

# Trying in order

Both ways try the alternatives in order, each of them once and from the same state. What a failed
attempt leaves behind is the session, with the events it has caused; its state is given up.
`Refusals` holds of alternatives that were tried in this way and all failed, with the states they
failed in. So either all alternatives are refused, or there is a first one that is not
(`taken_or_refused`), and it alone decides how the run ends: with its success, with its fault, or
without an end. The alternatives behind it are never run.

# Where the ways part

The two ways differ when all alternatives fail. A choice then fails in the state it started from,
with a message that lists what was said by the alternatives. The row returns the failure of the last
alternative, as if it had been the only one. So wherever a choice is taken apart into choices of
fewer alternatives, successes stay what they are, and only the wording of a failure can change.
-/
namespace ParserAlgebra

-- ================================================================ failures

/-- In a session a computation ends in a failed state, and leaves `after`. -/
def Run.Fails (x : Run State) (session after : Session) : Prop :=
  ∃ t, t.failed = true ∧ x session = (.done t, after)

/-- Where a computation does not fail, what follows a failure does not matter. -/
theorem Run.bind_of_not_fails {x : Run State} {other next : State → Run State} {session : Session}
    (h : ¬∃ after, x.Fails session after) :
    (x >>= fun t => if t.failed then other t else next t) session = (x >>= next) session := by
  refine Run.bind_congr_at fun t middle hrun => ?_
  have hlive : ¬t.failed = true := fun hfailed => h ⟨middle, t, hfailed, hrun⟩
  rw [if_neg hlive]

/-- Without a failure, what comes next has no failure to pass by. -/
theorem Run.bind_andThen_of_not_fails {x : Run State} {next : State → Run State}
    {session : Session} (h : ¬∃ after, x.Fails session after) :
    (x >>= fun t => t.andThen next) session = (x >>= next) session := by
  unfold State.andThen
  exact Run.bind_of_not_fails h

theorem Run.not_fails_of_eq {x y : Run State} {session session' : Session}
    (heq : x session = y session') (h : ¬∃ after, y.Fails session' after) :
    ¬∃ after, x.Fails session after := by
  unfold Run.Fails
  rw [heq]
  exact h

/-- A computation that fails does not succeed. -/
theorem Run.Fails.not_live {x : Run State} {t : State} {session after after' : Session}
    (h : x.Fails session after) (hlive : t.failed = false) : x session ≠ (.done t, after') := by
  intro hrun
  obtain ⟨u, hfailed, hrun'⟩ := h
  obtain ⟨rfl, -⟩ := Run.done_unique hrun hrun'
  rw [hlive] at hfailed
  cases hfailed

/-- In a session two computations do the same, or they both fail and leave one session. -/
def Run.SameButFailures (x y : Run State) (session : Session) : Prop :=
  x session = y session ∨ ∃ after, x.Fails session after ∧ y.Fails session after

/-- Two runs that differ in failures only have the same successes. -/
theorem Run.SameButFailures.done_iff {x y : Run State} {t : State} {session after : Session}
    (h : x.SameButFailures y session) (hlive : t.failed = false) :
    x session = (.done t, after) ↔ y session = (.done t, after) := by
  rcases h with heq | ⟨last, hx, hy⟩
  · rw [heq]
  · exact iff_of_false (hx.not_live hlive) (hy.not_live hlive)

-- ================================================================ alternatives in order

/-- Alternatives that are tried one after another, and all fail. The first list holds the
alternatives, the second one the states that they fail in. -/
inductive Refusals (run : Parser → Run State) :
    List Parser → Session → List State → Session → Prop
  | nil (session : Session) : Refusals run [] session [] session
  | cons {p : Parser} {ps : List Parser} {t : State} {ts : List State}
      {session middle after : Session} (hrun : run p session = (.done t, middle))
      (hfailed : t.failed = true) (hrest : Refusals run ps middle ts after) :
      Refusals run (p :: ps) session (t :: ts) after

section

variable {run : Parser → Run State}

/-- All refusals are failures. -/
theorem Refusals.failed {ps : List Parser} {ts : List State} {session after : Session}
    (h : Refusals run ps session ts after) : ∀ t ∈ ts, t.failed = true := by
  induction h with
  | nil => intro t ht; cases ht
  | cons hrun hfailed hrest ih => exact List.forall_mem_cons.mpr ⟨hfailed, ih⟩

/-- Refusals in a row, each in the session that the last one has left. -/
theorem Refusals.append {ps qs : List Parser} {ts us : List State} {session middle after : Session}
    (hps : Refusals run ps session ts middle) (hqs : Refusals run qs middle us after) :
    Refusals run (ps ++ qs) session (ts ++ us) after := by
  induction hps with
  | nil => exact hqs
  | cons hrun hfailed hrest ih => exact .cons hrun hfailed (ih hqs)

/-- One alternative is the first not to fail, or all of them fail. -/
theorem taken_or_refused (run : Parser → Run State) (ps : List Parser) :
    ∀ session,
      (∃ before q rest ts middle, ps = before ++ q :: rest ∧
        Refusals run before session ts middle ∧ ¬∃ after, (run q).Fails middle after) ∨
      ∃ ts after, Refusals run ps session ts after := by
  induction ps with
  | nil => intro session; exact .inr ⟨[], session, .nil session⟩
  | cons p ps ih =>
      intro session
      by_cases hfails : ∃ after, (run p).Fails session after
      · obtain ⟨middle, t, hfailed, hrun⟩ := hfails
        rcases ih middle with ⟨before, q, rest, ts, last, rfl, hbefore, hq⟩ | ⟨ts, after, hps⟩
        · exact .inl ⟨p :: before, q, rest, t :: ts, last, rfl, .cons hrun hfailed hbefore, hq⟩
        · exact .inr ⟨t :: ts, after, .cons hrun hfailed hps⟩
      · exact .inl ⟨[], p, ps, [], session, rfl, .nil session, hfails⟩

end

-- ================================================================ a choice

/-- With an alternative at least, the message lists what was tried. -/
theorem State.failChoice_cons (s : State) (error : Value) (errors : List Value) :
    s.failChoice (error :: errors) =
      s.failWith ("choice: Unable to match with any parser at index " ++ toString s.index ++
        " (tried: " ++ "; ".intercalate ((error :: errors).map Value.display) ++ ")") :=
  rfl

theorem State.failChoice_failed (s : State) (errors : List Value) :
    (s.failChoice errors).failed = true := by
  unfold State.failChoice
  split
  · rfl
  · rfl

section

variable {defer : Deferred → State → Run State} {rounds : Nat} {s : State}

/-- Alternatives that were refused are behind, and their messages are collected. -/
theorem denoteFirst_of_refusals {before rest : List Parser} {ts : List State}
    {session middle : Session}
    (h : Refusals (fun q => q.denote defer rounds s) before session ts middle) :
    ∀ errors,
      denoteFirst defer rounds (before ++ rest) errors s session =
        denoteFirst defer rounds rest ((ts.map State.error).reverse ++ errors) s middle := by
  induction h with
  | nil => intro errors; rfl
  | cons hrun hfailed hrest ih =>
      intro errors
      rw [List.cons_append, denoteFirst, Run.bind_of_done hrun, if_pos hfailed, ih, List.map_cons,
        List.reverse_cons, List.append_assoc]
      rfl

/-- The alternatives behind one that does not fail are not run. -/
theorem denoteFirst_of_not_fails {q : Parser} {rest : List Parser} {session : Session}
    (h : ¬∃ after, (q.denote defer rounds s).Fails session after) (errors : List Value) :
    denoteFirst defer rounds (q :: rest) errors s session =
      q.denote defer rounds s session := by
  rw [denoteFirst, Run.bind_of_not_fails h, bind_pure]

end

namespace Parser

section

variable {rules : Rules} {fuel frame : Nat} {s : State} {session middle after : Session}

/-- A choice tries its alternatives from one live state. -/
theorem eval_choice (hs : s.failed = false) (ps : List Parser) :
    (choice ps).eval rules fuel frame s =
      denoteFirst (rules.deferral fuel frame) fuel ps [] s := by
  rw [eval_eq_denote, denote, if_neg (State.not_failed hs)]

/-- A choice runs as the first alternative that does not fail. -/
theorem eval_choice_of_taken (hs : s.failed = false) {before : List Parser} {q : Parser}
    {ts : List State}
    (hbefore : Refusals (fun q => q.eval rules fuel frame s) before session ts middle)
    (hq : ¬∃ after, (q.eval rules fuel frame s).Fails middle after) (rest : List Parser) :
    (choice (before ++ q :: rest)).eval rules fuel frame s session =
      q.eval rules fuel frame s middle := by
  simp only [eval_eq_denote rules fuel _ frame s] at hbefore hq
  rw [eval_choice hs, denoteFirst_of_refusals hbefore, denoteFirst_of_not_fails hq, eval_eq_denote]

/-- A choice fails when all alternatives do, with their messages. -/
theorem eval_choice_of_refused (hs : s.failed = false) {ps : List Parser} {ts : List State}
    (h : Refusals (fun q => q.eval rules fuel frame s) ps session ts after) :
    (choice ps).eval rules fuel frame s session =
      (.done (s.failChoice (ts.map State.error)), after) := by
  simp only [eval_eq_denote rules fuel _ frame s] at h
  rw [eval_choice hs, ← List.append_nil ps, denoteFirst_of_refusals h, denoteFirst, List.append_nil,
    List.reverse_reverse]
  rfl

end

-- ================================================================ a row of alternatives

/-- Parsers in a row, each of them the other way of those before it. -/
def alternation (p : Parser) (ps : List Parser) : Parser :=
  ps.foldl orElse p

section

variable {defer : Deferred → State → Run State} {rounds : Nat} {s : State}
  {session middle after : Session}

/-- The other way is taken after a failure, from a live state or a failed one. -/
theorem denote_orElse (p q : Parser) (s : State) :
    (p.orElse q).denote defer rounds s =
      p.denote defer rounds s >>= fun t =>
        if t.failed then q.denote defer rounds s else pure t := by
  by_cases hs : s.failed = true
  · rw [denote_of_failed _ hs, denote_of_failed _ hs, pure_bind, if_pos hs, denote_of_failed _ hs]
  · rw [denote, if_neg hs]

/-- It does not matter how three alternatives are grouped. -/
theorem denote_orElse_assoc (p q r : Parser) (s : State) :
    ((p.orElse q).orElse r).denote defer rounds s =
      (p.orElse (q.orElse r)).denote defer rounds s := by
  rw [denote_orElse, denote_orElse, denote_orElse, bind_assoc]
  congr 1
  funext t
  by_cases ht : t.failed = true
  · rw [if_pos ht, if_pos ht, denote_orElse]
  · rw [if_neg ht, if_neg ht, pure_bind, if_neg ht]

/-- A row that is grouped from the left may as well be grouped from the right. -/
theorem denote_alternation_cons (q : Parser) (ps : List Parser) :
    ∀ p, (alternation p (q :: ps)).denote defer rounds s =
      p.denote defer rounds s >>= fun t =>
        if t.failed then (alternation q ps).denote defer rounds s else pure t := by
  induction ps generalizing q with
  | nil => intro p; exact denote_orElse p q s
  | cons r ps ih =>
      intro p
      have hgrouped : (alternation p (q :: r :: ps)).denote defer rounds s =
          ((p.orElse q).orElse (alternation r ps)).denote defer rounds s := by
        rw [denote_orElse, ← ih]
        rfl
      rw [hgrouped, denote_orElse_assoc, denote_orElse, ih, denote_orElse]

/-- A row runs as its first alternative if this does not fail. -/
theorem denote_alternation_of_not_fails {q : Parser} (rest : List Parser)
    (h : ¬∃ after, (q.denote defer rounds s).Fails session after) :
    (alternation q rest).denote defer rounds s session =
      q.denote defer rounds s session := by
  cases rest with
  | nil => rfl
  | cons r rest => rw [denote_alternation_cons, Run.bind_of_not_fails h, bind_pure]

/-- Refused alternatives at the front of a row are left behind. -/
theorem denote_alternation_of_refusals {q : Parser} {rest : List Parser} :
    ∀ {before : List Parser} {p : Parser} {ts : List State} {session : Session},
      Refusals (fun q => q.denote defer rounds s) (p :: before) session ts middle →
      (alternation p (before ++ q :: rest)).denote defer rounds s session =
        (alternation q rest).denote defer rounds s middle := by
  intro before
  induction before with
  | nil =>
      intro p ts session h
      cases h with
      | cons hrun hfailed hrest =>
          cases hrest
          rw [List.nil_append, denote_alternation_cons, Run.bind_of_done hrun, if_pos hfailed]
  | cons r before ih =>
      intro p ts session h
      cases h with
      | cons hrun hfailed hrest =>
          rw [List.cons_append, denote_alternation_cons, Run.bind_of_done hrun, if_pos hfailed,
            ih hrest]

/-- A row of refused alternatives returns the failure of the last one. -/
theorem denote_alternation_of_refused :
    ∀ {ps : List Parser} {p : Parser} {ts : List State} {session : Session},
      Refusals (fun q => q.denote defer rounds s) (p :: ps) session ts after →
      ∃ t, ts.getLast? = some t ∧
        (alternation p ps).denote defer rounds s session = (.done t, after) := by
  intro ps
  induction ps with
  | nil =>
      intro p ts session h
      cases h with
      | cons hrun hfailed hrest =>
          cases hrest
          exact ⟨_, rfl, hrun⟩
  | cons q ps ih =>
      intro p ts session h
      cases h with
      | cons hrun hfailed hrest =>
          obtain ⟨t, hlast, hrow⟩ := ih hrest
          refine ⟨t, ?_, ?_⟩
          · rw [List.getLast?_cons, hlast]
            rfl
          · rw [denote_alternation_cons, Run.bind_of_done hrun, if_pos hfailed, hrow]

end

section

variable {rules : Rules} {fuel frame : Nat} {s : State} {session middle after : Session}

/-- A row runs as the first alternative that does not fail. -/
theorem eval_alternation_of_taken {p q : Parser} {ps before rest : List Parser} {ts : List State}
    (heq : p :: ps = before ++ q :: rest)
    (hbefore : Refusals (fun q => q.eval rules fuel frame s) before session ts middle)
    (hq : ¬∃ after, (q.eval rules fuel frame s).Fails middle after) :
    (alternation p ps).eval rules fuel frame s session = q.eval rules fuel frame s middle := by
  simp only [eval_eq_denote rules fuel _ frame s] at hbefore hq ⊢
  cases before with
  | nil =>
      obtain ⟨rfl, rfl⟩ := List.cons.inj heq
      cases hbefore
      exact denote_alternation_of_not_fails ps hq
  | cons r before =>
      rw [List.cons_append] at heq
      obtain ⟨rfl, rfl⟩ := List.cons.inj heq
      rw [denote_alternation_of_refusals hbefore, denote_alternation_of_not_fails rest hq]

/-- An alternation fails as the last of its alternatives does. -/
theorem eval_alternation_of_refused {p : Parser} {ps : List Parser} {ts : List State}
    (h : Refusals (fun q => q.eval rules fuel frame s) (p :: ps) session ts after) :
    ∃ t, ts.getLast? = some t ∧
      (alternation p ps).eval rules fuel frame s session = (.done t, after) := by
  simp only [eval_eq_denote rules fuel _ frame s] at h ⊢
  exact denote_alternation_of_refused h

-- ================================================================ the two ways

/-- From a failed state all parsers do the same. -/
theorem sameButFailures_of_failed (hs : s.failed = true) (p q : Parser) (session : Session) :
    (p.eval rules fuel frame s).SameButFailures (q.eval rules fuel frame s) session := by
  left
  rw [eval_eq_denote, eval_eq_denote, denote_of_failed p hs, denote_of_failed q hs]

/-- A choice and a row of the same alternatives run alike, unless all of these fail. -/
theorem choice_sameButFailures (p : Parser) (ps : List Parser) (s : State) (session : Session) :
    ((choice (p :: ps)).eval rules fuel frame s).SameButFailures
      ((alternation p ps).eval rules fuel frame s) session := by
  by_cases hs : s.failed = true
  · exact sameButFailures_of_failed hs _ _ session
  rw [Bool.not_eq_true] at hs
  rcases taken_or_refused (fun q => q.eval rules fuel frame s) (p :: ps) session with
    ⟨before, q, rest, ts, middle, heq, hbefore, hq⟩ | ⟨ts, after, hall⟩
  · left
    rw [eval_alternation_of_taken heq hbefore hq, heq]
    exact eval_choice_of_taken hs hbefore hq rest
  · right
    obtain ⟨t, hlast, hrow⟩ := eval_alternation_of_refused hall
    exact ⟨after, ⟨_, s.failChoice_failed _, eval_choice_of_refused hs hall⟩,
      t, hall.failed t (List.mem_of_getLast? hlast), hrow⟩

/-- A choice may be taken apart into a choice of two choices; they run alike, unless all
alternatives fail. -/
theorem choice_append_sameButFailures (ps qs : List Parser) (s : State) (session : Session) :
    ((choice (ps ++ qs)).eval rules fuel frame s).SameButFailures
      ((choice [choice ps, choice qs]).eval rules fuel frame s) session := by
  by_cases hs : s.failed = true
  · exact sameButFailures_of_failed hs _ _ session
  rw [Bool.not_eq_true] at hs
  rcases taken_or_refused (fun q => q.eval rules fuel frame s) ps session with
    ⟨before, q, rest, ts, middle, rfl, hbefore, hq⟩ | ⟨ts, middle, hps⟩
  · -- the alternative that is taken is one of the first choice
    left
    have hfirst := eval_choice_of_taken hs hbefore hq rest
    rw [List.append_assoc, List.cons_append, eval_choice_of_taken hs hbefore hq, ← hfirst]
    have hnested := Run.not_fails_of_eq hfirst hq
    exact (eval_choice_of_taken hs (.nil session) hnested [choice qs]).symm
  · have hfirst : Refusals (fun q => q.eval rules fuel frame s) [choice ps] session
        [s.failChoice (ts.map State.error)] middle :=
      .cons (eval_choice_of_refused hs hps) (s.failChoice_failed _) (.nil middle)
    rcases taken_or_refused (fun q => q.eval rules fuel frame s) qs middle with
      ⟨before, q, rest, us, last, rfl, hbefore, hq⟩ | ⟨us, last, hqs⟩
    · -- the alternative that is taken is one of the second choice
      left
      have hsecond := eval_choice_of_taken hs hbefore hq rest
      rw [← List.append_assoc, eval_choice_of_taken hs (hps.append hbefore) hq, ← hsecond]
      have hnested := Run.not_fails_of_eq hsecond hq
      exact (eval_choice_of_taken hs hfirst hnested []).symm
    · -- all alternatives are refused, and so are both choices
      right
      have hsecond := eval_choice_of_refused hs hqs
      have hboth := hfirst.append (.cons hsecond (s.failChoice_failed _) (.nil last))
      exact ⟨last, ⟨_, s.failChoice_failed _, eval_choice_of_refused hs (hps.append hqs)⟩,
        _, s.failChoice_failed _, eval_choice_of_refused hs hboth⟩

end

/-- Alternatives in a choice and in a row. From a live state, both run as the first alternative that
does not fail, in the session that those before it leave, and no alternative behind it is run. If
there is none, the choice fails in the state it started from, with the index and the messages of all
alternatives in order, and the row returns the failure of the last one; they leave one session. So
one succeeds if and only if the other does, with the same state and the same events. In a row, the
grouping does not matter, not even for failures. And a choice succeeds if and only if the choice of
two choices, of its front and of its back, does, with the same state and the same events. -/
theorem choice_alternation (rules : Rules) (fuel frame : Nat) :
    (∀ (p : Parser) (ps : List Parser) (s : State) (session : Session), s.failed = false →
      (∃ before q rest ts middle, p :: ps = before ++ q :: rest ∧
        Refusals (fun q => q.eval rules fuel frame s) before session ts middle ∧
        (¬∃ after, (q.eval rules fuel frame s).Fails middle after) ∧
        (choice (p :: ps)).eval rules fuel frame s session = q.eval rules fuel frame s middle ∧
        (alternation p ps).eval rules fuel frame s session = q.eval rules fuel frame s middle) ∨
      ∃ ts t after, Refusals (fun q => q.eval rules fuel frame s) (p :: ps) session ts after ∧
        ts.getLast? = some t ∧
        (choice (p :: ps)).eval rules fuel frame s session =
          (.done (s.failWith ("choice: Unable to match with any parser at index " ++
            toString s.index ++ " (tried: " ++
            "; ".intercalate (ts.map fun t => t.error.display) ++ ")")), after) ∧
        (alternation p ps).eval rules fuel frame s session = (.done t, after)) ∧
    (∀ (p : Parser) (ps : List Parser) (s t : State) (session after : Session),
      t.failed = false →
        ((choice (p :: ps)).eval rules fuel frame s session = (.done t, after) ↔
          (alternation p ps).eval rules fuel frame s session = (.done t, after))) ∧
    (∀ (p q r : Parser) (s : State),
      ((p.orElse q).orElse r).eval rules fuel frame s =
        (p.orElse (q.orElse r)).eval rules fuel frame s) ∧
    (∀ (ps qs : List Parser) (s t : State) (session after : Session), t.failed = false →
      ((choice (ps ++ qs)).eval rules fuel frame s session = (.done t, after) ↔
        (choice [choice ps, choice qs]).eval rules fuel frame s session = (.done t, after))) := by
  refine ⟨?_, ?_, ?_, ?_⟩
  · intro p ps s session hs
    rcases taken_or_refused (fun q => q.eval rules fuel frame s) (p :: ps) session with
      ⟨before, q, rest, ts, middle, heq, hbefore, hq⟩ | ⟨ts, after, hall⟩
    · refine .inl ⟨before, q, rest, ts, middle, heq, hbefore, hq, ?_, ?_⟩
      · rw [heq]
        exact eval_choice_of_taken hs hbefore hq rest
      · exact eval_alternation_of_taken heq hbefore hq
    · obtain ⟨t, hlast, hrow⟩ := eval_alternation_of_refused hall
      refine .inr ⟨ts, t, after, hall, hlast, ?_, hrow⟩
      rw [eval_choice_of_refused hs hall]
      -- there is an alternative, so this is not the message of the empty choice
      cases hall with
      | cons hrun hfailed hrest =>
          rw [List.map_cons, State.failChoice_cons, ← List.map_cons, List.map_map]
          rfl
  · intro p ps s t session after hlive
    exact (choice_sameButFailures p ps s session).done_iff hlive
  · intro p q r s
    rw [eval_eq_denote, eval_eq_denote, denote_orElse_assoc]
  · intro ps qs s t session after hlive
    exact (choice_append_sameButFailures ps qs s session).done_iff hlive

end Parser

-- ================================================================ numbers with a fraction

namespace Fractions

/-- A number, a point and another number. -/
def fraction : Parser :=
  (Parser.digits.keepLeft (.symbol '.')).both .digits

/-- The text `42`, which only begins like a fraction. -/
def whole : State :=
  .initial (.text #['4', '2'])

/-- The text `x`. -/
def letter : State :=
  .initial (.text #['x'])

/-- A fraction or a number. On a number without a point the choice and the row both go on to the
second alternative, from the start of the text, and so do two choices in a choice, one of them
empty. On a letter both alternatives are refused, and each way fails as it does. -/
theorem choice_alternation_samples :
    let read : State := { whole with index := 2, result := .text "42" }
    (Parser.choice [fraction, .digits]).eval noRules 1 0 whole {} = (.done read, {}) ∧
      (Parser.alternation fraction [.digits]).eval noRules 1 0 whole {} = (.done read, {}) ∧
      (Parser.choice [.choice [], .choice [fraction, .digits]]).eval noRules 1 0 whole {} =
        (.done read, {}) ∧
      ∃ ts t after, Refusals (fun q => q.eval noRules 1 0 letter) [fraction, .digits] {} ts after ∧
        ts.getLast? = some t ∧
        (Parser.alternation fraction [.digits]).eval noRules 1 0 letter {} = (.done t, after) := by
  obtain ⟨htrial, hrow, -, happend⟩ := Parser.choice_alternation noRules 1 0
  have hchoice : (Parser.choice [fraction, .digits]).eval noRules 1 0 whole {} =
      (.done { whole with index := 2, result := .text "42" }, {}) := rfl
  refine ⟨hchoice, ?_, ?_, ?_⟩
  · exact (hrow fraction [.digits] whole _ {} {} rfl).mp hchoice
  · exact (happend [] [fraction, .digits] whole _ {} {} rfl).mp hchoice
  · have hfails : ((Parser.choice [fraction, .digits]).eval noRules 1 0 letter).Fails {} {} :=
      ⟨_, rfl, rfl⟩
    rcases htrial fraction [.digits] letter {} rfl with
      ⟨before, q, rest, ts, middle, -, -, hq, htaken, -⟩ | ⟨ts, t, after, hall, hlast, -, hrefused⟩
    · exact absurd ⟨{}, hfails⟩ (Run.not_fails_of_eq htaken hq)
    · exact ⟨ts, t, after, hall, hlast, hrefused⟩

end Fractions

end ParserAlgebra
