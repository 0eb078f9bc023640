import ParserAlgebra.Proofs.NestedList

/-!
What the run of a parser depends on, and what it does not.

# Two runs side by side

A run is given a state, a session and an amount of fuel. Two of the things it is given do not
show in what it does. One is the fuel, as soon as there is enough of it. The other is the result
that the state brings along: it belongs to whatever was read before. So we put two runs side by
side, the second with at least as much fuel and from a state with any other result, and say that
they go alike: the same events, the same objects remembered, the same fault or matching states.

# Where the old result survives

A parser that succeeds puts its own result into the state, so after a success the two runs are in
one and the same state, and nothing can tell them apart any more. A failure may leave the result
of the start in place, and only there do the two states differ (`State.Kept`). Two parsers succeed
and keep the old result: the bare `trace`, and the bare `check` when it lets its value through. They
may stand behind a parser that has succeeded, as a check does in `expect`, but not where a run
starts; this is what `Parser.Fresh` asks of a tree. A tree that is not fresh still does not depend
on the fuel, so both facts come from one induction (`Parser.denote_follows`).
-/
namespace ParserAlgebra

-- ================================================================ two outcomes

section

variable {α β : Type}

/-- Two computations end alike: in values that `Q` relates, or in the same fault. -/
inductive Outcome.Matches (Q : α → α → Prop) : Outcome α → Outcome α → Prop
  | done {a b : α} (h : Q a b) : Outcome.Matches Q (.done a) (.done b)
  | raised (fault : Fault) : Outcome.Matches Q (.raised fault) (.raised fault)

namespace Outcome

variable {P Q : α → α → Prop} {R : β → β → Prop}

theorem matches_ofExcept (x : Except Fault α) : (ofExcept x).Matches Eq (ofExcept x) := by
  cases x with
  | ok a => exact .done rfl
  | error fault => exact .raised fault

/-- Outcomes in a row agree if the first do and what follows them does. -/
theorem matches_bind {x y : Outcome α} {f g : α → Outcome β} (hx : x.Matches P y)
    (hf : ∀ a b, P a b → (f a).Matches R (g b)) : (x >>= f).Matches R (y >>= g) := by
  cases hx with
  | done h => exact hf _ _ h
  | raised fault => exact .raised fault

theorem Matches.mono {x y : Outcome α} (h : x.Matches P y) (hPQ : ∀ a b, P a b → Q a b) :
    x.Matches Q y := by
  cases h with
  | done h => exact .done (hPQ _ _ h)
  | raised fault => exact .raised fault

/-- To agree in equal values is to be equal. -/
theorem Matches.eq {x y : Outcome α} (h : x.Matches Eq y) : x = y := by
  cases h with
  | done h => rw [h]
  | raised => rfl

/-- Nothing agrees with a run that does not end. -/
theorem not_matches_exhausted {x : Outcome α} : ¬x.Matches Q .exhausted := by
  intro h
  cases h

/-- The first parts are the same. -/
theorem matches_ofExcept_bind {x : Except Fault α} {f g : α → Except Fault β}
    (hf : ∀ a, (ofExcept (f a)).Matches R (ofExcept (g a))) :
    (ofExcept (x >>= f)).Matches R (ofExcept (x >>= g)) := by
  rw [ofExcept_bind, ofExcept_bind]
  refine matches_bind (matches_ofExcept x) ?_
  intro a a' heq
  subst heq
  exact hf a

end Outcome

-- ================================================================ two computations

/-- In every session whose cache satisfies `I`, the computation `x` runs out of fuel, or `y` does
the same as `x`: it leaves the same session, where `I` still holds, and ends alike. -/
def Run.Mirrors (I : Cache → Prop) (Q : α → α → Prop) (x y : Run α) : Prop :=
  ∀ session, I session.built →
    (x session).1 = .exhausted ∨
      ((x session).1.Matches Q (y session).1 ∧ (y session).2 = (x session).2 ∧
        I (x session).2.built)

namespace Run

variable {I : Cache → Prop} {P Q : α → α → Prop} {R : β → β → Prop}

theorem mirrors_pure {a b : α} (h : Q a b) : Mirrors I Q (pure a) (pure b) :=
  fun _ hI => .inr ⟨.done h, rfl, hI⟩

theorem mirrors_raise (fault : Fault) : Mirrors I Q (raise fault) (raise fault) :=
  fun _ hI => .inr ⟨.raised fault, rfl, hI⟩

/-- A run that does not end is mirrored by anything. -/
theorem mirrors_exhaust (y : Run α) : Mirrors I Q exhaust y :=
  fun _ _ => .inl rfl

/-- Answers with the same events. -/
theorem mirrors_ofAnswer {a b : Answer α} (hevents : b.events = a.events)
    (hmatch : (Outcome.ofExcept a.outcome).Matches Q (Outcome.ofExcept b.outcome)) :
    Mirrors I Q (ofAnswer a) (ofAnswer b) := by
  intro session hI
  right
  obtain ⟨events, outcome⟩ := a
  obtain ⟨events', outcome'⟩ := b
  subst hevents
  cases outcome with
  | ok a =>
      cases outcome' with
      | ok b => exact ⟨hmatch, rfl, hI⟩
      | error fault => cases hmatch
  | error fault =>
      cases outcome' with
      | ok b => cases hmatch
      | error fault' => exact ⟨hmatch, rfl, hI⟩

/-- Silent outcomes that agree. -/
theorem mirrors_ofExcept {a b : Except Fault α}
    (hmatch : (Outcome.ofExcept a).Matches Q (Outcome.ofExcept b)) :
    Mirrors I Q (ofExcept a) (ofExcept b) := by
  cases a with
  | ok a =>
      cases b with
      | ok b => cases hmatch with | done h => exact mirrors_pure h
      | error fault => cases hmatch
  | error fault =>
      cases b with
      | ok b => cases hmatch
      | error fault' => cases hmatch; exact mirrors_raise fault

/-- Computations in a row mirror each other if the first do and what follows them does. -/
theorem mirrors_bind {x y : Run α} {f g : α → Run β} (hx : Mirrors I P x y)
    (hf : ∀ a b, P a b → Mirrors I R (f a) (g b)) : Mirrors I R (x >>= f) (y >>= g) := by
  intro session hI
  rcases hrun : x session with ⟨out, after⟩
  rcases hrun' : y session with ⟨out', after'⟩
  have h := hx session hI
  rw [hrun, hrun'] at h
  obtain hout | ⟨hmatch, hafter, hkeep⟩ := h
  · left
    show (Run.bind x f session).1 = _
    rw [Run.bind, hrun]
    dsimp only at hout
    rw [hout]
  · dsimp only at hmatch hafter hkeep
    subst hafter
    cases hmatch with
    | done h =>
        rw [bind_of_done hrun, bind_of_done hrun']
        exact hf _ _ h _ hkeep
    | raised fault =>
        rw [bind_of_raised hrun, bind_of_raised hrun']
        exact .inr ⟨.raised fault, rfl, hkeep⟩

/-- A supplied function answers the same question in both runs. -/
theorem mirrors_ofAnswer_bind (answer : Answer α) {f g : α → Run β}
    (hf : ∀ a, Mirrors I R (f a) (g a)) :
    Mirrors I R (ofAnswer answer >>= f) (ofAnswer answer >>= g) := by
  refine mirrors_bind (mirrors_ofAnswer rfl (Outcome.matches_ofExcept answer.outcome)) ?_
  intro a a' heq
  subst heq
  exact hf a

/-- One silent outcome, and then computations that mirror each other. -/
theorem mirrors_ofExcept_bind (outcome : Except Fault α) {f g : α → Run β}
    (hf : ∀ a, Mirrors I R (f a) (g a)) :
    Mirrors I R (ofExcept outcome >>= f) (ofExcept outcome >>= g) := by
  refine mirrors_bind (mirrors_ofExcept (Outcome.matches_ofExcept outcome)) ?_
  intro a a' heq
  subst heq
  exact hf a

/-- The same events, and then computations that mirror each other. -/
theorem mirrors_note_bind (events : List Event) {x y : Run β} (hx : Mirrors I R x y) :
    Mirrors I R (note events >>= fun _ => x) (note events >>= fun _ => y) :=
  fun session hI => hx { session with history := session.history ++ events } hI

theorem mirrors_ensuring {x y : Run α} (hx : Mirrors I Q x y) (events : List Event) :
    Mirrors I Q (ensuring x events) (ensuring y events) := by
  intro session hI
  obtain hout | ⟨hmatch, hafter, hkeep⟩ := hx session hI
  · exact .inl hout
  · refine .inr ⟨hmatch, ?_, hkeep⟩
    exact congrArg (fun after : Session => { after with history := after.history ++ events }) hafter

theorem mirrors_ite {c : Prop} [Decidable c] {x x' y y' : Run α} (hx : Mirrors I Q x x')
    (hy : Mirrors I Q y y') : Mirrors I Q (if c then x else y) (if c then x' else y') := by
  split
  · exact hx
  · exact hy

/-- A computation mirrors itself. -/
theorem mirrors_self {x : Run α}
    (h : ∀ session, I session.built →
      I (x session).2.built ∧ ∀ a, (x session).1 = .done a → Q a a) : Mirrors I Q x x := by
  intro session hI
  obtain ⟨hkeep, hdone⟩ := h session hI
  rcases hout : (x session).1 with a | fault | _
  · exact .inr ⟨.done (hdone a hout), rfl, hkeep⟩
  · exact .inr ⟨.raised fault, rfl, hkeep⟩
  · exact .inl rfl

/-- Wherever the first computation ends, the second does exactly the same. -/
theorem Mirrors.run_eq {x y : Run α} (h : Mirrors (fun _ => True) Eq x y) {session : Session}
    (hends : (x session).1 ≠ .exhausted) : y session = x session := by
  obtain hout | ⟨hmatch, hafter, -⟩ := h session trivial
  · exact absurd hout hends
  · exact Prod.ext hmatch.eq.symm hafter

theorem Mirrors.mono {x y : Run α} (h : Mirrors I P x y) (hPQ : ∀ a b, P a b → Q a b) :
    Mirrors I Q x y := by
  intro session hI
  obtain hout | ⟨hmatch, hafter, hkeep⟩ := h session hI
  · exact .inl hout
  · exact .inr ⟨hmatch.mono hPQ, hafter, hkeep⟩

end Run

end

-- ================================================================ two states

/-- The two states in which runs that go alike end, from `s` and from `s` with the result `r`: they
are the same, or both are failed and each still has the result of its own start. -/
inductive State.Kept (s : State) (r : Value) : State → State → Prop
  | same (t : State) : State.Kept s r t t
  | stale (t : State) (hfailed : t.failed = true) (hresult : t.result = s.result) :
      State.Kept s r t (t.withResult r)

namespace State

@[simp] theorem withResult_failed (s : State) (r : Value) : (s.withResult r).failed = s.failed :=
  rfl

theorem kept_withError (s : State) (r message : Value) :
    Kept s r (s.withError message) ((s.withResult r).withError message) :=
  .stale (s.withError message) rfl rfl

/-- Failures for one reason, each with the result of its own start. -/
theorem kept_failWith (s : State) (r : Value) (message : String) :
    Kept s r (s.failWith message) ((s.withResult r).failWith message) :=
  s.kept_withError r _

/-- Where no result was exchanged the states are the same. -/
theorem Kept.eq {s t u : State} (h : Kept s s.result t u) : t = u := by
  cases h with
  | same => rfl
  | stale hfailed hresult =>
      rw [← hresult]
      rfl

-- ================================================================ leaves

section

variable (s : State) (r : Value)

/-- The test is asked the same, so it causes the same events. -/
theorem readToken_kept (test : Value → Answer Bool) (name : String) :
    ((s.withResult r).readToken test name).events = (s.readToken test name).events ∧
      (Outcome.ofExcept (s.readToken test name).outcome).Matches (Kept s r)
        (Outcome.ofExcept ((s.withResult r).readToken test name).outcome) := by
  have hinput : (s.withResult r).input.token (s.withResult r).index = s.input.token s.index := rfl
  rw [readToken, readToken, hinput]
  cases s.input.token s.index with
  | error fault => exact ⟨rfl, .raised fault⟩
  | ok token =>
      cases token with
      | none => exact ⟨rfl, .done (s.kept_failWith r _)⟩
      | some token =>
          show (Answer.bind (test token) _).events = (Answer.bind (test token) _).events ∧
            (Outcome.ofExcept (Answer.bind (test token) _).outcome).Matches _
              (Outcome.ofExcept (Answer.bind (test token) _).outcome)
          obtain ⟨events, outcome⟩ := test token
          rcases outcome with fault | passed
          · exact ⟨rfl, .raised fault⟩
          · cases passed with
            | true => exact ⟨rfl, .done (.same _)⟩
            | false => exact ⟨rfl, .done (s.kept_failWith r _)⟩

/-- To look for a literal does not depend on the result. -/
theorem readLiteral_kept (expected : Value) :
    (Outcome.ofExcept (s.readLiteral expected)).Matches (Kept s r)
      (Outcome.ofExcept ((s.withResult r).readLiteral expected)) := by
  refine Outcome.matches_ofExcept_bind fun atEnd => ?_
  cases atEnd with
  | true => exact .done (s.kept_failWith r _)
  | false =>
      refine Outcome.matches_ofExcept_bind fun found => ?_
      cases found with
      | true => exact .done (.same _)
      | false =>
          exact Outcome.matches_ofExcept_bind fun snippet => .done (s.kept_failWith r _)

/-- To try a pattern does not depend on the result. -/
theorem readPattern_kept (shape : Matcher) (name : String) :
    (Outcome.ofExcept (s.readPattern shape name)).Matches (Kept s r)
      (Outcome.ofExcept ((s.withResult r).readPattern shape name)) := by
  refine Outcome.matches_ofExcept_bind fun atEnd => ?_
  cases atEnd with
  | true => exact .done (s.kept_failWith r _)
  | false =>
      refine Outcome.matches_ofExcept_bind fun found => ?_
      cases found with
      | some stop => exact Outcome.matches_ofExcept_bind fun matched => .done (.same _)
      | none => exact .done (s.kept_failWith r _)

/-- To look for the end does not depend on the result. -/
theorem readEnd_kept :
    (Outcome.ofExcept s.readEnd).Matches (Kept s r)
      (Outcome.ofExcept (s.withResult r).readEnd) := by
  refine Outcome.matches_ofExcept_bind fun atEnd => ?_
  cases atEnd with
  | true => exact .done (.same _)
  | false => exact Outcome.matches_ofExcept_bind fun snippet => .done (s.kept_failWith r _)

/-- To read a bit does not depend on the result. -/
theorem readBit_kept :
    (Outcome.ofExcept s.readBit).Matches (Kept s r)
      (Outcome.ofExcept (s.withResult r).readBit) := by
  obtain ⟨input, index, result, failed, error⟩ := s
  cases input with
  | buffer kind data =>
      dsimp only [withResult, readBit]
      cases Input.bit? data index with
      | some b => exact .done (.same _)
      | none => exact .done (kept_failWith _ r _)
  | text | other =>
      refine Outcome.matches_ofExcept_bind fun token => ?_
      cases token with
      | none => exact .done (kept_failWith _ r _)
      | some token =>
          dsimp only
          cases token.integer? with
          | some n => exact .done (.same _)
          | none => exact .raised _

/-- What is not let through fails in both runs, with one message. -/
theorem checkValue_kept {value expected : Value} (h : value.alike expected = false)
    (message : Option (Value → Int → Answer Value)) :
    ((s.withResult r).checkValue value expected message).events =
        (s.checkValue value expected message).events ∧
      (Outcome.ofExcept (s.checkValue value expected message).outcome).Matches (Kept s r)
        (Outcome.ofExcept ((s.withResult r).checkValue value expected message).outcome) := by
  unfold checkValue
  rw [if_neg (Bool.eq_false_iff.mp h), if_neg (Bool.eq_false_iff.mp h)]
  cases message with
  | none => exact ⟨rfl, .done (s.kept_failWith r _)⟩
  | some message =>
      show (Answer.bind (message value (s.index - 1)) _).events =
          (Answer.bind (message value (s.index - 1)) _).events ∧
        (Outcome.ofExcept (Answer.bind (message value (s.index - 1)) _).outcome).Matches _
          (Outcome.ofExcept (Answer.bind (message value (s.index - 1)) _).outcome)
      obtain ⟨events, outcome⟩ := message value (s.index - 1)
      cases outcome with
      | ok text => exact ⟨rfl, .done (s.kept_withError r text)⟩
      | error fault => exact ⟨rfl, .raised fault⟩

end

end State

open State (Kept)

-- ================================================================ two ways to run a state

/-- `run'` goes as `run` does from every state. If `fresh`, it may start from another result. -/
def Follows (I : Cache → Prop) (fresh : Prop) (run run' : State → Run State) : Prop :=
  ∀ s r, fresh ∨ r = s.result → (run s).Mirrors I (Kept s r) (run' (s.withResult r))

section

variable {I : Cache → Prop} {fresh : Prop} {s : State} {r : Value}

/-- Less may be asked for where more is known. -/
theorem Follows.imp {fresh' : Prop} {run run' : State → Run State} (h : Follows I fresh run run')
    (himp : fresh' → fresh) : Follows I fresh' run run' :=
  fun s r hr => h s r (hr.imp_left himp)

theorem mirrors_kept {x y : Run State} (h : x.Mirrors I Eq y) : x.Mirrors I (Kept s r) y := by
  refine h.mono ?_
  intro t t' heq
  subst heq
  exact .same t

/-- Once both runs are in one state, what happened before them does not matter. -/
theorem Follows.again {run run' : State → Run State} (h : Follows I fresh run run') (t : State) :
    (run t).Mirrors I (Kept s r) (run' t) := by
  have hagain := h t t.result (.inr rfl)
  exact mirrors_kept (hagain.mono fun u v huv => huv.eq)

/-- A failed state is returned as it is. -/
theorem mirrors_live {x y : Run State} (h : x.Mirrors I (Kept s r) y) :
    (if s.failed then pure s else x).Mirrors I (Kept s r)
      (if (s.withResult r).failed then pure (s.withResult r) else y) := by
  rw [State.withResult_failed]
  by_cases hs : s.failed = true
  · rw [if_pos hs, if_pos hs]
    exact Run.mirrors_pure (.stale s hs rfl)
  · rw [if_neg hs, if_neg hs]
    exact h

/-- A failure is handed on; after a success the runs are in one state. -/
theorem mirrors_next {t u : State} (h : Kept s r t u) {x y : Run State}
    (hxy : u = t → x.Mirrors I (Kept s r) y) :
    (if t.failed then pure t else x).Mirrors I (Kept s r) (if u.failed then pure u else y) := by
  cases h with
  | same => exact Run.mirrors_ite (Run.mirrors_pure (.same t)) (hxy rfl)
  | stale hfailed hresult =>
      simp only [State.withResult_failed, hfailed, if_true]
      exact Run.mirrors_pure (.stale t hfailed hresult)

/-- A failure is forgotten, and the other way is tried from the start; a success is the end. -/
theorem mirrors_otherwise {t u : State} (h : Kept s r t u) {x y : Run State}
    (hx : x.Mirrors I (Kept s r) y) :
    (if t.failed then x else pure t).Mirrors I (Kept s r) (if u.failed then y else pure u) := by
  cases h with
  | same => exact Run.mirrors_ite hx (Run.mirrors_pure (.same t))
  | stale hfailed hresult =>
      simp only [State.withResult_failed, hfailed, if_true]
      exact hx

-- ================================================================ repetitions

-- A repetition has a result of its own however its last round ends, so both runs end in one state.

/-- Only the first round starts from different results; the list of results is the same. -/
theorem manyLoop_mirrors {attempt attempt' : State → Run State}
    (hattempt : Follows I fresh attempt attempt') {rounds rounds' : Nat} (hle : rounds ≤ rounds') :
    ∀ results s r, fresh ∨ r = s.result →
      (manyLoop attempt rounds results s).Mirrors I Eq
        (manyLoop attempt' rounds' results (s.withResult r)) := by
  induction rounds generalizing rounds' with
  | zero => intro results s r hr; exact Run.mirrors_exhaust _
  | succ rounds ih =>
      intro results s r hr
      obtain ⟨m, rfl⟩ : ∃ m, rounds' = m + 1 := ⟨rounds' - 1, by omega⟩
      rw [manyLoop, manyLoop]
      refine Run.mirrors_bind (hattempt s r hr) fun t u htu => ?_
      cases htu with
      | same =>
          refine Run.mirrors_ite (Run.mirrors_pure rfl) ?_
          exact ih (Nat.le_of_succ_le_succ hle) _ t t.result (.inr rfl)
      | stale hfailed hresult =>
          simp only [State.withResult_failed, hfailed, Bool.true_or, if_true]
          exact Run.mirrors_pure rfl

/-- The first value has succeeded, so the loop starts from one state in both runs. -/
theorem separatedLoop_mirrors {fresh' : Prop}
    {separator separator' value value' : State → Run State}
    (hseparator : Follows I fresh separator separator') (hvalue : Follows I fresh' value value')
    {rounds rounds' : Nat} (hle : rounds ≤ rounds') :
    ∀ results s, (separatedLoop separator value rounds results s).Mirrors I Eq
      (separatedLoop separator' value' rounds' results s) := by
  induction rounds generalizing rounds' with
  | zero => intro results s; exact Run.mirrors_exhaust _
  | succ rounds ih =>
      intro results s
      obtain ⟨m, rfl⟩ : ∃ m, rounds' = m + 1 := ⟨rounds' - 1, by omega⟩
      rw [separatedLoop, separatedLoop]
      refine Run.mirrors_bind (hseparator s s.result (.inr rfl)) fun t u htu => ?_
      rw [htu.eq]
      refine Run.mirrors_ite (Run.mirrors_pure rfl) ?_
      refine Run.mirrors_bind (hvalue u u.result (.inr rfl)) fun v w hvw => ?_
      rw [hvw.eq]
      exact Run.mirrors_ite (Run.mirrors_pure rfl) (ih (Nat.le_of_succ_le_succ hle) _ w)

/-- The first value starts from different results, and all rounds behind it from the same. -/
theorem separated_mirrors {fresh' : Prop} {separator separator' value value' : State → Run State}
    (hseparator : Follows I fresh' separator separator') (hvalue : Follows I fresh value value')
    {rounds rounds' : Nat} (hle : rounds ≤ rounds') (hr : fresh ∨ r = s.result) :
    (separated separator value rounds s).Mirrors I Eq
      (separated separator' value' rounds' (s.withResult r)) := by
  rw [separated, separated]
  refine Run.mirrors_bind (hvalue s r hr) fun t u htu => ?_
  cases htu with
  | same =>
      exact Run.mirrors_ite (Run.mirrors_pure rfl) (separatedLoop_mirrors hseparator hvalue hle _ t)
  | stale hfailed hresult =>
      simp only [State.withResult_failed, hfailed, if_true]
      exact Run.mirrors_pure rfl

-- ================================================================ all combinators

mutual

/-- A parser starts alike from any result. It does if the parts that run from the result of the
start do; nothing is asked of what runs behind a success. A bare check must not let its value
through, and deferred nodes have to be `known`. -/
def Parser.Fresh (known : Deferred → Prop) : Parser → Prop
  | .trace _ => False
  | .check value expected _ => value.alike expected = false
  | .deferred object => known object
  | .map p _ | .chain p _ | .errorMap p _ | .lookAhead p | .many p | .many1 p | .traced _ p =>
    p.Fresh known
  | .sepBy _ value | .sepBy1 _ value => value.Fresh known
  | .orElse p q => p.Fresh known ∧ q.Fresh known
  | .sequence ps => firstFresh known ps
  | .choice ps => allFresh known ps
  | .contextual _ program => program.Fresh known
  | _ => True

/-- The first of the parsers, if there is one, starts alike from any result. -/
def firstFresh (known : Deferred → Prop) : List Parser → Prop
  | [] => True
  | p :: _ => p.Fresh known

/-- All parsers start alike from any result. -/
def allFresh (known : Deferred → Prop) : List Parser → Prop
  | [] => True
  | p :: ps => p.Fresh known ∧ allFresh known ps

/-- The first parser that a step program hands out starts alike from any result. -/
def Program.Fresh (known : Deferred → Prop) : Program → Prop
  | .done _ => True
  | .step p _ => p.Fresh known
  | .noting _ rest => rest.Fresh known
  | .raise _ => True

end

/-- The rules build a parser that starts alike from any result for every deferred node that is
`known`. -/
def Rules.Fresh (rules : Rules) (known : Deferred → Prop) : Prop :=
  ∀ object p, known object → rules.tree object = .ok p → p.Fresh known

variable {known : Deferred → Prop} {defer defer' : Deferred → State → Run State}
  {rounds rounds' : Nat}

/-- In a row only the first parser starts from different results. -/
theorem denoteAll_follows (ps : List Parser)
    (h : ∀ p ∈ ps, Follows I (p.Fresh known)
      (p.denote defer rounds) (p.denote defer' rounds')) :
    ∀ results, Follows I (firstFresh known ps)
      (denoteAll defer rounds ps results) (denoteAll defer' rounds' ps results) := by
  induction ps with
  | nil =>
      intro results s r hr
      rw [denoteAll, denoteAll]
      exact Run.mirrors_pure (.same _)
  | cons p ps ih =>
      intro results s r hr
      obtain ⟨hp, hps⟩ := List.forall_mem_cons.mp h
      rw [denoteAll, denoteAll]
      refine Run.mirrors_bind (hp s r hr) fun t u htu => mirrors_next htu ?_
      intro heq
      subst heq
      exact (ih hps _).again u

/-- All alternatives start from different results. -/
theorem denoteFirst_follows (ps : List Parser)
    (h : ∀ p ∈ ps, Follows I (p.Fresh known)
      (p.denote defer rounds) (p.denote defer' rounds')) :
    ∀ errors, Follows I (allFresh known ps)
      (denoteFirst defer rounds ps errors) (denoteFirst defer' rounds' ps errors) := by
  induction ps with
  | nil =>
      intro errors s r hr
      rw [denoteFirst, denoteFirst]
      refine Run.mirrors_pure ?_
      unfold State.failChoice
      split
      · exact s.kept_failWith r _
      · exact s.kept_failWith r _
  | cons p ps ih =>
      intro errors s r hr
      obtain ⟨hp, hps⟩ := List.forall_mem_cons.mp h
      have hfirst := hp s r (hr.imp_left And.left)
      rw [denoteFirst, denoteFirst]
      refine Run.mirrors_bind hfirst fun t u htu => ?_
      have herror : u.error = t.error := by cases htu <;> rfl
      rw [herror]
      exact mirrors_otherwise htu (ih hps _ s r (hr.imp_left And.right))

/-- In a program only the first step starts from different results. -/
theorem Program.denote_follows (program : Program)
    (h : program.All fun p => Follows I (p.Fresh known)
      (p.denote defer rounds) (p.denote defer' rounds')) :
    Follows I (program.Fresh known)
      (program.denote defer rounds) (program.denote defer' rounds') := by
  induction program with
  | done value =>
      intro s r hr
      rw [Program.denote, Program.denote]
      exact Run.mirrors_pure (.same _)
  | step p next ih =>
      intro s r hr
      rw [Program.denote, Program.denote]
      refine Run.mirrors_bind (h.1 s r hr) fun t u htu => mirrors_next htu ?_
      intro heq
      subst heq
      exact (ih u.result (h.2 u.result)).again u
  | noting events rest ih =>
      intro s r hr
      rw [Program.denote, Program.denote]
      exact Run.mirrors_note_bind events (ih h s r hr)
  | raise fault =>
      intro s r hr
      rw [Program.denote, Program.denote]
      exact Run.mirrors_raise fault

/-- Two runs of one parser go alike once those of its deferred nodes do: from the same state in any
case, and from states with different results if all nodes are fresh. -/
theorem Parser.denote_follows (hle : rounds ≤ rounds')
    (hdefer : ∀ object, Follows I (known object) (defer object) (defer' object))
    (p : Parser) :
    Follows I (p.Fresh known) (p.denote defer rounds) (p.denote defer' rounds') := by
  induction p with
  | succeed value =>
      intro s r hr
      rw [Parser.denote, Parser.denote]
      exact mirrors_live (Run.mirrors_pure (.same _))
  | fail message =>
      intro s r hr
      rw [Parser.denote, Parser.denote]
      exact mirrors_live (Run.mirrors_pure (s.kept_withError r message))
  | satisfy test name =>
      intro s r hr
      rw [Parser.denote, Parser.denote]
      obtain ⟨hevents, hmatch⟩ := s.readToken_kept r test name
      exact mirrors_live (Run.mirrors_ofAnswer hevents hmatch)
  | literal expected =>
      intro s r hr
      rw [Parser.denote, Parser.denote]
      exact mirrors_live (Run.mirrors_ofExcept (s.readLiteral_kept r expected))
  | pattern shape name =>
      intro s r hr
      rw [Parser.denote, Parser.denote]
      exact mirrors_live (Run.mirrors_ofExcept (s.readPattern_kept r shape name))
  | endOfInput =>
      intro s r hr
      rw [Parser.denote, Parser.denote]
      exact mirrors_live (Run.mirrors_ofExcept (s.readEnd_kept r))
  | bit =>
      intro s r hr
      rw [Parser.denote, Parser.denote]
      exact mirrors_live (Run.mirrors_ofExcept (s.readBit_kept r))
  | jump target =>
      intro s r hr
      rw [Parser.denote, Parser.denote]
      refine mirrors_live (Run.mirrors_ofAnswer_bind (target s.index) fun place => ?_)
      exact Run.mirrors_pure (.same _)
  | check value expected message =>
      intro s r hr
      rw [Parser.denote, Parser.denote]
      obtain hother | rfl := hr
      · obtain ⟨hevents, hmatch⟩ := s.checkValue_kept r hother message
        exact mirrors_live (Run.mirrors_ofAnswer hevents hmatch)
      · refine mirrors_live (Run.mirrors_ofAnswer rfl ?_)
        exact (Outcome.matches_ofExcept _).mono fun t u heq => heq ▸ .same t
  | map p f ih =>
      intro s r hr
      rw [Parser.denote, Parser.denote]
      refine mirrors_live (Run.mirrors_bind (ih s r hr) fun t u htu => mirrors_next htu ?_)
      intro heq
      subst heq
      exact Run.mirrors_ofAnswer_bind (f u.result) fun value => Run.mirrors_pure (.same _)
  | chain p next ihp ihnext =>
      intro s r hr
      rw [Parser.denote, Parser.denote]
      refine mirrors_live (Run.mirrors_bind (ihp s r hr) fun t u htu => mirrors_next htu ?_)
      intro heq
      subst heq
      exact (ihnext u.result).again u
  | errorMap p f ih =>
      intro s r hr
      rw [Parser.denote, Parser.denote]
      refine mirrors_live (Run.mirrors_bind (ih s r hr) fun t u htu => ?_)
      cases htu with
      | same =>
          refine Run.mirrors_ite ?_ (Run.mirrors_pure (.same t))
          exact Run.mirrors_ofAnswer_bind _ fun text => Run.mirrors_pure (.same _)
      | stale hfailed hresult =>
          simp only [State.withResult_failed, hfailed, if_true]
          refine Run.mirrors_ofAnswer_bind (f t.error t.index) fun text => ?_
          exact Run.mirrors_pure (.stale (t.withError text) rfl hresult)
  | lookAhead p ih =>
      intro s r hr
      rw [Parser.denote, Parser.denote]
      refine mirrors_live (Run.mirrors_bind (ih s r hr) fun t u htu => mirrors_next htu ?_)
      intro heq
      subst heq
      exact Run.mirrors_pure (.same _)
  | many p ih =>
      intro s r hr
      rw [Parser.denote, Parser.denote]
      exact mirrors_live (mirrors_kept (manyLoop_mirrors ih hle [] s r hr))
  | many1 p ih =>
      intro s r hr
      rw [Parser.denote, Parser.denote]
      refine mirrors_live (Run.mirrors_bind (ih s r hr) fun t u htu => ?_)
      cases htu with
      | same =>
          refine Run.mirrors_ite (Run.mirrors_pure (s.kept_failWith r _)) ?_
          refine Run.mirrors_bind (manyLoop_mirrors ih hle [] t t.result (.inr rfl)) ?_
          intro rest rest' heq
          subst heq
          exact Run.mirrors_pure (.same _)
      | stale hfailed hresult =>
          simp only [State.withResult_failed, hfailed, if_true]
          exact Run.mirrors_pure (s.kept_failWith r _)
  | orElse p q ihp ihq =>
      intro s r hr
      rw [Parser.denote, Parser.denote]
      refine mirrors_live (Run.mirrors_bind (ihp s r (hr.imp_left And.left)) fun t u htu => ?_)
      exact mirrors_otherwise htu (ihq s r (hr.imp_left And.right))
  | sepBy separator value ihs ihv =>
      intro s r hr
      rw [Parser.denote, Parser.denote]
      exact mirrors_live (mirrors_kept (separated_mirrors ihs ihv hle hr))
  | sepBy1 separator value ihs ihv =>
      intro s r hr
      rw [Parser.denote, Parser.denote]
      refine mirrors_live (Run.mirrors_bind (separated_mirrors ihs ihv hle hr) ?_)
      intro t t' heq
      subst heq
      exact Run.mirrors_ite (Run.mirrors_pure (.same t)) (Run.mirrors_pure (s.kept_failWith r _))
  | sequence ps ih =>
      intro s r hr
      rw [Parser.denote, Parser.denote]
      exact mirrors_live (denoteAll_follows ps ih [] s r hr)
  | choice ps ih =>
      intro s r hr
      rw [Parser.denote, Parser.denote]
      exact mirrors_live (denoteFirst_follows ps ih [] s r hr)
  | contextual tag program ih =>
      intro s r hr
      rw [Parser.denote, Parser.denote]
      exact mirrors_live (Run.mirrors_ensuring (program.denote_follows ih s r hr) _)
  | deferred object =>
      intro s r hr
      rw [Parser.denote, Parser.denote]
      exact mirrors_live (hdefer object s r hr)
  | trace label =>
      intro s r hr
      obtain hfresh | rfl := hr
      · exact hfresh.elim
      · rw [Parser.denote, Parser.denote]
        refine mirrors_live (Run.mirrors_ofExcept_bind (s.entryLine label) fun line => ?_)
        exact Run.mirrors_note_bind _ (Run.mirrors_pure (.same s))
  | traced label p ih =>
      intro s r hr
      rw [Parser.denote, Parser.denote]
      refine mirrors_live (Run.mirrors_ofExcept_bind (s.entryLine label) fun line => ?_)
      refine Run.mirrors_note_bind _ (Run.mirrors_bind (ih s r hr) fun t u htu => ?_)
      cases htu with
      | same =>
          by_cases ht : t.failed = true
          · rw [if_pos ht]
            exact Run.mirrors_note_bind _ (Run.mirrors_pure (.same t))
          · rw [if_neg ht]
            exact Run.mirrors_pure (.same t)
      | stale hfailed hresult =>
          simp only [State.withResult_failed, hfailed, if_true]
          exact Run.mirrors_note_bind _ (Run.mirrors_pure (.stale t hfailed hresult))
  | raise fault =>
      intro s r hr
      rw [Parser.denote, Parser.denote]
      exact mirrors_live (Run.mirrors_raise fault)

end

-- ================================================================ rules

section

variable {rules : Rules} {I : Cache → Prop} {known : Deferred → Prop}

/-- Looking for the parser of a deferred node keeps `I`, and finds one that starts alike from any
result if the node is known. -/
def Rules.Supplies (rules : Rules) (I : Cache → Prop) (known : Deferred → Prop) : Prop :=
  ∀ frame object, (resolve rules frame object).Mirrors I
    (fun tree tree' => tree = tree' ∧ (known object → tree.parser.Fresh known))
    (resolve rules frame object)

/-- Whatever is found, it is the same in both runs. -/
theorem Rules.supplies_any (rules : Rules) : rules.Supplies (fun _ => True) fun _ => False := by
  intro frame object
  exact Run.mirrors_self fun session _ => ⟨trivial, fun tree _ => ⟨rfl, False.elim⟩⟩

/-- A faithful cache holds what the rules build for known objects. -/
theorem Rules.Fresh.supplies (hrules : rules.Fresh known) :
    rules.Supplies (Cache.Faithful rules) known := by
  intro frame object
  refine Run.mirrors_self fun session hfaithful => ?_
  obtain ⟨found, after, hkeep, hrun⟩ := resolve_finds rules frame object session hfaithful
  rw [hrun]
  refine ⟨hkeep, fun tree htree => ⟨rfl, fun hknown => ?_⟩⟩
  cases hp : rules.tree object with
  | ok p =>
      rw [hp] at htree
      rw [← Outcome.done.inj htree]
      exact hrules object p hknown hp
  | error fault =>
      rw [hp] at htree
      cases htree

/-- Deferred nodes follow each other at larger fuel, by induction on the smaller. -/
theorem Rules.deferral_follows (hsupplies : rules.Supplies I known) :
    ∀ {fuel fuel' : Nat}, fuel ≤ fuel' → ∀ frame object,
      Follows I (known object) (rules.deferral fuel frame object)
        (rules.deferral fuel' frame object) := by
  intro fuel
  induction fuel with
  | zero => intro fuel' hle frame object s r hr; exact Run.mirrors_exhaust _
  | succ fuel ih =>
      intro fuel' hle frame object s r hr
      obtain ⟨m, rfl⟩ : ∃ m, fuel' = m + 1 := ⟨fuel' - 1, by omega⟩
      refine Run.mirrors_bind (hsupplies frame object) ?_
      rintro tree _ ⟨rfl, hfresh⟩
      have hle : fuel ≤ m := Nat.le_of_succ_le_succ hle
      exact tree.parser.denote_follows hle (ih hle tree.frame) s r (hr.imp_left hfresh)

/-- Two runs of one parser with the rules of a grammar go alike, the second with more fuel. -/
theorem Parser.eval_follows (hsupplies : rules.Supplies I known) {fuel fuel' : Nat}
    (hle : fuel ≤ fuel') (p : Parser) (frame : Nat) :
    Follows I (p.Fresh known) (p.eval rules fuel frame) (p.eval rules fuel' frame) :=
  p.denote_follows hle (Rules.deferral_follows hsupplies hle frame)

-- ================================================================ the fuel

/-- At larger fuel a run goes the same way, as far as it goes. -/
theorem Parser.eval_mirrors (rules : Rules) {fuel fuel' : Nat} (hle : fuel ≤ fuel') (p : Parser)
    (frame : Nat) (s : State) :
    (p.eval rules fuel frame s).Mirrors (fun _ => True) Eq (p.eval rules fuel' frame s) :=
  (p.eval_follows rules.supplies_any hle frame s s.result (.inr rfl)).mono fun _ _ h => h.eq

/-- A run that ends does the same with more fuel. -/
theorem Parser.eval_mono (rules : Rules) {fuel fuel' : Nat} (hle : fuel ≤ fuel') (p : Parser)
    (frame : Nat) (s : State) {session : Session}
    (h : (p.eval rules fuel frame s session).1 ≠ .exhausted) :
    p.eval rules fuel' frame s session = p.eval rules fuel frame s session :=
  (p.eval_mirrors rules hle frame s).run_eq h

/-- So does the end of a run. -/
theorem Parser.apply_mono (rules : Rules) {fuel fuel' : Nat} (hle : fuel ≤ fuel') (p : Parser)
    (s : State) (h : p.apply rules fuel s ≠ .exhausted) :
    p.apply rules fuel' s = p.apply rules fuel s := by
  have hempty := Session.faithful_empty rules
  rw [← Parser.eval_eq_apply hempty fuel p 0 s] at h ⊢
  rw [← Parser.eval_eq_apply hempty fuel' p 0 s, Parser.eval_mono rules hle p 0 s h]

-- ================================================================ the previous result

/-- A run does not see the result it starts with, if a bare trace, and a bare check that lets its
value through, stand only behind a parser that has succeeded. From two states that differ in their
result alone, with one and the same session, both runs go on for ever, or both leave the same
session, with the same events and the same objects remembered. They raise the same fault or return
states with the same index, failure and message; a success has the same result in both, and a
failure has the same result or leaves each run with the result of its start. -/
theorem Parser.eval_withResult (hrules : rules.Fresh known) {session : Session}
    (hsession : session.Faithful rules) {p : Parser} (hp : p.Fresh known) (fuel frame : Nat)
    (s : State) (r : Value) :
    ((p.eval rules fuel frame s session).1 = .exhausted ∧
        (p.eval rules fuel frame (s.withResult r) session).1 = .exhausted) ∨
      ((p.eval rules fuel frame (s.withResult r) session).2 =
          (p.eval rules fuel frame s session).2 ∧
        (p.eval rules fuel frame s session).1.Matches
          (fun t u => u.input = t.input ∧ u.index = t.index ∧ u.failed = t.failed ∧
            u.error = t.error ∧ (t.failed = false → u.result = t.result) ∧
            (t.failed = true → u.result = t.result ∨ t.result = s.result ∧ u.result = r))
          (p.eval rules fuel frame (s.withResult r) session).1) := by
  have hfollows := p.eval_follows hrules.supplies (Nat.le_refl fuel) frame
  obtain hout | ⟨hmatch, hafter, -⟩ := hfollows s r (.inl hp) session hsession
  · -- the two starts change places: were the second run to end, so would the first
    refine .inl ⟨hout, ?_⟩
    obtain hout' | ⟨hmatch', -, -⟩ :=
      hfollows (s.withResult r) s.result (.inl hp) session hsession
    · exact hout'
    · have hback : (s.withResult r).withResult s.result = s := rfl
      rw [hback, hout] at hmatch'
      exact absurd hmatch' Outcome.not_matches_exhausted
  · refine .inr ⟨hafter, hmatch.mono fun t u htu => ?_⟩
    cases htu with
    | same => exact ⟨rfl, rfl, rfl, rfl, fun _ => rfl, fun _ => .inl rfl⟩
    | stale hfailed hresult =>
        refine ⟨rfl, rfl, rfl, rfl, fun hlive => ?_, fun _ => .inr ⟨hresult, rfl⟩⟩
        rw [hfailed] at hlive
        cases hlive

end

/-- Numbers and lists begin with what they read. -/
theorem NestedList.fresh (known : Deferred → Prop) : parser.Fresh known :=
  ⟨trivial, trivial, trivial⟩

theorem NestedList.rules_fresh (known : Deferred → Prop) : rules.Fresh known := by
  intro object p _ hp
  rw [eq_parser_of_tree hp]
  exact fresh known

/-- The text `[1,[`, before which a number was read. -/
def NestedList.unclosed : State where
  input := .text #['[', '1', ',', '[']
  result := .int 7

/-- On a list that is not closed both runs fail, with the same index and message, and with the
number read before or what is put in its place. -/
theorem NestedList.eval_withResult_unclosed :
    ∃ t u, (parser.eval rules 3 0 unclosed {}).1 = .done t ∧
      (parser.eval rules 3 0 (unclosed.withResult .absent) {}).1 = .done u ∧
      t.failed = true ∧ u.failed = t.failed ∧ u.index = t.index ∧ u.error = t.error ∧
      (u.result = t.result ∨ t.result = .int 7 ∧ u.result = .absent) := by
  have hempty := Session.faithful_empty rules
  obtain ⟨t, ht, hfailed⟩ :
      ∃ t, (parser.eval rules 3 0 unclosed {}).1 = .done t ∧ t.failed = true := by
    rw [Parser.eval_eq_apply hempty]
    exact ⟨_, rfl, rfl⟩
  obtain ⟨hout, -⟩ | ⟨-, hmatch⟩ := Parser.eval_withResult (rules_fresh fun _ => True)
    hempty (fresh _) 3 0 unclosed .absent
  · rw [ht] at hout
    cases hout
  · rw [ht] at hmatch
    generalize (parser.eval rules 3 0 (unclosed.withResult .absent) {}).1 = out at hmatch ⊢
    cases hmatch with
    | done h =>
        obtain ⟨-, hindex, hsame, herror, -, hresult⟩ := h
        exact ⟨t, _, ht, rfl, hfailed, hsame, hindex, herror, hresult hfailed⟩

/-- A node other than the bare trace. -/
def Parser.Untraced : Parser → Prop
  | .trace _ => False
  | _ => True

/-- To have no bare trace is not enough: a check that lets its value through succeeds with whatever
result it is given. -/
theorem Parser.eval_check_keeps_result :
    let p := check (.int 5) (.int 5) none
    let s : State := { input := .text #[], result := .int 1 }
    p.Every Untraced ∧ s.failed = false ∧
      (p.eval noRules 0 0 s {}).1 = .done s ∧
      (p.eval noRules 0 0 (s.withResult (.int 2)) {}).1 = .done (s.withResult (.int 2)) ∧
      (s.withResult (.int 2)).result ≠ s.result :=
  ⟨trivial, rfl, rfl, rfl, nofun⟩

end ParserAlgebra
