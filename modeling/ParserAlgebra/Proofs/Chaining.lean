import ParserAlgebra.Proofs.Dependence
import ParserAlgebra.Proofs.Desugaring
import ParserAlgebra.Proofs.Stepping

/-!
Parsers and `chain` obey the laws of a monad, as far as states can tell.

# Failed states are absorbed

A parser returns a failed state as it is. So the run of `m.chain f` is the run of `m`, followed by
what `f` selects or by nothing, from every state: a failed start needs no case of its own
(`denote_chain`, `denote_map`). From here on three of the laws are the laws of the monad that runs
live in, and hold as equations of runs: with the same state, the same events and the same faults.

# The left identity

The fourth law is different. `succeed v` leaves its value behind as the result of the state, so
`(succeed v).chain f` runs `f v` from another state than `f v` alone does. No parser without a bare
trace can tell (`Parser.eval_follows`), but where it fails the value may still be there. The
two states then agree in everything but this leftover (`State.AgreeBut`).
-/
namespace ParserAlgebra

-- ================================================================ runs in a row

section

variable {defer : Deferred → State → Run State} {rounds : Nat}

/-- What follows a state: nothing if it is failed. -/
def State.andThen (t : State) (next : State → Run State) : Run State :=
  if t.failed then pure t else next t

theorem State.andThen_of_failed {t : State} (ht : t.failed = true) (next : State → Run State) :
    t.andThen next = pure t :=
  if_pos ht

theorem State.andThen_of_live {t : State} (ht : t.failed = false) (next : State → Run State) :
    t.andThen next = next t := by
  unfold andThen
  rw [ht]
  rfl

/-- A failed state stops a row of parsers wherever it comes from. -/
theorem State.andThen_bind (t : State) (next last : State → Run State) :
    (t.andThen next >>= fun u => u.andThen last) =
      t.andThen fun t => next t >>= fun u => u.andThen last := by
  unfold State.andThen
  by_cases ht : t.failed = true
  · simp [ht]
  · simp [ht]

namespace Parser

/-- The run of a chain, from a live state or a failed one. -/
theorem denote_chain (p : Parser) (next : Value → Parser) (s : State) :
    (p.chain next).denote defer rounds s =
      p.denote defer rounds s >>= fun t =>
        t.andThen fun t => (next t.result).denote defer rounds t := by
  by_cases hs : s.failed = true
  · rw [denote_of_failed _ hs, denote_of_failed _ hs, pure_bind, State.andThen_of_failed hs]
  · rw [denote, if_neg hs]
    rfl

/-- To map is to run, and then to ask the function about a success. -/
theorem denote_map (p : Parser) (f : Value → Answer Value) (s : State) :
    (p.map f).denote defer rounds s =
      p.denote defer rounds s >>= fun t =>
        t.andThen fun t => Run.ofAnswer (f t.result) >>= fun v => pure (t.withResult v) := by
  by_cases hs : s.failed = true
  · rw [denote_of_failed _ hs, denote_of_failed _ hs, pure_bind, State.andThen_of_failed hs]
  · rw [denote, if_neg hs]
    rfl

/-- Gives what a supplied function answered: its value after its events, or its fault. -/
def answering (answer : Answer Value) : Parser :=
  afterNoting answer.events <|
    match answer.outcome with
    | .ok value => .succeed value
    | .error fault => .raise fault

/-- An answer is given where it is asked for, with its events or its fault. -/
theorem denote_answering {s : State} (hs : s.failed = false) (answer : Answer Value) :
    (answering answer).denote defer rounds s =
      Run.ofAnswer answer >>= fun v => pure (s.withResult v) := by
  obtain ⟨events, outcome⟩ := answer
  rw [answering, denote_afterNoting hs]
  cases outcome with
  | ok value => rw [denote, if_neg (State.not_failed hs)]; rfl
  | error fault => rw [denote, if_neg (State.not_failed hs)]; rfl

-- ================================================================ three equations

/-- Two continuations in a row are one that has both. -/
theorem denote_chain_assoc (m : Parser) (f g : Value → Parser) (s : State) :
    ((m.chain f).chain g).denote defer rounds s =
      (m.chain fun v => (f v).chain g).denote defer rounds s := by
  rw [denote_chain, denote_chain, denote_chain, bind_assoc]
  congr 1
  funext t
  rw [State.andThen_bind]
  congr 1
  funext t
  rw [denote_chain]

/-- To go on with the result is to stop there. -/
theorem denote_chain_succeed (m : Parser) (s : State) :
    (m.chain .succeed).denote defer rounds s = m.denote defer rounds s := by
  have hsame : ∀ t : State,
      (t.andThen fun t => (succeed t.result).denote defer rounds t) = pure t := by
    intro t
    by_cases ht : t.failed = true
    · rw [State.andThen_of_failed ht]
    · rw [State.andThen_of_live (Bool.eq_false_iff.mpr ht), denote, if_neg ht]
      rfl
  rw [denote_chain, funext hsame, bind_pure]

/-- To map is to go on with the answer of the function. -/
theorem denote_map_eq_chain (m : Parser) (h : Value → Answer Value) (s : State) :
    (m.map h).denote defer rounds s =
      (m.chain fun v => answering (h v)).denote defer rounds s := by
  rw [denote_map, denote_chain]
  congr 1
  funext t
  by_cases ht : t.failed = true
  · rw [State.andThen_of_failed ht, State.andThen_of_failed ht]
  · rw [Bool.not_eq_true] at ht
    rw [State.andThen_of_live ht, State.andThen_of_live ht, denote_answering ht]

/-- For a plain function that is to go on with its value. -/
theorem denote_mapPure_eq_chain (m : Parser) (h : Value → Value) (s : State) :
    (m.mapPure h).denote defer rounds s =
      (m.chain fun v => .succeed (h v)).denote defer rounds s := by
  rw [mapPure, denote_map, denote_chain]
  congr 1
  funext t
  by_cases ht : t.failed = true
  · rw [State.andThen_of_failed ht, State.andThen_of_failed ht]
  · rw [Bool.not_eq_true] at ht
    rw [State.andThen_of_live ht, State.andThen_of_live ht, denote, if_neg (State.not_failed ht)]
    rfl

-- ================================================================ the left identity

/-- From a live state, the value is put into the state and the rest follows. -/
theorem denote_succeed_chain {s : State} (hs : s.failed = false) (v : Value)
    (f : Value → Parser) :
    ((succeed v).chain f).denote defer rounds s =
      (f v).denote defer rounds (s.withResult v) := by
  have hlive : (s.withResult v).failed = false := hs
  rw [denote_chain, denote, if_neg (State.not_failed hs), pure_bind]
  exact State.andThen_of_live hlive _

end Parser

end

/-- Two states that agree in all but the result that a failure leaves behind. -/
structure State.AgreeBut (t u : State) : Prop where
  input : u.input = t.input
  index : u.index = t.index
  failed : u.failed = t.failed
  error : u.error = t.error
  result : t.failed = false → u.result = t.result

theorem State.AgreeBut.refl (t : State) : t.AgreeBut t :=
  ⟨rfl, rfl, rfl, rfl, fun _ => rfl⟩

/-- States that keep the results of their starts differ in nothing else. -/
theorem State.Kept.agreeBut {s t u : State} {r : Value} (h : s.Kept r t u) : t.AgreeBut u := by
  cases h with
  | same => exact .refl t
  | stale hfailed hresult =>
      refine ⟨rfl, rfl, rfl, rfl, fun hlive => ?_⟩
      rw [hfailed] at hlive
      cases hlive

/-- Two computations in one session: neither ends, or they leave one and the same session and end in
the same fault or in values that `P` relates. -/
def Run.GoAlike {α : Type} (P : α → α → Prop) (x y : Run α) (session : Session) : Prop :=
  ((x session).1 = .exhausted ∧ (y session).1 = .exhausted) ∨
    ((x session).1.Matches P (y session).1 ∧ (y session).2 = (x session).2)

/-- Two computations of which each does as the other go alike. -/
theorem Run.Mirrors.goAlike {α : Type} {I : Cache → Prop} {P Q : α → α → Prop} {x y : Run α}
    (h : x.Mirrors I P y) (h' : y.Mirrors I Q x) {session : Session} (hI : I session.built) :
    x.GoAlike P y session := by
  rcases h session hI with hout | ⟨hmatch, hafter, -⟩
  · rcases h' session hI with hout' | ⟨hmatch', -, -⟩
    · exact .inl ⟨hout, hout'⟩
    · rw [hout] at hmatch'
      exact absurd hmatch' Outcome.not_matches_exhausted
  · exact .inr ⟨hmatch, hafter⟩

section

variable {rules : Rules} {known : Deferred → Prop} {session : Session}

/-- The run of a fresh parser goes as its run from another result. -/
theorem Parser.eval_agreeBut (hrules : rules.Fresh known)
    (hsession : session.Faithful rules) {p : Parser} (hp : p.Fresh known)
    (fuel frame : Nat) (s : State) (r : Value) :
    (p.eval rules fuel frame s).GoAlike State.AgreeBut (p.eval rules fuel frame (s.withResult r))
      session := by
  have hfollows := p.eval_follows hrules.supplies (Nat.le_refl fuel) frame
  -- the two starts change places, so that neither run can go on where the other has ended
  have hthere := (hfollows s r (.inl hp)).mono fun t u h => h.agreeBut
  have hback := hfollows (s.withResult r) s.result (.inl hp)
  exact hthere.goAlike hback hsession

/-- Binding a value to `f` goes as `f` at the value, from a live state or a failed one. -/
theorem Parser.eval_succeed_chain (hrules : rules.Fresh known)
    (hsession : session.Faithful rules) (v : Value) {f : Value → Parser}
    (hf : (f v).Fresh known) (fuel frame : Nat) (s : State) :
    ((f v).eval rules fuel frame s).GoAlike State.AgreeBut
      (((succeed v).chain f).eval rules fuel frame s) session := by
  rw [eval_eq_denote rules fuel ((succeed v).chain f)]
  by_cases hs : s.failed = true
  · rw [eval_eq_denote, denote_of_failed _ hs, denote_of_failed _ hs]
    exact .inr ⟨.done (.refl s), rfl⟩
  · rw [Bool.not_eq_true] at hs
    rw [denote_succeed_chain hs, ← eval_eq_denote]
    exact eval_agreeBut hrules hsession hf fuel frame s v

end

-- ================================================================ the laws

/-- The laws of a monad, for runs in any session and from any state. Chains may be grouped either
way; to succeed with what was read changes nothing; and a mapped function is a chain to the parser
that gives its answer, which for a function that only computes is `succeed`. These are equations:
of states, of events, of faults, and of what the session remembers. Binding `v` to `f` is `f v`,
provided a bare trace, and a bare check that lets its value through, stand only behind a parser that
has succeeded, in `f v` and in what its deferred nodes stand for: the two runs leave one session and
end in the same fault or in states that agree but for the result of a failure, or neither ends. -/
theorem Parser.chain_laws (rules : Rules) (fuel frame : Nat) :
    (∀ (m : Parser) (f g : Value → Parser) (s : State),
      ((m.chain f).chain g).eval rules fuel frame s =
        (m.chain fun v => (f v).chain g).eval rules fuel frame s) ∧
    (∀ (m : Parser) (s : State),
      (m.chain .succeed).eval rules fuel frame s = m.eval rules fuel frame s) ∧
    (∀ (m : Parser) (h : Value → Answer Value) (s : State),
      (m.map h).eval rules fuel frame s =
        (m.chain fun v => answering (h v)).eval rules fuel frame s) ∧
    (∀ (m : Parser) (h : Value → Value) (s : State),
      (m.mapPure h).eval rules fuel frame s =
        (m.chain fun v => .succeed (h v)).eval rules fuel frame s) ∧
    (∀ (v : Value) (f : Value → Parser) (known : Deferred → Prop) (s : State) (session : Session),
      rules.Fresh known → session.Faithful rules → (f v).Fresh known →
        ((f v).eval rules fuel frame s).GoAlike State.AgreeBut
          (((succeed v).chain f).eval rules fuel frame s) session) := by
  refine ⟨fun m f g s => ?_, fun m s => ?_, fun m h s => ?_, fun m h s => ?_, ?_⟩
  · rw [eval_eq_denote, eval_eq_denote, denote_chain_assoc]
  · rw [eval_eq_denote, eval_eq_denote, denote_chain_succeed]
  · rw [eval_eq_denote, eval_eq_denote, denote_map_eq_chain]
  · rw [eval_eq_denote, eval_eq_denote, denote_mapPure_eq_chain]
  · intro v f known s session hrules hsession hf
    exact eval_succeed_chain hrules hsession v hf fuel frame s

/-- On a list that is not closed both sides of the left identity fail, with the same index and
message, though one of them starts with another result. -/
theorem NestedList.chain_laws_unclosed :
    ∃ t u, (parser.eval rules 3 0 unclosed {}).1 = .done t ∧
      (((Parser.succeed .absent).chain fun _ => parser).eval rules 3 0 unclosed {}).1 = .done u ∧
      t.failed = true ∧ t.AgreeBut u := by
  have hempty := Session.faithful_empty rules
  obtain ⟨t, ht, hfailed⟩ :
      ∃ t, (parser.eval rules 3 0 unclosed {}).1 = .done t ∧ t.failed = true := by
    rw [Parser.eval_eq_apply hempty]
    exact ⟨_, rfl, rfl⟩
  have hrules := rules_fresh fun _ => True
  obtain ⟨-, -, -, -, hleft⟩ := Parser.chain_laws rules 3 0
  rcases hleft .absent (fun _ => parser) (fun _ => True) unclosed {} hrules hempty
    (fresh _) with ⟨hout, -⟩ | ⟨hmatch, -⟩
  · rw [ht] at hout
    cases hout
  · rw [ht] at hmatch
    generalize (((Parser.succeed .absent).chain fun _ => parser).eval rules 3 0 unclosed {}).1 =
      out at hmatch ⊢
    cases hmatch with
    | done h => exact ⟨t, _, ht, rfl, hfailed, h⟩

/-- To have no bare trace is not enough for the left identity: bound to a value, a check that lets
it through leaves it as the result, and alone it leaves what the start had. -/
theorem Parser.chain_check_ne_check :
    let f := fun v => check v (.int 5) none
    let s := State.initial (.text #[])
    ((succeed (.int 5)).chain f).Every Untraced ∧ (f (.int 5)).Every Untraced ∧
      (((succeed (.int 5)).chain f).eval noRules 0 0 s {}).1 = .done (s.withResult (.int 5)) ∧
      ((f (.int 5)).eval noRules 0 0 s {}).1 = .done s ∧ s.result ≠ .int 5 :=
  ⟨⟨trivial, trivial, fun _ => trivial⟩, trivial, rfl, rfl, nofun⟩

end ParserAlgebra
