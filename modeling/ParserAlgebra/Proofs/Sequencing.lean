import ParserAlgebra.Proofs.Chaining

/-!
All ways to run parsers in a row are nested binds.

# The binds

`Parser.binds` runs parsers one after another by nested binds, keeps their results, and ends with a
value made of these. A sequence collects the results in a loop instead, but it hands the same states
to the same parsers (`denote_sequence`), so the failure of any of them is returned as it is. Every
other form, the two parsers that keep one result or both, and the parser between two others, is a
sequence with a function mapped over its list. That these are the same runs, from every state, needs
nothing but the laws of binds.

# Rows in two parts

A row may be cut in two, and the lists of the parts appended. The second part then starts with the
list of the first part for its result, where the whole row goes on with a single result. So the two
runs are not one and the same, but the left identity of binds says how they agree
(`eval_binds_append`). A counted repetition is a row of copies, and is cut in the same way.
-/
namespace ParserAlgebra

-- ================================================================ nested binds

namespace Parser

/-- Parsers in a row, bound to one another. The results, behind those that are there already, are
handed to `finish` for the result of all. -/
def binds (finish : List Value → Value) : List Parser → List Value → Parser
  | [], results => succeed (finish results)
  | p :: ps, results => p.chain fun r => binds finish ps (results ++ [r])

section

variable {defer : Deferred → State → Run State} {rounds : Nat}

theorem denote_succeed {s : State} (hs : s.failed = false) (v : Value) :
    (succeed v).denote defer rounds s = pure (s.withResult v) := by
  rw [denote, if_neg (State.not_failed hs)]

/-- Chains of the same parser to parsers that run alike run alike. -/
theorem denote_chain_congr (p : Parser) {f g : Value → Parser}
    (h : ∀ v s, (f v).denote defer rounds s = (g v).denote defer rounds s)
    (s : State) :
    (p.chain f).denote defer rounds s = (p.chain g).denote defer rounds s := by
  rw [denote_chain, denote_chain]
  congr 1
  funext t
  congr 1
  funext t
  exact h t.result t

/-- The loop over parsers in a row, and their binds. -/
theorem denoteAll_eq_binds (ps : List Parser) :
    ∀ results {s : State}, s.failed = false →
      denoteAll defer rounds ps results s =
        (binds .list ps results.reverse).denote defer rounds s := by
  induction ps with
  | nil =>
      intro results s hs
      rw [denoteAll, binds, denote_succeed hs]
  | cons p ps ih =>
      intro results s hs
      rw [denoteAll, binds, denote_chain]
      congr 1
      funext t
      by_cases ht : t.failed = true
      · rw [if_pos ht, State.andThen_of_failed ht]
      · rw [Bool.not_eq_true] at ht
        rw [if_neg (State.not_failed ht), State.andThen_of_live ht, ih _ ht, List.reverse_cons]

/-- A sequence is a row of continuations. -/
theorem denote_sequence (ps : List Parser) (s : State) :
    (sequence ps).denote defer rounds s =
      (binds .list ps []).denote defer rounds s := by
  by_cases hs : s.failed = true
  · rw [denote_of_failed _ hs, denote_of_failed _ hs]
  · rw [denote, if_neg hs]
    exact denoteAll_eq_binds ps [] (Bool.eq_false_iff.mpr hs)

/-- No times at all are the empty sequence. -/
theorem denote_count (n : Nat) (p : Parser) (s : State) :
    (count n p).denote defer rounds s =
      (binds .list (List.replicate n p) []).denote defer rounds s := by
  cases n with
  | zero => rfl
  | succ n => exact denote_sequence _ s

-- ================================================================ functions of the results

/-- A function of the last value may be applied where the binds end. -/
theorem denote_mapPure_binds (f : Value → Value) (finish : List Value → Value)
    (ps : List Parser) :
    ∀ results s,
      ((binds finish ps results).mapPure f).denote defer rounds s =
        (binds (fun vs => f (finish vs)) ps results).denote defer rounds s := by
  induction ps with
  | nil =>
      intro results s
      by_cases hs : s.failed = true
      · rw [denote_of_failed _ hs, denote_of_failed _ hs]
      · rw [Bool.not_eq_true] at hs
        have hlive : (s.withResult (finish results)).failed = false := hs
        rw [denote_mapPure_eq_chain, binds, denote_succeed_chain hs, binds, denote_succeed hlive,
          denote_succeed hs]
        rfl
  | cons p ps ih =>
      intro results s
      rw [denote_mapPure_eq_chain, binds, denote_chain_assoc, binds]
      refine denote_chain_congr p (fun r s => ?_) s
      rw [← denote_mapPure_eq_chain, ih]

theorem denote_mapPure_sequence (f : Value → Value) (ps : List Parser) (s : State) :
    ((sequence ps).mapPure f).denote defer rounds s =
      (binds (fun vs => f (.list vs)) ps []).denote defer rounds s := by
  rw [← denote_mapPure_binds, mapPure, mapPure, denote_map, denote_map, denote_sequence]

/-- A pair is a sequence of two, as a pair. -/
theorem denote_both (p q : Parser) (s : State) :
    (p.both q).denote defer rounds s =
      ((sequence [p, q]).mapPure fun v => .tuple [itemAt 0 v, itemAt 1 v]).denote defer rounds
        s := by
  rw [denote_mapPure_sequence]
  exact denote_chain_congr p (fun a s => denote_mapPure_eq_chain q _ s) s

/-- To keep the left is to keep the first of two. -/
theorem denote_keepLeft (p q : Parser) (s : State) :
    (p.keepLeft q).denote defer rounds s =
      ((sequence [p, q]).mapPure (itemAt 0)).denote defer rounds s := by
  rw [denote_mapPure_sequence]
  exact denote_chain_congr p (fun a s => denote_mapPure_eq_chain q _ s) s

/-- To keep the right is to keep the second of two. -/
theorem denote_keepRight (p q : Parser) (s : State) :
    (p.keepRight q).denote defer rounds s =
      ((sequence [p, q]).mapPure (itemAt 1)).denote defer rounds s := by
  rw [denote_mapPure_sequence]
  exact denote_chain_congr p (fun a s => (denote_chain_succeed q s).symm) s

/-- A parser between two others keeps the right one of two results, and then the left one. -/
theorem denote_between (left right p : Parser) (s : State) :
    (between left right p).denote defer rounds s =
      ((left.keepRight p).keepLeft right).denote defer rounds s := by
  rw [between, denote_mapPure_sequence, keepLeft, keepRight, denote_chain_assoc]
  refine denote_chain_congr left (fun _ s => ?_) s
  exact denote_chain_congr p (fun x s => (denote_mapPure_eq_chain right _ s).symm) s

end

end Parser

-- ================================================================ failures

/-- Parsers in a row that all succeed, each from the state and the session that the one before it
left. The second list holds the states after them. -/
inductive Passes (run : Parser → State → Run State) :
    List Parser → State → Session → List State → Session → Prop
  | nil (s : State) (session : Session) : Passes run [] s session [] session
  | cons {p : Parser} {ps : List Parser} {s t : State} {ts : List State}
      {session middle after : Session} (hrun : run p s session = (.done t, middle))
      (hlive : t.failed = false) (hrest : Passes run ps t middle ts after) :
      Passes run (p :: ps) s session (t :: ts) after

namespace Parser

section

variable {rules : Rules} {fuel frame : Nat}

theorem eval_chain (p : Parser) (next : Value → Parser) (s : State) :
    (p.chain next).eval rules fuel frame s =
      p.eval rules fuel frame s >>= fun t =>
        t.andThen fun t => (next t.result).eval rules fuel frame t := by
  simp only [eval_eq_denote rules fuel]
  exact denote_chain p next s

/-- The first failure in a row is that of the row. -/
theorem eval_binds_of_failed {finish : List Value → Value} {before rest : List Parser} {q : Parser}
    {s t : State} {ts : List State} {session middle after : Session}
    (hbefore : Passes (fun p => p.eval rules fuel frame) before s session ts middle)
    (hq : q.eval rules fuel frame (ts.getLastD s) middle = (.done t, after))
    (hfailed : t.failed = true) :
    ∀ results, (binds finish (before ++ q :: rest) results).eval rules fuel frame s session =
      (.done t, after) := by
  induction hbefore with
  | nil =>
      intro results
      rw [List.getLastD_nil] at hq
      rw [List.nil_append, binds, eval_chain, Run.bind_of_done hq, State.andThen_of_failed hfailed]
      rfl
  | cons hrun hlive hrest ih =>
      intro results
      rw [List.getLastD_cons] at hq
      rw [List.cons_append, binds, eval_chain, Run.bind_of_done hrun, State.andThen_of_live hlive]
      exact ih hq _

-- ================================================================ rows in two parts

/-- The list with another list behind it. -/
def appended : Value → Value → Value
  | .list front, .list back => .list (front ++ back)
  | _, back => back

/-- Results that are there already stand in front of the list. -/
theorem binds_append_results (front : List Value) (qs : List Parser) :
    ∀ results, binds .list qs (front ++ results) =
      binds (fun vs => .list (front ++ vs)) qs results := by
  induction qs with
  | nil => intro results; rfl
  | cons q qs ih =>
      intro results
      rw [binds, binds]
      congr 1
      funext r
      rw [List.append_assoc, ih]

/-- Results that are there already are appended to. -/
theorem eval_mapPure_appended (front : List Value) (qs : List Parser) (s : State) :
    ((binds .list qs []).mapPure (appended (.list front))).eval rules fuel frame s =
      (binds .list qs front).eval rules fuel frame s := by
  have hfront := binds_append_results front qs []
  rw [List.append_nil] at hfront
  rw [eval_eq_denote, eval_eq_denote, denote_mapPure_binds, hfront]
  rfl

/-- Nested binds start as their first parser does. -/
theorem fresh_binds {known : Deferred → Prop} (finish : List Value → Value) {ps : List Parser}
    (hps : firstFresh known ps) (results : List Value) : (binds finish ps results).Fresh known := by
  cases ps with
  | nil => trivial
  | cons p ps => exact hps

end

end Parser

/-- After one and the same computation, runs that go alike from there go alike as a whole. -/
theorem Run.goAlike_bind {α β : Type} {P : β → β → Prop} {x : Run α} {f g : α → Run β}
    {session : Session}
    (h : ∀ a middle, x session = (.done a, middle) → (f a).GoAlike P (g a) middle) :
    (x >>= f).GoAlike P (x >>= g) session := by
  unfold Run.GoAlike
  rcases hrun : x session with ⟨a | fault | _, middle⟩
  · rw [Run.bind_of_done hrun, Run.bind_of_done hrun]
    exact h a middle hrun
  · rw [Run.bind_of_raised hrun, Run.bind_of_raised hrun]
    exact .inr ⟨.raised fault, rfl⟩
  · rw [Run.bind_of_exhausted hrun, Run.bind_of_exhausted hrun]
    exact .inl ⟨rfl, rfl⟩

namespace Parser

section

variable {rules : Rules} {known : Deferred → Prop} {session : Session}

/-- Chains go alike when they go alike from where their first parser has ended. -/
theorem eval_chain_goAlike (hsession : session.Faithful rules) (p : Parser) {f g : Value → Parser}
    {fuel frame : Nat}
    (h : ∀ v t middle, middle.Faithful rules →
      ((f v).eval rules fuel frame t).GoAlike State.AgreeBut ((g v).eval rules fuel frame t) middle)
    (s : State) :
    ((p.chain f).eval rules fuel frame s).GoAlike State.AgreeBut
      ((p.chain g).eval rules fuel frame s) session := by
  rw [eval_chain, eval_chain]
  refine Run.goAlike_bind fun t middle hrun => ?_
  have hmiddle := eval_faithful hsession fuel p frame s
  rw [hrun] at hmiddle
  by_cases ht : t.failed = true
  · rw [State.andThen_of_failed ht, State.andThen_of_failed ht]
    exact .inr ⟨.done (.refl t), rfl⟩
  · rw [Bool.not_eq_true] at ht
    rw [State.andThen_of_live ht, State.andThen_of_live ht]
    exact h t.result t middle hmiddle

/-- A row goes as its two parts do, one after the other, if the second part does not start with a
parser that shows the list that the first part has left. -/
theorem eval_binds_append (hrules : rules.Fresh known)
    {qs : List Parser} (hqs : firstFresh known qs) (fuel frame : Nat) (ps : List Parser) :
    ∀ results s session, session.Faithful rules →
      ((binds .list (ps ++ qs) results).eval rules fuel frame s).GoAlike State.AgreeBut
        (((binds .list ps results).chain fun xs =>
          (binds .list qs []).mapPure (appended xs)).eval rules fuel frame s) session := by
  induction ps with
  | nil =>
      intro results s session hsession
      have hfresh : ((binds .list qs []).mapPure (appended (.list results))).Fresh known :=
        fresh_binds .list hqs []
      -- here the second part starts, behind a bind to the list of the first one
      rw [List.nil_append, ← eval_mapPure_appended]
      exact eval_succeed_chain hrules hsession (.list results)
        (f := fun xs => (binds .list qs []).mapPure (appended xs)) hfresh fuel frame s
  | cons p ps ih =>
      intro results s session hsession
      rw [List.cons_append, binds, binds, eval_eq_denote rules fuel ((p.chain _).chain _),
        denote_chain_assoc, ← eval_eq_denote]
      exact eval_chain_goAlike hsession p (fun r t middle hmiddle => ih _ t middle hmiddle) s

/-- A counted repetition goes as its two parts do. -/
theorem eval_count_add (hrules : rules.Fresh known)
    (hsession : session.Faithful rules) {p : Parser} (hp : p.Fresh known)
    (m n fuel frame : Nat) (s : State) :
    ((count (m + n) p).eval rules fuel frame s).GoAlike State.AgreeBut
      (((count m p).chain fun xs => (count n p).mapPure (appended xs)).eval rules fuel frame s)
      session := by
  have hcopies : firstFresh known (List.replicate n p) := by
    cases n with
    | zero => trivial
    | succ n => exact hp
  have hparts :
      ((count m p).chain fun xs => (count n p).mapPure (appended xs)).eval rules fuel frame s =
        ((binds .list (List.replicate m p) []).chain fun xs =>
          (binds .list (List.replicate n p) []).mapPure (appended xs)).eval rules fuel frame s := by
    simp only [eval_eq_denote rules fuel, denote_chain, mapPure, denote_map, denote_count]
  rw [eval_eq_denote, denote_count, ← eval_eq_denote, ← List.replicate_append_replicate, hparts]
  exact eval_binds_append hrules hcopies fuel frame _ [] s session hsession

end

/-- The forms of running parsers in a row. From every state, a sequence is nested binds that end
with the list of the results; so the failure of one of its parsers, behind others that succeed, is
returned as it is. Two parsers with both results, with the right one or the left one, and a parser
between two others, are a sequence and the part of its list that they name. All these are equations
of runs, with their events and faults. And a counted repetition goes as two that add up to it, one
after the other, with their lists appended, provided a bare trace, and a bare check that lets its
value through, stand only behind a parser that has succeeded: they leave one session and end in the
same fault or in states that agree but for the result of a failure, or neither ends. -/
theorem sequencing_forms (rules : Rules) (fuel frame : Nat) :
    (∀ (ps : List Parser) (s : State),
      (sequence ps).eval rules fuel frame s = (binds .list ps []).eval rules fuel frame s) ∧
    (∀ (before rest : List Parser) (q : Parser) (s t : State) (ts : List State)
        (session middle after : Session),
      Passes (fun p => p.eval rules fuel frame) before s session ts middle →
        q.eval rules fuel frame (ts.getLastD s) middle = (.done t, after) → t.failed = true →
        (sequence (before ++ q :: rest)).eval rules fuel frame s session = (.done t, after)) ∧
    (∀ (p q : Parser) (s : State),
      (p.both q).eval rules fuel frame s =
          ((sequence [p, q]).mapPure fun v => .tuple [itemAt 0 v, itemAt 1 v]).eval rules fuel frame
            s ∧
        (p.keepRight q).eval rules fuel frame s =
          ((sequence [p, q]).mapPure (itemAt 1)).eval rules fuel frame s ∧
        (p.keepLeft q).eval rules fuel frame s =
          ((sequence [p, q]).mapPure (itemAt 0)).eval rules fuel frame s) ∧
    (∀ (left right p : Parser) (s : State),
      (between left right p).eval rules fuel frame s =
          ((sequence [left, p, right]).mapPure (itemAt 1)).eval rules fuel frame s ∧
        (between left right p).eval rules fuel frame s =
          ((left.keepRight p).keepLeft right).eval rules fuel frame s) ∧
    (∀ (m n : Nat) (p : Parser) (known : Deferred → Prop) (s : State) (session : Session),
      rules.Fresh known → session.Faithful rules → p.Fresh known →
        ((count (m + n) p).eval rules fuel frame s).GoAlike State.AgreeBut
          (((count m p).chain fun xs => (count n p).mapPure (appended xs)).eval rules fuel frame s)
          session) := by
  refine ⟨fun ps s => ?_, ?_, fun p q s => ⟨?_, ?_, ?_⟩, fun left right p s => ⟨rfl, ?_⟩, ?_⟩
  · rw [eval_eq_denote, eval_eq_denote, denote_sequence]
  · intro before rest q s t ts session middle after hbefore hq hfailed
    rw [eval_eq_denote, denote_sequence, ← eval_eq_denote]
    exact eval_binds_of_failed hbefore hq hfailed []
  · rw [eval_eq_denote, eval_eq_denote, denote_both]
  · rw [eval_eq_denote, eval_eq_denote, denote_keepRight]
  · rw [eval_eq_denote, eval_eq_denote, denote_keepLeft]
  · rw [eval_eq_denote, eval_eq_denote, denote_between]
  · intro m n p known s session hrules hsession hp
    exact eval_count_add hrules hsession hp m n fuel frame s

end Parser

-- ================================================================ values in a row

namespace NestedList

/-- The text `1[`, a value and the beginning of another one. -/
def broken : State :=
  .initial (.text #['1', '['])

/-- The state behind the digit of `broken`. -/
def afterDigit : State :=
  { broken with index := 1, result := .text "1" }

/-- Of a digit and a letter in a row the letter is missing, and the failure of its parser is that of
the sequence. Of three values in a row the second is not closed: the whole row fails there with the
first value for its result, and the row in two parts with the list of the first part. -/
theorem sequencing_forms_samples :
    (∃ t after, (Parser.sequence [.digits, .letters, .digits]).eval noRules 1 0 broken {} =
        (.done t, after) ∧ t.failed = true ∧ t.index = 1) ∧
      ∃ t u, ((Parser.count (1 + 2) parser).eval rules 3 0 broken {}).1 = .done t ∧
        (((Parser.count 1 parser).chain fun xs =>
          (Parser.count 2 parser).mapPure (Parser.appended xs)).eval rules 3 0 broken {}).1 =
            .done u ∧
        t.failed = true ∧ t.result = .int 1 ∧ u.result = .list [.int 1] ∧ t.AgreeBut u := by
  constructor
  · obtain ⟨-, hfailure, -⟩ := Parser.sequencing_forms noRules 1 0
    have hletters : Parser.letters.eval noRules 1 0 afterDigit {} =
        (.done (afterDigit.failWith "letters: Couldn't match letters at index 1"), {}) := rfl
    have hpasses : Passes (fun p => p.eval noRules 1 0) [.digits] broken {} [afterDigit] {} :=
      .cons rfl rfl (.nil _ _)
    exact ⟨_, _, hfailure [.digits] [.digits] .letters broken _ _ {} {} {} hpasses hletters rfl,
      rfl, rfl⟩
  · obtain ⟨-, -, -, -, hcount⟩ := Parser.sequencing_forms rules 3 0
    have hempty := Session.faithful_empty rules
    have hrules := rules_fresh fun _ => True
    obtain ⟨t, ht, hfailed, hresult⟩ :
        ∃ t, ((Parser.count (1 + 2) parser).eval rules 3 0 broken {}).1 = .done t ∧
          t.failed = true ∧ t.result = .int 1 := by
      rw [Parser.eval_eq_apply hempty]
      exact ⟨_, rfl, rfl, rfl⟩
    obtain ⟨u, hu, hleft⟩ :
        ∃ u, (((Parser.count 1 parser).chain fun xs =>
          (Parser.count 2 parser).mapPure (Parser.appended xs)).eval rules 3 0 broken {}).1 =
            .done u ∧ u.result = .list [.int 1] := by
      rw [Parser.eval_eq_apply hempty]
      exact ⟨_, rfl, rfl⟩
    rcases hcount 1 2 parser (fun _ => True) broken {} hrules hempty (fresh _) with
      ⟨hout, -⟩ | ⟨hmatch, -⟩
    · rw [ht] at hout
      cases hout
    · rw [ht, hu] at hmatch
      cases hmatch with
      | done hagree => exact ⟨t, u, ht, hu, hfailed, hresult, hleft, hagree⟩

end NestedList

/-- To have no bare trace is not enough for the last form: a check that lets its value through gives
what the start had, which in the second of two parts is the list of the first. -/
theorem Parser.count_check_ne_chain :
    let p := check (.int 0) (.int 0) none
    let parts := (count 1 p).chain fun xs => (count 1 p).mapPure (appended xs)
    let s : State := { input := .text #[], result := .int 7 }
    p.Every Untraced ∧ s.failed = false ∧
      ((count (1 + 1) p).eval noRules 0 0 s {}).1 =
        .done (s.withResult (.list [.int 7, .int 7])) ∧
      (parts.eval noRules 0 0 s {}).1 =
        .done (s.withResult (.list [.int 7, .list [.int 7]])) ∧
      (Value.list [.int 7, .int 7]) ≠ .list [.int 7, .list [.int 7]] :=
  ⟨trivial, rfl, rfl, rfl, nofun⟩

end ParserAlgebra
