import ParserAlgebra.Proofs.NestedList

/-!
The cursor never moves back and never leaves the input.

# The relation

`s.Advances t` says that `t` has the input of `s`, an index at or after that of `s`, and an index
within the input unless `s` was already outside. How far an input reaches is `Input.extent`: the
characters of a text, eight units for every item of anything else, since the bit readers count
bits there.

# Why it is preserved

Each leaf satisfies it by what it reads (`readToken_advances` and its neighbours). The relation is
reflexive and transitive and does not look at result, failure or message, so every combinator
keeps it, whether it goes on from a state, goes back to an earlier one, or gives the state of a
failed attempt back. Two nodes are left out: `jump`, which goes anywhere, and a tuple of literals,
which moves by the size of the tuple and not by what stands in the input.
-/
namespace ParserAlgebra

-- ================================================================ the relation

/-- The greatest index that reading on an input leads to. -/
def Input.extent : Input → Nat
  | .text chars => chars.size
  | input => byteWidth * input.size

/-- A state that some parser may have reached from `s`. -/
structure State.Advances (s t : State) : Prop where
  input : t.input = s.input
  forward : s.index ≤ t.index
  within : t.index ≤ max s.index s.input.extent

/-- A token takes one position at least. -/
theorem Input.size_le_extent (input : Input) : input.size ≤ input.extent := by
  cases input with
  | text chars => exact Nat.le_refl _
  | buffer | other => exact Nat.le_mul_of_pos_left _ (by decide)

/-- There are tokens only before the end. -/
theorem Input.lt_size_of_token {input : Input} {i : Nat} {v : Value}
    (h : input.token i = .ok (some v)) : i < input.size := by
  unfold Input.token at h
  split at h
  · obtain ⟨c, hc, -⟩ := Option.map_eq_some_iff.mp (Except.ok.inj h)
    exact (Array.getElem?_eq_some_iff.mp hc).1
  · obtain ⟨b, hb, -⟩ := Option.map_eq_some_iff.mp (Except.ok.inj h)
    exact (Array.getElem?_eq_some_iff.mp hb).1
  · exact (List.getElem?_eq_some_iff.mp (Except.ok.inj h)).1
  · exact (List.getElem?_eq_some_iff.mp (Except.ok.inj h)).1
  · split at h
    · cases h
    · next hlt => exact Nat.lt_of_not_le hlt
  · cases h

/-- A text has no numbers among its tokens, so an input that has is measured in bits. -/
theorem Input.extent_of_integer {input : Input} {i : Nat} {v : Value} {n : Int}
    (h : input.token i = .ok (some v)) (hn : v.integer? = some n) :
    input.extent = byteWidth * input.size := by
  cases input with
  | text chars =>
      obtain ⟨c, -, rfl⟩ := Option.map_eq_some_iff.mp (Except.ok.inj h)
      cases hn
  | buffer | other => rfl

/-- There are bits only before the end. -/
theorem Input.lt_size_of_bit {data : Array UInt8} {i b : Nat} (h : bit? data i = some b) :
    i < byteWidth * data.size := by
  obtain ⟨byte, hbyte, -⟩ := Option.map_eq_some_iff.mp h
  have hlt : i / byteWidth < data.size := (Array.getElem?_eq_some_iff.mp hbyte).1
  rw [Nat.mul_comm]
  exact (Nat.div_lt_iff_lt_mul (by decide)).mp hlt

/-- A piece of an array that has the length asked for ends within the array. -/
theorem add_length_le_of_extract {α : Type} [BEq α] [LawfulBEq α] {items : Array α} {i : Nat}
    {expected : List α} (h : ((items.extract i (i + expected.length)).toList == expected) = true) :
    i + expected.length ≤ max i items.size := by
  have hlength := congrArg List.length (eq_of_beq h)
  rw [Array.length_toList, Array.size_extract] at hlength
  omega

/-- Two neighbouring segments make up the segment that they cover. -/
theorem toList_extract_append {α : Type} {items : Array α} {i k j : Nat} (hik : i ≤ k)
    (hkj : k ≤ j) :
    (items.extract i j).toList = (items.extract i k).toList ++ (items.extract k j).toList := by
  rw [← Array.toList_append, Array.extract_append_extract, Nat.min_eq_left hik,
    Nat.max_eq_right hkj]

/-- A single literal that stands in an input ends within it. -/
theorem Input.add_literalLength_le {input : Input} {i : Nat} {expected : Value}
    (htuple : ∀ items, expected ≠ .tuple items) (h : input.hasLiteral i expected = .ok true) :
    i + literalLength expected ≤ max i input.size := by
  unfold Input.hasLiteral at h
  split at h
  · cases h
  · cases h
  · exact absurd rfl (htuple _)
  · unfold hasLiteral.single at h
    split at h
    · have hle := add_length_le_of_extract (Except.ok.inj h)
      rwa [String.length_toList] at hle
    · have hle := add_length_le_of_extract (Except.ok.inj h)
      rwa [String.length_toList] at hle
    · exact add_length_le_of_extract (Except.ok.inj h)
    · cases h

namespace State

variable {s t u : State}

theorem Advances.refl (s : State) : s.Advances s :=
  ⟨rfl, Nat.le_refl _, Nat.le_max_left _ _⟩

/-- Moves that go forward add up, and each stays within the bound of the first. -/
theorem Advances.trans (hst : s.Advances t) (htu : t.Advances u) : s.Advances u := by
  refine ⟨htu.input.trans hst.input, Nat.le_trans hst.forward htu.forward, ?_⟩
  have h := htu.within
  rw [hst.input] at h
  have := hst.within
  omega

theorem Advances.withResult (h : s.Advances t) (result : Value) :
    s.Advances (t.withResult result) :=
  ⟨h.input, h.forward, h.within⟩

theorem Advances.withError (h : s.Advances t) (message : Value) :
    s.Advances (t.withError message) :=
  ⟨h.input, h.forward, h.within⟩

/-- Moving on by what the input still holds. -/
theorem advances_advance {index : Nat} (hforward : s.index ≤ index)
    (hwithin : index ≤ max s.index s.input.extent) (result : Value) :
    s.Advances (s.advance index result) :=
  ⟨rfl, hforward, hwithin⟩

-- ================================================================ leaves

/-- A failure stays where it is. -/
theorem advances_failWith (s : State) (message : String) : s.Advances (s.failWith message) :=
  (Advances.refl s).withError _

/-- What is not at the end is before it. -/
theorem index_lt_of_not_atEnd {s : State} (h : s.atEnd = .ok false) : s.index < s.input.size := by
  unfold atEnd at h
  split at h
  · exact Nat.lt_of_not_le (of_decide_eq_false (Except.ok.inj h))
  · cases h

/-- A token is one position, and is read only where there is one. -/
theorem readToken_advances (s : State) (test : Value → Answer Bool) (name : String) :
    (Outcome.ofExcept (s.readToken test name).outcome).Only s.Advances := by
  rw [readToken, Answer.outcome_bind, Outcome.ofExcept_bind]
  intro t ht
  obtain ⟨token, htoken, ht⟩ := Outcome.bind_eq_done ht
  cases token with
  | none => exact Outcome.only_done (advances_failWith s _) t ht
  | some token =>
      have hlt : s.index < s.input.size :=
        Input.lt_size_of_token (Outcome.ofExcept_eq_done htoken)
      have hle := s.input.size_le_extent
      rw [Answer.outcome_bind, Outcome.ofExcept_bind] at ht
      obtain ⟨passed, -, ht⟩ := Outcome.bind_eq_done ht
      cases passed with
      | true => exact Outcome.only_done (advances_advance (by omega) (by omega) token) t ht
      | false => exact Outcome.only_done (advances_failWith s _) t ht

/-- A literal moves the cursor by its length, and is there in full. A tuple of literals moves it by
the number of its items, which is why it is left out. -/
theorem readLiteral_advances (s : State) {expected : Value}
    (htuple : ∀ items, expected ≠ .tuple items) :
    (Outcome.ofExcept (s.readLiteral expected)).Only s.Advances := by
  rw [readLiteral, Outcome.ofExcept_bind]
  refine Outcome.only_bind_any fun atEnd => ?_
  cases atEnd with
  | true => exact Outcome.only_done (advances_failWith s _)
  | false =>
      intro t ht
      rw [if_neg Bool.false_ne_true, Outcome.ofExcept_bind] at ht
      obtain ⟨found, hfound, ht⟩ := Outcome.bind_eq_done ht
      cases found with
      | true =>
          have hle := Input.add_literalLength_le htuple (Outcome.ofExcept_eq_done hfound)
          have hextent := s.input.size_le_extent
          exact Outcome.only_done (advances_advance (by omega) (by omega) expected) t ht
      | false =>
          rw [if_neg Bool.false_ne_true, Outcome.ofExcept_bind] at ht
          obtain ⟨snippet, -, ht⟩ := Outcome.bind_eq_done ht
          exact Outcome.only_done (advances_failWith s _) t ht

/-- A match ends between its start and the end of the input. -/
theorem readPattern_advances (s : State) (shape : Matcher) (name : String) :
    (Outcome.ofExcept (s.readPattern shape name)).Only s.Advances := by
  rw [readPattern, Outcome.ofExcept_bind]
  intro t ht
  obtain ⟨atEnd, hend, ht⟩ := Outcome.bind_eq_done ht
  cases atEnd with
  | true => exact Outcome.only_done (advances_failWith s _) t ht
  | false =>
      have hlt := index_lt_of_not_atEnd (Outcome.ofExcept_eq_done hend)
      rw [if_neg Bool.false_ne_true, Outcome.ofExcept_bind] at ht
      obtain ⟨found, hfound, ht⟩ := Outcome.bind_eq_done ht
      cases found with
      | none => exact Outcome.only_done (advances_failWith s _) t ht
      | some stop =>
          obtain ⟨hforward, hwithin⟩ :=
            shape.bounds (Nat.le_of_lt hlt) (Outcome.ofExcept_eq_done hfound)
          have hextent := s.input.size_le_extent
          rw [Outcome.ofExcept_bind] at ht
          obtain ⟨matched, -, ht⟩ := Outcome.bind_eq_done ht
          exact Outcome.only_done (advances_advance hforward (by omega) matched) t ht

/-- To look for the end moves nothing. -/
theorem readEnd_advances (s : State) : (Outcome.ofExcept s.readEnd).Only s.Advances := by
  rw [readEnd, Outcome.ofExcept_bind]
  refine Outcome.only_bind_any fun atEnd => ?_
  cases atEnd with
  | true => exact Outcome.only_done ((Advances.refl s).withResult _)
  | false =>
      rw [if_neg Bool.false_ne_true, Outcome.ofExcept_bind]
      exact Outcome.only_bind_any fun snippet => Outcome.only_done (advances_failWith s _)

/-- A bit is one position, and is read only where there is one. -/
theorem readBit_advances (s : State) : (Outcome.ofExcept s.readBit).Only s.Advances := by
  unfold readBit
  split
  · next kind data hinput =>
      split
      · next b hb =>
          have hlt := Input.lt_size_of_bit hb
          have hextent : s.input.extent = Input.byteWidth * data.size := by rw [hinput]; rfl
          exact Outcome.only_done (advances_advance (by omega) (by omega) _)
      · exact Outcome.only_done (advances_failWith s _)
  · intro t ht
    rw [Outcome.ofExcept_bind] at ht
    obtain ⟨token, htoken, ht⟩ := Outcome.bind_eq_done ht
    cases token with
    | none => exact Outcome.only_done (advances_failWith s _) t ht
    | some token =>
        have hlt := Input.lt_size_of_token (Outcome.ofExcept_eq_done htoken)
        dsimp only at ht
        split at ht
        · next n hn =>
            have hextent := Input.extent_of_integer (Outcome.ofExcept_eq_done htoken) hn
            have hbits : s.index < s.input.size * Input.byteWidth :=
              (Nat.div_lt_iff_lt_mul (by decide)).mp hlt
            rw [Nat.mul_comm, ← hextent] at hbits
            exact Outcome.only_done (advances_advance (by omega) (by omega) _) t ht
        · cases ht

/-- A check reads nothing. -/
theorem checkValue_advances (s : State) (value expected : Value)
    (message : Option (Value → Int → Answer Value)) :
    (Outcome.ofExcept (s.checkValue value expected message).outcome).Only s.Advances := by
  unfold checkValue
  split
  · exact Outcome.only_done (Advances.refl s)
  · cases message with
    | none => exact Outcome.only_done (advances_failWith s _)
    | some message =>
        rw [Answer.outcome_bind, Outcome.ofExcept_bind]
        exact Outcome.only_bind_any fun text => Outcome.only_done ((Advances.refl s).withError text)

end State

-- ================================================================ combinators

open State (Advances)

open Outcome

/-- A failed state stays where it is. -/
theorem only_live {s : State} {x : Outcome State} (h : x.Only s.Advances) :
    (if s.failed then pure s else x).Only s.Advances :=
  only_ite (fun _ => only_done (.refl s)) fun _ => h

/-- Rounds that go forward add up. -/
theorem manyLoop_advances {attempt : State → Outcome State}
    (h : ∀ s, (attempt s).Only s.Advances) :
    ∀ rounds results s, (manyLoop attempt rounds results s).Only s.Advances := by
  intro rounds
  induction rounds with
  | zero => intro results s; exact only_exhausted
  | succ rounds ih =>
      intro results s
      rw [manyLoop]
      refine only_bind (h s) fun t hst => only_ite (fun _ => ?_) fun _ => ?_
      · exact only_done ((Advances.refl s).withResult _)
      · exact fun u hu => hst.trans (ih _ t u hu)

theorem separatedLoop_advances {separator value : State → Outcome State}
    (hseparator : ∀ s, (separator s).Only s.Advances) (hvalue : ∀ s, (value s).Only s.Advances) :
    ∀ rounds results s, (separatedLoop separator value rounds results s).Only s.Advances := by
  intro rounds
  induction rounds with
  | zero => intro results s; exact only_exhausted
  | succ rounds ih =>
      intro results s
      have hstay : Only s.Advances (.done (s.withResult (.list results.reverse))) :=
        only_done ((Advances.refl s).withResult _)
      rw [separatedLoop]
      refine only_bind (hseparator s) fun t hst => only_ite (fun _ => hstay) fun _ => ?_
      refine only_bind (hvalue t) fun u htu => only_ite (fun _ => hstay) fun _ => ?_
      exact fun v hv => (hst.trans htu).trans (ih _ u v hv)

/-- The first value and the rounds behind it go forward, or nothing is read. -/
theorem separated_advances {separator value : State → Outcome State}
    (hseparator : ∀ s, (separator s).Only s.Advances) (hvalue : ∀ s, (value s).Only s.Advances)
    (rounds : Nat) (s : State) : (separated separator value rounds s).Only s.Advances := by
  rw [separated]
  refine only_bind (hvalue s) fun first hfirst => only_ite (fun _ => ?_) fun _ => ?_
  · exact only_done ((Advances.refl s).withResult _)
  · exact fun t ht => hfirst.trans (separatedLoop_advances hseparator hvalue rounds _ first t ht)

/-- A node that moves the cursor only over what it reads. -/
def Parser.KeepsCursor : Parser → Prop
  | .jump _ => False
  | .literal expected => ∀ items, expected ≠ .tuple items
  | _ => True

/-- Such a node, where a deferred one promises what the parser it stands for does. -/
def Parser.Steady (tree : Deferred → State → Outcome State) : Parser → Prop
  | .deferred object => ∀ s, (tree object s).Only s.Advances
  | p => p.KeepsCursor

/-- The condition on nodes is enough, once deferred nodes go forward. -/
theorem Parser.Every.steady {tree : Deferred → State → Outcome State} {p : Parser}
    (hp : p.Every Parser.KeepsCursor) (htree : ∀ object s, (tree object s).Only s.Advances) :
    p.Every (Parser.Steady tree) := by
  refine hp.mono fun q hq => ?_
  cases q with
  | deferred object => exact htree object
  | _ => exact hq

section

variable {tree : Deferred → State → Outcome State} {rounds : Nat}

/-- Parsers one after another go forward, each from where the last one has ended. -/
theorem denoteAll_advances (ps : List Parser)
    (h : ∀ p ∈ ps, ∀ s, (p.denote tree rounds s).Only s.Advances) :
    ∀ results s, (denoteAll tree rounds ps results s).Only s.Advances := by
  induction ps with
  | nil =>
      intro results s
      rw [denoteAll]
      exact only_done ((Advances.refl s).withResult _)
  | cons p ps ih =>
      intro results s
      obtain ⟨hp, hps⟩ := List.forall_mem_cons.mp h
      rw [denoteAll]
      refine only_bind (hp s) fun t hst => only_ite (fun _ => only_done hst) fun _ => ?_
      exact fun u hu => hst.trans (ih hps _ t u hu)

/-- Every alternative goes forward from the one start. -/
theorem denoteFirst_advances (ps : List Parser)
    (h : ∀ p ∈ ps, ∀ s, (p.denote tree rounds s).Only s.Advances) :
    ∀ errors s, (denoteFirst tree rounds ps errors s).Only s.Advances := by
  induction ps with
  | nil =>
      intro errors s
      rw [denoteFirst]
      refine only_done ?_
      unfold State.failChoice
      split
      · exact s.advances_failWith _
      · exact s.advances_failWith _
  | cons p ps ih =>
      intro errors s
      obtain ⟨hp, hps⟩ := List.forall_mem_cons.mp h
      rw [denoteFirst]
      exact only_bind (hp s) fun t hst => only_ite (fun _ => ih hps _ s) fun _ => only_done hst

/-- The steps of a program go forward, each from where the last one has ended. -/
theorem Program.denote_advances (program : Program)
    (h : program.All fun p => ∀ s, (p.denote tree rounds s).Only s.Advances) :
    ∀ s, (program.denote tree rounds s).Only s.Advances := by
  induction program with
  | done value =>
      intro s
      rw [Program.denote]
      exact only_done ((Advances.refl s).withResult _)
  | step p next ih =>
      intro s
      rw [Program.denote]
      refine only_bind (h.1 s) fun t hst => only_ite (fun _ => only_done hst) fun _ => ?_
      exact fun u hu => hst.trans (ih t.result (h.2 t.result) t u hu)
  | noting events rest ih => intro s; rw [Program.denote]; exact ih h s
  | raise fault => intro s; rw [Program.denote]; exact only_raised fault

/-- Every parser of steady nodes keeps the cursor in order, whether it succeeds or fails. -/
theorem Parser.denote_advances (p : Parser) (hp : p.Every (Steady tree)) :
    ∀ s, (p.denote tree rounds s).Only s.Advances := by
  induction p with
  | succeed value =>
      intro s
      rw [Parser.denote]
      refine only_live ?_
      exact only_done ((Advances.refl s).withResult _)
  | fail message =>
      intro s
      rw [Parser.denote]
      refine only_live ?_
      exact only_done ((Advances.refl s).withError _)
  | satisfy test name =>
      intro s
      rw [Parser.denote]
      exact only_live (s.readToken_advances test name)
  | literal expected =>
      intro s
      rw [Parser.denote]
      exact only_live (s.readLiteral_advances hp)
  | pattern shape name =>
      intro s
      rw [Parser.denote]
      exact only_live (s.readPattern_advances shape name)
  | endOfInput =>
      intro s
      rw [Parser.denote]
      exact only_live s.readEnd_advances
  | bit =>
      intro s
      rw [Parser.denote]
      exact only_live s.readBit_advances
  | jump target => exact hp.elim
  | check value expected message =>
      intro s
      rw [Parser.denote]
      exact only_live (s.checkValue_advances value expected message)
  | map p f ih =>
      intro s
      rw [Parser.denote]
      refine only_live (only_bind (ih hp.2 s) fun t hst => ?_)
      refine only_ite (fun _ => only_done hst) fun _ => ?_
      exact only_bind_any fun value => only_done (hst.withResult value)
  | chain p next ihp ihnext =>
      intro s
      rw [Parser.denote]
      refine only_live ?_
      refine only_bind (ihp hp.2.1 s) fun t hst => ?_
      refine only_ite (fun _ => only_done hst) fun _ => ?_
      exact fun u hu => hst.trans (ihnext t.result (hp.2.2 t.result) t u hu)
  | errorMap p f ih =>
      intro s
      rw [Parser.denote]
      refine only_live (only_bind (ih hp.2 s) fun t hst => ?_)
      refine only_ite (fun _ => ?_) fun _ => only_done hst
      exact only_bind_any fun text => only_done (hst.withError text)
  | lookAhead p ih =>
      intro s
      rw [Parser.denote]
      refine only_live (only_bind (ih hp.2 s) fun t hst => ?_)
      refine only_ite (fun _ => only_done hst) fun _ => ?_
      exact only_done ((Advances.refl s).withResult _)
  | many p ih =>
      intro s
      rw [Parser.denote]
      refine only_live ?_
      exact manyLoop_advances (ih hp.2) rounds [] s
  | many1 p ih =>
      intro s
      rw [Parser.denote]
      refine only_live (only_bind (ih hp.2 s) fun first hfirst => ?_)
      refine only_ite (fun _ => only_done (s.advances_failWith _)) fun _ => ?_
      refine only_bind (manyLoop_advances (ih hp.2) rounds [] first) fun rest hrest => ?_
      exact only_done ((hfirst.trans hrest).withResult _)
  | orElse p q ihp ihq =>
      intro s
      rw [Parser.denote]
      refine only_live ?_
      refine only_bind (ihp hp.2.1 s) fun t hst => ?_
      exact only_ite (fun _ => ihq hp.2.2 s) fun _ => only_done hst
  | sepBy separator value ihs ihv =>
      intro s
      rw [Parser.denote]
      refine only_live ?_
      exact separated_advances (ihs hp.2.1) (ihv hp.2.2) rounds s
  | sepBy1 separator value ihs ihv =>
      intro s
      rw [Parser.denote]
      refine only_live ?_
      refine only_bind (separated_advances (ihs hp.2.1) (ihv hp.2.2) rounds s) fun t hst => ?_
      exact only_ite (fun _ => only_done hst) fun _ => only_done (s.advances_failWith _)
  | sequence ps ih =>
      intro s
      rw [Parser.denote]
      refine only_live (denoteAll_advances ps ?_ [] s)
      exact fun p hmem => ih p hmem (everyOf_iff.mp hp.2 p hmem)
  | choice ps ih =>
      intro s
      rw [Parser.denote]
      refine only_live (denoteFirst_advances ps ?_ [] s)
      exact fun p hmem => ih p hmem (everyOf_iff.mp hp.2 p hmem)
  | contextual tag program ih =>
      intro s
      rw [Parser.denote]
      refine only_live ?_
      exact program.denote_advances (ih.of_every hp.2) s
  | deferred object =>
      intro s
      rw [Parser.denote]
      exact only_live (hp s)
  | trace label =>
      intro s
      rw [Parser.denote]
      refine only_live ?_
      exact only_bind_any fun line => only_done (.refl s)
  | traced label p ih =>
      intro s
      rw [Parser.denote]
      refine only_live ?_
      exact only_bind_any fun line => ih hp.2 s
  | raise fault =>
      intro s
      rw [Parser.denote]
      exact only_live (only_raised fault)

end

-- ================================================================ rules

/-- Deferred nodes keep the cursor in order when the rules do. -/
theorem Rules.unfold_advances {rules : Rules} (hrules : rules.Every Parser.KeepsCursor) :
    ∀ fuel object s, (rules.unfold fuel object s).Only s.Advances := by
  intro fuel
  induction fuel with
  | zero => intro object s; exact only_exhausted
  | succ fuel ih =>
      intro object s t ht
      rw [Rules.unfold] at ht
      obtain ⟨p, hp, ht⟩ := bind_eq_done ht
      have hsteady := (hrules object p (ofExcept_eq_done hp)).steady ih
      exact p.denote_advances hsteady s t ht

/-- Whatever state a run returns, successful or failed: it has the input of the start, and its
index lies between that of the start and the end of the input, or is that of a start beyond the
end. -/
theorem Parser.eval_cursor {rules : Rules} (hrules : rules.Every KeepsCursor) {session : Session}
    (hsession : session.Faithful rules) {p : Parser} (hp : p.Every KeepsCursor) {fuel frame : Nat}
    {s t : State} (h : (p.eval rules fuel frame s session).1 = .done t) :
    t.input = s.input ∧ s.index ≤ t.index ∧ t.index ≤ max s.index s.input.extent := by
  rw [Parser.eval_eq_apply hsession, Parser.apply] at h
  have hsteady := hp.steady (Rules.unfold_advances hrules fuel)
  obtain ⟨hinput, hforward, hwithin⟩ := p.denote_advances hsteady s t h
  exact ⟨hinput, hforward, hwithin⟩

theorem NestedList.keepsCursor : parser.Every Parser.KeepsCursor := by
  simp [parser, number, Parser.Every, everyOf, Parser.KeepsCursor, Parser.between, Parser.mapPure,
    Parser.symbol, Parser.char, Parser.digits]

/-- On a nested list of six characters the index ends at six, and not beyond. -/
theorem NestedList.eval_cursor_sample :
    ∃ t, (parser.eval rules 3 0 (.initial sample) {}).1 = .done t ∧
      t.input = sample ∧ 0 ≤ t.index ∧ t.index ≤ max 0 sample.extent :=
  ⟨_, eval_sample, Parser.eval_cursor (rules_every keepsCursor) (Session.faithful_empty rules)
    keepsCursor eval_sample⟩

end ParserAlgebra
