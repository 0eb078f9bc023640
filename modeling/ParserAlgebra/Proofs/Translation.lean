import ParserAlgebra.Proofs.Pattern
import ParserAlgebra.Proofs.Termination

/-!
What stands before the cursor does not matter.

# The relation

`s.Shifted medium offset s'` says that `s'` is `s` with something put before its input: the cursor
has moved by the length of the prefix, in characters for texts and in bits for buffers, and result
and failure are the same. Nothing is said of the messages, since they quote indexes.

# Why it is preserved

A reader looks at the input only from the cursor on, and at the size of the input only to see what
is left (`Input.Behind` and the lemmas after it). A loop compares the indexes of two states of one
run, which moves both. The functions of a grammar get results, which are the same in both runs;
only those that word messages get indexes and messages, and of what they answer nothing but the
message depends. They must answer, though: a function that gives up at some index would tell the
runs apart.

Two kinds of nodes are left out. `jump` goes to absolute positions, and each medium has readers of
its own: on a buffer the character readers count bytes where the bit readers count bits, so no
prefix can be put before both.
-/
namespace ParserAlgebra

open Outcome

-- ================================================================ inputs behind a prefix

/-- The second input is the first behind a prefix, which takes up `offset` indexes. -/
inductive Input.Behind : Medium → Nat → Input → Input → Prop
  | text (front chars : Array Char) :
      Input.Behind .text front.size (.text chars) (.text (front ++ chars))
  | bytes (kind kind' : BufferKind) (front data : Array UInt8) :
      Input.Behind .bytes (byteWidth * front.size) (.buffer kind data)
        (.buffer kind' (front ++ data))

namespace Input

variable {medium : Medium} {offset : Nat} {input input' : Input}

theorem Behind.admits (h : Behind medium offset input input') :
    medium.Admits input ∧ medium.Admits input' := by
  cases h <;> exact ⟨trivial, trivial⟩

/-- On texts the shorter input is the longer one without some characters in front. -/
theorem Behind.text_cases (h : Behind .text offset input input') :
    ∃ front chars, offset = Array.size front ∧ input = .text chars ∧
      input' = .text (front ++ chars) := by
  cases h with
  | text front chars => exact ⟨front, chars, rfl, rfl, rfl⟩

/-- On buffers it is the longer one without some bytes in front, which are eight positions each. -/
theorem Behind.bytes_cases (h : Behind .bytes offset input input') :
    ∃ kind kind' front data, offset = byteWidth * Array.size front ∧ input = .buffer kind data ∧
      input' = .buffer kind' (front ++ data) := by
  cases h with
  | bytes kind kind' front data => exact ⟨kind, kind', front, data, rfl, rfl, rfl⟩

/-- The same tokens stand at positions that differ by the offset. -/
theorem Behind.token (h : Behind .text offset input input') (i : Nat) :
    input'.token (offset + i) = input.token i := by
  obtain ⟨front, chars⟩ := h
  show Except.ok _ = Except.ok _
  rw [getElem?_append_add]

/-- The same segments do. -/
theorem Behind.slice (h : Behind .text offset input input') (lo hi : Nat) :
    input'.slice (offset + lo) (offset + hi) = input.slice lo hi := by
  obtain ⟨front, chars⟩ := h
  show Except.ok (Value.text (String.ofList _)) = Except.ok (Value.text (String.ofList _))
  rw [extract_append_add]

/-- So the same texts are matched. -/
theorem Behind.matched (h : Behind .text offset input input') (lo hi : Nat) :
    input'.matched (offset + lo) (offset + hi) = input.matched lo hi := by
  have hslice := h.slice lo hi
  obtain ⟨front, chars⟩ := h
  exact hslice

/-- A literal stands behind a front as it stands without it. -/
theorem charsAt_append (front chars : Array Char) (i : Nat) (expected : List Char) :
    charsAt (front ++ chars) (front.size + i) expected = charsAt chars i expected := by
  rw [charsAt, charsAt, Nat.add_assoc, extract_append_add]

/-- A literal stands behind the prefix where it stands without it. -/
theorem Behind.hasLiteral (h : Behind .text offset input input') (i : Nat) (expected : Value) :
    input'.hasLiteral (offset + i) expected = input.hasLiteral i expected := by
  obtain ⟨front, chars⟩ := h
  have hsingle : ∀ item, hasLiteral.single (front.size + i) (.text (front ++ chars)) item =
      hasLiteral.single i (.text chars) item := by
    intro item
    cases item with
    | text | tag =>
        unfold hasLiteral.single
        dsimp only
        rw [charsAt_append]
    | _ => rfl
  have hany : ∀ items, hasLiteral.anyItem (front.size + i) (.text (front ++ chars)) items =
      hasLiteral.anyItem i (.text chars) items := by
    intro items
    induction items with
    | nil => rfl
    | cons item items ih => rw [hasLiteral.anyItem, hasLiteral.anyItem, hsingle, ih]
  have hone := hsingle expected
  cases expected with
  | tuple items => exact hany items
  | _ => exact hone

/-- Behind whole bytes the bits are the same, eight positions a byte further on. -/
theorem bit?_append (front data : Array UInt8) (i : Nat) :
    bit? (front ++ data) (byteWidth * front.size + i) = bit? data i := by
  have hbyte : (byteWidth * front.size + i) / byteWidth = front.size + i / byteWidth :=
    Nat.mul_add_div (by decide) _ _
  have hplace : (byteWidth * front.size + i) % byteWidth = i % byteWidth :=
    Nat.mul_add_mod _ _ _
  unfold bit?
  rw [hbyte, hplace, getElem?_append_add]

end Input

-- ================================================================ shifted states

/-- The second state is the first with something put before its input. -/
structure State.Shifted (medium : Medium) (offset : Nat) (s s' : State) : Prop where
  input : Input.Behind medium offset s.input s'.input
  index : s'.index = offset + s.index
  result : s'.result = s.result
  failed : s'.failed = s.failed

/-- Two runs that end alike, in shifted states. -/
abbrev Outcome.Shifts (medium : Medium) (offset : Nat) : Outcome State → Outcome State → Prop :=
  Outcome.Alike (State.Shifted medium offset)

section

variable {medium : Medium} {offset : Nat} {s s' t t' : State} {x x' y y' : Outcome State}

namespace State

/-- A result is no position, so it is the same in both states. -/
theorem Shifted.withResult (h : s.Shifted medium offset s') (result : Value) :
    (s.withResult result).Shifted medium offset (s'.withResult result) :=
  ⟨h.input, h.index, rfl, h.failed⟩

/-- Failures may be worded differently. -/
theorem Shifted.withError (h : s.Shifted medium offset s') (message message' : Value) :
    (s.withError message).Shifted medium offset (s'.withError message') :=
  ⟨h.input, h.index, h.result, rfl⟩

/-- The messages of the two failures may differ, since they show positions. -/
theorem Shifted.failWith (h : s.Shifted medium offset s') (message message' : String) :
    (s.failWith message).Shifted medium offset (s'.failWith message') :=
  h.withError _ _

/-- Two cursors that move alike stay apart by the offset. -/
theorem Shifted.advance (h : s.Shifted medium offset s') (index : Nat) (result : Value) :
    (s.advance index result).Shifted medium offset (s'.advance (offset + index) result) :=
  ⟨h.input, rfl, rfl, h.failed⟩

/-- A choice fails in both states, whatever the messages of its alternatives. -/
theorem Shifted.failChoice (h : s.Shifted medium offset s') (errors errors' : List Value) :
    (s.failChoice errors).Shifted medium offset (s'.failChoice errors') := by
  unfold State.failChoice
  split <;> split <;> exact h.failWith _ _

/-- Both loops stop, or both go on: two indexes are the same exactly if they are the same behind
the prefix. -/
theorem Shifted.stops (h : s.Shifted medium offset s') (ht : t.Shifted medium offset t') :
    (t'.failed || t'.index == s'.index) = (t.failed || t.index == s.index) := by
  rw [h.index, ht.index, ht.failed]
  by_cases heq : t.index = s.index
  · rw [heq, beq_self_eq_true, beq_self_eq_true]
  · rw [beq_false_of_ne heq, beq_false_of_ne fun hmoved => heq (Nat.add_left_cancel hmoved)]

end State

theorem shifts_done (h : t.Shifted medium offset t') : (done t).Shifts medium offset (done t') :=
  .done h

/-- Failure decides the same way in both runs. -/
theorem shifts_ite (h : t.Shifted medium offset t') (hx : x.Shifts medium offset x')
    (hy : y.Shifts medium offset y') :
    (if t.failed then x else y).Shifts medium offset (if t'.failed then x' else y') := by
  rw [h.failed]
  split
  · exact hx
  · exact hy

/-- A failed state is returned as it is. -/
theorem shifts_live (h : t.Shifted medium offset t') (hx : x.Shifts medium offset x') :
    (if t.failed then pure t else x).Shifts medium offset (if t'.failed then pure t' else x') :=
  shifts_ite h (shifts_done h) hx

-- ================================================================ leaves

namespace State

/-- Both cursors are at the end or neither is. -/
theorem Shifted.atEnd (h : s.Shifted .text offset s') : s'.atEnd = s.atEnd := by
  obtain ⟨front, chars, rfl, hinput, hinput'⟩ := h.input.text_cases
  unfold State.atEnd
  rw [h.index, hinput, hinput']
  show Except.ok (decide ((front ++ chars).size ≤ _)) = Except.ok (decide (chars.size ≤ _))
  simp only [Array.size_append, Nat.add_le_add_iff_left]

/-- What a message quotes can be read in both inputs. -/
theorem Shifted.upcoming_returns (h : s.Shifted medium offset s') (length : Nat) :
    (ofExcept (s.upcoming length)).Returns ∧ (ofExcept (s'.upcoming length)).Returns :=
  ⟨Input.slice_returns h.input.admits.1 _ _, Input.slice_returns h.input.admits.2 _ _⟩

/-- The same token is put to the same test. -/
theorem readToken_shifts (h : s.Shifted .text offset s') (test : Value → Answer Bool)
    (name : String) :
    (ofExcept (s.readToken test name).outcome).Shifts .text offset
      (ofExcept (s'.readToken test name).outcome) := by
  rw [readToken, readToken, Answer.outcome_bind, Answer.outcome_bind, ofExcept_bind,
    ofExcept_bind, h.index, h.input.token]
  refine alike_ofExcept_bind _ fun token => ?_
  cases token with
  | none => exact shifts_done (h.failWith _ _)
  | some token =>
      dsimp only
      rw [Answer.outcome_bind, Answer.outcome_bind, ofExcept_bind, ofExcept_bind]
      refine alike_ofExcept_bind _ fun passed => ?_
      cases passed with
      | true => exact shifts_done (h.advance (s.index + 1) token)
      | false => exact shifts_done (h.failWith _ _)

/-- The same characters are compared with the literal. -/
theorem readLiteral_shifts (h : s.Shifted .text offset s') (expected : Value) :
    (ofExcept (s.readLiteral expected)).Shifts .text offset
      (ofExcept (s'.readLiteral expected)) := by
  rw [readLiteral, readLiteral, h.atEnd, h.index, h.input.hasLiteral, ofExcept_bind,
    ofExcept_bind]
  refine alike_ofExcept_bind _ fun atEnd => ?_
  cases atEnd with
  | true => exact shifts_done (h.failWith _ _)
  | false =>
      rw [if_neg Bool.false_ne_true, if_neg Bool.false_ne_true, ofExcept_bind, ofExcept_bind]
      refine alike_ofExcept_bind _ fun found => ?_
      cases found with
      | true =>
          rw [if_pos rfl, if_pos rfl, Nat.add_assoc]
          exact shifts_done (h.advance _ expected)
      | false =>
          obtain ⟨hfirst, hsecond⟩ := h.upcoming_returns snippetLength
          rw [if_neg Bool.false_ne_true, if_neg Bool.false_ne_true, ofExcept_bind, ofExcept_bind]
          refine alike_returns_bind hfirst hsecond fun snippet snippet' => ?_
          exact shifts_done (h.failWith _ _)

/-- A pattern that looks at nothing in front of its start matches alike. -/
theorem readPattern_shifts (h : s.Shifted .text offset s') {shape : Matcher}
    (hshape : shape.Floating) (name : String) :
    (ofExcept (s.readPattern shape name)).Shifts .text offset
      (ofExcept (s'.readPattern shape name)) := by
  have hmatched := h.input.matched s.index
  obtain ⟨front, chars, rfl, hinput, hinput'⟩ := h.input.text_cases
  rw [readPattern, readPattern, h.atEnd, h.index, ofExcept_bind, ofExcept_bind, hinput', hshape,
    ← hinput, ← hinput']
  refine alike_ofExcept_bind _ fun atEnd => ?_
  cases atEnd with
  | true => exact shifts_done (h.failWith _ _)
  | false =>
      rw [if_neg Bool.false_ne_true, if_neg Bool.false_ne_true]
      rcases shape.matchEnd? s.input s.index with fault | _ | stop
      · exact .raised fault
      · exact shifts_done (h.failWith _ _)
      · show (ofExcept (s.input.matched s.index stop >>= fun matched =>
            pure (s.advance stop matched))).Shifts .text front.size
          (ofExcept (s'.input.matched (front.size + s.index) (front.size + stop) >>= fun matched =>
            pure (s'.advance (front.size + stop) matched)))
        rw [hmatched, ofExcept_bind, ofExcept_bind]
        refine alike_ofExcept_bind _ fun matched => ?_
        exact shifts_done (h.advance stop matched)

/-- The end is found at both cursors or at neither. -/
theorem readEnd_shifts (h : s.Shifted .text offset s') :
    (ofExcept s.readEnd).Shifts .text offset (ofExcept s'.readEnd) := by
  rw [readEnd, readEnd, h.atEnd, ofExcept_bind, ofExcept_bind]
  refine alike_ofExcept_bind _ fun atEnd => ?_
  cases atEnd with
  | true => exact shifts_done (h.withResult _)
  | false =>
      obtain ⟨hfirst, hsecond⟩ := h.upcoming_returns snippetLength
      rw [if_neg Bool.false_ne_true, if_neg Bool.false_ne_true, ofExcept_bind, ofExcept_bind]
      refine alike_returns_bind hfirst hsecond fun snippet snippet' => ?_
      exact shifts_done (h.failWith _ _)

/-- The same bit is read. -/
theorem readBit_shifts (h : s.Shifted .bytes offset s') :
    (ofExcept s.readBit).Shifts .bytes offset (ofExcept s'.readBit) := by
  obtain ⟨kind, kind', front, data, rfl, hinput, hinput'⟩ := h.input.bytes_cases
  unfold readBit
  rw [hinput, hinput', h.index]
  dsimp only
  rw [Input.bit?_append]
  cases Input.bit? data s.index with
  | none => exact shifts_done (h.failWith _ _)
  | some b => exact shifts_done (h.advance (s.index + 1) (.int b))

end State

-- ================================================================ repetitions

section

variable {attempt separator value : State → Outcome State}

/-- Runs from shifted states end alike. -/
def Translates (medium : Medium) (offset : Nat) (attempt : State → Outcome State) : Prop :=
  ∀ s s', State.Shifted medium offset s s' → (attempt s).Shifts medium offset (attempt s')

/-- Every round starts from shifted states, and moves both cursors or neither. -/
theorem manyLoop_shifts (hattempt : Translates medium offset attempt) :
    ∀ rounds results, Translates medium offset (manyLoop attempt rounds results) := by
  intro rounds
  induction rounds with
  | zero => intro results s s' _; exact .exhausted
  | succ rounds ih =>
      intro results s s' h
      rw [manyLoop, manyLoop]
      refine alike_bind (hattempt s s' h) fun t t' ht => ?_
      rw [h.stops ht, ht.result]
      split
      · exact shifts_done (h.withResult _)
      · exact ih _ t t' ht

/-- So does every round with a separator. -/
theorem separatedLoop_shifts (hseparator : Translates medium offset separator)
    (hvalue : Translates medium offset value) :
    ∀ rounds results,
      Translates medium offset (separatedLoop separator value rounds results) := by
  intro rounds
  induction rounds with
  | zero => intro results s s' _; exact .exhausted
  | succ rounds ih =>
      intro results s s' h
      rw [separatedLoop, separatedLoop]
      refine alike_bind (hseparator s s' h) fun t t' ht => ?_
      refine shifts_ite ht (shifts_done (h.withResult _)) ?_
      refine alike_bind (hvalue t t' ht) fun u u' hu => ?_
      rw [h.stops hu, hu.result]
      split
      · exact shifts_done (h.withResult _)
      · exact ih _ u u' hu

/-- A repetition with separators translates if its two parsers do. -/
theorem separated_shifts (hseparator : Translates medium offset separator)
    (hvalue : Translates medium offset value) (rounds : Nat) :
    Translates medium offset (separated separator value rounds) := by
  intro s s' h
  rw [separated, separated]
  refine alike_bind (hvalue s s' h) fun first first' hfirst => ?_
  rw [hfirst.result]
  refine shifts_ite hfirst (shifts_done (h.withResult _)) ?_
  exact separatedLoop_shifts hseparator hvalue rounds _ first first' hfirst

end

end

-- ================================================================ all combinators

/-- A node that reads a medium from the cursor on, and whose messages are words for any index. -/
def Parser.Floating (medium : Medium) : Parser → Prop
  | .satisfy _ _ => medium = .text
  | .literal _ => medium = .text
  | .pattern shape _ => medium = .text ∧ shape.Floating
  | .endOfInput => medium = .text
  | .bit => medium = .bytes
  | .jump _ => False
  | .check _ _ message => ∀ f ∈ message, ∀ value index, (f value index).Answers
  | .errorMap _ f => ∀ message index, (f message index).Answers
  | _ => True

/-- Such a node, where a deferred one promises what the parser it stands for does. -/
def Parser.Moves (medium : Medium) (offset : Nat) (tree : Deferred → State → Outcome State) :
    Parser → Prop
  | .deferred object => Translates medium offset (tree object)
  | p => p.Floating medium

/-- The condition on nodes is enough, once deferred nodes translate. -/
theorem Parser.Every.moves {medium : Medium} {offset : Nat}
    {tree : Deferred → State → Outcome State} {p : Parser} (hp : p.Every (Parser.Floating medium))
    (htree : ∀ object, Translates medium offset (tree object)) :
    p.Every (Parser.Moves medium offset tree) := by
  refine hp.mono fun q hq => ?_
  cases q with
  | deferred object => exact htree object
  | _ => exact hq

section

variable {medium : Medium} {offset : Nat} {tree : Deferred → State → Outcome State} {rounds : Nat}

/-- Parsers one after another translate if each of them does. -/
theorem denoteAll_shifts (ps : List Parser)
    (h : ∀ p ∈ ps, Translates medium offset (p.denote tree rounds)) :
    ∀ results, Translates medium offset (denoteAll tree rounds ps results) := by
  induction ps with
  | nil =>
      intro results s s' hs
      rw [denoteAll, denoteAll]
      exact shifts_done (hs.withResult _)
  | cons p ps ih =>
      intro results s s' hs
      obtain ⟨hp, hps⟩ := List.forall_mem_cons.mp h
      rw [denoteAll, denoteAll]
      refine alike_bind (hp s s' hs) fun t t' ht => ?_
      rw [ht.result]
      exact shifts_live ht (ih hps _ t t' ht)

/-- The messages of the alternatives may differ between the runs. -/
theorem denoteFirst_shifts (ps : List Parser)
    (h : ∀ p ∈ ps, Translates medium offset (p.denote tree rounds)) :
    ∀ errors errors' s s', State.Shifted medium offset s s' →
      (denoteFirst tree rounds ps errors s).Shifts medium offset
        (denoteFirst tree rounds ps errors' s') := by
  induction ps with
  | nil =>
      intro errors errors' s s' hs
      rw [denoteFirst, denoteFirst]
      exact shifts_done (hs.failChoice _ _)
  | cons p ps ih =>
      intro errors errors' s s' hs
      obtain ⟨hp, hps⟩ := List.forall_mem_cons.mp h
      rw [denoteFirst, denoteFirst]
      refine alike_bind (hp s s' hs) fun t t' ht => ?_
      exact shifts_ite ht (ih hps _ _ s s' hs) (shifts_done ht)

/-- A program translates if its steps do, since it only sees results. -/
theorem Program.denote_shifts (program : Program)
    (h : program.All fun p => Translates medium offset (p.denote tree rounds)) :
    Translates medium offset (program.denote tree rounds) := by
  induction program with
  | done value =>
      intro s s' hs
      rw [Program.denote, Program.denote]
      exact shifts_done (hs.withResult value)
  | step p next ih =>
      intro s s' hs
      rw [Program.denote, Program.denote]
      refine alike_bind (h.1 s s' hs) fun t t' ht => ?_
      rw [ht.result]
      exact shifts_live ht (ih t.result (h.2 t.result) t t' ht)
  | noting events rest ih =>
      intro s s' hs
      rw [Program.denote, Program.denote]
      exact ih h s s' hs
  | raise fault =>
      intro s s' _
      rw [Program.denote, Program.denote]
      exact .raised fault

/-- The line that a trace logs is not looked at again. -/
theorem entryLine_shifts {s s' : State} {x x' : Outcome State}
    (hs : s.Shifted medium offset s') (label : String) (hx : x.Shifts medium offset x') :
    (ofExcept (s.entryLine label) >>= fun _ => x).Shifts medium offset
      (ofExcept (s'.entryLine label) >>= fun _ => x') := by
  obtain ⟨hadmits, hadmits'⟩ := hs.input.admits
  exact alike_returns_bind (State.entryLine_returns hadmits label)
    (State.entryLine_returns hadmits' label) fun _ _ => hx

/-- A message that is a word for any index. -/
theorem withError_shifts {t t' : State} {message message' : Answer Value}
    (ht : t.Shifted medium offset t') (h : message.Answers) (h' : message'.Answers) :
    (ofExcept message.outcome >>= fun value => pure (t.withError value)).Shifts medium offset
      (ofExcept message'.outcome >>= fun value => pure (t'.withError value)) :=
  alike_returns_bind (returns_ofExcept h) (returns_ofExcept h') fun _ _ =>
    shifts_done (ht.withError _ _)

/-- A check sees a value and no input; only its message may show a position. -/
theorem checkValue_shifts {s s' : State} (hs : s.Shifted medium offset s')
    (value expected : Value) {message : Option (Value → Int → Answer Value)}
    (hmessage : ∀ f ∈ message, ∀ value index, (f value index).Answers) :
    (ofExcept (s.checkValue value expected message).outcome).Shifts medium offset
      (ofExcept (s'.checkValue value expected message).outcome) := by
  unfold State.checkValue
  by_cases halike : value.alike expected = true
  · rw [if_pos halike, if_pos halike]
    exact shifts_done hs
  · rw [if_neg halike, if_neg halike]
    cases message with
    | none => exact shifts_done (hs.failWith _ _)
    | some message =>
        have hanswers := hmessage message rfl value
        rw [Answer.outcome_bind, Answer.outcome_bind, ofExcept_bind, ofExcept_bind]
        exact withError_shifts hs (hanswers _) (hanswers _)

/-- Every parser of such nodes acts behind a prefix as it does without the prefix. -/
theorem Parser.denote_shifts (p : Parser) (hp : p.Every (Moves medium offset tree)) :
    Translates medium offset (p.denote tree rounds) := by
  induction p with
  | succeed value =>
      intro s s' hs
      rw [Parser.denote, Parser.denote]
      refine shifts_live hs ?_
      exact shifts_done (hs.withResult value)
  | fail message =>
      intro s s' hs
      rw [Parser.denote, Parser.denote]
      refine shifts_live hs ?_
      exact shifts_done (hs.withError message message)
  | satisfy test name =>
      intro s s' hs
      obtain rfl : medium = .text := hp
      rw [Parser.denote, Parser.denote]
      exact shifts_live hs (State.readToken_shifts hs test name)
  | literal expected =>
      intro s s' hs
      obtain rfl : medium = .text := hp
      rw [Parser.denote, Parser.denote]
      exact shifts_live hs (State.readLiteral_shifts hs expected)
  | pattern shape name =>
      intro s s' hs
      obtain ⟨rfl, hshape⟩ : medium = .text ∧ shape.Floating := hp
      rw [Parser.denote, Parser.denote]
      exact shifts_live hs (State.readPattern_shifts hs hshape name)
  | endOfInput =>
      intro s s' hs
      obtain rfl : medium = .text := hp
      rw [Parser.denote, Parser.denote]
      exact shifts_live hs (State.readEnd_shifts hs)
  | bit =>
      intro s s' hs
      obtain rfl : medium = .bytes := hp
      rw [Parser.denote, Parser.denote]
      exact shifts_live hs (State.readBit_shifts hs)
  | jump target => exact hp.elim
  | map p f ih =>
      intro s s' hs
      rw [Parser.denote, Parser.denote]
      refine shifts_live hs (alike_bind (ih hp.2 s s' hs) fun t t' ht => ?_)
      rw [ht.result]
      refine shifts_live ht (alike_ofExcept_bind _ fun value => ?_)
      exact shifts_done (ht.withResult value)
  | chain p next ihp ihnext =>
      intro s s' hs
      rw [Parser.denote, Parser.denote]
      refine shifts_live hs (alike_bind (ihp hp.2.1 s s' hs) fun t t' ht => ?_)
      rw [ht.result]
      exact shifts_live ht (ihnext t.result (hp.2.2 t.result) t t' ht)
  | check value expected message =>
      intro s s' hs
      rw [Parser.denote, Parser.denote]
      exact shifts_live hs (checkValue_shifts hs value expected hp)
  | errorMap p f ih =>
      intro s s' hs
      rw [Parser.denote, Parser.denote]
      refine shifts_live hs (alike_bind (ih hp.2 s s' hs) fun t t' ht => ?_)
      exact shifts_ite ht (withError_shifts ht (hp.1 _ _) (hp.1 _ _)) (shifts_done ht)
  | lookAhead p ih =>
      intro s s' hs
      rw [Parser.denote, Parser.denote]
      refine shifts_live hs (alike_bind (ih hp.2 s s' hs) fun t t' ht => ?_)
      rw [ht.result]
      exact shifts_live ht (shifts_done (hs.withResult _))
  | many p ih =>
      intro s s' hs
      rw [Parser.denote, Parser.denote]
      exact shifts_live hs (manyLoop_shifts (ih hp.2) rounds [] s s' hs)
  | many1 p ih =>
      intro s s' hs
      rw [Parser.denote, Parser.denote]
      refine shifts_live hs (alike_bind (ih hp.2 s s' hs) fun first first' hfirst => ?_)
      refine shifts_ite hfirst (shifts_done (hs.failWith _ _)) ?_
      have hmany := manyLoop_shifts (ih hp.2) rounds [] first first' hfirst
      refine alike_bind hmany fun rest rest' hrest => ?_
      rw [hfirst.result, hrest.result]
      exact shifts_done (hrest.withResult _)
  | orElse p q ihp ihq =>
      intro s s' hs
      rw [Parser.denote, Parser.denote]
      refine shifts_live hs (alike_bind (ihp hp.2.1 s s' hs) fun t t' ht => ?_)
      exact shifts_ite ht (ihq hp.2.2 s s' hs) (shifts_done ht)
  | sepBy separator value ihs ihv =>
      intro s s' hs
      rw [Parser.denote, Parser.denote]
      exact shifts_live hs (separated_shifts (ihs hp.2.1) (ihv hp.2.2) rounds s s' hs)
  | sepBy1 separator value ihs ihv =>
      intro s s' hs
      have hvalues := separated_shifts (ihs hp.2.1) (ihv hp.2.2) rounds s s' hs
      rw [Parser.denote, Parser.denote]
      refine shifts_live hs (alike_bind hvalues fun t t' ht => ?_)
      rw [ht.result]
      split
      · exact shifts_done ht
      · exact shifts_done (hs.failWith _ _)
  | sequence ps ih =>
      intro s s' hs
      rw [Parser.denote, Parser.denote]
      refine shifts_live hs (denoteAll_shifts ps ?_ [] s s' hs)
      exact fun p hmem => ih p hmem (everyOf_iff.mp hp.2 p hmem)
  | choice ps ih =>
      intro s s' hs
      rw [Parser.denote, Parser.denote]
      refine shifts_live hs (denoteFirst_shifts ps ?_ [] [] s s' hs)
      exact fun p hmem => ih p hmem (everyOf_iff.mp hp.2 p hmem)
  | contextual tag program ih =>
      intro s s' hs
      rw [Parser.denote, Parser.denote]
      exact shifts_live hs (program.denote_shifts (ih.of_every hp.2) s s' hs)
  | deferred object =>
      intro s s' hs
      rw [Parser.denote, Parser.denote]
      exact shifts_live hs (hp s s' hs)
  | trace label =>
      intro s s' hs
      rw [Parser.denote, Parser.denote]
      exact shifts_live hs (entryLine_shifts hs label (shifts_done hs))
  | traced label p ih =>
      intro s s' hs
      rw [Parser.denote, Parser.denote]
      exact shifts_live hs (entryLine_shifts hs label (ih hp.2 s s' hs))
  | raise fault =>
      intro s s' hs
      rw [Parser.denote, Parser.denote]
      exact shifts_live hs (.raised fault)

end

-- ================================================================ rules

/-- Deferred nodes act alike behind a prefix when the rules do. -/
theorem Rules.unfold_shifts {medium : Medium} {rules : Rules}
    (hrules : rules.Every (Parser.Floating medium)) (offset : Nat) :
    ∀ fuel object, Translates medium offset (rules.unfold fuel object) := by
  intro fuel
  induction fuel with
  | zero => intro object s s' _; exact .exhausted
  | succ fuel ih =>
      intro object s s' hs
      rw [Rules.unfold, Rules.unfold]
      cases hp : rules.tree object with
      | ok p => exact p.denote_shifts ((hrules object p hp).moves ih) s s' hs
      | error fault => exact .raised fault

/-- At every fuel, a floating parser with floating rules translates. -/
theorem Parser.apply_shifts {medium : Medium} {rules : Rules}
    (hrules : rules.Every (Floating medium)) {p : Parser} (hp : p.Every (Floating medium))
    (offset fuel : Nat) : Translates medium offset (p.apply rules fuel) := by
  intro s s' hs
  exact p.denote_shifts (hp.moves (Rules.unfold_shifts hrules offset fuel)) s s' hs

/-- Two runs from shifted states, in any sessions that hold what the rules build. At each fuel both
end or neither does, and at whatever fuels they end, they end alike: with the same fault, or in
states with the same failure and result whose indexes differ by the length of the prefix. -/
theorem Parser.eval_shifted {medium : Medium} {rules : Rules}
    (hrules : rules.Every (Floating medium)) {p : Parser} (hp : p.Every (Floating medium))
    {offset : Nat} {s s' : State} (hs : s.Shifted medium offset s') {session session' : Session}
    (hsession : session.Faithful rules) (hsession' : session'.Faithful rules)
    (frame frame' : Nat) :
    (∀ fuel, (p.eval rules fuel frame s session).1 = .exhausted ↔
      (p.eval rules fuel frame' s' session').1 = .exhausted) ∧
    ∀ fuel fuel', (p.eval rules fuel frame s session).1 ≠ .exhausted →
      (p.eval rules fuel' frame' s' session').1 ≠ .exhausted →
      (p.eval rules fuel frame s session).1.Alike (State.Shifted medium offset)
        (p.eval rules fuel' frame' s' session').1 := by
  simp only [Parser.eval_eq_apply hsession, Parser.eval_eq_apply hsession']
  constructor
  · intro fuel
    exact (apply_shifts hrules hp offset fuel s s' hs).exhausted_iff
  · intro fuel fuel' hends hends'
    rw [← p.apply_mono rules (Nat.le_max_left fuel fuel') s hends,
      ← p.apply_mono rules (Nat.le_max_right fuel fuel') s' hends']
    exact apply_shifts hrules hp offset (max fuel fuel') s s' hs

-- ================================================================ floating parsers

namespace Parser

variable {medium : Medium} {p : Parser}

/-- A function of the result sees no position. -/
theorem floating_mapPure (hp : p.Every (Floating medium)) (f : Value → Value) :
    (p.mapPure f).Every (Floating medium) :=
  ⟨trivial, hp⟩

/-- A number of copies floats if the one parser does. -/
theorem floating_count (hp : p.Every (Floating medium)) (n : Nat) :
    (count n p).Every (Floating medium) :=
  every_count trivial (fun _ => trivial) hp n

/-- A check whose message is at hand for every value and index. -/
theorem floating_expect (hp : p.Every (Floating medium)) (expected : Value)
    (message : Value → Int → Value) :
    (p.expect expected (some fun value index => .pure (message value index))).Every
      (Floating medium) := by
  refine ⟨trivial, hp, fun read f hf value index => ?_⟩
  obtain rfl := Option.some.inj hf
  exact Answer.answers_pure _

-- ================================================================ of texts

theorem floating_endOfInput : endOfInput.Every (Floating .text) :=
  rfl

/-- A token is tested by its value only. -/
theorem floating_char (c : Value) : (char c).Every (Floating .text) :=
  rfl

theorem floating_symbol (c : Char) : (symbol c).Every (Floating .text) :=
  rfl

theorem floating_word (s : String) : (word s).Every (Floating .text) :=
  rfl

/-- A pattern floats as a node if it floats as a pattern. -/
theorem floating_pattern {shape : Pattern} (hshape : shape.Floating) (name : String) :
    (pattern shape.matcher name).Every (Floating .text) :=
  ⟨rfl, hshape.matcher⟩

/-- A run of letters is the same wherever it starts. -/
theorem floating_letters : letters.Every (Floating .text) :=
  floating_pattern (Pattern.floating_runOf _) _

theorem floating_digits : digits.Every (Floating .text) :=
  floating_pattern (Pattern.floating_runOf _) _

theorem floating_spaces : spaces.Every (Floating .text) :=
  ⟨trivial, trivial, floating_symbol ' '⟩

-- ================================================================ of bits

theorem floating_bit : bit.Every (Floating .bytes) :=
  rfl

theorem floating_zero : zero.Every (Floating .bytes) :=
  floating_expect floating_bit _ _

theorem floating_one : one.Every (Floating .bytes) :=
  floating_expect floating_bit _ _

/-- The bits of a field are added up, wherever they stand. -/
theorem floating_uint (n : Nat) : (uint n).Every (Floating .bytes) :=
  floating_mapPure (floating_count floating_bit n) _

theorem floating_sint (n : Nat) : (sint n).Every (Floating .bytes) :=
  floating_mapPure (floating_count floating_bit n) _

/-- Raw bytes are read as fields of eight bits each. -/
theorem floating_rawString (s : String) : (rawString s).Every (Floating .bytes) := by
  refine ⟨trivial, trivial, everyOf_iff.mpr fun p hp => ?_⟩
  obtain ⟨c, -, rfl⟩ := List.mem_map.mp hp
  exact floating_expect (floating_uint _) _ _

end Parser

/-- The characters of a list, its numbers, and the rule itself. -/
theorem NestedList.floating : parser.Every (Parser.Floating .text) := by
  have hbrackets : (Parser.between (.symbol '[') (.symbol ']')
      (.sepBy (.symbol ',') (.deferred (.own 0 rule)))).Every (Parser.Floating .text) :=
    ⟨trivial, trivial, Parser.floating_symbol '[', ⟨trivial, Parser.floating_symbol ',', trivial⟩,
      Parser.floating_symbol ']', trivial⟩
  exact ⟨trivial, ⟨trivial, Parser.floating_digits⟩, hbrackets, trivial⟩

/-- A nested list behind two characters, and nibbles behind a byte. -/
theorem Parser.eval_shifted_samples :
    (∃ t, (NestedList.parser.eval NestedList.rules 3 0
        { input := .text #['7', ',', '[', '1', ',', '[', ']', ']'], index := 2 } {}).1 =
          .done t ∧
      t.failed = false ∧ t.result = .list [.int 1, .list []] ∧ t.index = 2 + 6) ∧
    ∃ t t', (markedNibbles.eval noRules 17 0 (.initial (.buffer .fixed #[65, 240])) {}).1 =
        .done t ∧
      (markedNibbles.eval noRules 17 0
        { input := .buffer .fixed #[7, 65, 240], index := 8 } {}).1 = .done t' ∧
      t'.failed = t.failed ∧ t'.result = t.result ∧ t'.index = 8 + t.index := by
  constructor
  · have hs : (State.initial NestedList.sample).Shifted .text 2
        { input := .text #['7', ',', '[', '1', ',', '[', ']', ']'], index := 2 } :=
      ⟨.text #['7', ','] #['[', '1', ',', '[', ']', ']'], rfl, rfl, rfl⟩
    have hsample := NestedList.eval_sample
    have hends : (NestedList.parser.eval NestedList.rules 3 0 (.initial NestedList.sample) {}).1 ≠
        .exhausted := by
      rw [hsample]
      intro h
      cases h
    have hempty := Session.faithful_empty NestedList.rules
    obtain ⟨hfuel, halike⟩ :=
      eval_shifted (NestedList.rules_every NestedList.floating) NestedList.floating hs hempty hempty
        0 0
    obtain ⟨t, ht, hshifted⟩ :=
      (halike 3 3 hends fun h => hends ((hfuel 3).mpr h)).exists_done hsample
    exact ⟨t, ht, hshifted.failed, hshifted.result, hshifted.index⟩
  · have hs : (State.initial (.buffer .fixed #[65, 240])).Shifted .bytes 8
        { input := .buffer .fixed #[7, 65, 240], index := 8 } :=
      ⟨.bytes .fixed .fixed #[7] #[65, 240], rfl, rfl, rfl⟩
    have hfloating : markedNibbles.Every (Floating .bytes) :=
      ⟨trivial, floating_rawString "A", ⟨trivial, floating_sint 4⟩, trivial⟩
    have htotal : markedNibbles.Every (Total .bytes) :=
      ⟨trivial, total_rawString "A", ⟨trivial, total_sint 4⟩, trivial⟩
    have hnone : noRules.Every (Floating .bytes) := by
      intro object p hp
      cases object <;> cases hp
    obtain ⟨t, after, hsettles⟩ := eval_settles htotal hs.input.admits.1 noRules 0 {}
    have ht : (markedNibbles.eval noRules 17 0 (.initial (.buffer .fixed #[65, 240])) {}).1 =
        .done t := by
      rw [hsettles 17 (by decide)]
    have hends : (markedNibbles.eval noRules 17 0 (.initial (.buffer .fixed #[65, 240])) {}).1 ≠
        .exhausted := by
      rw [ht]
      intro h
      cases h
    have hempty := Session.faithful_empty noRules
    obtain ⟨hfuel, halike⟩ := eval_shifted hnone hfloating hs hempty hempty 0 0
    obtain ⟨t', ht', hshifted⟩ :=
      (halike 17 17 hends fun h => hends ((hfuel 17).mpr h)).exists_done ht
    exact ⟨t, t', ht, ht', hshifted.failed, hshifted.result, hshifted.index⟩

end ParserAlgebra
