import ParserAlgebra.Parser.Bits
import ParserAlgebra.Proofs.Cursor
import ParserAlgebra.Proofs.Dependence

/-!
Parsers without deferred nodes return.

# The measure

A repetition stops when a round fails or leaves the index where it was; nothing in it asks for
progress. It ends because the cursor only moves forward and stays within the input (`Advances`):
a round that moves the cursor uses up some of what lies between the index and the end of the
input, so there are at most `extent - index` rounds that move it, and one more that does not.

# What is total

Three things can keep a parser from returning: a reader on an input it cannot read, a function
that gives up, and a deferred node, whose nesting nothing bounds. `Parser.Total` excludes them
node by node, for texts or for buffers. The joining of the characters that `spaces` has read is
the one function that is not total by itself, and it is never asked to join anything else.
-/
namespace ParserAlgebra

open Outcome

open State (Advances)

-- ================================================================ total nodes

/-- The inputs that parsers are written for. -/
inductive Medium where
  | text
  | bytes
deriving DecidableEq, Repr

/-- The inputs of a medium. -/
def Medium.Admits : Medium → Input → Prop
  | .text, .text _ => True
  | .bytes, .buffer _ _ => True
  | _, _ => False

/-- A supplied function that gives a value here. -/
def Answer.Answers {α : Type} (answer : Answer α) : Prop :=
  ∃ a, answer.outcome = .ok a

/-- A node that returns on inputs of a medium. -/
def Parser.Total (medium : Medium) : Parser → Prop
  | .satisfy test _ => ∀ token, (test token).Answers
  | .literal expected => medium = .text ∧ ∃ s, expected.word? = some s
  | .pattern shape _ =>
      ∀ input i, medium.Admits input → ∃ found, shape.matchEnd? input i = .ok found
  | .bit => medium = .bytes
  | .map p f => (∀ value, (f value).Answers) ∨ Parser.map p f = Parser.spaces
  | .check _ _ message => ∀ f ∈ message, ∀ value index, (f value index).Answers
  | .errorMap _ f => ∀ message index, (f message index).Answers
  | .jump _ => False
  | .deferred _ => False
  | .raise _ => False
  | _ => True

/-- Total nodes keep the cursor in order. -/
theorem Parser.Total.steady {medium : Medium} {tree : Deferred → State → Outcome State}
    {p : Parser} (h : p.Total medium) : p.Steady tree := by
  cases p with
  | jump => exact h
  | deferred => exact h.elim
  | literal expected =>
      intro items heq
      obtain ⟨-, s, hs⟩ := h
      subst heq
      cases hs
  | _ => trivial

-- The parsers built from the primitive ones are total by what their own functions are.

/-- A plain answer has a value. -/
theorem Answer.answers_pure {α : Type} (a : α) : (Answer.pure a).Answers :=
  ⟨a, rfl⟩

namespace Parser

variable {medium : Medium} {p : Parser}

/-- A function without faults keeps totality. -/
theorem total_mapPure (hp : p.Every (Total medium)) (f : Value → Value) :
    (p.mapPure f).Every (Total medium) :=
  ⟨.inl fun value => Answer.answers_pure (f value), hp⟩

/-- A number of copies is total if the one parser is. -/
theorem total_count (hp : p.Every (Total medium)) (n : Nat) : (count n p).Every (Total medium) :=
  every_count trivial (fun _ => trivial) hp n

/-- A check whose message is at hand for every value. -/
theorem total_expect (hp : p.Every (Total medium)) (expected : Value)
    (message : Value → Int → Value) :
    (p.expect expected (some fun value index => .pure (message value index))).Every
      (Total medium) := by
  refine ⟨trivial, hp, fun read f hf value index => ?_⟩
  obtain rfl := Option.some.inj hf
  exact Answer.answers_pure _

theorem total_endOfInput (medium : Medium) : endOfInput.Every (Total medium) :=
  trivial

-- ================================================================ the parsers of texts

/-- Any token may be asked for by its value. -/
theorem total_char (medium : Medium) (c : Value) : (char c).Every (Total medium) :=
  fun _ => Answer.answers_pure _

theorem total_symbol (medium : Medium) (c : Char) : (symbol c).Every (Total medium) :=
  total_char medium _

/-- A word can be looked for in a text. In a buffer it is a fault. -/
theorem total_word (s : String) : (word s).Every (Total .text) :=
  ⟨rfl, s, rfl⟩

/-- A pattern over characters is asked about texts only. -/
theorem total_pattern (shape : Pattern) (name : String) :
    (pattern shape.matcher name).Every (Total .text) := by
  intro input i h
  cases input with
  | text chars => exact ⟨_, rfl⟩
  | buffer | other => exact h.elim

/-- Letters are a pattern, and patterns match texts. -/
theorem total_letters : letters.Every (Total .text) :=
  total_pattern _ _

theorem total_digits : digits.Every (Total .text) :=
  total_pattern _ _

theorem total_spaces (medium : Medium) : spaces.Every (Total medium) :=
  ⟨.inr rfl, trivial, total_symbol medium ' '⟩

-- ================================================================ the parsers of bits

theorem total_bit : bit.Every (Total .bytes) :=
  rfl

theorem total_zero : zero.Every (Total .bytes) :=
  total_expect total_bit _ _

theorem total_one : one.Every (Total .bytes) :=
  total_expect total_bit _ _

/-- An unsigned field reads bits and adds them up. -/
theorem total_uint (n : Nat) : (uint n).Every (Total .bytes) :=
  total_mapPure (total_count total_bit n) _

/-- A signed field adds up its bits like an unsigned one. -/
theorem total_sint (n : Nat) : (sint n).Every (Total .bytes) :=
  total_mapPure (total_count total_bit n) _

/-- Raw bytes are checked one by one; a byte that differs is a failure, and no fault. -/
theorem total_rawString (s : String) : (rawString s).Every (Total .bytes) := by
  have hbytes : (sequence (s.toList.map byteOf)).Every (Total .bytes) := by
    refine ⟨trivial, everyOf_iff.mpr fun p hp => ?_⟩
    obtain ⟨c, -, rfl⟩ := List.mem_map.mp hp
    exact total_expect (total_uint _) _ _
  exact total_mapPure hbytes _

end Parser

-- ================================================================ readers

section

variable {medium : Medium}

/-- A text or a buffer has a token at every position, or none. -/
theorem Input.token_returns {input : Input} (h : medium.Admits input) (i : Nat) :
    (ofExcept (input.token i)).Returns := by
  cases input with
  | text | buffer => exact returns_done _
  | other => cases medium <;> exact h.elim

/-- Any part of a text or a buffer can be cut out. -/
theorem Input.slice_returns {input : Input} (h : medium.Admits input) (lo hi : Nat) :
    (ofExcept (input.slice lo hi)).Returns := by
  cases input with
  | text | buffer => exact returns_done _
  | other => cases medium <;> exact h.elim

/-- So can what a pattern has matched. -/
theorem Input.matched_returns {input : Input} (h : medium.Admits input) (lo hi : Nat) :
    (ofExcept (input.matched lo hi)).Returns := by
  cases input with
  | text | buffer => exact returns_done _
  | other => cases medium <;> exact h.elim

namespace State

variable {s : State}

/-- On a text or a buffer the end can be seen. -/
theorem atEnd_returns (hs : medium.Admits s.input) : (ofExcept s.atEnd).Returns := by
  have hsized : s.input.isSized = true := by
    cases hinput : s.input with
    | text | buffer => rfl
    | other => rw [hinput] at hs; cases medium <;> exact hs.elim
  rw [atEnd, if_pos hsized]
  exact returns_done _

/-- So can what a trace line quotes. -/
theorem entryLine_returns (hs : medium.Admits s.input) (label : String) :
    (ofExcept (s.entryLine label)).Returns := by
  rw [entryLine, ofExcept_bind]
  exact returns_bind_any (Input.slice_returns hs _ _) fun snippet => returns_done _

/-- A token is read without a fault if its test has none. -/
theorem readToken_returns (hs : medium.Admits s.input) {test : Value → Answer Bool}
    (htest : ∀ token, (test token).Answers) (name : String) :
    (ofExcept (s.readToken test name).outcome).Returns := by
  rw [readToken, Answer.outcome_bind, ofExcept_bind]
  refine returns_bind_any (Input.token_returns hs s.index) fun token => ?_
  cases token with
  | none => exact returns_done _
  | some token =>
      rw [Answer.outcome_bind, ofExcept_bind]
      refine returns_bind_any (returns_ofExcept (htest token)) fun passed => ?_
      cases passed with
      | true => exact returns_done _
      | false => exact returns_done _

/-- Words can be looked for in a text. -/
theorem hasLiteral_returns {input : Input} (h : Medium.text.Admits input) {expected : Value}
    {w : String} (hw : expected.word? = some w) (i : Nat) :
    (ofExcept (input.hasLiteral i expected)).Returns := by
  cases input with
  | text chars =>
      cases expected with
      | text | tag => exact returns_done _
      | _ => cases hw
  | buffer | other => exact h.elim

/-- A word is looked for in a text without a fault. -/
theorem readLiteral_returns (hs : Medium.text.Admits s.input) {expected : Value} {w : String}
    (hw : expected.word? = some w) : (ofExcept (s.readLiteral expected)).Returns := by
  rw [readLiteral, ofExcept_bind]
  refine returns_bind_any (atEnd_returns hs) fun atEnd => ?_
  cases atEnd with
  | true => exact returns_done _
  | false =>
      rw [if_neg Bool.false_ne_true, ofExcept_bind]
      refine returns_bind_any (hasLiteral_returns hs hw s.index) fun found => ?_
      cases found with
      | true => exact returns_done _
      | false =>
          rw [if_neg Bool.false_ne_true, ofExcept_bind]
          exact returns_bind_any (Input.slice_returns hs _ _) fun snippet => returns_done _

/-- A pattern is tried without a fault if its matcher has none. -/
theorem readPattern_returns (hs : medium.Admits s.input) {shape : Matcher}
    (hshape : ∀ input i, medium.Admits input → ∃ found, shape.matchEnd? input i = .ok found)
    (name : String) : (ofExcept (s.readPattern shape name)).Returns := by
  rw [readPattern, ofExcept_bind]
  refine returns_bind_any (atEnd_returns hs) fun atEnd => ?_
  cases atEnd with
  | true => exact returns_done _
  | false =>
      obtain ⟨found, hfound⟩ := hshape s.input s.index hs
      rw [if_neg Bool.false_ne_true, hfound]
      cases found with
      | none => exact returns_done _
      | some stop =>
          show (ofExcept (s.input.matched s.index stop >>= fun matched =>
            pure (s.advance stop matched))).Returns
          rw [ofExcept_bind]
          exact returns_bind_any (Input.matched_returns hs _ _) fun matched => returns_done _

/-- To look for the end has no fault. -/
theorem readEnd_returns (hs : medium.Admits s.input) : (ofExcept s.readEnd).Returns := by
  rw [readEnd, ofExcept_bind]
  refine returns_bind_any (atEnd_returns hs) fun atEnd => ?_
  cases atEnd with
  | true => exact returns_done _
  | false =>
      rw [if_neg Bool.false_ne_true, ofExcept_bind]
      exact returns_bind_any (Input.slice_returns hs _ _) fun snippet => returns_done _

/-- A bit of a buffer is read without a fault. -/
theorem readBit_returns (hs : Medium.bytes.Admits s.input) : (ofExcept s.readBit).Returns := by
  unfold readBit
  split
  · split
    · exact returns_done _
    · exact returns_done _
  · next hother =>
      cases hinput : s.input with
      | buffer kind data => exact absurd hinput (hother kind data)
      | text | other => rw [hinput] at hs; exact hs.elim

/-- A check has no fault if its message has none. -/
theorem checkValue_returns (value expected : Value)
    {message : Option (Value → Int → Answer Value)}
    (hmessage : ∀ f ∈ message, ∀ value index, (f value index).Answers) :
    (ofExcept (s.checkValue value expected message).outcome).Returns := by
  unfold checkValue
  by_cases halike : value.alike expected = true
  · rw [if_pos halike]
    exact returns_done _
  · rw [if_neg halike]
    cases message with
    | none => exact returns_done _
    | some message =>
        have hanswers := hmessage message rfl value (s.index - 1)
        rw [Answer.outcome_bind, ofExcept_bind]
        exact returns_bind_any (returns_ofExcept hanswers) fun text => returns_done _

end State

end

-- ================================================================ the measure

/-- How far the cursor can still move. -/
def State.room (s : State) : Nat :=
  s.input.extent - s.index

/-- A state from which a repetition that is allowed `rounds` rounds finds enough of them. -/
structure State.Fits (medium : Medium) (rounds : Nat) (s : State) : Prop where
  admits : medium.Admits s.input
  room_lt : s.room < rounds

section

variable {medium : Medium} {rounds : Nat} {s t : State}

/-- Moving on takes up room. -/
theorem State.Advances.room_le (h : s.Advances t) : t.room ≤ s.room := by
  have := h.forward
  rw [State.room, State.room, h.input]
  omega

/-- A round that moves the cursor leaves less room. -/
theorem State.Advances.room_lt (h : s.Advances t) (hmove : t.index ≠ s.index) :
    t.room < s.room := by
  have hforward := h.forward
  have hwithin := h.within
  rw [State.room, State.room, h.input]
  omega

/-- A cursor that goes forward leaves no more room than before. -/
theorem State.Fits.advances (hs : s.Fits medium rounds) (h : s.Advances t) :
    t.Fits medium rounds := by
  refine ⟨?_, Nat.lt_of_le_of_lt h.room_le hs.room_lt⟩
  rw [h.input]
  exact hs.admits

-- ================================================================ repetitions

variable {attempt separator value : State → Outcome State}

/-- A repetition returns with one round more than there is room. -/
theorem manyLoop_returns (hadvances : ∀ s, (attempt s).Only s.Advances)
    (hreturns : ∀ s, s.Fits medium rounds → (attempt s).Returns) :
    ∀ n results s, s.Fits medium rounds → s.room < n → (manyLoop attempt n results s).Returns := by
  intro n
  induction n with
  | zero => intro results s hs hroom; exact absurd hroom (Nat.not_lt_zero _)
  | succ n ih =>
      intro results s hs hroom
      rw [manyLoop]
      refine returns_bind (hreturns s hs) (hadvances s) fun t hst => ?_
      refine returns_ite (fun _ => returns_done _) fun hgo => ?_
      have hmove : t.index ≠ s.index := by
        intro heq
        exact hgo (by rw [heq, beq_self_eq_true, Bool.or_true])
      have hless := hst.room_lt hmove
      exact ih _ t (hs.advances hst) (by omega)

/-- Each round of the loop moves the cursor, so the rounds last for the room that is left. -/
theorem separatedLoop_returns (hsepAdvances : ∀ s, (separator s).Only s.Advances)
    (hvalueAdvances : ∀ s, (value s).Only s.Advances)
    (hsep : ∀ s, s.Fits medium rounds → (separator s).Returns)
    (hvalue : ∀ s, s.Fits medium rounds → (value s).Returns) :
    ∀ n results s, s.Fits medium rounds → s.room < n →
      (separatedLoop separator value n results s).Returns := by
  intro n
  induction n with
  | zero => intro results s hs hroom; exact absurd hroom (Nat.not_lt_zero _)
  | succ n ih =>
      intro results s hs hroom
      rw [separatedLoop]
      refine returns_bind (hsep s hs) (hsepAdvances s) fun t hst => ?_
      refine returns_ite (fun _ => returns_done _) fun _ => ?_
      refine returns_bind (hvalue t (hs.advances hst)) (hvalueAdvances t) fun u htu => ?_
      refine returns_ite (fun _ => returns_done _) fun hgo => ?_
      have hmove : u.index ≠ s.index := by
        intro heq
        exact hgo (by rw [heq, beq_self_eq_true, Bool.or_true])
      have hless := (hst.trans htu).room_lt hmove
      exact ih _ u (hs.advances (hst.trans htu)) (by omega)

/-- With a total separator and a total value, the rounds last for the whole repetition. -/
theorem separated_returns (hsepAdvances : ∀ s, (separator s).Only s.Advances)
    (hvalueAdvances : ∀ s, (value s).Only s.Advances)
    (hsep : ∀ s, s.Fits medium rounds → (separator s).Returns)
    (hvalue : ∀ s, s.Fits medium rounds → (value s).Returns) (s : State)
    (hs : s.Fits medium rounds) : (separated separator value rounds s).Returns := by
  rw [separated]
  refine returns_bind (hvalue s hs) (hvalueAdvances s) fun first hfirst => ?_
  refine returns_ite (fun _ => returns_done _) fun _ => ?_
  have hfits := hs.advances hfirst
  exact separatedLoop_returns hsepAdvances hvalueAdvances hsep hvalue rounds _ first hfits
    hfits.room_lt

end

-- ================================================================ spaces

/-- A value that stands for a word, and so can be joined to others. -/
def Value.IsWord (v : Value) : Prop :=
  ∃ w, v.word? = some w

/-- What is alike to a text is a word. -/
theorem Value.isWord_of_alike {v : Value} {w : String} (h : v.alike (.text w) = true) :
    v.IsWord := by
  cases v with
  | text a => exact ⟨a, rfl⟩
  | tag a => exact ⟨a.word, rfl⟩
  | real a =>
      rw [alike] at h
      split at h
      · cases h
      · rw [Bool.and_eq_true] at h
        cases beq_iff_eq.mp h.2
  | _ => simp [alike, number?, integer?] at h

/-- A list of words can be joined. -/
theorem Value.joined?_of_words {items : List Value} (h : ∀ v ∈ items, v.IsWord) :
    ∃ text, joined? items = some text := by
  have hwords : ∃ words, items.mapM word? = some words := by
    induction items with
    | nil => exact ⟨[], rfl⟩
    | cons v items ih =>
        obtain ⟨⟨w, hw⟩, hrest⟩ := List.forall_mem_cons.mp h
        obtain ⟨words, hwords⟩ := ih hrest
        exact ⟨w :: words, by rw [List.mapM_cons, hw, hwords]; rfl⟩
  obtain ⟨words, hwords⟩ := hwords
  exact ⟨String.join words, by rw [joined?, hwords]; rfl⟩

section

variable {tree : Deferred → State → Outcome State} {rounds : Nat}

/-- A given character that is read is a word. -/
theorem Parser.denote_symbol_word (c : Char) (s : State) :
    ((symbol c).denote tree rounds s).Only fun t => t.failed = true ∨ t.result.IsWord := by
  rw [symbol, char, Parser.denote]
  refine only_ite (fun hs => only_done (.inl hs)) fun _ => ?_
  rw [machine_ofAnswer, State.readToken, Answer.outcome_bind, ofExcept_bind]
  refine only_bind_any fun token => ?_
  cases token with
  | none => exact only_done (.inl rfl)
  | some token =>
      show (ofExcept (if token.alike _ = true then _ else _ : Answer State).outcome).Only _
      by_cases halike : token.alike (.text (String.singleton c)) = true
      · rw [if_pos halike]
        exact only_done (.inr (Value.isWord_of_alike halike))
      · rw [if_neg halike]
        exact only_done (.inl rfl)

/-- A repetition of a parser that gives words gives a list of words. -/
theorem manyLoop_words {attempt : State → Outcome State}
    (hattempt : ∀ s, (attempt s).Only fun t => t.failed = true ∨ t.result.IsWord) :
    ∀ n results s, (∀ v ∈ results, v.IsWord) →
      (manyLoop attempt n results s).Only fun t =>
        ∃ items, t.result = .list items ∧ ∀ v ∈ items, v.IsWord := by
  intro n
  induction n with
  | zero => intro results s _; exact only_exhausted
  | succ n ih =>
      intro results s hresults
      rw [manyLoop]
      refine only_bind (hattempt s) fun t ht => only_ite (fun _ => ?_) fun hgo => ?_
      · refine only_done ⟨results.reverse, rfl, fun v hv => hresults v ?_⟩
        exact List.mem_reverse.mp hv
      · obtain hfailed | hword := ht
        · exact absurd (by rw [hfailed, Bool.true_or]) hgo
        · exact ih _ t (List.forall_mem_cons.mpr ⟨hword, hresults⟩)

/-- A run of one character is a list of words. -/
theorem Parser.denote_many_symbol_words (c : Char) (s : State) :
    ((many (symbol c)).denote tree rounds s).Only fun t =>
      t.failed = true ∨ ∃ items, t.result = .list items ∧ ∀ v ∈ items, v.IsWord := by
  rw [Parser.denote]
  refine only_ite (fun hs => only_done (.inl hs)) fun _ t ht => .inr ?_
  exact manyLoop_words (denote_symbol_word c) rounds [] s (List.forall_mem_nil _) t ht

end

-- ================================================================ all combinators

section

variable {medium : Medium} {tree : Deferred → State → Outcome State} {rounds : Nat}

/-- A failed state is returned. -/
theorem returns_live {s : State} {x : Outcome State} (h : x.Returns) :
    (if s.failed then pure s else x).Returns :=
  returns_ite (fun _ => returns_done s) fun _ => h

/-- What the cursor argument needs is part of totality. -/
theorem Parser.denote_advances_of_total {p : Parser} (hp : p.Every (Total medium)) (s : State) :
    (p.denote tree rounds s).Only s.Advances :=
  p.denote_advances (hp.mono fun _ => Total.steady) s

/-- Parsers one after another return if each of them does where the last one has ended. -/
theorem denoteAll_returns (ps : List Parser) (hps : everyOf (Parser.Total medium) ps)
    (h : ∀ p ∈ ps, ∀ s, s.Fits medium rounds → (p.denote tree rounds s).Returns) :
    ∀ results s, s.Fits medium rounds → (denoteAll tree rounds ps results s).Returns := by
  induction ps with
  | nil => intro results s hs; rw [denoteAll]; exact returns_done _
  | cons p ps ih =>
      intro results s hs
      obtain ⟨hp, hrest⟩ := List.forall_mem_cons.mp h
      rw [denoteAll]
      refine returns_bind (hp s hs) (Parser.denote_advances_of_total hps.1 s) fun t hst => ?_
      exact returns_ite (fun _ => returns_done t) fun _ => ih hps.2 hrest _ t (hs.advances hst)

/-- Alternatives return if each of them does from the one start. -/
theorem denoteFirst_returns (ps : List Parser)
    (h : ∀ p ∈ ps, ∀ s, s.Fits medium rounds → (p.denote tree rounds s).Returns) :
    ∀ errors s, s.Fits medium rounds → (denoteFirst tree rounds ps errors s).Returns := by
  induction ps with
  | nil => intro errors s hs; rw [denoteFirst]; exact returns_done _
  | cons p ps ih =>
      intro errors s hs
      obtain ⟨hp, hrest⟩ := List.forall_mem_cons.mp h
      rw [denoteFirst]
      refine returns_bind_any (hp s hs) fun t => ?_
      exact returns_ite (fun _ => ih hrest _ s hs) fun _ => returns_done t

/-- A program returns if each of its steps does. -/
theorem Program.denote_returns (program : Program) (hprogram : program.Every (Parser.Total medium))
    (h : program.All fun p => ∀ s, s.Fits medium rounds → (p.denote tree rounds s).Returns) :
    ∀ s, s.Fits medium rounds → (program.denote tree rounds s).Returns := by
  induction program with
  | done value => intro s hs; rw [Program.denote]; exact returns_done _
  | step p next ih =>
      intro s hs
      rw [Program.denote]
      refine returns_bind (h.1 s hs) (Parser.denote_advances_of_total hprogram.1 s) fun t hst => ?_
      refine returns_ite (fun _ => returns_done t) fun _ => ?_
      exact ih t.result (hprogram.2 t.result) (h.2 t.result) t (hs.advances hst)
  | noting events rest ih => intro s hs; rw [Program.denote]; exact ih hprogram h s hs
  | raise fault => exact hprogram.elim

/-- A parser of total nodes returns from every state that fits. -/
theorem Parser.denote_returns (p : Parser) (hp : p.Every (Total medium)) :
    ∀ s, s.Fits medium rounds → (p.denote tree rounds s).Returns := by
  induction p with
  | succeed | fail =>
      intro s hs
      rw [Parser.denote]
      exact returns_live (returns_done _)
  | satisfy test name =>
      intro s hs
      rw [Parser.denote]
      exact returns_live (State.readToken_returns hs.admits hp name)
  | literal expected =>
      intro s hs
      obtain ⟨rfl, w, hw⟩ := hp
      rw [Parser.denote]
      exact returns_live (State.readLiteral_returns hs.admits hw)
  | pattern shape name =>
      intro s hs
      rw [Parser.denote]
      exact returns_live (State.readPattern_returns hs.admits hp name)
  | endOfInput =>
      intro s hs
      rw [Parser.denote]
      exact returns_live (State.readEnd_returns hs.admits)
  | bit =>
      intro s hs
      obtain rfl := hp
      rw [Parser.denote]
      exact returns_live (State.readBit_returns hs.admits)
  | jump | deferred | raise => exact hp.elim
  | map p f ih =>
      intro s hs
      obtain ⟨hf, hp⟩ := hp
      rw [Parser.denote]
      refine returns_live ?_
      obtain hf | hspaces := hf
      · refine returns_bind_any (ih hp s hs) fun t => ?_
        refine returns_ite (fun _ => returns_done t) fun _ => ?_
        exact returns_bind_any (returns_ofExcept (hf t.result)) fun value => returns_done _
      · -- the function that joins what `spaces` has read is given nothing but words
        obtain ⟨rfl, rfl⟩ := Parser.map.inj hspaces
        refine returns_bind (ih hp s hs) (denote_many_symbol_words ' ' s) fun t ht => ?_
        refine returns_ite (fun _ => returns_done t) fun hlive => ?_
        obtain hfailed | ⟨items, hitems, hwords⟩ := ht
        · exact absurd hfailed hlive
        · obtain ⟨text, htext⟩ := Value.joined?_of_words hwords
          rw [hitems]
          dsimp only
          rw [htext]
          exact returns_done _
  | chain p next ihp ihnext =>
      intro s hs
      rw [Parser.denote]
      refine returns_live ?_
      refine returns_bind (ihp hp.2.1 s hs) (denote_advances_of_total hp.2.1 s) fun t hst => ?_
      refine returns_ite (fun _ => returns_done t) fun _ => ?_
      exact ihnext t.result (hp.2.2 t.result) t (hs.advances hst)
  | check value expected message =>
      intro s hs
      rw [Parser.denote]
      exact returns_live (State.checkValue_returns value expected hp)
  | errorMap p f ih =>
      intro s hs
      rw [Parser.denote]
      refine returns_live ?_
      refine returns_bind_any (ih hp.2 s hs) fun t => ?_
      refine returns_ite (fun _ => ?_) fun _ => returns_done t
      have hanswers := hp.1 t.error t.index
      exact returns_bind_any (returns_ofExcept hanswers) fun text => returns_done _
  | lookAhead p ih =>
      intro s hs
      rw [Parser.denote]
      refine returns_live ?_
      refine returns_bind_any (ih hp.2 s hs) fun t => ?_
      exact returns_ite (fun _ => returns_done t) fun _ => returns_done _
  | many p ih =>
      intro s hs
      rw [Parser.denote]
      refine returns_live ?_
      exact manyLoop_returns (denote_advances_of_total hp.2) (ih hp.2) rounds [] s hs hs.room_lt
  | many1 p ih =>
      intro s hs
      rw [Parser.denote]
      refine returns_live ?_
      refine returns_bind (ih hp.2 s hs) (denote_advances_of_total hp.2 s) fun first hfirst => ?_
      refine returns_ite (fun _ => returns_done _) fun _ => ?_
      have hfits := hs.advances hfirst
      have hrest := manyLoop_returns (denote_advances_of_total hp.2) (ih hp.2) rounds [] first hfits
        hfits.room_lt
      exact returns_bind_any hrest fun rest => returns_done _
  | orElse p q ihp ihq =>
      intro s hs
      rw [Parser.denote]
      refine returns_live ?_
      refine returns_bind_any (ihp hp.2.1 s hs) fun t => ?_
      exact returns_ite (fun _ => ihq hp.2.2 s hs) fun _ => returns_done t
  | sepBy separator value ihs ihv =>
      intro s hs
      rw [Parser.denote]
      refine returns_live ?_
      exact separated_returns (denote_advances_of_total hp.2.1) (denote_advances_of_total hp.2.2)
        (ihs hp.2.1) (ihv hp.2.2) s hs
  | sepBy1 separator value ihs ihv =>
      intro s hs
      rw [Parser.denote]
      refine returns_live ?_
      refine returns_bind_any (separated_returns (denote_advances_of_total hp.2.1)
        (denote_advances_of_total hp.2.2) (ihs hp.2.1) (ihv hp.2.2) s hs) fun t => ?_
      exact returns_ite (fun _ => returns_done t) fun _ => returns_done _
  | sequence ps ih =>
      intro s hs
      rw [Parser.denote]
      refine returns_live (denoteAll_returns ps hp.2 ?_ [] s hs)
      exact fun p hmem => ih p hmem (everyOf_iff.mp hp.2 p hmem)
  | choice ps ih =>
      intro s hs
      rw [Parser.denote]
      refine returns_live (denoteFirst_returns ps ?_ [] s hs)
      exact fun p hmem => ih p hmem (everyOf_iff.mp hp.2 p hmem)
  | contextual tag program ih =>
      intro s hs
      rw [Parser.denote]
      refine returns_live ?_
      exact program.denote_returns hp.2 (ih.of_every hp.2) s hs
  | trace label =>
      intro s hs
      rw [Parser.denote]
      refine returns_live ?_
      exact returns_bind_any (State.entryLine_returns hs.admits label) fun line => returns_done s
  | traced label p ih =>
      intro s hs
      rw [Parser.denote]
      refine returns_live ?_
      exact returns_bind_any (State.entryLine_returns hs.admits label) fun line => ih hp.2 s hs

/-- Without deferred nodes no session can be of any influence. -/
theorem Parser.eval_ends_of_total {p : Parser} (hp : p.Every (Total medium)) (rules : Rules)
    (fuel frame : Nat) (s : State) :
    (p.eval rules fuel frame s).Ends (fun _ => True) (p.denote (fun _ _ => .exhausted) fuel s) := by
  rw [Parser.eval_eq_denote]
  refine p.denote_simulated (simulates_ends _) (hp.mono fun q hq => ?_) s
  cases q with
  | deferred => exact hq.elim
  | contextual tag program => exact fun s _ h => Run.ends_ensuring h _
  | _ => trivial

end

-- ================================================================ runs

/-- A family of runs that ends at some allowance, and does the same at every larger one. -/
theorem Run.settles {x : Nat → Run State} {n : Nat} {session : Session}
    (hreturns : (x n session).1.Returns)
    (hmirrors : ∀ m, n ≤ m → (x n).Mirrors (fun _ => True) Eq (x m)) :
    ∃ t after, ∀ m, n ≤ m → x m session = (.done t, after) := by
  obtain ⟨t, ht⟩ := hreturns
  refine ⟨t, (x n session).2, fun m hm => ?_⟩
  have hends : (x n session).1 ≠ .exhausted := by
    rw [ht]
    intro h
    cases h
  rw [(hmirrors m hm).run_eq hends]
  exact Prod.ext ht rfl

section

variable {medium : Medium} {p q : Parser} {s : State}

/-- One state is the end of the run at every fuel above the room. -/
theorem Parser.eval_settles (hp : p.Every (Total medium)) (hs : medium.Admits s.input)
    (rules : Rules) (frame : Nat) (session : Session) :
    ∃ t after, ∀ fuel, s.room < fuel → p.eval rules fuel frame s session = (.done t, after) := by
  refine Run.settles (x := fun fuel => p.eval rules fuel frame s) (n := s.room + 1) ?_ ?_
  · rw [(eval_ends_of_total hp rules _ frame s session trivial).1]
    exact p.denote_returns hp s ⟨hs, Nat.lt_succ_self _⟩
  · intro fuel hle
    exact p.eval_mirrors rules hle frame s

/-- One more round than there is room is enough for a repetition, whatever it is granted. -/
theorem Parser.manyLoop_settles (hp : p.Every (Total medium)) (hs : medium.Admits s.input)
    (rules : Rules) (frame : Nat) (session : Session) {fuel : Nat} (hfuel : s.room < fuel)
    (results : List Value) :
    ∃ t after, ∀ rounds, s.room + 1 ≤ rounds →
      manyLoop (p.eval rules fuel frame) rounds results s session = (.done t, after) := by
  refine Run.settles (x := fun rounds => manyLoop (p.eval rules fuel frame) rounds results s) ?_ ?_
  · have hends := (simulates_ends _).manyLoop (eval_ends_of_total hp rules fuel frame)
      (s.room + 1) results s
    rw [(hends session trivial).1]
    exact manyLoop_returns (denote_advances_of_total hp) (p.denote_returns hp) _ results s
      ⟨hs, hfuel⟩
      (Nat.lt_succ_self _)
  · intro rounds hle
    have hp := p.eval_follows rules.supplies_any (Nat.le_refl fuel) frame
    exact manyLoop_mirrors hp hle results s s.result (.inr rfl)

/-- So it is for a repetition with separators. -/
theorem Parser.separatedLoop_settles (hp : p.Every (Total medium)) (hq : q.Every (Total medium))
    (hs : medium.Admits s.input) (rules : Rules) (frame : Nat) (session : Session) {fuel : Nat}
    (hfuel : s.room < fuel) (results : List Value) :
    ∃ t after, ∀ rounds, s.room + 1 ≤ rounds →
      separatedLoop (p.eval rules fuel frame) (q.eval rules fuel frame) rounds results s session =
        (.done t, after) := by
  refine Run.settles (x := fun rounds =>
    separatedLoop (p.eval rules fuel frame) (q.eval rules fuel frame) rounds results s) ?_ ?_
  · have hends := (simulates_ends _).separatedLoop (eval_ends_of_total hp rules fuel frame)
      (eval_ends_of_total hq rules fuel frame) (s.room + 1) results s
    rw [(hends session trivial).1]
    exact separatedLoop_returns (denote_advances_of_total hp) (denote_advances_of_total hq)
      (p.denote_returns hp) (q.denote_returns hq) _ results s ⟨hs, hfuel⟩ (Nat.lt_succ_self _)
  · intro rounds hle
    have hp := p.eval_follows rules.supplies_any (Nat.le_refl fuel) frame
    have hq := q.eval_follows rules.supplies_any (Nat.le_refl fuel) frame
    exact separatedLoop_mirrors hp hq hle results s

end

/-- A parser of total nodes, none of them deferred, returns a state on every input of its medium,
and the same one with every amount of fuel that exceeds the room left to the cursor. A repetition
of such parsers, with or without separators, takes at most one round more than there is room: it
returns if it is allowed so many, and allowing more changes nothing. -/
theorem Parser.eval_terminates {medium : Medium} {p separator : Parser}
    (hp : p.Every (Total medium)) (hseparator : separator.Every (Total medium)) {s : State}
    (hs : medium.Admits s.input) (rules : Rules) (frame : Nat) (session : Session) :
    (∃ t after, ∀ fuel, s.room < fuel → p.eval rules fuel frame s session = (.done t, after)) ∧
      ∀ fuel, s.room < fuel → ∀ results,
        (∃ t after, ∀ rounds, s.room + 1 ≤ rounds →
          manyLoop (p.eval rules fuel frame) rounds results s session = (.done t, after)) ∧
        ∃ t after, ∀ rounds, s.room + 1 ≤ rounds →
          separatedLoop (separator.eval rules fuel frame) (p.eval rules fuel frame) rounds results
            s session = (.done t, after) := by
  refine ⟨eval_settles hp hs rules frame session, fun fuel hfuel results => ⟨?_, ?_⟩⟩
  · exact manyLoop_settles hp hs rules frame session hfuel results
  · exact separatedLoop_settles hseparator hp hs rules frame session hfuel results

namespace Parser

/-- Words with commas between them. -/
def wordList : Parser :=
  sepBy ((symbol ',').keepLeft spaces) letters

/-- The letter A in a byte of its own, and signed numbers of four bits after it. -/
def markedNibbles : Parser :=
  sequence [rawString "A", many (sint 4)]

/-- On four characters a fuel of five is enough, on two bytes a fuel of seventeen. -/
theorem eval_terminates_samples :
    (∃ t after, ∀ fuel, 4 < fuel →
      wordList.eval noRules fuel 0 (.initial (.text #['a', ',', ' ', 'b'])) {} =
        (.done t, after)) ∧
      ∃ t after, ∀ fuel, 16 < fuel →
        markedNibbles.eval noRules fuel 0 (.initial (.buffer .fixed #[65, 240])) {} =
          (.done t, after) := by
  have hcomma : ((symbol ',').keepLeft spaces).Every (Total .text) :=
    ⟨trivial, total_symbol _ ',', fun _ => total_mapPure (total_spaces _) _⟩
  have hwords : wordList.Every (Total .text) := ⟨trivial, hcomma, total_letters⟩
  have hnibbles : markedNibbles.Every (Total .bytes) :=
    ⟨trivial, total_rawString "A", ⟨trivial, total_sint 4⟩, trivial⟩
  have htext : Medium.text.Admits (State.initial (.text #['a', ',', ' ', 'b'])).input := trivial
  have hbuffer : Medium.bytes.Admits (State.initial (.buffer .fixed #[65, 240])).input := trivial
  constructor
  · exact (eval_terminates hwords hwords htext noRules 0 {}).1
  · exact (eval_terminates hnibbles hnibbles hbuffer noRules 0 {}).1

end Parser

end ParserAlgebra
