import ParserAlgebra.Proofs.Cursor
import ParserAlgebra.Proofs.Stepping

/-!
Nothing that is read from a text gets lost.

# What a result spells

A result spells the words in it, from left to right, through all lists and tuples
(`Value.spelling?`); numbers and the like spell nothing, not even the empty text. A state covers a
text from an index on (`State.Covers`) when its result spells the characters from there to the
cursor. These are the characters that a parser has taken, so a parser whose states cover the text
from where it started has lost nothing, doubled nothing, and changed no order.

# Why it is preserved

The characters between three positions are those between the first two and those between the last
two, and in the same way a list spells what its front and its last item spell
(`spellingAll?_concat`). The loop of a repetition and the parsers in a row add one item for every
stretch that they move over. An attempt that fails is dropped with its state. An attempt that does
not move adds nothing to a repetition, and it would have spelled nothing (`manyLoop_covers`).
-/
namespace ParserAlgebra

-- ================================================================ spelling

mutual

/-- The words of a value in a row; the absent value counts as no word. Nothing when the value
holds anything but words, lists and tuples. -/
def Value.spelling? : Value → Option (List Char)
  | .absent => some []
  | .list items => spellingAll? items
  | .tuple items => spellingAll? items
  | v => v.word?.map String.toList

/-- The words of several values in a row. -/
def spellingAll? : List Value → Option (List Char)
  | [] => some []
  | v :: rest => do return (← v.spelling?) ++ (← spellingAll? rest)

end

/-- A word is spelled by its characters. -/
theorem Value.spelling?_of_word {v : Value} {w : String} (h : v.word? = some w) :
    v.spelling? = some w.toList := by
  cases v with
  | text s => exact congrArg (Option.map String.toList) h
  | tag type => exact congrArg (Option.map String.toList) h
  | _ => cases h

/-- A list is spelled item by item. -/
theorem spellingAll?_cons {v : Value} {rest : List Value} {front back : List Char}
    (hv : v.spelling? = some front) (hrest : spellingAll? rest = some back) :
    spellingAll? (v :: rest) = some (front ++ back) := by
  rw [spellingAll?, hv, hrest]
  rfl

/-- A list of one item is spelled as the item. -/
theorem spellingAll?_single {v : Value} {front : List Char} (hv : v.spelling? = some front) :
    spellingAll? [v] = some front := by
  rw [spellingAll?_cons hv rfl, List.append_nil]

/-- No values spell what lies between a position and itself. -/
theorem spellingAll?_nil (chars : Array Char) (i : Nat) :
    spellingAll? [] = some (chars.extract i i).toList := by
  rw [Array.extract_empty_of_stop_le_start (Nat.le_refl i)]
  rfl

/-- An item at the end is spelled at the end. -/
theorem spellingAll?_concat {items : List Value} {v : Value} {back : List Char}
    (hv : v.spelling? = some back) :
    ∀ {front}, spellingAll? items = some front →
      spellingAll? (items ++ [v]) = some (front ++ back) := by
  induction items with
  | nil =>
      intro front hfront
      rw [← Option.some.inj hfront, List.nil_append, List.nil_append]
      exact spellingAll?_single hv
  | cons w items ih =>
      intro front hfront
      rw [spellingAll?] at hfront
      obtain ⟨first, hw, hfront⟩ := Option.bind_eq_some_iff.mp hfront
      obtain ⟨rest, hitems, hfront⟩ := Option.bind_eq_some_iff.mp hfront
      rw [← Option.some.inj hfront, List.cons_append, spellingAll?_cons hw (ih hitems),
        List.append_assoc]

/-- Words that are joined spell what they are joined to. -/
theorem Value.spelling?_of_joined {items : List Value} :
    ∀ {text}, joined? items = some text → spellingAll? items = some text.toList := by
  induction items with
  | nil =>
      intro text h
      rw [← Option.some.inj h]
      rfl
  | cons v items ih =>
      intro text h
      rw [joined?, List.mapM_cons] at h
      obtain ⟨words, hwords, rfl⟩ := Option.map_eq_some_iff.mp h
      obtain ⟨w, hw, hwords⟩ := Option.bind_eq_some_iff.mp hwords
      obtain ⟨rest, hrest, hwords⟩ := Option.bind_eq_some_iff.mp hwords
      have hjoined : joined? items = some (String.join rest) := by
        rw [joined?, hrest]
        rfl
      rw [← Option.some.inj hwords, spellingAll?_cons (spelling?_of_word hw) (ih hjoined)]
      simp

-- ================================================================ states that cover

/-- The result of a state spells the text from `i` up to the cursor. -/
structure State.Covers (chars : Array Char) (i : Nat) (t : State) : Prop where
  input : t.input = .text chars
  forward : i ≤ t.index
  result : t.result.spelling? = some (chars.extract i t.index).toList

/-- A state that covers the text from `i` on, unless it is failed. -/
def State.Accounts (chars : Array Char) (i : Nat) (t : State) : Prop :=
  t.failed = false → t.Covers chars i

/-- A step that accounts for what it moves over, from every live state on the text. -/
def Accounting (chars : Array Char) (step : State → Outcome State) : Prop :=
  ∀ s, s.failed = false → s.input = .text chars → (step s).Only (State.Accounts chars s.index)

open Outcome

/-- A literal that stands in a text is the word that stands there. -/
theorem Input.spelling?_of_hasLiteral {chars : Array Char} {i : Nat} {expected : Value}
    (htuple : ∀ items, expected ≠ .tuple items)
    (h : (Input.text chars).hasLiteral i expected = .ok true) :
    expected.spelling? = some (chars.extract i (i + literalLength expected)).toList := by
  have hword : ∀ w : String, expected.word? = some w → literalLength expected = w.length →
      charsAt chars i w.toList = true →
      expected.spelling? = some (chars.extract i (i + literalLength expected)).toList := by
    intro w hw hlength hstands
    rw [Value.spelling?_of_word hw, hlength, ← String.length_toList]
    exact congrArg some (eq_of_beq hstands).symm
  cases expected with
  | text w => exact hword w rfl rfl (Except.ok.inj h)
  | tag type => exact hword type.word rfl rfl (Except.ok.inj h)
  | tuple items => exact absurd rfl (htuple items)
  | _ => cases h

namespace State

variable {chars : Array Char} {s t : State} {i : Nat}

/-- A failure accounts for anything. -/
theorem Accounts.of_failed (h : t.failed = true) : t.Accounts chars i := by
  intro hlive
  rw [h] at hlive
  cases hlive

theorem accounts_failWith (s : State) (message : String) :
    (s.failWith message).Accounts chars i :=
  .of_failed rfl

/-- A success accounts for what it has moved over if its result spells it. -/
theorem accounts_advance (hs : s.input = .text chars) {j : Nat} (hforward : s.index ≤ j)
    {v : Value} (hv : v.spelling? = some (chars.extract s.index j).toList) :
    (s.advance j v).Accounts chars s.index :=
  fun _ => ⟨hs, hforward, hv⟩

/-- A result that spells nothing accounts for reading nothing. -/
theorem accounts_withResult (hs : s.input = .text chars) {v : Value}
    (hv : v.spelling? = some []) : (s.withResult v).Accounts chars s.index :=
  fun _ => ⟨hs, Nat.le_refl _, hv.trans (spellingAll?_nil chars s.index)⟩

-- ================================================================ leaves

/-- The result of a token is the character that was read. -/
theorem readToken_accounts (hs : s.input = .text chars) (test : Value → Answer Bool)
    (name : String) :
    (Outcome.ofExcept (s.readToken test name).outcome).Only (Accounts chars s.index) := by
  rw [readToken, Answer.outcome_bind, Outcome.ofExcept_bind]
  intro t ht
  obtain ⟨token, htoken, ht⟩ := bind_eq_done ht
  cases token with
  | none => exact only_done (accounts_failWith s _) t ht
  | some token =>
      rw [Answer.outcome_bind, Outcome.ofExcept_bind] at ht
      obtain ⟨passed, -, ht⟩ := bind_eq_done ht
      cases passed with
      | true =>
          have hchar := ofExcept_eq_done htoken
          rw [hs] at hchar
          obtain ⟨c, hc, rfl⟩ := Option.map_eq_some_iff.mp (Except.ok.inj hchar)
          obtain ⟨hlt, rfl⟩ := Array.getElem?_eq_some_iff.mp hc
          have hspells : (Value.text (String.singleton chars[s.index])).spelling? =
              some (chars.extract s.index (s.index + 1)).toList := by
            have hlength : s.index < chars.toList.length := by rwa [Array.length_toList]
            simp [Value.spelling?, Value.word?, List.drop_eq_getElem_cons hlength]
          exact only_done (accounts_advance hs (Nat.le_succ _) hspells) t ht
      | false => exact only_done (accounts_failWith s _) t ht

/-- The result of a literal is the literal, which was there. -/
theorem readLiteral_accounts (hs : s.input = .text chars) {expected : Value}
    (htuple : ∀ items, expected ≠ .tuple items) :
    (Outcome.ofExcept (s.readLiteral expected)).Only (Accounts chars s.index) := by
  rw [readLiteral, Outcome.ofExcept_bind]
  refine only_bind_any fun atEnd => ?_
  cases atEnd with
  | true => exact only_done (accounts_failWith s _)
  | false =>
      intro t ht
      rw [if_neg Bool.false_ne_true, Outcome.ofExcept_bind] at ht
      obtain ⟨found, hfound, ht⟩ := bind_eq_done ht
      cases found with
      | true =>
          have hstands := ofExcept_eq_done hfound
          rw [hs] at hstands
          have hspells := Input.spelling?_of_hasLiteral htuple hstands
          exact only_done (accounts_advance hs (Nat.le_add_right _ _) hspells) t ht
      | false =>
          rw [if_neg Bool.false_ne_true, Outcome.ofExcept_bind] at ht
          obtain ⟨snippet, -, ht⟩ := bind_eq_done ht
          exact only_done (accounts_failWith s _) t ht

/-- The result of a pattern is what it has matched. -/
theorem readPattern_accounts (hs : s.input = .text chars) (shape : Matcher) (name : String) :
    (Outcome.ofExcept (s.readPattern shape name)).Only (Accounts chars s.index) := by
  rw [readPattern, Outcome.ofExcept_bind]
  intro t ht
  obtain ⟨atEnd, hend, ht⟩ := bind_eq_done ht
  cases atEnd with
  | true => exact only_done (accounts_failWith s _) t ht
  | false =>
      have hlt := index_lt_of_not_atEnd (ofExcept_eq_done hend)
      rw [if_neg Bool.false_ne_true, Outcome.ofExcept_bind] at ht
      obtain ⟨found, hfound, ht⟩ := bind_eq_done ht
      cases found with
      | some stop =>
          have hforward := (shape.bounds (Nat.le_of_lt hlt) (ofExcept_eq_done hfound)).1
          let matched := (chars.extract s.index stop).toList
          have hspells : (Value.text (String.ofList matched)).spelling? = some matched := by
            simp [Value.spelling?, Value.word?]
          rw [hs] at ht
          exact only_done (accounts_advance hs hforward hspells) t ht
      | none => exact only_done (accounts_failWith s _) t ht

/-- At the end nothing is read, and the result spells nothing. -/
theorem readEnd_accounts (hs : s.input = .text chars) :
    (Outcome.ofExcept s.readEnd).Only (Accounts chars s.index) := by
  rw [readEnd, Outcome.ofExcept_bind]
  refine only_bind_any fun atEnd => ?_
  cases atEnd with
  | true => exact only_done (accounts_withResult hs rfl)
  | false =>
      rw [if_neg Bool.false_ne_true, Outcome.ofExcept_bind]
      exact only_bind_any fun snippet => only_done (accounts_failWith s _)

end State

-- ================================================================ combinators

section

variable {chars : Array Char}

/-- The loop of a repetition: what the rounds so far have read, and what the others read. -/
theorem manyLoop_covers {attempt : State → Outcome State} (h : Accounting chars attempt) {i : Nat} :
    ∀ rounds results s, s.failed = false → s.input = .text chars → i ≤ s.index →
      spellingAll? results.reverse = some (chars.extract i s.index).toList →
      (manyLoop attempt rounds results s).Only fun t =>
        t.Covers chars i ∧ ∃ items, t.result = .list items := by
  intro rounds
  induction rounds with
  | zero => intro results s hs hinput hle hresults; exact only_exhausted
  | succ rounds ih =>
      intro results s hs hinput hle hresults
      rw [manyLoop]
      refine only_bind (h s hs hinput) fun t ht => only_ite (fun _ => ?_) fun hmoved => ?_
      -- the last attempt is dropped, and the cursor with it
      · exact only_done ⟨⟨hinput, hle, hresults⟩, _, rfl⟩
      · rw [Bool.or_eq_true, not_or, Bool.not_eq_true] at hmoved
        obtain ⟨htext, hforward, hresult⟩ := ht hmoved.1
        refine ih _ t hmoved.1 htext (Nat.le_trans hle hforward) ?_
        rw [List.reverse_cons, toList_extract_append hle hforward]
        exact spellingAll?_concat hresult hresults

/-- In a row of parsers the results so far spell what lies behind, and each success adds its own
part. -/
theorem denoteAll_accounts {tree : Deferred → State → Outcome State} {rounds i : Nat}
    (ps : List Parser) (h : ∀ p ∈ ps, Accounting chars (p.denote tree rounds)) :
    ∀ results s, s.failed = false → s.input = .text chars → i ≤ s.index →
      spellingAll? results.reverse = some (chars.extract i s.index).toList →
      (denoteAll tree rounds ps results s).Only (State.Accounts chars i) := by
  induction ps with
  | nil =>
      intro results s hs hinput hle hresults
      rw [denoteAll]
      exact only_done fun _ => ⟨hinput, hle, hresults⟩
  | cons p ps ih =>
      intro results s hs hinput hle hresults
      obtain ⟨hp, hps⟩ := List.forall_mem_cons.mp h
      rw [denoteAll]
      refine only_bind (hp s hs hinput) fun t ht => only_ite (fun hfailed => ?_) fun hlive => ?_
      · exact only_done (.of_failed hfailed)
      · rw [Bool.not_eq_true] at hlive
        obtain ⟨htext, hforward, hresult⟩ := ht hlive
        refine ih hps _ t hlive htext (Nat.le_trans hle hforward) ?_
        rw [List.reverse_cons, toList_extract_append hle hforward]
        exact spellingAll?_concat hresult hresults

/-- An alternative that succeeds accounts from the one start. -/
theorem denoteFirst_accounts {tree : Deferred → State → Outcome State} {rounds : Nat}
    (ps : List Parser) (h : ∀ p ∈ ps, Accounting chars (p.denote tree rounds)) :
    ∀ errors, Accounting chars (denoteFirst tree rounds ps errors) := by
  induction ps with
  | nil =>
      intro errors s hs hinput
      rw [denoteFirst]
      refine only_done ?_
      unfold State.failChoice
      split
      · exact s.accounts_failWith _
      · exact s.accounts_failWith _
  | cons p ps ih =>
      intro errors s hs hinput
      obtain ⟨hp, hps⟩ := List.forall_mem_cons.mp h
      rw [denoteFirst]
      refine only_bind (hp s hs hinput) fun t ht => only_ite (fun _ => ?_) fun _ => only_done ht
      exact ih hps _ s hs hinput

end

-- ================================================================ parsers that lose nothing

/-- Parsers that keep every character they take: those that read a text, and those that put what
they read in a row. Deferred nodes are those of `known`. -/
inductive Parser.Lossless (known : Deferred → Prop) : Parser → Prop
  | satisfy (test : Value → Answer Bool) (name : String) : Lossless known (.satisfy test name)
  | literal {expected : Value} (h : ∀ items, expected ≠ .tuple items) :
      Lossless known (.literal expected)
  | pattern (shape : Matcher) (name : String) : Lossless known (.pattern shape name)
  | endOfInput : Lossless known .endOfInput
  | joinTexts {p : Parser} (hp : Lossless known p) : Lossless known (joinTexts p)
  | sequence {ps : List Parser} (hps : ∀ p ∈ ps, Lossless known p) : Lossless known (.sequence ps)
  | both {p q : Parser} (hp : Lossless known p) (hq : Lossless known q) :
      Lossless known (both p q)
  | orElse {p q : Parser} (hp : Lossless known p) (hq : Lossless known q) :
      Lossless known (.orElse p q)
  | choice {ps : List Parser} (hps : ∀ p ∈ ps, Lossless known p) : Lossless known (.choice ps)
  | many {p : Parser} (hp : Lossless known p) : Lossless known (.many p)
  | many1 {p : Parser} (hp : Lossless known p) : Lossless known (.many1 p)
  | count (n : Nat) {p : Parser} (hp : Lossless known p) : Lossless known (count n p)
  | option {default : Value} (h : default.spelling? = some []) {p : Parser}
      (hp : Lossless known p) : Lossless known (option default p)
  | deferred {object : Deferred} (h : known object) : Lossless known (.deferred object)
  | traced (label : String) {p : Parser} (hp : Lossless known p) : Lossless known (.traced label p)

namespace Parser

variable {known : Deferred → Prop}

/-- Spaces are joined to what was skipped. -/
theorem lossless_spaces : spaces.Lossless known :=
  .joinTexts (.many (.satisfy _ _))

section

variable {tree : Deferred → State → Outcome State} {rounds : Nat} {chars : Array Char}

/-- To join texts changes no character. -/
theorem joinTexts_accounts {p : Parser} (hp : Accounting chars (p.denote tree rounds)) :
    Accounting chars ((joinTexts p).denote tree rounds) := by
  intro s hs hinput
  rw [joinTexts, Parser.denote, if_neg (State.not_failed hs)]
  refine only_bind (hp s hs hinput) fun t ht => only_ite (fun hfailed => ?_) fun hlive => ?_
  · exact only_done (.of_failed hfailed)
  · obtain ⟨htext, hforward, hresult⟩ := ht (Bool.eq_false_iff.mpr hlive)
    intro u hu
    obtain ⟨v, hv, hu⟩ := bind_eq_done hu
    split at hv
    · next items hitems =>
        rw [hitems] at hresult
        cases htexts : Value.joined? items with
        | none =>
            rw [htexts] at hv
            cases hv
        | some text =>
            rw [htexts] at hv
            have hspells : (t.withResult (.text text)).Accounts chars s.index := by
              refine fun _ => ⟨htext, hforward, ?_⟩
              exact (Value.spelling?_of_joined htexts).symm.trans hresult
            obtain rfl := Outcome.done.inj hv
            exact only_done hspells u hu
    · cases hv

/-- A pair spells its first result and then its second. -/
theorem both_accounts {p q : Parser} (hp : Accounting chars (p.denote tree rounds))
    (hq : Accounting chars (q.denote tree rounds)) :
    Accounting chars ((both p q).denote tree rounds) := by
  intro s hs hinput
  rw [both, Parser.denote, if_neg (State.not_failed hs)]
  refine only_bind (hp s hs hinput) fun t ht => only_ite (fun hfailed => ?_) fun hlive => ?_
  · exact only_done (.of_failed hfailed)
  · rw [Bool.not_eq_true] at hlive
    obtain ⟨htext, hst, hfirst⟩ := ht hlive
    rw [mapPure, Parser.denote, if_neg (State.not_failed hlive)]
    refine only_bind (hq t hlive htext) fun u hu => only_ite (fun hfailed => ?_) fun hlive => ?_
    · exact only_done (.of_failed hfailed)
    · obtain ⟨hutext, htu, hsecond⟩ := hu (Bool.eq_false_iff.mpr hlive)
      refine only_done fun _ => ⟨hutext, Nat.le_trans hst htu, ?_⟩
      show spellingAll? ([t.result] ++ [u.result]) = some (chars.extract s.index u.index).toList
      rw [toList_extract_append hst htu]
      exact spellingAll?_concat hsecond (spellingAll?_single hfirst)

/-- The first result and the list of the others spell what was read. -/
theorem many1_accounts {p : Parser} (hp : Accounting chars (p.denote tree rounds)) :
    Accounting chars ((many1 p).denote tree rounds) := by
  intro s hs hinput
  rw [Parser.denote, if_neg (State.not_failed hs)]
  refine only_bind (hp s hs hinput) fun first hfirst => only_ite (fun _ => ?_) fun hlive => ?_
  · exact only_done (s.accounts_failWith _)
  · rw [Bool.not_eq_true] at hlive
    obtain ⟨htext, hforward, hresult⟩ := hfirst hlive
    have hloop := manyLoop_covers hp rounds [] first hlive htext (Nat.le_refl _)
      (spellingAll?_nil chars first.index)
    refine only_bind hloop fun rest hrest => only_done fun _ => ?_
    obtain ⟨⟨hrtext, hrforward, hspells⟩, items, hitems⟩ := hrest
    refine ⟨hrtext, Nat.le_trans hforward hrforward, ?_⟩
    rw [hitems] at hspells
    show (prepend first.result rest.result).spelling? =
      some (chars.extract s.index rest.index).toList
    rw [hitems, toList_extract_append hforward hrforward]
    exact spellingAll?_cons hresult hspells

/-- The list of a sequence spells what its parsers have read. -/
theorem sequence_accounts {ps : List Parser}
    (hps : ∀ p ∈ ps, Accounting chars (p.denote tree rounds)) :
    Accounting chars ((sequence ps).denote tree rounds) := by
  intro s hs hinput
  rw [Parser.denote, if_neg (State.not_failed hs)]
  exact denoteAll_accounts ps hps [] s hs hinput (Nat.le_refl _) (spellingAll?_nil chars s.index)

/-- A lossless parser accounts for what it reads, when the deferred nodes it knows do. -/
theorem denote_accounts (htree : ∀ object, known object → Accounting chars (tree object))
    {p : Parser} (hp : p.Lossless known) : Accounting chars (p.denote tree rounds) := by
  induction hp with
  | satisfy test name =>
      intro s hs hinput
      rw [Parser.denote, if_neg (State.not_failed hs)]
      exact State.readToken_accounts hinput test name
  | literal htuple =>
      intro s hs hinput
      rw [Parser.denote, if_neg (State.not_failed hs)]
      exact State.readLiteral_accounts hinput htuple
  | pattern shape name =>
      intro s hs hinput
      rw [Parser.denote, if_neg (State.not_failed hs)]
      exact State.readPattern_accounts hinput shape name
  | endOfInput =>
      intro s hs hinput
      rw [Parser.denote, if_neg (State.not_failed hs)]
      exact State.readEnd_accounts hinput
  | joinTexts hp ih => exact joinTexts_accounts ih
  | sequence hps ih => exact sequence_accounts ih
  | both hp hq ihp ihq => exact both_accounts ihp ihq
  | orElse hp hq ihp ihq =>
      intro s hs hinput
      rw [Parser.denote, if_neg (State.not_failed hs)]
      refine only_bind (ihp s hs hinput) fun t ht => only_ite (fun _ => ?_) fun _ => only_done ht
      exact ihq s hs hinput
  | choice hps ih =>
      intro s hs hinput
      rw [Parser.denote, if_neg (State.not_failed hs)]
      exact denoteFirst_accounts _ ih [] s hs hinput
  | many hp ih =>
      intro s hs hinput
      rw [Parser.denote, if_neg (State.not_failed hs)]
      intro t ht _
      exact (manyLoop_covers ih rounds [] s hs hinput (Nat.le_refl _)
        (spellingAll?_nil chars s.index) t ht).1
  | many1 hp ih => exact many1_accounts ih
  | count n hp ih =>
      unfold count
      split
      · intro s hs hinput
        rw [Parser.denote, if_neg (State.not_failed hs)]
        exact only_done (State.accounts_withResult hinput rfl)
      · refine sequence_accounts fun q hq => ?_
        rw [List.eq_of_mem_replicate hq]
        exact ih
  | option hempty hp ih =>
      intro s hs hinput
      rw [option, Parser.denote, if_neg (State.not_failed hs)]
      refine only_bind (ih s hs hinput) fun t ht => only_ite (fun _ => ?_) fun _ => only_done ht
      rw [Parser.denote, if_neg (State.not_failed hs)]
      exact only_done (State.accounts_withResult hinput hempty)
  | deferred hknown =>
      intro s hs hinput
      rw [Parser.denote, if_neg (State.not_failed hs)]
      exact htree _ hknown s hs hinput
  | traced label hp ih =>
      intro s hs hinput
      rw [Parser.denote, if_neg (State.not_failed hs)]
      exact only_bind_any fun line => ih s hs hinput

end

end Parser

-- ================================================================ rules

/-- Known deferred nodes account for what they read when lossless parsers are built for them. -/
theorem Rules.unfold_accounts {rules : Rules} {known : Deferred → Prop} (chars : Array Char)
    (hrules : ∀ object p, known object → rules.tree object = .ok p → p.Lossless known) :
    ∀ fuel object, known object → Accounting chars (rules.unfold fuel object) := by
  intro fuel
  induction fuel with
  | zero => intro object hknown s hs hinput; exact only_exhausted
  | succ fuel ih =>
      intro object hknown s hs hinput t ht
      rw [Rules.unfold] at ht
      obtain ⟨p, hp, ht⟩ := bind_eq_done ht
      have hlossless := hrules object p hknown (ofExcept_eq_done hp)
      exact Parser.denote_accounts ih hlossless s hs hinput t ht

/-- A lossless parser keeps what it reads. Wherever on a text it starts, and whatever result is
left there by others, the words in its result are the characters from the start to the cursor, each
of them once and in their order. Its deferred nodes may stand for parsers that refer to each other,
as long as all of these are lossless. -/
theorem Parser.eval_lossless {rules : Rules} {known : Deferred → Prop}
    (hrules : ∀ object p, known object → rules.tree object = .ok p → p.Lossless known)
    {session : Session} (hsession : session.Faithful rules) {p : Parser}
    (hp : p.Lossless known) {fuel frame : Nat} {chars : Array Char} {s t : State}
    (hinput : s.input = .text chars) (hs : s.failed = false)
    (h : (p.eval rules fuel frame s session).1 = .done t) (ht : t.failed = false) :
    s.index ≤ t.index ∧ t.result.spelling? = some (chars.extract s.index t.index).toList := by
  rw [Parser.eval_eq_apply hsession, Parser.apply] at h
  have htree := Rules.unfold_accounts chars hrules fuel
  obtain ⟨-, hforward, hresult⟩ := denote_accounts htree hp s hs hinput t h ht
  exact ⟨hforward, hresult⟩

-- ================================================================ groups in brackets

namespace Groups

/-- The rule of the grammar. -/
def rule : Rule :=
  ⟨"group", []⟩

/-- Letters, or a group of such items in brackets, with spaces before the closing one. -/
def item : Parser :=
  .traced "item" <| .choice
    [.letters,
     .sequence [.symbol '(', .many (.deferred (.own 0 rule)), .spaces, .symbol ')']]

/-- Every rule is the one rule of the grammar. -/
def rules : Rules where
  rule _ := .pure (.parser item)
  body _ _ := .raise .missingOperation

theorem lossless_item {known : Deferred → Prop} (h : known (.own 0 rule)) :
    item.Lossless known := by
  refine .traced _ (.choice fun p hp => ?_)
  simp only [List.mem_cons, List.not_mem_nil, or_false] at hp
  rcases hp with rfl | rfl
  · exact .pattern _ _
  · refine .sequence fun q hq => ?_
    simp only [List.mem_cons, List.not_mem_nil, or_false] at hq
    rcases hq with rfl | rfl | rfl | rfl
    · exact .satisfy _ _
    · exact .many (.deferred h)
    · exact Parser.lossless_spaces
    · exact .satisfy _ _

/-- The text `x(a(b) )`, read behind its first letter. -/
def sample : State where
  input := .text #['x', '(', 'a', '(', 'b', ')', ' ', ')']
  index := 1
  result := .int 7

/-- The group within the group, the spaces and all the brackets are in the result. -/
theorem eval_lossless_sample :
    ∃ t, (item.eval rules 4 0 sample {}).1 = .done t ∧ t.index = 8 ∧
      t.result = .list [.text "(", .list [.text "a", .list [.text "(", .list [.text "b"],
        .text "", .text ")"]], .text " ", .text ")"] ∧
      t.result.spelling? = some ['(', 'a', '(', 'b', ')', ' ', ')'] := by
  have hempty := Session.faithful_empty rules
  have hrules : ∀ object p, (fun object => object = Deferred.own 0 rule) object →
      rules.tree object = .ok p → p.Lossless fun object => object = Deferred.own 0 rule := by
    rintro object p rfl hp
    rw [← Except.ok.inj hp]
    exact lossless_item rfl
  obtain ⟨t, ht, hlive, hindex, hresult⟩ :
      ∃ t, (item.eval rules 4 0 sample {}).1 = .done t ∧ t.failed = false ∧ t.index = 8 ∧
        t.result = .list [.text "(", .list [.text "a", .list [.text "(", .list [.text "b"],
          .text "", .text ")"]], .text " ", .text ")"] := by
    rw [Parser.eval_eq_apply hempty]
    exact ⟨_, rfl, rfl, rfl, rfl⟩
  have hspells := (Parser.eval_lossless hrules hempty (lossless_item rfl) rfl rfl ht hlive).2
  rw [hindex] at hspells
  exact ⟨t, ht, hindex, hresult, hspells⟩

end Groups

end ParserAlgebra
