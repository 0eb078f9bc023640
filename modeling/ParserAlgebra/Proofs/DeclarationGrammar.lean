import ParserAlgebra.Declaration
import ParserAlgebra.Proofs.Token

/-!
The language of declarations: the parser accepts what can be written, and nothing else.

# Forms

A `Form` is a declaration as it is written: the keyword, the spaces in their four places, the name,
the type, and a literal of that type. Its text and what it declares are read off it, and a form
whose literal is of another type cannot be built. A form stands in a text (`Form.Stands`) where its
text does, and a number has to take all the digits there are: the text itself does not tell where
a number ends.

# Why greedy reading is no loss

The parser never goes back once a part has been read. The proof has two halves. What the parts take
in a row is always the text of an opening (`scanner_cases`), so whatever is accepted is a form. And
no part takes more than its share of a form (`scanner_opening`): behind each part stands a character
that the part cannot take, and no word of a choice begins another one. The same two facts leave one
way to read a text (`Form.text_unique`).

# The literal decides

Up to the literal nothing can raise a fault. The literal can, in one case: a number of more than
4300 digits is matched, but not converted.
-/
namespace ParserAlgebra.Declaration

-- ================================================================ the grammar

/-- The keywords. -/
inductive Keyword where
  | mutable
  | constant
deriving DecidableEq, Repr

/-- How a keyword is spelled. -/
def Keyword.word : Keyword → String
  | mutable => "let"
  | constant => "const"

/-- The quotes. -/
inductive Quote where
  | single
  | double
deriving DecidableEq, Repr

/-- The character of a quote. -/
def Quote.char : Quote → Char
  | single => '\''
  | double => '"'

/-- The characters of names. -/
def inName (c : Char) : Bool :=
  c.isAlpha || c == '_'

/-- Literals. The two quotes of a string need not be the same. -/
inductive Literal where
  | number (digits : Lexeme Char.isDigit)
  | quoted (opening closing : Quote) (letters : Lexeme Char.isAlpha)
  | truth (b : Bool)

namespace Literal

/-- The type that a literal is of. -/
def type : Literal → TypeTag
  | number _ => .int
  | quoted _ _ _ => .string
  | truth _ => .boolean

def text : Literal → List Char
  | number digits => digits.chars
  | quoted opening closing letters => opening.char :: (letters.chars ++ [closing.char])
  | truth b => (toString b).toList

/-- What a literal denotes. -/
def value : Literal → Value
  | number digits => .int (Nat.ofDigitChars 10 digits.chars 0)
  | quoted _ _ letters => .text (String.ofList letters.chars)
  | truth b => .bool b

/-- The literal is not a number of too many digits. -/
def Fits : Literal → Prop
  | number digits => digits.chars.length ≤ 4300
  | _ => True

instance : DecidablePred Fits
  | number digits => inferInstanceAs (Decidable (digits.chars.length ≤ 4300))
  | quoted _ _ _ => inferInstanceAs (Decidable True)
  | truth _ => inferInstanceAs (Decidable True)

/-- The literal ends in front of these characters: a number takes all digits there are. -/
def EndsBefore (rest : List Char) : Literal → Prop
  | number _ => Stops Char.isDigit rest
  | _ => True

end Literal

/-- A row of spaces. -/
def blanks (n : Nat) : List Char :=
  List.replicate n ' '

/-- What stands in front of the literal. Spaces may stand in four places. -/
@[ext] structure Opening where
  keyword : Keyword
  beforeName : Nat
  name : Lexeme inName
  afterColon : Nat
  type : TypeTag
  beforeEquals : Nat
  afterEquals : Nat

/-- What stands in front of the literal, with the spaces as they are. -/
def Opening.text (opening : Opening) : List Char :=
  opening.keyword.word.toList ++ (blanks opening.beforeName ++ (opening.name.chars ++ (':' ::
    (blanks opening.afterColon ++ (opening.type.word.toList ++ (blanks opening.beforeEquals ++
      ('=' :: blanks opening.afterEquals)))))))

/-- A written declaration, with a literal of the type that is declared. -/
@[ext] structure Form where
  opening : Opening
  literal : Literal
  typed : literal.type = opening.type

namespace Form

def text (form : Form) : List Char :=
  form.opening.text ++ form.literal.text

/-- The declaration that is written. -/
def value (form : Form) : Value :=
  .declaration (.text form.opening.keyword.word) (.text (String.ofList form.opening.name.chars))
    (.tag form.opening.type) form.literal.value

end Form

-- ================================================================ the scanner

/-- The keywords, in the order in which they are tried. -/
def keywords : Words Keyword where
  spell := Keyword.word
  all := [.mutable, .constant]
  complete keyword := by cases keyword <;> decide
  nonempty := by decide
  prefixFree := by decide

/-- The names of types, in the order in which they are tried. -/
def types : Words TypeTag where
  spell := TypeTag.word
  all := [.int, .string, .boolean]
  complete type := by cases type <;> decide
  nonempty := by decide
  prefixFree := by decide

/-- The quotes, in the order in which they are tried. -/
def quotes : Words Quote where
  spell quote := String.singleton quote.char
  all := [.single, .double]
  complete quote := by cases quote <;> decide
  nonempty := by decide
  prefixFree := by decide

/-- The truth values, in the order in which they are tried. -/
def truths : Words Bool where
  spell := toString
  all := [true, false]
  complete b := by cases b <;> decide
  nonempty := by decide
  prefixFree := by decide

/-- A row of spaces. -/
def gapScanner : Scanner :=
  .skip (· == ' ')

/-- The colon behind a name, with its gap. -/
def colonScanner : Scanner :=
  Scanner.chain (.word (String.singleton ':')) fun _ => gapScanner

/-- The equals sign with the gaps around it. -/
def equalsScanner : Scanner :=
  Scanner.chain (gapScanner.chain fun _ => .word (String.singleton '=')) fun _ => gapScanner

/-- The type that a word names. -/
def typeOf (word : Value) : Answer Value :=
  .ofOption .typeMismatch ((word.word?.bind TypeTag.ofWord?).map .tag)

/-- The scanner of type names gives the type for its name. -/
def typeScanner : Scanner :=
  types.scanner.map typeOf

/-- The literals of a type. -/
def literalScanner : TypeTag → Scanner
  | .int => Scanner.map (.run Char.isDigit) numberOf
  | .string =>
    Scanner.map (.allFrom [quotes.scanner, .run Char.isAlpha, quotes.scanner] []) fun items =>
      .pure (Parser.itemAt 1 items)
  | .boolean =>
    truths.scanner.map fun word => .pure (.bool (word.alike (.text "true")))

/-- What stands behind the last gap, and the declaration made of it all. -/
def valueScanner (kind name : Value) : Value → Scanner
  | .tag type => (literalScanner type).chain fun value cs =>
    .taken (.declaration kind name (.tag type) value) cs
  | type => fun _ => .raised (.unknownType type)

/-- A declaration. -/
def scanner : Scanner :=
  keywords.scanner.chain fun kind =>
  gapScanner.chain fun _ =>
  Scanner.chain (.run inName) fun name =>
  colonScanner.chain fun _ =>
  typeScanner.chain fun type =>
  equalsScanner.chain fun _ =>
  valueScanner kind name type

section

variable {tree : Deferred → State → Outcome State} {rounds : Nat}

/-- A name is as many letters, digits and underscores as there are. -/
theorem scans_variableName : variableName.Scans tree rounds (.run inName) := by
  have hchunks : Scanner.Chunks _ inName :=
    (Scanner.chunks_run Char.isAlpha).rescue (Scanner.chunks_word '_')
  have hchunk : (Parser.orElse .letters (.symbol '_')).Scans tree rounds _ :=
    Parser.scans_letters.orElse (Parser.scans_symbol '_')
  exact (hchunk.joined_many1 hchunks).errorMap fun _ _ => ⟨_, rfl⟩

/-- The parser of type names scans as their scanner does. -/
theorem scans_typeName : typeName.Scans tree rounds typeScanner :=
  types.scans.map _

/-- The parser of quotes scans as the words for them. -/
theorem scans_quote : quote.Scans tree rounds quotes.scanner :=
  Parser.scans_choice (.cons (Parser.scans_symbol _) (.cons (Parser.scans_symbol _) .nil))

/-- The parser of literals of a type scans as their scanner does. -/
theorem scans_literalOf (type : TypeTag) :
    (literalOf type).Scans tree rounds (literalScanner type) := by
  cases type with
  | int => exact Parser.scans_digits.map _
  | string =>
      exact (Parser.scans_sequence
        (.cons scans_quote (.cons Parser.scans_letters (.cons scans_quote .nil)))).map _
  | boolean => exact truths.scans.map _

/-- The parser of declarations and their scanner. -/
theorem scans_declaration : parser.Scans tree rounds scanner := by
  refine Program.Scans.contextual ?_ none
  refine Program.scans_step keywords.scans fun kind => ?_
  refine Program.scans_step Parser.scans_spaces fun _ => ?_
  refine Program.scans_step scans_variableName fun name => ?_
  refine Program.scans_step ((Parser.scans_symbol ':').keepRight Parser.scans_spaces) fun _ => ?_
  refine Program.scans_step scans_typeName fun type => ?_
  refine Program.scans_step ((Parser.scans_spaces.keepRight (Parser.scans_symbol '=')).keepRight
    Parser.scans_spaces) fun _ => ?_
  cases type with
  | tag type => exact Program.scans_step (scans_literalOf type) fun value => Program.scans_done _
  | _ => exact Program.scans_raise _

end

-- ================================================================ what the scanner takes

section

variable {cs rest : List Char} {value : Value}

/-- A gap is as many spaces as there are, maybe none. -/
theorem gapScanner_eq_taken :
    gapScanner cs = .taken value rest ↔
      ∃ n, cs = blanks n ++ rest ∧ Stops (· == ' ') rest ∧
        value = .text (String.ofList (blanks n)) := by
  rw [gapScanner, Scanner.skip_eq_taken]
  constructor
  · rintro ⟨w, rfl, hw, hstops, rfl⟩
    have hblanks : w = blanks w.length :=
      List.eq_replicate_iff.mpr ⟨rfl, fun c hc => beq_iff_eq.mp (hw c hc)⟩
    exact ⟨w.length, by rw [← hblanks], hstops, by rw [← hblanks]⟩
  · rintro ⟨n, rfl, hstops, rfl⟩
    refine ⟨blanks n, rfl, fun c hc => ?_, hstops, rfl⟩
    rw [List.eq_of_mem_replicate hc]
    rfl

theorem calm_gapScanner : gapScanner.Calm :=
  Scanner.calm_skip _

theorem calm_colonScanner : colonScanner.Calm :=
  (Scanner.calm_word _).chain fun _ => calm_gapScanner

theorem calm_equalsScanner : equalsScanner.Calm :=
  (calm_gapScanner.chain fun _ => Scanner.calm_word _).chain fun _ => calm_gapScanner

/-- A colon may have spaces behind it. -/
theorem colonScanner_eq_taken :
    colonScanner cs = .taken value rest ↔
      ∃ n, cs = ':' :: (blanks n ++ rest) ∧ Stops (· == ' ') rest ∧
        value = .text (String.ofList (blanks n)) := by
  simp only [colonScanner, Scanner.chain_eq_taken, Scanner.symbol_eq_taken, gapScanner_eq_taken]
  constructor
  · rintro ⟨_, _, ⟨rfl, -⟩, n, rfl, hstops, rfl⟩
    exact ⟨n, rfl, hstops, rfl⟩
  · rintro ⟨n, rfl, hstops, rfl⟩
    exact ⟨_, _, ⟨rfl, rfl⟩, n, rfl, hstops, rfl⟩

/-- An equals sign may have spaces on both sides. -/
theorem equalsScanner_eq_taken :
    equalsScanner cs = .taken value rest ↔
      ∃ m n, cs = blanks m ++ '=' :: (blanks n ++ rest) ∧ Stops (· == ' ') rest ∧
        value = .text (String.ofList (blanks n)) := by
  simp only [equalsScanner, Scanner.chain_eq_taken, Scanner.symbol_eq_taken, gapScanner_eq_taken]
  constructor
  · rintro ⟨_, _, ⟨_, _, ⟨m, rfl, -, rfl⟩, rfl, rfl⟩, n, rfl, hstops, rfl⟩
    exact ⟨m, n, rfl, hstops, rfl⟩
  · rintro ⟨m, n, rfl, hstops, rfl⟩
    exact ⟨_, _, ⟨_, _, ⟨m, rfl, stops_cons.mpr rfl, rfl⟩, rfl, rfl⟩, n, rfl, hstops, rfl⟩

/-- The name of a type gives its tag. -/
theorem outcome_typeOf (type : TypeTag) :
    (typeOf (.text type.word)).outcome = .ok (.tag type) := by
  cases type <;> rfl

/-- A type name is taken if the text begins with it. -/
theorem typeScanner_eq_taken :
    typeScanner cs = .taken value rest ↔
      ∃ type : TypeTag, cs = type.word.toList ++ rest ∧ value = .tag type := by
  rw [typeScanner, Scanner.map_eq_taken]
  constructor
  · rintro ⟨word, hscan, hvalue⟩
    obtain ⟨type, hcs, rfl⟩ := types.scanner_eq_taken.mp hscan
    exact ⟨type, hcs, (Except.ok.inj ((outcome_typeOf type).symm.trans hvalue)).symm⟩
  · rintro ⟨type, hcs, rfl⟩
    exact ⟨_, types.scanner_eq_taken.mpr ⟨type, hcs, rfl⟩, outcome_typeOf type⟩

/-- Only names of types are asked for their type, so there is no fault. -/
theorem calm_typeScanner : typeScanner.Calm := by
  intro cs fault h
  obtain ⟨word, rest, hscan, hfault⟩ := types.calm.map_eq_raised h
  obtain ⟨type, -, rfl⟩ := types.scanner_eq_taken.mp hscan
  cases (outcome_typeOf type).symm.trans hfault

/-- The number of a row of digits is the one that they denote in decimal. -/
theorem numeralValue_eq {digits : List Char} (h : ∀ c ∈ digits, c.isDigit = true) :
    Text.numeralValue digits = Nat.ofDigitChars 10 digits 0 := by
  have hfold : ∀ n : Nat, digits.foldl (fun n c => 10 * n + Text.digitValue c) n =
      Nat.ofDigitChars 10 digits n := by
    induction digits with
    | nil => intro n; rfl
    | cons c digits ih =>
        intro n
        rw [List.forall_mem_cons] at h
        rw [List.foldl_cons, Nat.ofDigitChars_cons, ih h.2, Text.digitValue, if_pos h.1]
  exact hfold 0

/-- Digits give their number, unless there are too many of them. -/
theorem outcome_numberOf (digits : Lexeme Char.isDigit) :
    (numberOf (.text (String.ofList digits.chars))).outcome =
      if digits.chars.length ≤ 4300 then .ok (.int (Nat.ofDigitChars 10 digits.chars 0))
      else .error .malformedNumeral := by
  have hall : digits.chars.all Char.isDigit = true := List.all_eq_true.mpr digits.members
  rw [numberOf, Value.word?, Option.bind_some, String.toList_ofList, Text.numeral?,
    numeralValue_eq digits.members]
  by_cases hfits : digits.chars.length ≤ 4300
  · rw [if_pos ⟨digits.nonempty, hall, hfits⟩, if_pos hfits]
    rfl
  · rw [if_neg fun h => hfits h.2.2, if_neg hfits]
    rfl

/-- A quote is taken if the text begins with it. -/
theorem quotes_eq_taken :
    quotes.scanner cs = .taken value rest ↔
      ∃ quote : Quote, cs = quote.char :: rest ∧ value = .text (String.singleton quote.char) := by
  have hspell : ∀ quote, (quotes.spell quote).toList = [quote.char] :=
    fun quote => String.toList_singleton quote.char
  rw [quotes.scanner_eq_taken]
  constructor
  · rintro ⟨quote, rfl, rfl⟩
    exact ⟨quote, by rw [hspell]; rfl, rfl⟩
  · rintro ⟨quote, rfl, rfl⟩
    exact ⟨quote, by rw [hspell]; rfl, rfl⟩

/-- A quote is not a letter, so the letters end in front of it. -/
theorem stops_quote (quote : Quote) (rest : List Char) :
    Stops Char.isAlpha (quote.char :: rest) := by
  intro c hc
  obtain rfl := Option.some.inj hc
  cases quote <;> decide

/-- A quoted text is letters between two quotes, which need not be the same. -/
theorem quotedScanner_eq_taken :
    literalScanner .string cs = .taken value rest ↔
      ∃ (opening closing : Quote) (letters : Lexeme Char.isAlpha),
        cs = opening.char :: (letters.chars ++ closing.char :: rest) ∧
        value = .text (String.ofList letters.chars) := by
  rw [literalScanner, Scanner.map_eq_taken]
  simp only [Scanner.allFrom, Scan.andThen_eq_taken, quotes_eq_taken, Scanner.run_eq_taken]
  constructor
  · rintro ⟨items, ⟨_, _, ⟨opening, rfl, rfl⟩, _, _, ⟨letters, rfl, -, rfl⟩, _, _,
      ⟨closing, rfl, rfl⟩, hitems⟩, hvalue⟩
    cases hitems
    cases hvalue
    exact ⟨opening, closing, letters, rfl, rfl⟩
  · rintro ⟨opening, closing, letters, rfl, rfl⟩
    refine ⟨_, ⟨_, _, ⟨opening, rfl, rfl⟩, _, _, ⟨letters, rfl, stops_quote closing rest, rfl⟩, _,
      _, ⟨closing, rfl, rfl⟩, rfl⟩, rfl⟩

/-- A truth value is taken if the text begins with its name. -/
theorem truthScanner_eq_taken :
    literalScanner .boolean cs = .taken value rest ↔
      ∃ b : Bool, cs = (toString b).toList ++ rest ∧ value = .bool b := by
  have hword : ∀ b : Bool, (Value.text (toString b)).alike (.text "true") = b := by
    intro b
    cases b <;> decide
  rw [literalScanner, Scanner.map_eq_taken]
  constructor
  · rintro ⟨word, hscan, hvalue⟩
    obtain ⟨b, hcs, rfl⟩ := truths.scanner_eq_taken.mp hscan
    cases hvalue
    exact ⟨b, hcs, congrArg Value.bool (hword b)⟩
  · rintro ⟨b, hcs, rfl⟩
    exact ⟨_, truths.scanner_eq_taken.mpr ⟨b, hcs, rfl⟩,
      congrArg (fun b => Except.ok (Value.bool b)) (hword b)⟩

/-- A number is as many digits as there are, if they are not too many. -/
theorem numberScanner_eq_taken :
    literalScanner .int cs = .taken value rest ↔
      ∃ digits : Lexeme Char.isDigit, cs = digits.chars ++ rest ∧ Stops Char.isDigit rest ∧
        digits.chars.length ≤ 4300 ∧ value = .int (Nat.ofDigitChars 10 digits.chars 0) := by
  rw [literalScanner, Scanner.map_eq_taken]
  constructor
  · rintro ⟨row, hscan, hvalue⟩
    obtain ⟨digits, hcs, hstops, rfl⟩ := Scanner.run_eq_taken.mp hscan
    rw [outcome_numberOf] at hvalue
    split at hvalue
    · next hfits => exact ⟨digits, hcs, hstops, hfits, (Except.ok.inj hvalue).symm⟩
    · cases hvalue
  · rintro ⟨digits, hcs, hstops, hfits, rfl⟩
    refine ⟨_, Scanner.run_eq_taken.mpr ⟨digits, hcs, hstops, rfl⟩, ?_⟩
    rw [outcome_numberOf, if_pos hfits]

/-- The literals of a type are taken as they are written, if they fit. -/
theorem literalScanner_eq_taken {type : TypeTag} :
    literalScanner type cs = .taken value rest ↔
      ∃ literal : Literal, literal.type = type ∧ cs = literal.text ++ rest ∧
        literal.EndsBefore rest ∧ literal.Fits ∧ value = literal.value := by
  constructor
  · intro h
    cases type with
    | int =>
        obtain ⟨digits, hcs, hstops, hfits, hvalue⟩ := numberScanner_eq_taken.mp h
        exact ⟨.number digits, rfl, hcs, hstops, hfits, hvalue⟩
    | string =>
        obtain ⟨opening, closing, letters, rfl, hvalue⟩ := quotedScanner_eq_taken.mp h
        refine ⟨.quoted opening closing letters, rfl, ?_, trivial, trivial, hvalue⟩
        rw [Literal.text, List.cons_append, List.append_assoc]
        rfl
    | boolean =>
        obtain ⟨b, hcs, hvalue⟩ := truthScanner_eq_taken.mp h
        exact ⟨.truth b, rfl, hcs, trivial, trivial, hvalue⟩
  · rintro ⟨literal, rfl, rfl, hends, hfits, rfl⟩
    cases literal with
    | number digits => exact numberScanner_eq_taken.mpr ⟨digits, rfl, hends, hfits, rfl⟩
    | quoted opening closing letters =>
        refine quotedScanner_eq_taken.mpr ⟨opening, closing, letters, ?_, rfl⟩
        rw [Literal.text, List.cons_append, List.append_assoc]
        rfl
    | truth b => exact truthScanner_eq_taken.mpr ⟨b, rfl, rfl⟩

/-- The one fault there is: a number of too many digits. -/
theorem literalScanner_eq_raised {type : TypeTag} {fault : Fault} :
    literalScanner type cs = .raised fault ↔
      ∃ (literal : Literal) (rest : List Char), literal.type = type ∧ cs = literal.text ++ rest ∧
        literal.EndsBefore rest ∧ ¬literal.Fits ∧ fault = .malformedNumeral := by
  constructor
  · intro h
    cases type with
    | int =>
        obtain ⟨row, rest, hscan, hfault⟩ := (Scanner.calm_run _).map_eq_raised h
        obtain ⟨digits, hcs, hstops, rfl⟩ := Scanner.run_eq_taken.mp hscan
        rw [outcome_numberOf] at hfault
        split at hfault
        · cases hfault
        · next hlong =>
            exact ⟨.number digits, rest, rfl, hcs, hstops, hlong, (Except.error.inj hfault).symm⟩
    | string =>
        have hcalm : ∀ f ∈ [quotes.scanner, Scanner.run Char.isAlpha, quotes.scanner], f.Calm := by
          simp [quotes.calm, Scanner.calm_run]
        obtain ⟨items, rest, -, hfault⟩ := (Scanner.calm_allFrom hcalm []).map_eq_raised h
        cases hfault
    | boolean =>
        obtain ⟨word, rest, -, hfault⟩ := truths.calm.map_eq_raised h
        cases hfault
  · rintro ⟨literal, rest, rfl, rfl, hends, hlong, rfl⟩
    cases literal with
    | number digits =>
        have hrun : Scanner.run Char.isDigit (digits.chars ++ rest) = _ :=
          Scanner.run_eq_taken.mpr ⟨digits, rfl, hends, rfl⟩
        have hlong : ¬digits.chars.length ≤ 4300 := hlong
        show Scanner.map _ _ (digits.chars ++ rest) = _
        rw [Scanner.map, hrun, Scan.andThen, Scan.answer, outcome_numberOf, if_neg hlong]
    | quoted => exact absurd trivial hlong
    | truth => exact absurd trivial hlong

-- ================================================================ whole declarations

/-- A space belongs to no other class. -/
theorem not_space {member : Char → Bool} (h : member ' ' = false) (c : Char)
    (hc : member c = true) : (c == ' ') = false := by
  refine beq_eq_false_iff_ne.mpr fun heq => ?_
  rw [heq, h] at hc
  cases hc

/-- No literal begins with a space. -/
theorem stops_literal (literal : Literal) (rest : List Char) :
    Stops (· == ' ') (literal.text ++ rest) := by
  cases literal with
  | number digits => exact digits.stops (not_space rfl) rest
  | quoted opening closing letters =>
      refine stops_cons.mpr ?_
      cases opening <;> decide
  | truth b => cases b <;> exact stops_cons.mpr rfl

/-- No type name begins with a space. -/
theorem stops_type (type : TypeTag) (rest : List Char) :
    Stops (· == ' ') (type.word.toList ++ rest) := by
  cases type <;> exact stops_cons.mpr rfl

/-- What is made of a literal behind an opening. -/
def Opening.scanner (opening : Opening) : Scanner :=
  valueScanner (.text opening.keyword.word) (.text (String.ofList opening.name.chars))
    (.tag opening.type)

/-- Up to its literal, a declaration is read as it is written. -/
theorem scanner_opening (opening : Opening) (hrest : Stops (· == ' ') rest) :
    scanner (opening.text ++ rest) = opening.scanner rest := by
  simp only [Opening.text, List.append_assoc, List.cons_append]
  refine (Scanner.chain_of_taken (keywords.scanner_eq_taken.mpr
    ⟨opening.keyword, rfl, rfl⟩)).trans ?_
  refine (Scanner.chain_of_taken (gapScanner_eq_taken.mpr
    ⟨opening.beforeName, rfl, opening.name.stops (not_space rfl) _, rfl⟩)).trans ?_
  refine (Scanner.chain_of_taken (Scanner.run_eq_taken.mpr
    ⟨opening.name, rfl, stops_cons.mpr rfl, rfl⟩)).trans ?_
  refine (Scanner.chain_of_taken (colonScanner_eq_taken.mpr
    ⟨opening.afterColon, rfl, stops_type _ _, rfl⟩)).trans ?_
  refine (Scanner.chain_of_taken (typeScanner_eq_taken.mpr ⟨opening.type, rfl, rfl⟩)).trans ?_
  exact Scanner.chain_of_taken (equalsScanner_eq_taken.mpr
    ⟨opening.beforeEquals, opening.afterEquals, rfl, hrest, rfl⟩)

/-- A read gets stuck in front of the literal, or the literal decides. -/
theorem scanner_cases (cs : List Char) :
    (∃ rest, scanner cs = .stuck rest) ∨
      ∃ (opening : Opening) (rest : List Char), cs = opening.text ++ rest ∧
        scanner cs = opening.scanner rest := by
  -- Part by part: either it is stuck, or what it took is the next piece of an opening.
  rw [scanner]
  rcases keywords.calm.chain_cases _ cs with hstuck | ⟨_, _, hkeyword, heq⟩
  · exact .inl hstuck
  rw [heq]
  obtain ⟨keyword, rfl, rfl⟩ := keywords.scanner_eq_taken.mp hkeyword
  rcases calm_gapScanner.chain_cases _ _ with hstuck | ⟨_, _, hgap, heq⟩
  · exact .inl hstuck
  rw [heq]
  obtain ⟨beforeName, rfl, -, rfl⟩ := gapScanner_eq_taken.mp hgap
  rcases (Scanner.calm_run inName).chain_cases _ _ with hstuck | ⟨_, _, hname, heq⟩
  · exact .inl hstuck
  rw [heq]
  obtain ⟨name, rfl, -, rfl⟩ := Scanner.run_eq_taken.mp hname
  rcases calm_colonScanner.chain_cases _ _ with hstuck | ⟨_, _, hcolon, heq⟩
  · exact .inl hstuck
  rw [heq]
  obtain ⟨afterColon, rfl, -, rfl⟩ := colonScanner_eq_taken.mp hcolon
  rcases calm_typeScanner.chain_cases _ _ with hstuck | ⟨_, _, htype, heq⟩
  · exact .inl hstuck
  rw [heq]
  obtain ⟨type, rfl, rfl⟩ := typeScanner_eq_taken.mp htype
  rcases calm_equalsScanner.chain_cases _ _ with hstuck | ⟨_, rest, hequals, heq⟩
  · exact .inl hstuck
  rw [heq]
  obtain ⟨beforeEquals, afterEquals, rfl, -, rfl⟩ := equalsScanner_eq_taken.mp hequals
  refine .inr ⟨⟨keyword, beforeName, name, afterColon, type, beforeEquals, afterEquals⟩, rest, ?_,
    rfl⟩
  simp only [Opening.text, List.append_assoc, List.cons_append]
  rfl

/-- The scanner takes exactly the declarations that end where they do and whose literal fits. -/
theorem scanner_eq_taken :
    scanner cs = .taken value rest ↔
      ∃ form : Form, cs = form.text ++ rest ∧ form.literal.EndsBefore rest ∧ form.literal.Fits ∧
        value = form.value := by
  constructor
  · intro h
    rcases scanner_cases cs with ⟨stuck, hstuck⟩ | ⟨opening, tail, rfl, heq⟩
    · rw [hstuck] at h
      cases h
    · rw [heq] at h
      obtain ⟨_, _, hliteral, hmade⟩ := Scanner.chain_eq_taken.mp h
      obtain ⟨literal, htyped, rfl, hends, hfits, rfl⟩ := literalScanner_eq_taken.mp hliteral
      cases hmade
      exact ⟨⟨opening, literal, htyped⟩, (List.append_assoc ..).symm, hends, hfits, rfl⟩
  · rintro ⟨form, rfl, hends, hfits, rfl⟩
    rw [Form.text, List.append_assoc, scanner_opening _ (stops_literal _ _)]
    exact Scanner.chain_of_taken
      (literalScanner_eq_taken.mpr ⟨form.literal, form.typed, rfl, hends, hfits, rfl⟩)

/-- The one fault there is: a number of too many digits. -/
theorem scanner_eq_raised {fault : Fault} :
    scanner cs = .raised fault ↔
      ∃ (form : Form) (rest : List Char), cs = form.text ++ rest ∧ form.literal.EndsBefore rest ∧
        ¬form.literal.Fits ∧ fault = .malformedNumeral := by
  constructor
  · intro h
    rcases scanner_cases cs with ⟨stuck, hstuck⟩ | ⟨opening, tail, rfl, heq⟩
    · rw [hstuck] at h
      cases h
    · rw [heq] at h
      rcases Scanner.chain_eq_raised.mp h with hfault | ⟨_, _, -, hmade⟩
      · obtain ⟨literal, rest, htyped, rfl, hends, hlong, hnumeral⟩ :=
          literalScanner_eq_raised.mp hfault
        refine ⟨⟨opening, literal, htyped⟩, rest, ?_, hends, hlong, hnumeral⟩
        exact (List.append_assoc ..).symm
      · cases hmade
  · rintro ⟨form, rest, rfl, hends, hlong, rfl⟩
    rw [Form.text, List.append_assoc, scanner_opening _ (stops_literal _ _)]
    refine Scanner.chain_eq_raised.mpr (.inl (literalScanner_eq_raised.mpr ?_))
    exact ⟨form.literal, rest, form.typed, rfl, hends, hlong, rfl⟩

end

-- ================================================================ one way to read a text

/-- Spaces in front of a text that stops can be counted. -/
theorem blanks_unique {m n : Nat} {rest rest' : List Char} (hstops : Stops (· == ' ') rest)
    (hstops' : Stops (· == ' ') rest') (h : blanks m ++ rest = blanks n ++ rest') :
    m = n ∧ rest = rest' := by
  have hblank : ∀ k, ∀ c ∈ blanks k, (c == ' ') = true := by
    intro k c hc
    exact beq_iff_eq.mpr (List.eq_of_mem_replicate hc)
  obtain ⟨hrow, hrest⟩ := row_unique (hblank m) (hblank n) hstops hstops' h
  have hlength := congrArg List.length hrow
  rw [blanks, blanks, List.length_replicate, List.length_replicate] at hlength
  exact ⟨hlength, hrest⟩

/-- Two quotes with one character are the same. -/
theorem Quote.char_injective {quote quote' : Quote} (h : quote.char = quote'.char) :
    quote = quote' := by
  revert h
  cases quote <;> cases quote' <;> decide

/-- Two literals of one type that stand in front of a text are the same, if they end there. -/
theorem Literal.text_unique {literal literal' : Literal} {rest rest' : List Char}
    (htype : literal.type = literal'.type) (hends : literal.EndsBefore rest)
    (hends' : literal'.EndsBefore rest') (h : literal.text ++ rest = literal'.text ++ rest') :
    literal = literal' ∧ rest = rest' := by
  cases literal with
  | number digits =>
      cases literal' with
      | number digits' =>
          obtain ⟨rfl, hrest⟩ := Lexeme.unique hends hends' h
          exact ⟨rfl, hrest⟩
      | quoted => cases htype
      | truth => cases htype
  | quoted opening closing letters =>
      cases literal' with
      | number => cases htype
      | quoted opening' closing' letters' =>
          simp only [Literal.text, List.cons_append, List.append_assoc, List.nil_append] at h
          obtain ⟨hopening, htail⟩ := List.cons.inj h
          obtain ⟨rfl, hclosing⟩ :=
            Lexeme.unique (stops_quote closing rest) (stops_quote closing' rest') htail
          obtain ⟨hclosing, hrest⟩ := List.cons.inj hclosing
          rw [Quote.char_injective hopening, Quote.char_injective hclosing]
          exact ⟨rfl, hrest⟩
      | truth => cases htype
  | truth b =>
      cases literal' with
      | number => cases htype
      | quoted => cases htype
      | truth b' =>
          obtain ⟨rfl, hrest⟩ := truths.unique h
          exact ⟨rfl, hrest⟩

/-- Two openings that stand in front of a text are the same, if the text does not begin with a
space. -/
theorem Opening.text_unique {opening opening' : Opening} {rest rest' : List Char}
    (hstops : Stops (· == ' ') rest) (hstops' : Stops (· == ' ') rest')
    (h : opening.text ++ rest = opening'.text ++ rest') : opening = opening' ∧ rest = rest' := by
  -- Each piece is settled by what stands behind it, and the next one is left.
  simp only [Opening.text, List.append_assoc, List.cons_append] at h
  obtain ⟨hkeyword, h⟩ := keywords.unique h
  obtain ⟨hbeforeName, h⟩ := blanks_unique (opening.name.stops (not_space rfl) _)
    (opening'.name.stops (not_space rfl) _) h
  obtain ⟨hname, h⟩ := Lexeme.unique (stops_cons.mpr rfl) (stops_cons.mpr rfl) h
  obtain ⟨-, h⟩ := List.cons.inj h
  obtain ⟨hafterColon, h⟩ := blanks_unique (stops_type _ _) (stops_type _ _) h
  obtain ⟨htype, h⟩ := types.unique h
  obtain ⟨hbeforeEquals, h⟩ := blanks_unique (stops_cons.mpr rfl) (stops_cons.mpr rfl) h
  obtain ⟨-, h⟩ := List.cons.inj h
  obtain ⟨hafterEquals, hrest⟩ := blanks_unique hstops hstops' h
  exact ⟨Opening.ext hkeyword hbeforeName hname hafterColon htype hbeforeEquals hafterEquals, hrest⟩

/-- A text begins with one declaration only, and that in one way. -/
theorem Form.text_unique {form form' : Form} {rest rest' : List Char}
    (hends : form.literal.EndsBefore rest) (hends' : form'.literal.EndsBefore rest')
    (h : form.text ++ rest = form'.text ++ rest') : form = form' ∧ rest = rest' := by
  rw [Form.text, Form.text, List.append_assoc, List.append_assoc] at h
  obtain ⟨hopening, h⟩ := Opening.text_unique (stops_literal _ _) (stops_literal _ _) h
  have htype : form.literal.type = form'.literal.type := by
    rw [form.typed, form'.typed, hopening]
  obtain ⟨hliteral, hrest⟩ := Literal.text_unique htype hends hends' h
  exact ⟨Form.ext hopening hliteral, hrest⟩

-- ================================================================ positions in a text

/-- The declaration stands in the text from `i` up to `j`. A number takes all digits there are. -/
structure Form.Stands (form : Form) (chars : Array Char) (i j : Nat) : Prop where
  start : i ≤ j
  stop : j ≤ chars.size
  text : (chars.extract i j).toList = form.text
  ends : form.literal.type = .int → ∀ c, chars[j]? = some c → c.isDigit = false

/-- A declaration has a keyword at least. -/
theorem Form.text_length_pos (form : Form) : 0 < form.text.length := by
  have hkeyword : 0 < form.opening.keyword.word.toList.length := by
    cases form.opening.keyword <;> decide
  rw [Form.text, List.length_append, Opening.text, List.length_append]
  omega

/-- In an array a literal ends where it could not go on with the next character. -/
theorem Literal.endsBefore_drop (literal : Literal) (chars : Array Char) (j : Nat) :
    literal.EndsBefore (chars.toList.drop j) ↔
      (literal.type = .int → ∀ c, chars[j]? = some c → c.isDigit = false) := by
  cases literal with
  | number digits =>
      rw [EndsBefore, stops_drop_iff]
      exact ⟨fun h _ => h, fun h => h rfl⟩
  | quoted =>
      refine ⟨fun _ htype => ?_, fun _ => trivial⟩
      cases htype
  | truth =>
      refine ⟨fun _ htype => ?_, fun _ => trivial⟩
      cases htype

/-- A declaration stands where the characters that are left begin with it. -/
theorem Form.stands_iff {form : Form} {chars : Array Char} {i j : Nat} :
    form.Stands chars i j ↔ j = i + form.text.length ∧
      chars.toList.drop i = form.text ++ chars.toList.drop j ∧
      form.literal.EndsBefore (chars.toList.drop j) := by
  have hpos := form.text_length_pos
  constructor
  · rintro ⟨hstart, hstop, htext, hends⟩
    rw [Array.toList_extract, List.extract_eq_take_drop] at htext
    have hlength : j = i + form.text.length := by
      rw [← htext, List.length_take, List.length_drop, Array.length_toList]
      omega
    refine ⟨hlength, ?_, (form.literal.endsBefore_drop chars j).mpr hends⟩
    have hdrop : chars.toList.drop j = (chars.toList.drop i).drop (j - i) := by
      rw [List.drop_drop, Nat.add_sub_cancel' hstart]
    rw [← htext, hdrop, List.take_append_drop]
  · rintro ⟨rfl, hsplit, hends⟩
    have hlength := congrArg List.length hsplit
    rw [List.length_append, List.length_drop, List.length_drop, Array.length_toList] at hlength
    exact ⟨Nat.le_add_right i _, by omega, toList_extract_of_drop hsplit,
      (form.literal.endsBefore_drop chars _).mp hends⟩

/-- From one place, at most one form stands up to one place. -/
theorem Form.Stands.unique {form form' : Form} {chars : Array Char} {i j j' : Nat}
    (h : form.Stands chars i j) (h' : form'.Stands chars i j') : form = form' ∧ j = j' := by
  obtain ⟨rfl, hsplit, hends⟩ := Form.stands_iff.mp h
  obtain ⟨rfl, hsplit', hends'⟩ := Form.stands_iff.mp h'
  obtain ⟨rfl, -⟩ := Form.text_unique hends hends' (hsplit.symm.trans hsplit')
  exact ⟨rfl, rfl⟩

/-- A form that a state has in front of it stands at its cursor. -/
theorem Form.stands_of_faces {s : State} {chars : Array Char} {cs rest : List Char} {form : Form}
    (hs : s.Faces chars cs) (hsplit : cs = form.text ++ rest)
    (hends : form.literal.EndsBefore rest) :
    form.Stands chars s.index (s.index + form.text.length) := by
  subst hsplit
  have hrest : chars.toList.drop (s.index + form.text.length) = rest :=
    (hs.advance form.value).rest
  refine Form.stands_iff.mpr ⟨rfl, ?_, ?_⟩
  · rw [hrest]
    exact hs.rest
  · rw [hrest]
    exact hends

-- ================================================================ complete declarations

theorem immediate_spaces : Parser.spaces.Every Parser.Immediate :=
  ⟨trivial, trivial, trivial⟩

theorem immediate_variableName : variableName.Every Parser.Immediate :=
  ⟨trivial, trivial, trivial, trivial, trivial, trivial⟩

/-- Nothing in a declaration is deferred. -/
theorem immediate_declaration : parser.Every Parser.Immediate := by
  have hkeyword : keyword.Every Parser.Immediate := ⟨trivial, trivial, trivial, trivial⟩
  have htype : typeName.Every Parser.Immediate :=
    ⟨trivial, trivial, trivial, trivial, trivial, trivial⟩
  have hquote : quote.Every Parser.Immediate := ⟨trivial, trivial, trivial, trivial⟩
  have hliteral : ∀ type, (literalOf type).Every Parser.Immediate := by
    intro type
    cases type with
    | int => exact ⟨trivial, trivial⟩
    | string => exact ⟨trivial, trivial, hquote, trivial, hquote, trivial⟩
    | boolean => exact ⟨trivial, trivial, trivial, trivial, trivial⟩
  refine ⟨trivial, hkeyword, fun _ => ⟨immediate_spaces, fun _ => ⟨immediate_variableName, fun _ =>
    ⟨⟨trivial, trivial, fun _ => immediate_spaces⟩, fun _ => ⟨htype, fun type =>
      ⟨⟨trivial, ⟨trivial, immediate_spaces, fun _ => trivial⟩, fun _ => immediate_spaces⟩,
        fun _ => ?_⟩⟩⟩⟩⟩⟩
  cases type with
  | tag type => exact ⟨hliteral type, fun _ => trivial⟩
  | _ => trivial

section

variable (tree : Deferred → State → Outcome State) {rounds : Nat} {chars : Array Char}
  {cs : List Char} {s : State} {form : Form} {j : Nat}

/-- A declaration that stands at the cursor is read, or its number is too long. Where none stands,
the parser fails. -/
theorem denote_cases (hs : s.Faces chars cs) (hrounds : chars.size < rounds) :
    (∃ (form : Form) (j : Nat), form.Stands chars s.index j ∧ form.literal.Fits ∧
      parser.denote tree rounds s = .done (s.advance j form.value)) ∨
    (∃ (form : Form) (j : Nat), form.Stands chars s.index j ∧ ¬form.literal.Fits ∧
      parser.denote tree rounds s = .raised .malformedNumeral) ∨
    ((∀ (form : Form) (j : Nat), ¬form.Stands chars s.index j) ∧
      ∃ t, parser.denote tree rounds s = .done t ∧ t.failed = true) := by
  have hscan : (scanner cs).Ends s cs (parser.denote tree rounds s) :=
    scans_declaration chars cs s hs hrounds
  cases hresult : scanner cs with
  | taken value rest =>
      rw [hresult] at hscan
      obtain ⟨taken, hcs, hact⟩ := hscan
      obtain ⟨form, hsplit, hends, hfits, rfl⟩ := scanner_eq_taken.mp hresult
      obtain rfl : taken = form.text := List.append_cancel_right (hcs.symm.trans hsplit)
      exact .inl ⟨form, _, Form.stands_of_faces hs hsplit hends, hfits, hact⟩
  | raised fault =>
      rw [hresult] at hscan
      obtain ⟨form, rest, hsplit, hends, hlong, rfl⟩ := scanner_eq_raised.mp hresult
      exact .inr (.inl ⟨form, _, Form.stands_of_faces hs hsplit hends, hlong, hscan⟩)
  | stuck rest =>
      rw [hresult] at hscan
      obtain ⟨-, t, -, hact, hfailed, -⟩ := hscan
      refine .inr (.inr ⟨fun form j hstands => ?_, t, hact, hfailed⟩)
      obtain ⟨-, hsplit, hends⟩ := Form.stands_iff.mp hstands
      rw [hs.rest] at hsplit
      by_cases hfits : form.literal.Fits
      · rw [scanner_eq_taken.mpr ⟨form, hsplit, hends, hfits, rfl⟩] at hresult
        cases hresult
      · rw [scanner_eq_raised.mpr ⟨form, _, hsplit, hends, hfits, rfl⟩] at hresult
        cases hresult

/-- A form that stands and fits is read. -/
theorem denote_of_stands (hs : s.Faces chars cs) (hrounds : chars.size < rounds)
    (hstands : form.Stands chars s.index j) (hfits : form.literal.Fits) :
    parser.denote tree rounds s = .done (s.advance j form.value) := by
  rcases denote_cases tree hs hrounds with ⟨form', j', h, -, hact⟩ | ⟨form', j', h, hlong, -⟩ |
    ⟨hnone, -⟩
  · obtain ⟨rfl, rfl⟩ := h.unique hstands
    exact hact
  · obtain ⟨rfl, -⟩ := h.unique hstands
    exact absurd hfits hlong
  · exact absurd hstands (hnone form j)

/-- A form that stands and does not fit is a fault. -/
theorem denote_of_not_fits (hs : s.Faces chars cs) (hrounds : chars.size < rounds)
    (hstands : form.Stands chars s.index j) (hlong : ¬form.literal.Fits) :
    parser.denote tree rounds s = .raised .malformedNumeral := by
  rcases denote_cases tree hs hrounds with
    ⟨form', j', h, hfits, -⟩ | ⟨-, -, -, -, hact⟩ | ⟨hnone, -⟩
  · obtain ⟨rfl, -⟩ := h.unique hstands
    exact absurd hfits hlong
  · exact hact
  · exact absurd hstands (hnone form j)

/-- What is read is a declaration that stands at the cursor. -/
theorem denote_iff_stands (hs : s.Faces chars cs) (hrounds : chars.size < rounds) {d : Value} :
    (∃ t, parser.denote tree rounds s = .done t ∧ t.failed = false ∧ t.index = j ∧ t.result = d) ↔
      ∃ form : Form, form.Stands chars s.index j ∧ form.literal.Fits ∧ form.value = d := by
  constructor
  · rintro ⟨t, ht, hlive, rfl, rfl⟩
    rcases denote_cases tree hs hrounds with ⟨form, j, hstands, hfits, hact⟩ | ⟨-, -, -, -, hact⟩ |
      ⟨-, t', hact, hfailed⟩
    · obtain rfl := Outcome.done.inj (hact.symm.trans ht)
      exact ⟨form, hstands, hfits, rfl⟩
    · cases hact.symm.trans ht
    · obtain rfl := Outcome.done.inj (hact.symm.trans ht)
      rw [hfailed] at hlive
      cases hlive
  · rintro ⟨form, hstands, hfits, rfl⟩
    exact ⟨_, denote_of_stands tree hs hrounds hstands hfits, hs.live, rfl, rfl⟩

end

/-- The parser accepts exactly the written declarations. Each way to succeed is a declaration that
stands at the start and whose literal fits, with the cursor behind it and the declaration that is
written as the result. At most one declaration stands at a start, and if its number has too many
digits the run ends in a fault. -/
theorem eval_iff_stands {chars : Array Char} {fuel : Nat} (hfuel : chars.size < fuel)
    (rules : Rules) (frame i : Nat) (session : Session) :
    (∀ j d,
      (∃ t, (parser.eval rules fuel frame { input := .text chars, index := i } session).1 =
          .done t ∧ t.failed = false ∧ t.index = j ∧ t.result = d) ↔
        ∃ form : Form, form.Stands chars i j ∧ form.literal.Fits ∧ form.value = d) ∧
    (∀ (form form' : Form) j j', form.Stands chars i j → form'.Stands chars i j' →
      form = form' ∧ j = j') ∧
    (∀ (form : Form) j, form.Stands chars i j → ¬form.literal.Fits →
      (parser.eval rules fuel frame { input := .text chars, index := i } session).1 =
        .raised .malformedNumeral) := by
  have hs : State.Faces { input := .text chars, index := i } chars (chars.toList.drop i) :=
    ⟨rfl, rfl, rfl⟩
  rw [Parser.eval_of_immediate immediate_declaration]
  refine ⟨fun j d => denote_iff_stands _ hs hfuel, fun form form' j j' h h' => h.unique h', ?_⟩
  intro form j hstands hlong
  exact denote_of_not_fits _ hs hfuel hstands hlong

/-- A declaration with as few spaces as possible and two different quotes. -/
def tight : Form where
  opening := ⟨.mutable, 0, ⟨['s', '_'], by decide, List.all_eq_true.mp rfl⟩, 0, .string, 0, 1⟩
  literal := .quoted .single .double ⟨['a'], by decide, List.all_eq_true.mp rfl⟩
  typed := rfl

theorem eval_iff_stands_tight :
    (#[';'] ++ tight.text.toArray).size < 20 ∧
      ∃ t, (parser.eval noRules 20 0 { input := .text (#[';'] ++ tight.text.toArray), index := 1 }
          {}).1 = .done t ∧ t.failed = false ∧ t.index = 18 ∧ t.result = tight.value := by
  have hfuel : (#[';'] ++ tight.text.toArray).size < 20 := by decide
  have hstands : tight.Stands (#[';'] ++ tight.text.toArray) 1 18 :=
    ⟨by decide, by decide, by decide, nofun⟩
  exact ⟨hfuel, ((eval_iff_stands hfuel noRules 0 1 {}).1 18 _).mpr ⟨tight, hstands, trivial, rfl⟩⟩

end ParserAlgebra.Declaration
