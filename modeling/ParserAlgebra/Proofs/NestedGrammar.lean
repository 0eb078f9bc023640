import ParserAlgebra.Proofs.DeclarationLines
import ParserAlgebra.Proofs.NestedList

/-!
The parser of nested lists reads exactly the texts of its grammar.

# The grammar

A value is a row of digits or a list of values in brackets with commas between them. `Derives` says
which texts are values, and of what; `DerivesMore` is what may follow the first value of a list. A
row of digits is taken whole, so a number ends only where no digit follows; a list ends with its
bracket.

# Why the parser returns

A value within a value is read at one fuel less, and only behind a bracket that has been taken. So
the characters that are left and the fuel decrease together, and a fuel beyond twice the size of the
text is enough (`read_sound`): one size for the nesting, one for the rounds of the loops, which all
nested reads need.

# Two inductions

Whatever is read is a value of the grammar: induction on the fuel, with an inner one on the rounds
of the loop over the items. Every value of the grammar is read: induction on its derivation. In
between stands the behaviour of one pair of brackets, as three cases: no bracket opens, the items
are not closed, or a list is read.
-/
namespace ParserAlgebra.NestedList

open Declaration (ShortNumbers)

-- ================================================================ the grammar

mutual

/-- A text that is a value of the grammar, and the value. -/
inductive Derives : List Char → Value → Prop where
  | number (digits : Lexeme Char.isDigit) :
    Derives digits.chars (.int (Nat.ofDigitChars 10 digits.chars 0))
  | empty : Derives ['[', ']'] (.list [])
  | list {text more : List Char} {v : Value} {vs : List Value} (first : Derives text v)
    (rest : DerivesMore more vs) : Derives ('[' :: (text ++ more) ++ [']']) (.list (v :: vs))

/-- Any number of values, each behind a comma. -/
inductive DerivesMore : List Char → List Value → Prop where
  | nil : DerivesMore [] []
  | cons {text more : List Char} {v : Value} {vs : List Value} (first : Derives text v)
    (rest : DerivesMore more vs) : DerivesMore (',' :: (text ++ more)) (v :: vs)

end

/-- What stands between the brackets of a list. -/
inductive DerivesItems : List Char → List Value → Prop where
  | empty : DerivesItems [] []
  | some {text more : List Char} {v : Value} {vs : List Value} (first : Derives text v)
    (rest : DerivesMore more vs) : DerivesItems (text ++ more) (v :: vs)

/-- The value does not go on: behind a number there is no further digit. -/
def Closed (v : Value) (rest : List Char) : Prop :=
  ∀ n, v = .int n → Stops Char.isDigit rest

/-- A list ends at its bracket, whatever comes behind. -/
theorem closed_list (vs : List Value) (rest : List Char) : Closed (.list vs) rest := by
  intro n h
  cases h

/-- Items in brackets are a list. -/
theorem DerivesItems.derives {text : List Char} {vs : List Value} (h : DerivesItems text vs) :
    Derives ('[' :: text ++ [']']) (.list vs) := by
  cases h with
  | empty => exact .empty
  | some first rest => exact .list first rest

/-- Whatever follows the first value of a list, up to its bracket, it does not begin with a
digit. -/
theorem DerivesMore.stops {more : List Char} {vs : List Value} (h : DerivesMore more vs)
    (rest : List Char) : Stops Char.isDigit (more ++ ']' :: rest) := by
  cases h with
  | nil => exact stops_cons.mpr rfl
  | cons first rest => exact stops_cons.mpr rfl

-- ================================================================ the parts of the parser

/-- The values of a list. -/
def items : Parser :=
  .sepBy (.symbol ',') (.deferred (.own 0 rule))

/-- A list in its brackets. -/
def brackets : Parser :=
  .between (.symbol '[') (.symbol ']') items

/-- What the parser does, where nodes may nest `fuel` deep. -/
def read (fuel : Nat) (s : State) : Outcome State :=
  parser.apply rules fuel s

/-- A value within a value is read at one fuel less. -/
theorem denote_deferred (fuel rounds : Nat) :
    (Parser.deferred (.own 0 rule)).denote (rules.unfold (fuel + 1)) rounds = read fuel := by
  funext s
  rw [Parser.denote]
  by_cases hs : s.failed = true
  · rw [if_pos hs, read, Parser.apply, parser, Parser.denote, if_pos hs]
  · rw [if_neg hs]
    rfl

section

variable (tree : Deferred → State → Outcome State) {rounds : Nat} {chars : Array Char}
  {cs rest : List Char} {s : State}

/-- A symbol is read where it stands. -/
theorem denote_symbol {c : Char} (hs : s.Faces chars (c :: rest)) (hrounds : chars.size < rounds) :
    (Parser.symbol c).denote tree rounds s =
        .done (s.advance (s.index + 1) (.text (String.singleton c))) ∧
      (s.advance (s.index + 1) (.text (String.singleton c))).Faces chars rest := by
  have hword : s.Faces chars ((String.singleton c).toList ++ rest) := by
    rw [String.toList_singleton]
    exact hs
  have hscans : (Parser.symbol c).Scans tree rounds _ := Parser.scans_symbol c
  have hact := hscans.denote_word hword hrounds
  rw [String.length_singleton] at hact
  exact hact

/-- Where it does not stand, its parser fails. -/
theorem denote_symbol_of_ne {c : Char} (hs : s.Faces chars cs) (hrounds : chars.size < rounds)
    (h : cs.head? ≠ some c) :
    ∃ t, (Parser.symbol c).denote tree rounds s = .done t ∧ t.failed = true := by
  refine (Parser.scans_symbol c).denote_word_of_not hs hrounds fun hword => h ?_
  rw [String.toList_singleton] at hword
  obtain ⟨rest, rfl⟩ := hword
  rfl

theorem scans_number :
    number.Scans tree rounds (Scanner.map (.run Char.isDigit) Declaration.numberOf) :=
  Parser.scans_digits.map _

/-- A row of digits that stands in a text with short numbers is read as a number. -/
theorem denote_number (hs : s.Faces chars cs) (hrounds : chars.size < rounds)
    (hshort : ShortNumbers chars) {digits : Lexeme Char.isDigit}
    (hcs : cs = digits.chars ++ rest) (hstops : Stops Char.isDigit rest) :
    number.denote tree rounds s =
      .done (s.advance (s.index + digits.chars.length)
        (.int (Nat.ofDigitChars 10 digits.chars 0))) := by
  have hwithin : digits.chars <:+: chars.toList := by
    refine ⟨chars.toList.take s.index, rest, ?_⟩
    rw [List.append_assoc, ← hcs, ← hs.rest, List.take_append_drop]
  have hfits := hshort digits.chars hwithin digits.members
  have hscan : Scanner.map (.run Char.isDigit) Declaration.numberOf cs = .taken _ rest :=
    Declaration.numberScanner_eq_taken.mpr ⟨digits, hcs, hstops, hfits, rfl⟩
  have hends := scans_number tree chars cs s hs hrounds
  rw [hscan, hcs] at hends
  exact hends.eq_done

/-- Without a digit there is no number. -/
theorem denote_number_of_stops (hs : s.Faces chars cs) (hrounds : chars.size < rounds)
    (hstops : Stops Char.isDigit cs) :
    ∃ t, number.denote tree rounds s = .done t ∧ t.failed = true := by
  have hends := scans_number tree chars cs s hs hrounds
  rw [Scanner.map, Scanner.run, takeWhile_of_stops hstops, if_pos rfl] at hends
  obtain ⟨-, t, -, hact, hfailed, -⟩ := hends
  exact ⟨t, hact, hfailed⟩

-- ================================================================ brackets

/-- The state behind an opening bracket. -/
def opened (s : State) : State :=
  s.advance (s.index + 1) (.text (String.singleton '['))

/-- Without an opening bracket there is no list. -/
theorem denote_brackets_of_ne (hs : s.Faces chars cs) (hrounds : chars.size < rounds)
    (h : cs.head? ≠ some '[') : ∃ t, brackets.denote tree rounds s = .done t ∧ t.failed = true := by
  obtain ⟨t, ht, hfailed⟩ := denote_symbol_of_ne tree hs hrounds h
  refine ⟨t, Parser.denote_map_of_failed hs.live ?_ hfailed, hfailed⟩
  rw [Parser.denote_sequence_of_live hs.live, denoteAll_of_failed ht hfailed]

/-- Without a closing bracket behind the items there is no list. -/
theorem denote_brackets_unclosed {inside : List Char} {vs : List Value}
    (hs : s.Faces chars ('[' :: (inside ++ rest))) (hrounds : chars.size < rounds)
    (hitems : items.denote tree rounds (opened s) =
      .done ((opened s).advance (s.index + 1 + inside.length) (.list vs)))
    (h : rest.head? ≠ some ']') :
    ∃ t, brackets.denote tree rounds s = .done t ∧ t.failed = true := by
  obtain ⟨hopen, hinside⟩ := denote_symbol tree hs hrounds
  have hrest := hinside.advance (.list vs)
  obtain ⟨t, ht, hfailed⟩ := denote_symbol_of_ne tree hrest hrounds h
  refine ⟨t, Parser.denote_map_of_failed hs.live ?_ hfailed, hfailed⟩
  rw [Parser.denote_sequence_of_live hs.live, denoteAll_of_live hopen hinside.live]
  exact (denoteAll_of_live hitems hrest.live).trans (denoteAll_of_failed ht hfailed)

/-- A list is what its items are, and ends with its bracket. -/
theorem denote_brackets {inside : List Char} {vs : List Value}
    (hs : s.Faces chars ('[' :: (inside ++ ']' :: rest))) (hrounds : chars.size < rounds)
    (hitems : items.denote tree rounds (opened s) =
      .done ((opened s).advance (s.index + 1 + inside.length) (.list vs))) :
    brackets.denote tree rounds s =
      .done (s.advance (s.index + ('[' :: inside ++ [']']).length) (.list vs)) := by
  obtain ⟨hopen, hinside⟩ := denote_symbol tree hs hrounds
  have hrest := hinside.advance (.list vs)
  obtain ⟨hclose, hafter⟩ := denote_symbol tree hrest hrounds
  have hindex : s.index + ('[' :: inside ++ [']']).length = s.index + 1 + inside.length + 1 := by
    simp only [List.length_append, List.length_cons, List.length_nil]
    omega
  have hall : (Parser.sequence [.symbol '[', items, .symbol ']']).denote tree rounds s =
      .done (s.advance (s.index + 1 + inside.length + 1)
        (.list [.text (String.singleton '['), .list vs, .text (String.singleton ']')])) := by
    rw [Parser.denote_sequence_of_live hs.live, denoteAll_of_live hopen hinside.live]
    refine (denoteAll_of_live hitems hrest.live).trans ?_
    refine (denoteAll_of_live hclose hafter.live).trans ?_
    rw [denoteAll]
    rfl
  rw [brackets, Parser.between, Parser.denote_mapPure_of_live hs.live hall hs.live, hindex]
  rfl

end

-- ================================================================ one value

section

variable {fuel : Nat} {chars : Array Char} {cs rest : List Char} {s t : State}

/-- A number is read up to where its digits end. -/
theorem read_of_number (hs : s.Faces chars cs) (hfuel : chars.size < fuel)
    (hshort : ShortNumbers chars) {digits : Lexeme Char.isDigit}
    (hcs : cs = digits.chars ++ rest) (hstops : Stops Char.isDigit rest) :
    read fuel s =
      .done (s.advance (s.index + digits.chars.length)
        (.int (Nat.ofDigitChars 10 digits.chars 0))) := by
  have hnumber := denote_number (rules.unfold fuel) hs hfuel hshort hcs hstops
  rw [read, Parser.apply, parser, Parser.denote, if_neg (State.not_failed hs.live)]
  exact denoteFirst_of_live hnumber hs.live

/-- Where no number begins, a value is a list. -/
theorem read_of_stops (hs : s.Faces chars cs) (hfuel : chars.size < fuel)
    (hstops : Stops Char.isDigit cs) (ht : brackets.denote (rules.unfold fuel) fuel s = .done t)
    (hlive : t.failed = false) : read fuel s = .done t := by
  obtain ⟨u, hu, hfailed⟩ := denote_number_of_stops (rules.unfold fuel) hs hfuel hstops
  rw [read, Parser.apply, parser, Parser.denote, if_neg (State.not_failed hs.live)]
  exact (denoteFirst_of_failed hu hfailed).trans (denoteFirst_of_live ht hlive)

/-- Where neither a number nor a list begins, there is no value. -/
theorem read_fails (hs : s.Faces chars cs) (hfuel : chars.size < fuel)
    (hstops : Stops Char.isDigit cs)
    (h : ∃ t, brackets.denote (rules.unfold fuel) fuel s = .done t ∧ t.failed = true) :
    ∃ t, read fuel s = .done t ∧ t.failed = true := by
  obtain ⟨t, ht, hfailed⟩ := h
  obtain ⟨u, hu, hufailed⟩ := denote_number_of_stops (rules.unfold fuel) hs hfuel hstops
  obtain ⟨v, hv, hvfailed⟩ := denoteFirst_nil [t.error, u.error]
  refine ⟨v, ?_, hvfailed⟩
  rw [read, Parser.apply, parser, Parser.denote, if_neg (State.not_failed hs.live)]
  exact ((denoteFirst_of_failed hu hufailed).trans (denoteFirst_of_failed ht hfailed)).trans hv

end

-- ================================================================ what is read is derived

/-- The read at this fuel returns, and what it takes, if anything, is a value of the grammar. -/
def Sound (chars : Array Char) (fuel : Nat) : Prop :=
  ∀ cs (s : State), s.Faces chars cs → chars.size + cs.length < fuel →
    (∃ t, read fuel s = .done t ∧ t.failed = true) ∨
      ∃ text rest v, cs = text ++ rest ∧ Derives text v ∧ Closed v rest ∧
        read fuel s = .done (s.advance (s.index + text.length) v)

section

variable {chars : Array Char} {fuel : Nat}

/-- Every value is at least one character. -/
theorem Derives.length_pos {text : List Char} {v : Value} (h : Derives text v) :
    0 < text.length := by
  cases h with
  | number digits => exact List.length_pos_iff.mpr digits.nonempty
  | empty => exact Nat.zero_lt_succ _
  | list first rest => exact Nat.zero_lt_succ _

/-- The loop takes a comma only together with a value. It ends in front of a comma that no value
follows. -/
theorem separatedLoop_sound (tree : Deferred → State → Outcome State) {rounds : Nat}
    (hrounds : chars.size < rounds) (hread : Sound chars fuel) :
    ∀ (n : Nat) (results : List Value) (cs : List Char) (s : State), s.Faces chars cs →
      chars.size + cs.length < fuel → cs.length < n →
      ∃ more rest vs, cs = more ++ rest ∧ DerivesMore more vs ∧
        separatedLoop ((Parser.symbol ',').denote tree rounds) (read fuel) n results s =
          .done (s.advance (s.index + more.length) (.list (results.reverse ++ vs))) := by
  intro n
  induction n with
  | zero =>
      intro results cs s _ _ hlength
      exact absurd hlength (Nat.not_lt_zero _)
  | succ n ih =>
      intro results cs s hs hfuel hlength
      have hstop : Outcome.done (s.withResult (.list results.reverse)) =
          .done (s.advance (s.index + ([] : List Char).length)
            (.list (results.reverse ++ []))) := by
        rw [List.append_nil]
        rfl
      by_cases hcomma : cs.head? = some ','
      · obtain ⟨cs, rfl⟩ := List.head?_eq_some_iff.mp hcomma
        obtain ⟨hskip, hafter⟩ := denote_symbol tree hs hrounds
        rw [List.length_cons] at hfuel hlength
        rcases hread cs _ hafter (by omega) with ⟨t, ht, hfailed⟩ |
          ⟨text, rest, v, rfl, hderives, -, hvalue⟩
        · refine ⟨[], _, [], rfl, .nil, ?_⟩
          rw [separatedLoop_of_value_failed hskip hafter.live ht hfailed, hstop]
        · have hpos := hderives.length_pos
          have hmoved : s.index + 1 + text.length ≠ s.index := by omega
          rw [List.length_append] at hfuel hlength
          obtain ⟨more, rest, vs, rfl, hmore, hloop⟩ :=
            ih (v :: results) rest _ (hafter.advance v) (by omega) (by omega)
          refine ⟨',' :: (text ++ more), rest, v :: vs, ?_, .cons hderives hmore, ?_⟩
          · rw [List.cons_append, List.append_assoc]
          · have hindex : s.index + 1 + text.length + more.length =
                s.index + (',' :: (text ++ more)).length := by
              rw [List.length_cons, List.length_append]
              omega
            rw [separatedLoop_of_live hskip hafter.live hvalue hafter.live hmoved]
            refine hloop.trans ?_
            rw [← hindex, List.reverse_cons, List.append_assoc]
            rfl
      · obtain ⟨t, hskip, hfailed⟩ := denote_symbol_of_ne tree hs hrounds hcomma
        refine ⟨[], cs, [], rfl, .nil, ?_⟩
        rw [separatedLoop_of_failed hskip hfailed, hstop]

/-- The items of a list, as far as there are values. -/
theorem items_sound (hread : Sound chars fuel) {cs : List Char} {u : State}
    (hu : u.Faces chars cs) (hfuel : chars.size + cs.length < fuel) :
    ∃ inside rest vs, cs = inside ++ rest ∧ DerivesItems inside vs ∧
      items.denote (rules.unfold (fuel + 1)) (fuel + 1) u =
        .done (u.advance (u.index + inside.length) (.list vs)) := by
  have hvalue := denote_deferred fuel (fuel + 1)
  rcases hread cs u hu hfuel with ⟨t, ht, hfailed⟩ | ⟨text, rest, v, rfl, hderives, -, hfirst⟩
  · refine ⟨[], cs, [], rfl, .empty, ?_⟩
    rw [← hvalue] at ht
    rw [items, Parser.denote_sepBy_of_failed hu.live ht hfailed]
    rfl
  · have hafter := hu.advance v
    have hpos := hderives.length_pos
    have hrounds : chars.size < fuel + 1 := by omega
    rw [List.length_append] at hfuel
    obtain ⟨more, rest, vs, rfl, hmore, hloop⟩ :=
      separatedLoop_sound (rules.unfold (fuel + 1)) hrounds hread (fuel + 1) [v] rest _ hafter
        (by omega) (by omega)
    refine ⟨text ++ more, rest, v :: vs, (List.append_assoc ..).symm, .some hderives hmore, ?_⟩
    rw [← hvalue] at hfirst hloop
    rw [items, Parser.denote_sepBy_of_live hu.live hfirst hafter.live]
    refine hloop.trans ?_
    rw [List.length_append, ← Nat.add_assoc]
    rfl

/-- Reading returns at every fuel, and reads values of the grammar. -/
theorem read_sound (hshort : ShortNumbers chars) : ∀ fuel, Sound chars fuel := by
  intro fuel
  induction fuel with
  | zero =>
      intro cs s _ hfuel
      exact absurd hfuel (Nat.not_lt_zero _)
  | succ fuel ih =>
      intro cs s hs hfuel
      have hsize : chars.size < fuel + 1 := by omega
      by_cases hstops : Stops Char.isDigit cs
      · by_cases hopen : cs.head? = some '['
        · obtain ⟨cs, rfl⟩ := List.head?_eq_some_iff.mp hopen
          rw [List.length_cons] at hfuel
          obtain ⟨-, hinside⟩ := denote_symbol (rules.unfold (fuel + 1)) hs hsize
          obtain ⟨inside, rest, vs, rfl, hderives, hitems⟩ := items_sound ih hinside (by omega)
          by_cases hclose : rest.head? = some ']'
          · right
            obtain ⟨rest, rfl⟩ := List.head?_eq_some_iff.mp hclose
            refine ⟨_, rest, _, ?_, hderives.derives, closed_list vs rest, ?_⟩
            · rw [List.append_assoc, List.singleton_append, List.cons_append]
            · exact read_of_stops hs hsize hstops (denote_brackets _ hs hsize hitems) hs.live
          · left
            exact read_fails hs hsize hstops (denote_brackets_unclosed _ hs hsize hitems hclose)
        · left
          exact read_fails hs hsize hstops (denote_brackets_of_ne _ hs hsize hopen)
      · right
        obtain ⟨digits, rest, hcs, hstops⟩ := exists_row_of_not_stops hstops
        refine ⟨digits.chars, rest, _, hcs, .number digits, fun _ _ => hstops, ?_⟩
        exact read_of_number hs hsize hshort hcs hstops

end

-- ================================================================ what is derived is read

/-- The text is read as `v` wherever it stands and the fuel suffices. -/
def Reads (chars : Array Char) (text : List Char) (v : Value) : Prop :=
  ∀ fuel rest (s : State), s.Faces chars (text ++ rest) →
    chars.size + (text ++ rest).length < fuel → Closed v rest →
    read fuel s = .done (s.advance (s.index + text.length) v)

/-- The loop takes the text as further values, up to a closing bracket. -/
def ReadsMore (chars : Array Char) (more : List Char) (vs : List Value) : Prop :=
  ∀ fuel rounds n rest results (s : State), s.Faces chars (more ++ ']' :: rest) →
    chars.size + (more ++ ']' :: rest).length < fuel → chars.size < rounds →
    (more ++ ']' :: rest).length < n →
    separatedLoop ((Parser.symbol ',').denote (rules.unfold (fuel + 1)) rounds) (read fuel) n
        results s =
      .done (s.advance (s.index + more.length) (.list (results.reverse ++ vs)))

section

variable {chars : Array Char}

/-- A bracket is no digit. -/
theorem stops_open (cs : List Char) : Stops Char.isDigit ('[' :: cs) :=
  stops_cons.mpr rfl

theorem stops_close (cs : List Char) : Stops Char.isDigit (']' :: cs) :=
  stops_cons.mpr rfl

/-- Digits are read as the number that they write. -/
theorem reads_number (hshort : ShortNumbers chars) (digits : Lexeme Char.isDigit) :
    Reads chars digits.chars (.int (Nat.ofDigitChars 10 digits.chars 0)) := by
  intro fuel rest s hs hfuel hclosed
  exact read_of_number hs (by omega) hshort rfl (hclosed _ rfl)

/-- Within empty brackets there is no value: a closing bracket begins none. -/
theorem reads_empty : Reads chars ['[', ']'] (.list []) := by
  intro fuel rest s hs hfuel _
  obtain ⟨fuel, rfl⟩ := Nat.exists_eq_succ_of_ne_zero (Nat.ne_of_gt (Nat.zero_lt_of_lt hfuel))
  have hempty : s.Faces chars ('[' :: ([] ++ ']' :: rest)) := hs
  have hnone : (']' :: rest).head? ≠ some '[' := by simp
  have hsize : chars.size < fuel := by
    rw [List.length_append, List.length_cons] at hfuel
    omega
  obtain ⟨-, hinside⟩ := denote_symbol (rules.unfold (fuel + 1)) hempty (Nat.lt_succ_of_lt hsize)
  have hbrackets := denote_brackets_of_ne (rules.unfold fuel) hinside hsize hnone
  obtain ⟨t, ht, hfailed⟩ := read_fails hinside hsize (stops_close rest) hbrackets
  rw [← denote_deferred fuel (fuel + 1)] at ht
  have hitems : items.denote (rules.unfold (fuel + 1)) (fuel + 1) (opened s) =
      .done ((opened s).advance (s.index + 1 + ([] : List Char).length) (.list [])) :=
    Parser.denote_sepBy_of_failed hinside.live ht hfailed
  have hlist := denote_brackets _ hempty (Nat.lt_succ_of_lt hsize) hitems
  exact read_of_stops hempty (Nat.lt_succ_of_lt hsize) (stops_open _) hlist hs.live

/-- A list is read item by item, up to its bracket. -/
theorem reads_list {text more : List Char} {v : Value} {vs : List Value}
    (hfirst : Reads chars text v) (hmore : DerivesMore more vs)
    (hrest : ReadsMore chars more vs) :
    Reads chars ('[' :: (text ++ more) ++ [']']) (.list (v :: vs)) := by
  intro fuel rest s hs hfuel _
  obtain ⟨fuel, rfl⟩ := Nat.exists_eq_succ_of_ne_zero (Nat.ne_of_gt (Nat.zero_lt_of_lt hfuel))
  have hsplit : '[' :: (text ++ more) ++ [']'] ++ rest =
      '[' :: (text ++ (more ++ ']' :: rest)) := by
    simp only [List.cons_append, List.append_assoc, List.nil_append]
  rw [hsplit] at hs hfuel
  rw [List.length_cons, List.length_append] at hfuel
  have hsize : chars.size < fuel + 1 := by omega
  obtain ⟨-, hinside⟩ := denote_symbol (rules.unfold (fuel + 1)) hs hsize
  have hvalue := denote_deferred fuel (fuel + 1)
  -- the first value, closed by what follows, and the loop over the others
  have hread := hfirst fuel _ _ hinside (by rw [List.length_append]; omega)
    fun _ _ => hmore.stops rest
  have hafter := hinside.advance v
  have hloop := hrest fuel (fuel + 1) (fuel + 1) rest [v] _ hafter (by omega) hsize (by omega)
  rw [← hvalue] at hread hloop
  have hitems : items.denote (rules.unfold (fuel + 1)) (fuel + 1) (opened s) =
      .done ((opened s).advance (s.index + 1 + (text ++ more).length) (.list (v :: vs))) := by
    refine (Parser.denote_sepBy_of_live hinside.live hread hafter.live).trans (hloop.trans ?_)
    rw [List.length_append, ← Nat.add_assoc]
    rfl
  rw [← List.append_assoc] at hs
  exact read_of_stops hs hsize (stops_open _) (denote_brackets _ hs hsize hitems) hs.live

/-- Nothing more is read in front of a bracket. -/
theorem readsMore_nil : ReadsMore chars [] [] := by
  intro fuel rounds n rest results s hs hfuel hrounds hlength
  obtain ⟨n, rfl⟩ := Nat.exists_eq_succ_of_ne_zero (Nat.ne_of_gt (Nat.zero_lt_of_lt hlength))
  have hcomma : ([] ++ ']' :: rest).head? ≠ some ',' := by simp
  obtain ⟨t, ht, hfailed⟩ := denote_symbol_of_ne (rules.unfold (fuel + 1)) hs hrounds hcomma
  rw [separatedLoop_of_failed ht hfailed, List.append_nil]
  rfl

/-- A comma and a value, and then what is more. -/
theorem readsMore_cons {text more : List Char} {v : Value} {vs : List Value}
    (hfirst : Reads chars text v) (hmore : DerivesMore more vs)
    (hrest : ReadsMore chars more vs) :
    ReadsMore chars (',' :: (text ++ more)) (v :: vs) := by
  intro fuel rounds n rest results s hs hfuel hrounds hlength
  obtain ⟨n, rfl⟩ := Nat.exists_eq_succ_of_ne_zero (Nat.ne_of_gt (Nat.zero_lt_of_lt hlength))
  have hsplit : ',' :: (text ++ more) ++ ']' :: rest =
      ',' :: (text ++ (more ++ ']' :: rest)) := by
    simp only [List.cons_append, List.append_assoc]
  rw [hsplit] at hs hfuel hlength
  rw [List.length_cons, List.length_append] at hfuel hlength
  obtain ⟨hskip, hafter⟩ := denote_symbol (rules.unfold (fuel + 1)) hs hrounds
  have hread := hfirst fuel _ _ hafter (by rw [List.length_append]; omega)
    fun _ _ => hmore.stops rest
  have hnext := hafter.advance v
  have hmoved : s.index + 1 + text.length ≠ s.index := by omega
  have hindex : s.index + 1 + text.length + more.length =
      s.index + (',' :: (text ++ more)).length := by
    rw [List.length_cons, List.length_append]
    omega
  have hloop := hrest fuel rounds n rest (v :: results) _ hnext (by omega) hrounds (by omega)
  rw [separatedLoop_of_live hskip hafter.live hread hafter.live hmoved]
  refine hloop.trans ?_
  rw [← hindex, List.reverse_cons, List.append_assoc]
  rfl

end

mutual

/-- Every value of the grammar is read. -/
theorem Derives.reads {chars : Array Char} (hshort : ShortNumbers chars) {text : List Char}
    {v : Value} : Derives text v → Reads chars text v
  | .number digits => reads_number hshort digits
  | .empty => reads_empty
  | .list first rest => reads_list (first.reads hshort) rest (rest.reads hshort)

theorem DerivesMore.reads {chars : Array Char} (hshort : ShortNumbers chars) {more : List Char}
    {vs : List Value} : DerivesMore more vs → ReadsMore chars more vs
  | .nil => readsMore_nil
  | .cons first rest => readsMore_cons (first.reads hshort) rest (rest.reads hshort)

end

-- ================================================================ printed lists

/-- Lists of natural numbers, nested to any depth. -/
inductive Nested where
  | number (n : Nat)
  | list (items : List Nested)

mutual

/-- The printed form: the items with commas between them, in brackets. -/
def Nested.text : Nested → List Char
  | .number n => (toString n).toList
  | .list items => '[' :: [','].intercalate (itemTexts items) ++ [']']

/-- The printed forms of items. -/
def itemTexts : List Nested → List (List Char)
  | [] => []
  | x :: xs => x.text :: itemTexts xs

end

mutual

/-- What the list is as a result. -/
def Nested.value : Nested → Value
  | .number n => .int n
  | .list items => .list (itemValues items)

def itemValues : List Nested → List Value
  | [] => []
  | x :: xs => x.value :: itemValues xs

end

/-- A number is derived from its digits. -/
theorem derives_toString (n : Nat) : Derives (toString n).toList (.int n) := by
  have hdigits : ∀ c ∈ Nat.toDigits 10 n, c.isDigit = true := fun _ =>
    Nat.isDigit_of_mem_toDigits (by decide) (by decide)
  have hnumber := Derives.number ⟨Nat.toDigits 10 n, Nat.toDigits_ne_nil, hdigits⟩
  rw [Nat.ofDigitChars_ten_toDigits] at hnumber
  rw [Nat.toString_eq_ofList_toDigits, String.toList_ofList]
  exact hnumber

mutual

/-- Printed lists are values of the grammar. -/
theorem Nested.derives : ∀ x : Nested, Derives x.text x.value
  | .number n => derives_toString n
  | .list [] => .empty
  | .list (x :: xs) => by
      rw [Nested.text, itemTexts, Declaration.intercalate_cons_eq_append]
      exact .list x.derives (derivesMore_itemTexts xs)

theorem derivesMore_itemTexts :
    ∀ xs : List Nested, DerivesMore ((itemTexts xs).flatMap (',' :: ·)) (itemValues xs)
  | [] => .nil
  | x :: xs => by
      rw [itemTexts, List.flatMap_cons]
      exact .cons x.derives (derivesMore_itemTexts xs)

end

-- ================================================================ complete runs

section

variable {chars : Array Char} {fuel : Nat}

/-- A value at the beginning of a text is read from there. -/
theorem Derives.read_initial (hshort : ShortNumbers chars)
    (hfuel : chars.size + chars.toList.length < fuel) {text rest : List Char} {v : Value}
    (h : Derives text v) (hsplit : chars.toList = text ++ rest) (hclosed : Closed v rest) :
    read fuel (.initial (.text chars)) =
      .done { input := .text chars, index := text.length, result := v } := by
  have hs := Declaration.faces_initial chars
  rw [hsplit] at hs hfuel
  rw [h.reads hshort fuel rest _ hs hfuel hclosed, State.advance]
  simp only [State.initial, Nat.zero_add]

/-- What is read from the beginning of a text is a value that stands there. -/
theorem derives_of_read_initial (hshort : ShortNumbers chars)
    (hfuel : chars.size + chars.toList.length < fuel) {t : State}
    (ht : read fuel (.initial (.text chars)) = .done t) (hlive : t.failed = false) :
    t.index ≤ chars.size ∧ Derives (chars.toList.take t.index) t.result ∧
      Closed t.result (chars.toList.drop t.index) := by
  have hs := Declaration.faces_initial chars
  rcases read_sound hshort fuel _ _ hs hfuel with ⟨u, hu, hfailed⟩ |
    ⟨text, rest, v, hsplit, hderives, hclosed, hu⟩
  · obtain rfl := Outcome.done.inj (ht.symm.trans hu)
    rw [hlive] at hfailed
    cases hfailed
  · obtain rfl := Outcome.done.inj (ht.symm.trans hu)
    have hindex : (State.initial (.text chars)).index + text.length = text.length :=
      Nat.zero_add _
    have hsize : text.length ≤ chars.size := by
      rw [← Array.length_toList, hsplit, List.length_append]
      exact Nat.le_add_right _ _
    show _ + text.length ≤ _ ∧ Derives (chars.toList.take (_ + text.length)) v ∧
      Closed v (chars.toList.drop (_ + text.length))
    rw [hindex, hsplit, List.take_left, List.drop_left]
    exact ⟨hsize, hderives, hclosed⟩

/-- What stands behind the first `j` characters. -/
theorem closed_drop_iff {v : Value} {j : Nat} :
    Closed v (chars.toList.drop j) ↔ ∀ n, v = .int n → ∀ c ∈ chars[j]?, c.isDigit = false := by
  unfold Closed Stops
  rw [List.head?_drop, Array.getElem?_toList]

end

/-- Reading a whole text with short numbers, at any fuel beyond twice its size. The run returns. It
succeeds exactly with the values that the text begins with, up to where they end: a number only
where no digit follows it. A printed list is read back whole. -/
theorem run_iff_derives {chars : Array Char} (hshort : ShortNumbers chars) {fuel : Nat}
    (hfuel : 2 * chars.size < fuel) {session : Session} (hsession : session.Faithful rules)
    (frame : Nat) :
    (∃ t, (parser.run rules fuel frame (.text chars) session).1 = .done t) ∧
    (∀ v j,
      (∃ t, (parser.run rules fuel frame (.text chars) session).1 = .done t ∧
        t.failed = false ∧ t.result = v ∧ t.index = j) ↔
      j ≤ chars.size ∧ Derives (chars.extract 0 j).toList v ∧
        ∀ n, v = .int n → ∀ c ∈ chars[j]?, c.isDigit = false) ∧
    ∀ x : Nested, chars.toList = x.text →
      (parser.run rules fuel frame (.text chars) session).1 =
        .done { input := .text chars, index := chars.size, result := x.value } := by
  have hroom : chars.size + chars.toList.length < fuel := by
    rw [Array.length_toList]
    omega
  have hextract : ∀ j, (chars.extract 0 j).toList = chars.toList.take j := by
    intro j
    rw [Array.toList_extract, List.extract_eq_take_drop]
    rfl
  have hread : (parser.run rules fuel frame (.text chars) session).1 =
      read fuel (.initial (.text chars)) := by
    rw [Parser.run_fst, Parser.eval_eq_apply hsession, read]
  rw [hread]
  refine ⟨?_, fun v j => ⟨fun h => ?_, fun h => ?_⟩, fun x hx => ?_⟩
  · have hs := Declaration.faces_initial chars
    rcases read_sound hshort fuel _ _ hs hroom with ⟨t, ht, -⟩ | ⟨text, rest, v, -, -, -, ht⟩
    · exact ⟨t, ht⟩
    · exact ⟨_, ht⟩
  · obtain ⟨t, ht, hlive, rfl, rfl⟩ := h
    rw [← closed_drop_iff, hextract]
    exact derives_of_read_initial hshort hroom ht hlive
  · obtain ⟨hj, hderives, hclosed⟩ := h
    rw [hextract] at hderives
    have hlength : (chars.toList.take j).length = j := by
      rw [List.length_take, Array.length_toList, Nat.min_eq_left hj]
    have hwhole := hderives.read_initial hshort hroom (List.take_append_drop j _).symm
      (closed_drop_iff.mpr hclosed)
    exact ⟨_, hwhole, rfl, rfl, hlength⟩
  · have hwhole := x.derives.read_initial hshort hroom (hx.trans (List.append_nil _).symm)
      fun _ _ _ hc => nomatch hc
    rw [← hx, Array.length_toList] at hwhole
    exact hwhole

/-- A list of a number and a list without items. -/
theorem run_iff_derives_sample :
    (parser.run rules 13 0 sample {}).1 =
      .done { input := sample, index := 6, result := .list [.int 1, .list []] } := by
  have hshort : ShortNumbers #['[', '1', ',', '[', ']', ']'] := by
    intro w hw _
    have hlength : w.length ≤ 6 := hw.length_le
    omega
  have hfuel : 2 * #['[', '1', ',', '[', ']', ']'].size < 13 := by decide
  obtain ⟨-, -, hprinted⟩ := run_iff_derives hshort hfuel (Session.faithful_empty rules) 0
  exact hprinted (.list [.number 1, .list []]) (by decide)

end ParserAlgebra.NestedList
