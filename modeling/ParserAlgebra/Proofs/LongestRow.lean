import ParserAlgebra.Proofs.DeclarationGrammar

/-!
How far a token goes: letters, digits, names and spaces are read up to where they end.

# Rows by position

`IsRow` says by positions alone that a stretch of a text holds only members of a class, and
`IsLongestRow` that no row from the same start goes further. Both leave open how a row is found. A
longest row is known by what stands behind it (`isLongestRow_iff`): the end of the text, or a
character outside the class. A row may be empty, and then it may start anywhere, also beyond the end
of the text.

# Reading a row

Letters and digits are one match of a pattern, a name is put together from rows of letters and
single underscores, and spaces are read one by one. All of them do what `Scanner.skip` or
`Scanner.run` says, so what these two have to do with positions is shown once for all tokens. The
two differ only where the row is empty.
-/
namespace ParserAlgebra

-- ================================================================ rows by position

/-- The characters of a text from `i` up to `j` are members of a class. -/
structure IsRow (member : Char → Bool) (chars : Array Char) (i j : Nat) : Prop where
  start : i ≤ j
  members : ∀ k, i ≤ k → k < j → ∃ c, chars[k]? = some c ∧ member c = true

/-- A row that ends at `j`, and no row from the same start ends later. -/
structure IsLongestRow (member : Char → Bool) (chars : Array Char) (i j : Nat) : Prop
    extends IsRow member chars i j where
  longest : ∀ k, IsRow member chars i k → k ≤ j

section

variable {member : Char → Bool} {chars : Array Char} {i j k : Nat}

/-- A row goes on with a member behind it. -/
theorem IsRow.extend (h : IsRow member chars i j) {c : Char} (hc : chars[j]? = some c)
    (hmember : member c = true) : IsRow member chars i (j + 1) := by
  refine ⟨Nat.le_succ_of_le h.start, fun k hik hkj => ?_⟩
  by_cases hlast : k = j
  · subst hlast
    exact ⟨c, hc, hmember⟩
  · exact h.members k hik (by omega)

/-- No row goes past a position at which there is no member. -/
theorem IsRow.le_of_stop (h : IsRow member chars i k) (hij : i ≤ j)
    (hstop : ∀ c, chars[j]? = some c → member c = false) : k ≤ j := by
  by_contra hlt
  obtain ⟨c, hc, hmember⟩ := h.members j hij (by omega)
  rw [hstop c hc] at hmember
  cases hmember

/-- A row is a longest one where it is not followed by a member. -/
theorem isLongestRow_iff :
    IsLongestRow member chars i j ↔
      IsRow member chars i j ∧ ∀ c, chars[j]? = some c → member c = false := by
  constructor
  · intro h
    refine ⟨h.toIsRow, fun c hc => ?_⟩
    by_contra hmember
    have hle := h.longest (j + 1) (h.toIsRow.extend hc (by simpa using hmember))
    omega
  · rintro ⟨hrow, hstop⟩
    exact ⟨hrow, fun k hk => hk.le_of_stop hrow.start hstop⟩

/-- From one place there is one longest row. -/
theorem IsLongestRow.unique (h : IsLongestRow member chars i j)
    (h' : IsLongestRow member chars i k) : j = k :=
  Nat.le_antisymm (h'.longest j h.toIsRow) (h.longest k h'.toIsRow)

/-- The members that a text goes on with, up to where they stop. -/
theorem isLongestRow_of_drop {w rest : List Char} (hdrop : chars.toList.drop i = w ++ rest)
    (hw : ∀ c ∈ w, member c = true) (hstops : Stops member rest) :
    IsLongestRow member chars i (i + w.length) := by
  have hrest : chars.toList.drop (i + w.length) = rest := by
    rw [← List.drop_drop, hdrop, List.drop_left]
  rw [← hrest, stops_drop_iff] at hstops
  refine isLongestRow_iff.mpr ⟨⟨Nat.le_add_right i _, fun k hik hkj => ?_⟩, hstops⟩
  -- what is at `i + n` in the text is at `n` in the row
  obtain ⟨n, rfl⟩ := Nat.exists_eq_add_of_le hik
  have hn : n < w.length := by omega
  refine ⟨w[n], ?_, hw _ (List.getElem_mem hn)⟩
  rw [← Array.getElem?_toList, ← List.getElem?_drop, hdrop, List.getElem?_append_left hn,
    List.getElem?_eq_getElem hn]

end

-- ================================================================ reading a row

section

variable {tree : Deferred → State → Outcome State} {rounds : Nat} {p : Parser}
  {member : Char → Bool} {chars : Array Char} {cs : List Char} {s : State} {out : Outcome State}

/-- The first members in front of a cursor are its longest row. -/
theorem State.Faces.isLongestRow (hs : s.Faces chars cs) (member : Char → Bool) :
    IsLongestRow member chars s.index (s.index + (cs.takeWhile member).length) := by
  refine isLongestRow_of_drop ?_ (List.all_eq_true.mp List.all_takeWhile)
    (stops_dropWhile member cs)
  rw [hs.rest, List.takeWhile_append_dropWhile]

/-- A scan that takes a row, possibly empty, ends behind the longest one. -/
theorem Scan.Ends.row (hs : s.Faces chars cs) (h : (Scanner.skip member cs).Ends s cs out) :
    out = .done (s.advance (s.index + (cs.takeWhile member).length) (.text (String.ofList
      (chars.extract s.index (s.index + (cs.takeWhile member).length)).toList))) := by
  have hsplit : cs = cs.takeWhile member ++ cs.dropWhile member :=
    List.takeWhile_append_dropWhile.symm
  obtain ⟨taken, hcs, hout⟩ := h
  obtain rfl : taken = cs.takeWhile member := List.append_cancel_right (hcs.symm.trans hsplit)
  rw [toList_extract_of_drop (hs.rest.trans hsplit)]
  exact hout

theorem Parser.Scans.denote_skip (hp : p.Scans tree rounds (.skip member)) (hs : s.Faces chars cs)
    (hrounds : chars.size < rounds) :
    ∃ j, IsLongestRow member chars s.index j ∧ p.denote tree rounds s =
      .done (s.advance j (.text (String.ofList (chars.extract s.index j).toList))) :=
  ⟨_, hs.isLongestRow member, (hp chars cs s hs hrounds).row hs⟩

/-- Where a row has to be there, the read fails in front of an empty one. -/
theorem Parser.Scans.denote_run (hp : p.Scans tree rounds (.run member)) (hs : s.Faces chars cs)
    (hrounds : chars.size < rounds) :
    ∃ j, IsLongestRow member chars s.index j ∧
      ((s.index < j ∧ p.denote tree rounds s =
          .done (s.advance j (.text (String.ofList (chars.extract s.index j).toList)))) ∨
        (j = s.index ∧
          ∃ t, p.denote tree rounds s = .done t ∧ t.failed = true ∧ t.index = s.index)) := by
  have hends := hp chars cs s hs hrounds
  refine ⟨_, hs.isLongestRow member, ?_⟩
  rw [Scanner.run] at hends
  by_cases hrow : cs.takeWhile member = []
  · rw [if_pos hrow] at hends
    -- the scan gets stuck in front of all that is left, so nothing was taken before the failure
    obtain ⟨taken, t, hcs, hact, hfailed, hindex⟩ := hends
    obtain rfl : taken = [] := List.append_left_eq_self.mp hcs.symm
    rw [hrow]
    exact .inr ⟨rfl, t, hact, hfailed, hindex⟩
  · rw [if_neg hrow] at hends
    have hpos : 0 < (cs.takeWhile member).length := List.length_pos_iff.mpr hrow
    exact .inl ⟨by omega, hends.row hs⟩

end

-- ================================================================ the tokens

/-- The tokens that are rows of characters of one class. -/
inductive RowToken where
  | letters
  | digits
  | name
  | spaces
deriving DecidableEq, Repr

namespace RowToken

def parser : RowToken → Parser
  | letters => .letters
  | digits => .digits
  | name => Declaration.variableName
  | spaces => .spaces

/-- The characters of a token: the ASCII letters, the ASCII digits, the letters with the underscore,
or the space. -/
def member : RowToken → Char → Bool
  | letters => Char.isAlpha
  | digits => Char.isDigit
  | name => Declaration.inName
  | spaces => fun c => c == ' '

/-- None of these parsers defers anything. -/
theorem immediate (token : RowToken) : token.parser.Every Parser.Immediate := by
  cases token with
  | letters | digits => trivial
  | name => exact Declaration.immediate_variableName
  | spaces => exact Declaration.immediate_spaces

variable {tree : Deferred → State → Outcome State} {rounds : Nat} {token : RowToken}
  {chars : Array Char} {cs : List Char} {s : State}

/-- All tokens but spaces need a character. -/
theorem scans_run (htoken : token ≠ .spaces) :
    token.parser.Scans tree rounds (.run token.member) := by
  cases token with
  | letters => exact Parser.scans_letters
  | digits => exact Parser.scans_digits
  | name => exact Declaration.scans_variableName
  | spaces => exact absurd rfl htoken

/-- A token is read up to the end of the longest row, or it is missing. -/
theorem denote_cases (token : RowToken) (hs : s.Faces chars cs) (hrounds : chars.size < rounds) :
    ∃ j, IsLongestRow token.member chars s.index j ∧
      (((token = .spaces ∨ s.index < j) ∧ token.parser.denote tree rounds s =
          .done (s.advance j (.text (String.ofList (chars.extract s.index j).toList)))) ∨
        ((token ≠ .spaces ∧ j = s.index) ∧
          ∃ t, token.parser.denote tree rounds s = .done t ∧ t.failed = true ∧
            t.index = s.index)) := by
  by_cases htoken : token = .spaces
  · subst htoken
    obtain ⟨j, hrow, hact⟩ := Parser.scans_spaces.denote_skip hs hrounds
    exact ⟨j, hrow, .inl ⟨.inl rfl, hact⟩⟩
  · obtain ⟨j, hrow, ⟨hlt, hact⟩ | ⟨hempty, hmissing⟩⟩ := (scans_run htoken).denote_run hs hrounds
    · exact ⟨j, hrow, .inl ⟨.inr hlt, hact⟩⟩
    · exact ⟨j, hrow, .inr ⟨⟨htoken, hempty⟩, hmissing⟩⟩

/-- Tokens are read as far as they go. From every start, also beyond the end of the text, there is a
longest row of characters of the token, and what stands behind it is none of them. Letters, digits
and names fail if and only if the row is empty, with the cursor left where it was, and spaces never
fail. Otherwise the cursor comes to stand behind the row, and the row is the result. -/
theorem eval_longestRow {fuel : Nat} (hfuel : chars.size < fuel) (token : RowToken) (rules : Rules)
    (frame i : Nat) (session : Session) :
    let start : State := { input := .text chars, index := i }
    let out := (token.parser.eval rules fuel frame start session).1
    ∃ j, IsLongestRow token.member chars i j ∧
      (∀ c, chars[j]? = some c → token.member c = false) ∧
      ((∃ t, out = .done t ∧ t.failed = true) ↔ token ≠ .spaces ∧ j = i) ∧
      (∀ t, out = .done t → t.failed = true → t.index = i) ∧
      (token = .spaces ∨ i < j →
        out = .done (start.advance j (.text (String.ofList (chars.extract i j).toList)))) := by
  intro start out
  have hs : start.Faces chars (chars.toList.drop i) := ⟨rfl, rfl, rfl⟩
  have hout : out = token.parser.denote _ fuel start :=
    Parser.eval_of_immediate token.immediate rules fuel frame start session
  obtain ⟨j, hrow, hcases⟩ := token.denote_cases hs hfuel
  rw [← hout] at hcases
  refine ⟨j, hrow, (isLongestRow_iff.mp hrow).2, ?_⟩
  rcases hcases with ⟨htaken, hdone⟩ | ⟨⟨htoken, hempty⟩, u, hdone, hfailed, hindex⟩
  · have hlive : ∀ t, out = .done t → ¬t.failed = true := by
      intro t ht
      obtain rfl := Outcome.done.inj (hdone.symm.trans ht)
      exact State.not_failed hs.live
    refine ⟨⟨fun ⟨t, ht, hfailed⟩ => absurd hfailed (hlive t ht), fun ⟨htoken, hempty⟩ => ?_⟩,
      fun t ht hfailed => absurd hfailed (hlive t ht), fun _ => hdone⟩
    exact absurd hempty (Nat.ne_of_gt (htaken.resolve_left htoken))
  · refine ⟨⟨fun _ => ⟨htoken, hempty⟩, fun _ => ⟨u, hdone, hfailed⟩⟩, fun t ht _ => ?_,
      fun htaken => ?_⟩
    · obtain rfl := Outcome.done.inj (hdone.symm.trans ht)
      exact hindex
    · exact absurd hempty (Nat.ne_of_gt (htaken.resolve_left htoken))

/-- The text `;a_b  7`. -/
def mixed : Array Char :=
  #[';', 'a', '_', 'b', ' ', ' ', '7']

/-- A name is read across its underscore, letters are missing in front of a digit, and to find no
spaces beyond the end of the text is no failure. -/
theorem eval_longestRow_samples :
    (name.parser.eval noRules 8 0 { input := .text mixed, index := 1 } {}).1 =
        .done { input := .text mixed, index := 4, result := .text "a_b" } ∧
      (∃ t, (letters.parser.eval noRules 8 0 { input := .text mixed, index := 6 } {}).1 = .done t ∧
        t.failed = true ∧ t.index = 6) ∧
      (spaces.parser.eval noRules 8 0 { input := .text mixed, index := 9 } {}).1 =
        .done { input := .text mixed, index := 9, result := .text "" } := by
  have hfuel : mixed.size < 8 := by decide
  refine ⟨?_, ?_, ?_⟩
  · obtain ⟨j, hrow, -, -, -, htaken⟩ := eval_longestRow hfuel .name noRules 0 1 {}
    have hlongest : IsLongestRow name.member mixed 1 4 :=
      isLongestRow_of_drop (w := ['a', '_', 'b']) rfl (List.all_eq_true.mp rfl)
        (stops_cons.mpr rfl)
    obtain rfl := hrow.unique hlongest
    exact htaken (.inr (by decide))
  · obtain ⟨j, hrow, -, hfails, hwhere, -⟩ := eval_longestRow hfuel .letters noRules 0 6 {}
    have hlongest : IsLongestRow letters.member mixed 6 6 :=
      isLongestRow_of_drop (w := []) rfl nofun (stops_cons.mpr rfl)
    obtain ⟨t, ht, hfailed⟩ := hfails.mpr ⟨by decide, hrow.unique hlongest⟩
    exact ⟨t, ht, hfailed, hwhere t ht hfailed⟩
  · obtain ⟨j, hrow, -, -, -, htaken⟩ := eval_longestRow hfuel .spaces noRules 0 9 {}
    have hlongest : IsLongestRow spaces.member mixed 9 9 :=
      isLongestRow_of_drop (w := []) rfl nofun nofun
    obtain rfl := hrow.unique hlongest
    exact htaken (.inl rfl)

end RowToken

end ParserAlgebra
