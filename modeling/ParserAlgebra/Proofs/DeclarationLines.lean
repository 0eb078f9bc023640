import ParserAlgebra.Listing
import ParserAlgebra.Proofs.Cursor
import ParserAlgebra.Proofs.DeclarationGrammar
import ParserAlgebra.Proofs.History

/-!
Declarations on lines of their own: the list that is read is the longest one there is.

# What a line is

`Reads` and `Fails` are what the parser of a single declaration does at a position, and `Listed`
puts such reads in a row, with a line feed between any two. The loop over the lines takes a line
feed only together with the declaration behind it. So it stops where no line feed follows, and in
front of a line feed that no declaration follows, and the line feed is then not part of what is
read.

# Long numbers

A number that is too long to be converted ends the run in a fault when the reading comes to it.
Texts without such numbers (`ShortNumbers`) are always read to a list. For texts that are written
line by line both outcomes are stated: such a text is read whole, or one of its numbers is too long
(`run_lines_written`). For any text at all, a run that does not return has met such a number as the
value of a declaration, in the first line or behind lines that it could read (`run_returns_iff`).

# Reading back

Declarations are printed in the form with single spaces and double quotes (`Entry.render`). A line
feed is no digit, so whatever literal ends a line, the next line does not change it
(`endsBefore_further`), and what is printed is read back.
-/
namespace ParserAlgebra.Declaration

-- ================================================================ short numbers

/-- No row of digits in the text is longer than a number may be. -/
def ShortNumbers (chars : Array Char) : Prop :=
  ∀ w, w <:+: chars.toList → (∀ c ∈ w, c.isDigit = true) → w.length ≤ 4300

/-- A literal of a text with short numbers fits. -/
theorem Literal.fits_of_within {literal : Literal} {chars : Array Char} (h : ShortNumbers chars)
    (hwithin : literal.text <:+: chars.toList) : literal.Fits := by
  cases literal with
  | number digits => exact h digits.chars hwithin digits.members
  | quoted => trivial
  | truth => trivial

/-- Where all numbers are short, every form that stands fits. -/
theorem Form.Stands.fits {form : Form} {chars : Array Char} {i j : Nat} (h : ShortNumbers chars)
    (hstands : form.Stands chars i j) : form.literal.Fits := by
  obtain ⟨-, hsplit, -⟩ := Form.stands_iff.mp hstands
  refine Literal.fits_of_within h
    ⟨chars.toList.take i ++ form.opening.text, chars.toList.drop j, ?_⟩
  calc chars.toList.take i ++ form.opening.text ++ form.literal.text ++ chars.toList.drop j
      = chars.toList.take i ++ (form.text ++ chars.toList.drop j) := by
        simp only [Form.text, List.append_assoc]
    _ = chars.toList := by rw [← hsplit, List.take_append_drop]

-- ================================================================ what is listed

/-- What the parser of declarations does at a position of a text. -/
def readAt (chars : Array Char) (i : Nat) : Outcome State :=
  (parser.eval noRules (chars.size + 1) 0 { input := .text chars, index := i } {}).1

/-- A declaration is read from `i` up to `j`. -/
def Reads (chars : Array Char) (i j : Nat) (d : Value) : Prop :=
  ∃ t, readAt chars i = .done t ∧ t.failed = false ∧ t.index = j ∧ t.result = d

/-- The parser of declarations fails at a position. -/
def Fails (chars : Array Char) (i : Nat) : Prop :=
  ∃ t, readAt chars i = .done t ∧ t.failed = true

/-- Declarations are read on lines of their own, from `i` up to `j`. Each entry is the text of a
declaration and what is read there. -/
inductive Listed (chars : Array Char) : Nat → Nat → List (List Char × Value) → Prop where
  | last {i j : Nat} {d : Value} (read : Reads chars i j d) :
    Listed chars i j [((chars.extract i j).toList, d)]
  | cons {i k j : Nat} {d : Value} {entries : List (List Char × Value)} (read : Reads chars i k d)
    (feed : chars[k]? = some '\n') (rest : Listed chars (k + 1) j entries) :
    Listed chars i j (((chars.extract i k).toList, d) :: entries)

/-- A declaration whose number is too long stands at a position. -/
def Overlong (chars : Array Char) (i : Nat) : Prop :=
  ∃ (form : Form) (j : Nat), form.Stands chars i j ∧ ¬form.literal.Fits

/-- Reading line by line from `i` leads to a line that begins at `m`. -/
inductive LeadsTo (chars : Array Char) : Nat → Nat → Prop where
  | here (i : Nat) : LeadsTo chars i i
  | next {i k m : Nat} {d : Value} (read : Reads chars i k d) (feed : chars[k]? = some '\n')
    (rest : LeadsTo chars (k + 1) m) : LeadsTo chars i m

/-- What reads at a place is a form that stands there and fits, with its value. -/
theorem reads_iff {chars : Array Char} {i j : Nat} {d : Value} :
    Reads chars i j d ↔
      ∃ form : Form, form.Stands chars i j ∧ form.literal.Fits ∧ form.value = d := by
  have hs : State.Faces { input := .text chars, index := i } chars (chars.toList.drop i) :=
    ⟨rfl, rfl, rfl⟩
  rw [Reads, readAt, Parser.eval_of_immediate immediate_declaration]
  exact denote_iff_stands _ hs (Nat.lt_succ_self _)

/-- Nothing can be read where no form stands. -/
theorem fails_iff {chars : Array Char} {i : Nat} :
    Fails chars i ↔ ∀ (form : Form) (j : Nat), ¬form.Stands chars i j := by
  have hs : State.Faces { input := .text chars, index := i } chars (chars.toList.drop i) :=
    ⟨rfl, rfl, rfl⟩
  rw [Fails, readAt, Parser.eval_of_immediate immediate_declaration]
  constructor
  · rintro ⟨t, ht, hfailed⟩ form j hstands
    by_cases hfits : form.literal.Fits
    · rw [denote_of_stands _ hs (Nat.lt_succ_self _) hstands hfits] at ht
      obtain rfl := Outcome.done.inj ht
      cases hfailed
    · rw [denote_of_not_fits _ hs (Nat.lt_succ_self _) hstands hfits] at ht
      cases ht
  · intro hnone
    rcases denote_cases _ hs (Nat.lt_succ_self _) with ⟨form, j, hstands, -⟩ |
      ⟨form, j, hstands, -⟩ | ⟨-, hfails⟩
    · exact absurd hstands (hnone form j)
    · exact absurd hstands (hnone form j)
    · exact hfails

/-- What is read lies within the text. -/
theorem Reads.le {chars : Array Char} {i j : Nat} {d : Value} (h : Reads chars i j d) :
    i ≤ j ∧ j ≤ chars.size := by
  obtain ⟨form, hstands, -⟩ := reads_iff.mp h
  exact ⟨hstands.start, hstands.stop⟩

/-- At one place there is at most one end of what is read. -/
theorem Reads.unique {chars : Array Char} {i j j' : Nat} {d d' : Value} (h : Reads chars i j d)
    (h' : Reads chars i j' d') : j = j' := by
  obtain ⟨form, hstands, -⟩ := reads_iff.mp h
  obtain ⟨form', hstands', -⟩ := reads_iff.mp h'
  exact (hstands.unique hstands').2

/-- What is read is not too long. -/
theorem Reads.not_overlong {chars : Array Char} {i j : Nat} {d : Value} (h : Reads chars i j d) :
    ¬Overlong chars i := by
  rintro ⟨form, k, hstands, hlong⟩
  obtain ⟨form', hstands', hfits, -⟩ := reads_iff.mp h
  obtain ⟨rfl, -⟩ := hstands.unique hstands'
  exact hlong hfits

/-- Where nothing stands, no number is too long. -/
theorem Fails.not_overlong {chars : Array Char} {i : Nat} (h : Fails chars i) :
    ¬Overlong chars i := by
  rintro ⟨form, k, hstands, -⟩
  exact fails_iff.mp h form k hstands

theorem ShortNumbers.not_overlong {chars : Array Char} (h : ShortNumbers chars) (i : Nat) :
    ¬Overlong chars i := by
  rintro ⟨form, k, hstands, hlong⟩
  exact hlong (hstands.fits h)

/-- From a line that is read, only the next line can be come to. -/
theorem LeadsTo.of_reads {chars : Array Char} {i k m : Nat} {d : Value} (h : LeadsTo chars i m)
    (hread : Reads chars i k d) : m = i ∨ (chars[k]? = some '\n' ∧ LeadsTo chars (k + 1) m) := by
  cases h with
  | here => exact .inl rfl
  | next read feed rest =>
      obtain rfl := hread.unique read
      exact .inr ⟨feed, rest⟩

/-- From a line that is not read, nothing else is come to. -/
theorem LeadsTo.of_fails {chars : Array Char} {i m : Nat} (h : LeadsTo chars i m)
    (hfails : Fails chars i) : m = i := by
  cases h with
  | here => rfl
  | next read feed rest =>
      obtain ⟨form, hstands, -⟩ := reads_iff.mp read
      exact absurd hstands (fails_iff.mp hfails form _)

/-- A segment that is not empty begins with the character at its start. -/
theorem toList_extract_cons {chars : Array Char} {c : Char} {k j : Nat} (hkj : k < j)
    (hk : chars[k]? = some c) :
    (chars.extract k j).toList = c :: (chars.extract (k + 1) j).toList := by
  obtain ⟨hlt, rfl⟩ := Array.getElem?_eq_some_iff.mp hk
  have hsize : j - k = j - (k + 1) + 1 := by omega
  rw [Array.toList_extract, Array.toList_extract, List.extract_eq_take_drop,
    List.extract_eq_take_drop, List.drop_eq_getElem_cons hlt, hsize, List.take_succ_cons,
    Array.getElem_toList]

/-- The texts of the declarations, with line feeds between them, are the text that is read. -/
theorem Listed.text {chars : Array Char} {i j : Nat} {entries : List (List Char × Value)}
    (h : Listed chars i j entries) :
    entries ≠ [] ∧ i ≤ j ∧
      (chars.extract i j).toList = ['\n'].intercalate (entries.map Prod.fst) := by
  induction h with
  | last read =>
      refine ⟨List.cons_ne_nil _ _, read.le.1, ?_⟩
      rw [List.map_cons, List.map_nil, List.intercalate_singleton]
  | cons read feed _ ih =>
      obtain ⟨hne, hle, htext⟩ := ih
      have hstart := read.le.1
      refine ⟨List.cons_ne_nil _ _, by omega, ?_⟩
      rw [List.map_cons, List.intercalate_cons_of_ne_nil (by simpa using hne), ← htext,
        toList_extract_append hstart (by omega), toList_extract_cons hle feed, List.append_assoc]
      rfl

-- ================================================================ the loop

section

variable (tree : Deferred → State → Outcome State) {rounds : Nat} {chars : Array Char}
  {cs : List Char} {s : State}

/-- The character at the cursor is the first one that is left. -/
theorem head?_of_faces (hs : s.Faces chars cs) : cs.head? = chars[s.index]? := by
  rw [← hs.rest, List.head?_drop, Array.getElem?_toList]

/-- A line feed is read where it stands. -/
theorem denote_feed {rest : List Char} (hs : s.Faces chars ('\n' :: rest))
    (hrounds : chars.size < rounds) :
    (Parser.word "\n").denote tree rounds s = .done (s.advance (s.index + 1) (.text "\n")) ∧
      (s.advance (s.index + 1) (.text "\n")).Faces chars rest := by
  exact (Parser.scans_word (by decide)).denote_word hs hrounds

/-- Anything else is not read as a line feed. -/
theorem denote_feed_of_ne (hs : s.Faces chars cs) (hrounds : chars.size < rounds)
    (h : chars[s.index]? ≠ some '\n') :
    ∃ t, (Parser.word "\n").denote tree rounds s = .done t ∧ t.failed = true := by
  refine (Parser.scans_word (by decide)).denote_word_of_not hs hrounds fun hword => h ?_
  obtain ⟨rest, rfl⟩ := hword
  exact (head?_of_faces hs).symm

/-- What the parser of declarations does at the start of a line. -/
theorem denote_line (hs : s.Faces chars cs) (hrounds : chars.size < rounds) :
    (∃ k d, Reads chars s.index k d ∧ parser.denote tree rounds s = .done (s.advance k d)) ∨
    (Overlong chars s.index ∧ parser.denote tree rounds s = .raised .malformedNumeral) ∨
    (Fails chars s.index ∧ ∃ t, parser.denote tree rounds s = .done t ∧ t.failed = true) := by
  rcases denote_cases tree hs hrounds with ⟨form, k, hstands, hfits, hact⟩ |
    ⟨form, k, hstands, hlong, hact⟩ | ⟨hnone, t, hact, hfailed⟩
  · exact .inl ⟨k, form.value, reads_iff.mpr ⟨form, hstands, hfits, rfl⟩, hact⟩
  · exact .inr (.inl ⟨⟨form, k, hstands, hlong⟩, hact⟩)
  · exact .inr (.inr ⟨fails_iff.mpr hnone, t, hact, hfailed⟩)

/-- The loop reads the lines that there are, the first one having been read already. It stops in
front of a line feed that no declaration follows, unless it comes to a number that is too long. -/
theorem separatedLoop_lines (hrounds : chars.size < rounds) :
    ∀ (n : Nat) (results : List Value) (cs : List Char) (s : State) (i : Nat) (d : Value),
      s.Faces chars cs → cs.length < n → Reads chars i s.index d →
      (∃ entries j,
        Listed chars i j (((chars.extract i s.index).toList, d) :: entries) ∧
        ¬(chars[j]? = some '\n' ∧ ∃ k d, Reads chars (j + 1) k d) ∧
        (∀ m, LeadsTo chars i m → ¬Overlong chars m) ∧
        separatedLoop ((Parser.word "\n").denote tree rounds) (parser.denote tree rounds) n
            results s =
          .done (s.advance j (.list (results.reverse ++ entries.map Prod.snd)))) ∨
      ∃ m, LeadsTo chars i m ∧ Overlong chars m ∧
        separatedLoop ((Parser.word "\n").denote tree rounds) (parser.denote tree rounds) n
            results s =
          .raised .malformedNumeral := by
  -- A round takes a line feed at least, so the rounds outlast the characters that are left.
  intro n
  induction n with
  | zero =>
      intro results cs s i d _ hlength
      exact absurd hlength (Nat.not_lt_zero _)
  | succ n ih =>
      intro results cs s i d hs hlength hread
      have hstop : s.withResult (.list results.reverse) =
          s.advance s.index (.list (results.reverse ++ [])) := by
        rw [List.append_nil]
        rfl
      by_cases hfeed : chars[s.index]? = some '\n'
      · obtain ⟨rest, rfl⟩ := List.head?_eq_some_iff.mp ((head?_of_faces hs).trans hfeed)
        obtain ⟨hskip, hafter⟩ := denote_feed tree hs hrounds
        rcases denote_line tree hafter hrounds with ⟨k, e, hnext, hact⟩ | ⟨hlong, hact⟩ |
          ⟨hfails, t, hact, hfailed⟩
        · have hleft : (chars.toList.drop k).length < n := by
            have hcs := congrArg List.length hs.rest
            rw [List.length_drop, Array.length_toList] at hcs ⊢
            have hle : s.index + 1 ≤ k ∧ k ≤ chars.size := hnext.le
            omega
          have hmoved : k ≠ s.index := Nat.ne_of_gt hnext.le.1
          rw [separatedLoop_of_live hskip hafter.live hact hs.live hmoved]
          rcases ih (e :: results) (chars.toList.drop k) (s.advance k e) (s.index + 1) e
            ⟨hs.live, hs.input, rfl⟩ hleft hnext with
            ⟨entries, j, hlisted, hmaximal, hshort, hloop⟩ | ⟨m, hleads, hlong, hloop⟩
          · refine .inl ⟨_ :: entries, j, .cons hread hfeed hlisted, hmaximal, ?_, ?_⟩
            · intro m hleads
              rcases hleads.of_reads hread with rfl | ⟨-, hrest⟩
              · exact hread.not_overlong
              · exact hshort m hrest
            · refine hloop.trans ?_
              rw [List.reverse_cons, List.append_assoc]
              rfl
          · exact .inr ⟨m, .next hread hfeed hleads, hlong, hloop⟩
        · refine .inr ⟨s.index + 1, .next hread hfeed (.here _), hlong, ?_⟩
          exact separatedLoop_of_raised hskip hafter.live hact
        · -- The line feed is given back: the loop ends in the state in front of it.
          refine .inl ⟨[], s.index, .last hread, ?_, ?_, ?_⟩
          · rintro ⟨-, k, e, hnext⟩
            obtain ⟨form, hstands, -⟩ := reads_iff.mp hnext
            exact fails_iff.mp hfails form k hstands
          · intro m hleads
            rcases hleads.of_reads hread with rfl | ⟨-, hrest⟩
            · exact hread.not_overlong
            · rw [hrest.of_fails hfails]
              exact hfails.not_overlong
          · rw [separatedLoop_of_value_failed hskip hafter.live hact hfailed, hstop]
            rfl
      · obtain ⟨t, hskip, hfailed⟩ := denote_feed_of_ne tree hs hrounds hfeed
        refine .inl ⟨[], s.index, .last hread, fun h => hfeed h.1, ?_, ?_⟩
        · intro m hleads
          rcases hleads.of_reads hread with rfl | ⟨hnext, -⟩
          · exact hread.not_overlong
          · exact absurd hnext hfeed
        · rw [separatedLoop_of_failed hskip hfailed, hstop]
          rfl

/-- The lines of a text: there are none, or they are read up to the last one that there is, or the
reading comes to a number that is too long. -/
theorem denote_lines (hs : s.Faces chars cs) (hrounds : chars.size < rounds) :
    (lines.denote tree rounds s = .done (s.withResult (.list [])) ∧ Fails chars s.index) ∨
    (∃ entries j, Listed chars s.index j entries ∧
      ¬(chars[j]? = some '\n' ∧ ∃ k d, Reads chars (j + 1) k d) ∧
      (∀ m, LeadsTo chars s.index m → ¬Overlong chars m) ∧
      lines.denote tree rounds s = .done (s.advance j (.list (entries.map Prod.snd)))) ∨
    ∃ m, LeadsTo chars s.index m ∧ Overlong chars m ∧
      lines.denote tree rounds s = .raised .malformedNumeral := by
  rcases denote_line tree hs hrounds with ⟨k, d, hread, hact⟩ | ⟨hlong, hact⟩ |
    ⟨hfails, t, hact, hfailed⟩
  · have hafter : (s.advance k d).Faces chars (chars.toList.drop k) := ⟨hs.live, hs.input, rfl⟩
    rw [lines, Parser.denote_sepBy_of_live hs.live hact hafter.live]
    rcases separatedLoop_lines tree hrounds rounds [d] _ _ _ _ hafter
      (Nat.lt_of_le_of_lt hafter.length_le hrounds) hread with
      ⟨entries, j, hlisted, hmaximal, hshort, hloop⟩ | hlong
    · exact .inr (.inl ⟨_, j, hlisted, hmaximal, hshort, hloop⟩)
    · exact .inr (.inr hlong)
  · exact .inr (.inr ⟨s.index, .here _, hlong, Parser.denote_sepBy_of_raised hs.live hact⟩)
  · exact .inl ⟨Parser.denote_sepBy_of_failed hs.live hact hfailed, hfails⟩

end

-- ================================================================ written lines

/-- Lines in front of which there are others: each begins with a line feed. -/
def further (forms : List Form) : List Char :=
  forms.flatMap fun form => '\n' :: form.text

/-- Declarations, one per line. -/
def written (forms : List Form) : List Char :=
  ['\n'].intercalate (forms.map Form.text)

/-- Pieces with a separator between any two: the first one, and the others each behind a
separator. -/
theorem intercalate_cons_eq_append (c : Char) (piece : List Char) (pieces : List (List Char)) :
    [c].intercalate (piece :: pieces) = piece ++ pieces.flatMap (c :: ·) := by
  induction pieces generalizing piece with
  | nil => simp
  | cons next pieces ih =>
      rw [List.intercalate_cons_cons, ih, List.flatMap_cons, List.append_assoc]
      rfl

/-- The first line, and the others with a line feed in front of each. -/
theorem written_cons (form : Form) (forms : List Form) :
    written (form :: forms) = form.text ++ further forms := by
  rw [written, List.map_cons, intercalate_cons_eq_append, further, List.flatMap_map]

/-- No literal goes on with a line feed. -/
theorem endsBefore_further (literal : Literal) (forms : List Form) :
    literal.EndsBefore (further forms) := by
  cases literal with
  | number digits =>
      cases forms with
      | nil => exact fun c hc => nomatch hc
      | cons form forms => exact stops_cons.mpr rfl
  | quoted => trivial
  | truth => trivial

section

variable (tree : Deferred → State → Outcome State) {rounds : Nat} {chars : Array Char}

/-- Further lines are read one by one, unless some number is too long. -/
theorem separatedLoop_further (hrounds : chars.size < rounds) :
    ∀ (forms : List Form) (n : Nat) (results : List Value) (s : State),
      s.Faces chars (further forms) → (further forms).length < n →
      separatedLoop ((Parser.word "\n").denote tree rounds) (parser.denote tree rounds) n
          results s =
        if ∀ form ∈ forms, form.literal.Fits then
          .done (s.advance (s.index + (further forms).length)
            (.list (results.reverse ++ forms.map Form.value)))
        else .raised .malformedNumeral := by
  intro forms
  induction forms with
  | nil =>
      intro n results s hs hlength
      obtain ⟨n, rfl⟩ := Nat.exists_eq_succ_of_ne_zero (Nat.ne_of_gt hlength)
      have hend : chars[s.index]? ≠ some '\n' := by
        rw [← head?_of_faces hs]
        exact nofun
      obtain ⟨t, hskip, hfailed⟩ := denote_feed_of_ne tree hs hrounds hend
      rw [separatedLoop_of_failed hskip hfailed, if_pos nofun, List.map_nil, List.append_nil]
      rfl
  | cons form forms ih =>
      intro n results s hs hlength
      have hcons : further (form :: forms) = '\n' :: (form.text ++ further forms) := rfl
      rw [hcons] at hs hlength ⊢
      rw [List.length_cons, List.length_append] at hlength
      obtain ⟨n, rfl⟩ := Nat.exists_eq_succ_of_ne_zero (Nat.ne_of_gt (Nat.zero_lt_of_lt hlength))
      obtain ⟨hskip, hafter⟩ := denote_feed tree hs hrounds
      have hstands : form.Stands chars (s.index + 1) (s.index + 1 + form.text.length) :=
        Form.stands_of_faces hafter rfl (endsBefore_further form.literal forms)
      by_cases hfits : form.literal.Fits
      · have hact := denote_of_stands tree hafter hrounds hstands hfits
        have hmoved : s.index + 1 + form.text.length ≠ s.index := by omega
        have hindex : s.index + 1 + form.text.length + (further forms).length =
            s.index + ('\n' :: (form.text ++ further forms)).length := by
          rw [List.length_cons, List.length_append]
          omega
        have hrest := ih n (form.value :: results) _ (hafter.advance form.value) (by omega)
        rw [separatedLoop_of_live hskip hafter.live hact hs.live hmoved]
        refine hrest.trans ?_
        simp only [List.forall_mem_cons, hfits, true_and, List.reverse_cons, List.append_assoc,
          ← hindex]
        rfl
      · -- One long number is enough, whatever stands on the lines behind it.
        have hact := denote_of_not_fits tree hafter hrounds hstands hfits
        rw [separatedLoop_of_raised hskip hafter.live hact,
          if_neg fun hall => hfits (hall form (List.mem_cons_self ..))]

/-- Written lines are read as they are written, unless some number is too long. -/
theorem denote_lines_written {forms : List Form} {s : State} (hrounds : chars.size < rounds)
    (hs : s.Faces chars (written forms)) :
    lines.denote tree rounds s =
      if ∀ form ∈ forms, form.literal.Fits then
        .done (s.advance (s.index + (written forms).length) (.list (forms.map Form.value)))
      else .raised .malformedNumeral := by
  cases forms with
  | nil =>
      have hnone : ∀ (form : Form) (j : Nat), ¬form.Stands chars s.index j := by
        intro form j hstands
        obtain ⟨-, hsplit, -⟩ := Form.stands_iff.mp hstands
        have hlength := congrArg List.length (hs.rest.symm.trans hsplit)
        rw [List.length_append] at hlength
        exact Nat.ne_of_lt (Nat.add_pos_left form.text_length_pos _) hlength
      rcases denote_cases tree hs hrounds with ⟨form, j, hstands, -⟩ | ⟨form, j, hstands, -⟩ |
        ⟨-, t, hact, hfailed⟩
      · exact absurd hstands (hnone form j)
      · exact absurd hstands (hnone form j)
      · rw [lines, Parser.denote_sepBy_of_failed hs.live hact hfailed, if_pos nofun]
        rfl
  | cons form forms =>
      rw [written_cons] at hs ⊢
      have hstands := Form.stands_of_faces hs rfl (endsBefore_further form.literal forms)
      by_cases hfits : form.literal.Fits
      · have hact := denote_of_stands tree hs hrounds hstands hfits
        have hafter := hs.advance form.value
        have hloop := separatedLoop_further tree hrounds forms rounds [form.value] _ hafter
          (Nat.lt_of_le_of_lt hafter.length_le hrounds)
        rw [lines, Parser.denote_sepBy_of_live hs.live hact hafter.live]
        refine hloop.trans ?_
        simp only [List.forall_mem_cons, hfits, true_and, List.length_append, ← Nat.add_assoc]
        rfl
      · have hact := denote_of_not_fits tree hs hrounds hstands hfits
        rw [lines, Parser.denote_sepBy_of_raised hs.live hact,
          if_neg fun hall => hfits (hall form (List.mem_cons_self ..))]

end

-- ================================================================ printed declarations

/-- The constants that can be declared. -/
inductive Constant where
  | number (n : Nat)
  | letters (w : Lexeme Char.isAlpha)
  | truth (b : Bool)

namespace Constant

def type : Constant → TypeTag
  | number _ => .int
  | letters _ => .string
  | truth _ => .boolean

def value : Constant → Value
  | number n => .int n
  | letters w => .text (String.ofList w.chars)
  | truth b => .bool b

def render : Constant → String
  | number n => toString n
  | letters w => "\"" ++ String.ofList w.chars ++ "\""
  | truth b => toString b

/-- The literal that is printed. -/
def literal : Constant → Literal
  | number n => .number ⟨Nat.toDigits 10 n, Nat.toDigits_ne_nil, fun _ =>
      Nat.isDigit_of_mem_toDigits (by decide) (by decide)⟩
  | letters w => .quoted .double .double w
  | truth b => .truth b

end Constant

/-- A declaration of a constant. -/
structure Entry where
  keyword : Keyword
  name : Lexeme inName
  constant : Constant

namespace Entry

def value (entry : Entry) : Value :=
  .declaration (.text entry.keyword.word) (.text (String.ofList entry.name.chars))
    (.tag entry.constant.type) entry.constant.value

/-- A declaration as it is printed. -/
def render (entry : Entry) : String :=
  entry.keyword.word ++ " " ++ String.ofList entry.name.chars ++ ": " ++ entry.constant.type.word ++
    " = " ++ entry.constant.render

/-- The written form that is printed. -/
def form (entry : Entry) : Form where
  opening := ⟨entry.keyword, 1, entry.name, 1, entry.constant.type, 1, 1⟩
  literal := entry.constant.literal
  typed := by cases entry.constant <;> rfl

/-- The form of an entry declares its value. -/
theorem value_form (entry : Entry) : entry.form.value = entry.value := by
  have hliteral : entry.constant.literal.value = entry.constant.value := by
    cases entry.constant with
    | number n =>
        exact congrArg (fun n : Nat => Value.int n) Nat.ofDigitChars_ten_toDigits
    | letters w => rfl
    | truth b => rfl
  rw [Form.value, value, ← hliteral]
  rfl

/-- An entry is printed as its form is written. -/
theorem toList_render (entry : Entry) : entry.render.toList = entry.form.text := by
  have hliteral : entry.constant.render.toList = entry.constant.literal.text := by
    cases entry.constant with
    | number n =>
        show (toString n).toList = Nat.toDigits 10 n
        rw [Nat.toString_eq_ofList_toDigits, String.toList_ofList]
    | letters w => simp [Constant.render, Constant.literal, Literal.text, Quote.char]
    | truth b => rfl
  simp only [render, String.toList_append, hliteral, String.toList_ofList, Form.text, Opening.text,
    List.append_assoc, List.cons_append]
  rfl

end Entry

/-- Declarations as they are printed, one per line. -/
def printed (entries : List Entry) : String :=
  "\n".intercalate (entries.map Entry.render)

/-- A listing is printed as its forms are written. -/
theorem toList_printed (entries : List Entry) :
    (printed entries).toList = written (entries.map Entry.form) := by
  rw [printed, String.toList_intercalate, written, List.map_map, List.map_map]
  refine congrArg _ (List.map_congr_left fun entry _ => ?_)
  exact entry.toList_render

-- ================================================================ complete runs

/-- The state lists the declarations that stand at the start of the text, one per line. The list is
as long as it can be: no line feed with one more declaration follows. -/
def Longest (chars : Array Char) (t : State) : Prop :=
  t.failed = false ∧
    ((t.index = 0 ∧ t.result = .list [] ∧ Fails chars 0) ∨
      ∃ entries, Listed chars 0 t.index entries ∧ t.result = .list (entries.map Prod.snd) ∧
        (chars.extract 0 t.index).toList = ['\n'].intercalate (entries.map Prod.fst) ∧
        ¬(chars[t.index]? = some '\n' ∧ ∃ j d, Reads chars (t.index + 1) j d))

section

variable {rules : Rules} {fuel frame : Nat} {session : Session}

/-- Nothing in a list of declarations is deferred, so a run is what the parser does by itself. -/
theorem run_lines_eq_denote (input : Input) :
    (lines.run rules fuel frame input session).1 =
      lines.denote (fun _ _ => .exhausted) fuel (.initial input) := by
  have himmediate : lines.Every Parser.Immediate := ⟨trivial, trivial, immediate_declaration⟩
  rw [Parser.run_fst, Parser.eval_of_immediate himmediate]

theorem faces_initial (chars : Array Char) :
    (State.initial (.text chars)).Faces chars chars.toList :=
  ⟨rfl, rfl, rfl⟩

/-- With short numbers, a complete run reads as many lines as there are. -/
theorem run_lines_longest {chars : Array Char} (hshort : ShortNumbers chars)
    (hfuel : chars.size < fuel) :
    ∃ t, (lines.run rules fuel frame (.text chars) session).1 = .done t ∧ Longest chars t := by
  rw [run_lines_eq_denote]
  rcases denote_lines (fun _ _ => .exhausted) (faces_initial chars) hfuel with
    ⟨hact, hfails⟩ | ⟨entries, j, hlisted, hmaximal, -, hact⟩ | ⟨m, -, hlong, -⟩
  · exact ⟨_, hact, rfl, .inl ⟨rfl, rfl, hfails⟩⟩
  · exact ⟨_, hact, rfl, .inr ⟨entries, hlisted, rfl, hlisted.text.2.2, hmaximal⟩⟩
  · exact absurd hlong (hshort.not_overlong m)

/-- A complete run on written lines reads them all, unless some number is too long. -/
theorem run_lines_written {forms : List Form} (hfuel : (written forms).length < fuel) :
    (lines.run rules fuel frame (.text (written forms).toArray) session).1 =
      if ∀ form ∈ forms, form.literal.Fits then
        .done { input := .text (written forms).toArray, index := (written forms).length,
                result := .list (forms.map Form.value) }
      else .raised .malformedNumeral := by
  have hs : (State.initial (.text (written forms).toArray)).Faces (written forms).toArray
      (written forms) := faces_initial _
  rw [run_lines_eq_denote, denote_lines_written _ hfuel hs]
  simp only [State.initial, State.advance, Nat.zero_add]

end

/-- Each form stands somewhere in the text. -/
theorem text_within_written {form : Form} {forms : List Form} (h : form ∈ forms) :
    form.text <:+: written forms := by
  have hfurther : ∀ forms : List Form, form ∈ forms → form.text <:+: further forms := by
    intro forms h
    have hline : '\n' :: form.text ∈ forms.map fun form => '\n' :: form.text :=
      List.mem_map_of_mem h
    rw [further, List.flatMap_def]
    exact (List.suffix_cons '\n' form.text).isInfix.trans (List.infix_of_mem_flatten hline)
  cases forms with
  | nil => cases h
  | cons first forms =>
      rw [written_cons]
      rcases List.mem_cons.mp h with rfl | h
      · exact (List.prefix_append ..).isInfix
      · exact (hfurther forms h).trans (List.suffix_append ..).isInfix

/-- Short numbers in the text are short literals. -/
theorem fits_of_printed {entries : List Entry}
    (h : ShortNumbers (printed entries).toList.toArray) :
    ∀ form ∈ entries.map Entry.form, form.literal.Fits := by
  intro form hform
  refine Literal.fits_of_within h ?_
  rw [toList_printed, List.toList_toArray]
  exact List.IsInfix.trans (List.suffix_append ..).isInfix (text_within_written hform)

/-- What is printed is read back. -/
theorem run_lines_printed {entries : List Entry} {rules : Rules} {fuel frame : Nat}
    {session : Session} (hshort : ShortNumbers (printed entries).toList.toArray)
    (hfuel : (printed entries).length < fuel) :
    (lines.run rules fuel frame (.ofString (printed entries)) session).1 =
      .done { input := .ofString (printed entries), index := (printed entries).length,
              result := .list (entries.map Entry.value) } := by
  have hvalues : (entries.map Entry.form).map Form.value = entries.map Entry.value := by
    rw [List.map_map]
    exact List.map_congr_left fun entry _ => entry.value_form
  rw [← String.length_toList, toList_printed] at hfuel
  rw [Input.ofString, ← String.length_toList, toList_printed, run_lines_written hfuel,
    if_pos (fits_of_printed hshort), hvalues]

-- ================================================================ the listing program

/-- The declarations that a run ends with are listed, and no failure is ever reported. -/
theorem declarations_of_parse {chars : List Char} {t : State}
    (h : lines.parse (.text chars.toArray) = .done t) :
    Listing.declarations chars =
      .done ⟨(Listing.items t.result).map Listing.declarationLine, [], 0⟩ := by
  have hlive : t.failed = false := by
    rw [Parser.parse, run_lines_eq_denote] at h
    exact Parser.denote_sepBy_live rfl h
  have hverdict : t.verdict = .ok t.result := by
    rw [State.verdict, if_neg (State.not_failed hlive)]
  simp only [Listing.declarations, h, hverdict]

/-- A listing exits without an error and logs nothing. -/
theorem exit_declarations {chars : List Char} {listing : Listing}
    (h : Listing.declarations chars = .done listing) : listing.exit = 0 ∧ listing.log = [] := by
  cases hparse : lines.parse (.text chars.toArray) with
  | done t =>
      rw [declarations_of_parse hparse] at h
      obtain rfl := Outcome.done.inj h
      exact ⟨rfl, rfl⟩
  | raised fault =>
      rw [Listing.declarations, hparse] at h
      cases h
  | exhausted =>
      rw [Listing.declarations, hparse] at h
      cases h

/-- Declarations are read line by line, and the list ends only where it must: over a text with
short numbers a run never fails, and what it leaves is the longest list of declarations that stands
at the start. A text that is written line by line is read whole, unless one of its numbers is too
long, and declarations that are printed are read back. The listing of a file never reports a
failure, and it is complete for every file that decodes to a text with short numbers. -/
theorem run_lines (rules : Rules) (frame : Nat) (session : Session) :
    (∀ (chars : Array Char) (fuel : Nat), ShortNumbers chars → chars.size < fuel →
      ∃ t, (lines.run rules fuel frame (.text chars) session).1 = .done t ∧ Longest chars t) ∧
    (∀ (forms : List Form) (fuel : Nat), (written forms).length < fuel →
      (lines.run rules fuel frame (.text (written forms).toArray) session).1 =
        if ∀ form ∈ forms, form.literal.Fits then
          .done { input := .text (written forms).toArray, index := (written forms).length,
                  result := .list (forms.map Form.value) }
        else .raised .malformedNumeral) ∧
    (∀ (entries : List Entry) (fuel : Nat), ShortNumbers (printed entries).toList.toArray →
      (printed entries).length < fuel →
      (lines.run rules fuel frame (.ofString (printed entries)) session).1 =
        .done { input := .ofString (printed entries), index := (printed entries).length,
                result := .list (entries.map Entry.value) }) ∧
    (∀ (data : ByteArray) (listing : Listing), Listing.declarationsOf data = .done listing →
      listing.exit = 0 ∧ listing.log = []) ∧
    (∀ (data : ByteArray) (chars : List Char), Listing.decode data = .ok chars →
      ShortNumbers chars.toArray → chars.length < Parser.ampleFuel →
      ∃ output, Listing.declarationsOf data = .done ⟨output, [], 0⟩) := by
  refine ⟨fun _ _ => run_lines_longest, fun _ _ => run_lines_written,
    fun _ _ => run_lines_printed, ?_, ?_⟩
  · intro data listing h
    rw [Listing.declarationsOf] at h
    cases hdecode : Listing.decode data with
    | ok chars =>
        rw [hdecode] at h
        exact exit_declarations h
    | error fault =>
        rw [hdecode] at h
        cases h
  · intro data chars hdecode hshort hfuel
    obtain ⟨t, hrun, -⟩ := run_lines_longest hshort hfuel
    rw [Listing.declarationsOf, hdecode]
    exact ⟨_, declarations_of_parse hrun⟩

/-- Declarations of each type. -/
def sampleEntries : List Entry :=
  [⟨.mutable, ⟨['x'], by decide, List.all_eq_true.mp rfl⟩, .number 42⟩,
   ⟨.constant, ⟨"greeting".toList, by decide, List.all_eq_true.mp rfl⟩,
     .letters ⟨"hello".toList, by decide, List.all_eq_true.mp rfl⟩⟩,
   ⟨.mutable, ⟨"is_ready".toList, by decide, List.all_eq_true.mp rfl⟩, .truth true⟩]

theorem run_lines_sample :
    printed sampleEntries = Listing.sampleDeclarations ∧
      ShortNumbers Listing.sampleDeclarations.toList.toArray ∧
      (lines.run noRules 100 0 (.ofString Listing.sampleDeclarations) {}).1 =
        .done { input := .ofString Listing.sampleDeclarations, index := 77,
                result := .list (sampleEntries.map Entry.value) } := by
  have hprinted : printed sampleEntries = Listing.sampleDeclarations := by decide
  have hlength : (printed sampleEntries).length = 77 := by decide
  have hshort : ShortNumbers (printed sampleEntries).toList.toArray := by
    intro w hw _
    have hle : w.length ≤ (printed sampleEntries).length := hw.length_le
    omega
  have hrun := (run_lines noRules 0 {}).2.2.1 sampleEntries 100 hshort (by omega)
  rw [hlength, hprinted] at hrun
  rw [hprinted] at hshort
  exact ⟨hprinted, hshort, hrun⟩

-- ================================================================ the one fault

section

variable {chars : Array Char} {fuel : Nat} (rules : Rules) (frame : Nat) (session : Session)

/-- A run on a single declaration ends in a state, or its number is too long. -/
theorem run_declaration_cases (hfuel : chars.size < fuel) :
    (¬Overlong chars 0 ∧ (parser.run rules fuel frame (.text chars) session).1.Returns) ∨
    (Overlong chars 0 ∧
      (parser.run rules fuel frame (.text chars) session).1 = .raised .malformedNumeral) := by
  rw [Parser.run_fst, Parser.eval_of_immediate immediate_declaration]
  rcases denote_line (fun _ _ => .exhausted) (faces_initial chars) hfuel with
    ⟨k, d, hread, hact⟩ | hlong | ⟨hfails, t, hact, -⟩
  · exact .inl ⟨hread.not_overlong, _, hact⟩
  · exact .inr hlong
  · exact .inl ⟨hfails.not_overlong, _, hact⟩

/-- A run over the lines ends in a state, or it comes to a number that is too long. -/
theorem run_lines_cases (hfuel : chars.size < fuel) :
    ((∀ i, LeadsTo chars 0 i → ¬Overlong chars i) ∧
      (lines.run rules fuel frame (.text chars) session).1.Returns) ∨
    ((∃ i, LeadsTo chars 0 i ∧ Overlong chars i) ∧
      (lines.run rules fuel frame (.text chars) session).1 = .raised .malformedNumeral) := by
  rw [run_lines_eq_denote]
  rcases denote_lines (fun _ _ => .exhausted) (faces_initial chars) hfuel with
    ⟨hact, hfails⟩ | ⟨entries, j, -, -, hshort, hact⟩ | ⟨i, hleads, hlong, hact⟩
  · refine .inl ⟨fun i hleads => ?_, _, hact⟩
    rw [hleads.of_fails hfails]
    exact hfails.not_overlong
  · exact .inl ⟨hshort, _, hact⟩
  · exact .inr ⟨⟨i, hleads, hlong⟩, hact⟩

/-- Reading declarations, a single one or line by line, ends in a state unless it comes to a number
that is too long, which is a fault. A single declaration is come to at the start of the text; lines
are come to one after another, as long as they are read. -/
theorem run_returns_iff (hfuel : chars.size < fuel) :
    ((parser.run rules fuel frame (.text chars) session).1.Returns ↔ ¬Overlong chars 0) ∧
    ((lines.run rules fuel frame (.text chars) session).1.Returns ↔
      ∀ i, LeadsTo chars 0 i → ¬Overlong chars i) ∧
    ∀ p ∈ [parser, lines], (p.run rules fuel frame (.text chars) session).1.Returns ∨
      (p.run rules fuel frame (.text chars) session).1 = .raised .malformedNumeral := by
  have hparser := run_declaration_cases rules frame session hfuel
  have hlines := run_lines_cases rules frame session hfuel
  refine ⟨?_, ?_, ?_⟩
  · rcases hparser with ⟨hshort, hreturns⟩ | ⟨hlong, hraised⟩
    · exact iff_of_true hreturns hshort
    · rw [hraised]
      exact iff_of_false (Outcome.not_returns_raised _) (not_not_intro hlong)
  · rcases hlines with ⟨hshort, hreturns⟩ | ⟨⟨i, hleads, hlong⟩, hraised⟩
    · exact iff_of_true hreturns hshort
    · rw [hraised]
      exact iff_of_false (Outcome.not_returns_raised _) fun hshort => hshort i hleads hlong
  · simp only [List.forall_mem_cons, List.not_mem_nil, false_imp_iff, implies_true, and_true]
    exact ⟨hparser.imp And.right And.right, hlines.imp And.right And.right⟩

end

/-- The opening `let x: int = `. -/
def numberOpening : Opening :=
  ⟨.mutable, 1, ⟨['x'], by decide, List.all_eq_true.mp rfl⟩, 1, .int, 1, 1⟩

/-- The declaration of a number with this many digits, all of them one. -/
def ones (n : Nat) (hn : n ≠ 0) : Form where
  opening := numberOpening
  literal := .number ⟨List.replicate n '1', by simpa using hn, by simp⟩
  typed := rfl

/-- The text of such a declaration. -/
def onesText (n : Nat) : List Char :=
  numberOpening.text ++ List.replicate n '1'

theorem length_onesText (n : Nat) : (onesText n).length = 13 + n := by
  rw [onesText, List.length_append, List.length_replicate]
  rfl

/-- A number of ones fits up to the limit. -/
theorem fits_ones {n : Nat} {hn : n ≠ 0} : (ones n hn).literal.Fits ↔ n ≤ 4300 := by
  show (List.replicate n '1').length ≤ 4300 ↔ _
  rw [List.length_replicate]

/-- Too many ones at the cursor. -/
theorem overlong_ones {chars : Array Char} {s : State} {n : Nat} (hn : 4300 < n)
    (hs : s.Faces chars (onesText n)) : Overlong chars s.index := by
  have hne : n ≠ 0 := Nat.ne_of_gt (Nat.zero_lt_of_lt hn)
  have hsplit : onesText n = (ones n hne).text ++ [] := (List.append_nil _).symm
  refine ⟨ones n hne, _, Form.stands_of_faces hs hsplit nofun, ?_⟩
  rw [fits_ones]
  exact Nat.not_le.mpr hn

/-- Beyond the limit it is too long. -/
theorem overlong_onesText {n : Nat} (hn : 4300 < n) : Overlong (onesText n).toArray 0 :=
  overlong_ones hn (faces_initial (onesText n).toArray)

/-- Two lines of ones. -/
def twoLines (m n : Nat) : Array Char :=
  (onesText m ++ (['\n'] ++ onesText n)).toArray

theorem size_twoLines (m n : Nat) : (twoLines m n).size = 27 + m + n := by
  rw [twoLines, List.size_toArray, List.length_append, List.length_append, length_onesText,
    length_onesText, List.length_singleton]
  omega

/-- Behind a line that is read stands one with too many ones. -/
theorem leadsTo_overlong {m n : Nat} (hm : m ≠ 0) (hshort : m ≤ 4300) (hn : 4300 < n) :
    ¬Overlong (twoLines m n) 0 ∧ ∃ i, LeadsTo (twoLines m n) 0 i ∧ Overlong (twoLines m n) i := by
  have hstart : (State.initial (.text (twoLines m n))).Faces (twoLines m n)
      ((ones m hm).text ++ (['\n'] ++ onesText n)) := faces_initial (twoLines m n)
  have hread : Reads (twoLines m n) 0 (0 + (ones m hm).text.length) (ones m hm).value := by
    refine reads_iff.mpr ⟨ones m hm, ?_, fits_ones.mpr hshort, rfl⟩
    exact Form.stands_of_faces hstart rfl (stops_cons.mpr rfl)
  have hfeed := hstart.advance (.text "")
  refine ⟨hread.not_overlong, _, ?_, overlong_ones hn (hfeed.advance (.text ""))⟩
  exact .next hread (head?_of_faces hfeed).symm (.here _)

/-- A number of 4301 digits is a fault, for a single declaration and for lines of them. -/
theorem parse_onesText_raised :
    String.ofList numberOpening.text = "let x: int = " ∧
      parser.parse (.text (onesText 4301).toArray) = .raised .malformedNumeral ∧
      lines.parse (.text (onesText 4301).toArray) = .raised .malformedNumeral := by
  have hlong : Overlong (onesText 4301).toArray 0 := overlong_onesText (by decide)
  have hfuel : (onesText 4301).toArray.size < Parser.ampleFuel := by
    rw [List.size_toArray, length_onesText]
    decide
  rw [Parser.parse, Parser.parse]
  refine ⟨by decide, ?_, ?_⟩
  · rcases run_declaration_cases noRules 0 {} hfuel with ⟨hshort, -⟩ | ⟨-, hraised⟩
    · exact absurd hlong hshort
    · exact hraised
  · rcases run_lines_cases noRules 0 {} hfuel with ⟨hshort, -⟩ | ⟨-, hraised⟩
    · exact absurd hlong (hshort 0 (.here 0))
    · exact hraised

/-- With a short number on the first line and a long one on the second, the first declaration is
read, and the lines are not. -/
theorem run_returns_iff_second :
    (twoLines 1 4301).size < 5000 ∧
      (parser.run noRules 5000 0 (.text (twoLines 1 4301)) {}).1.Returns ∧
      (lines.run noRules 5000 0 (.text (twoLines 1 4301)) {}).1 = .raised .malformedNumeral := by
  have hfuel : (twoLines 1 4301).size < 5000 := by
    rw [size_twoLines]
    decide
  obtain ⟨hfirst, i, hleads, hlong⟩ :=
    leadsTo_overlong Nat.one_ne_zero (by decide) (show 4300 < 4301 by decide)
  obtain ⟨hparser, hlines, hcases⟩ := run_returns_iff noRules 0 {} hfuel
  refine ⟨hfuel, hparser.mpr hfirst, ?_⟩
  refine (hcases lines (by simp)).resolve_left fun hreturns => ?_
  exact hlines.mp hreturns i hleads hlong

end ParserAlgebra.Declaration
