import ParserAlgebra.Proofs.Scanning

/-!
Tokens: words, and rows of characters of one class.

# Rows

A row is the longest run of members of a class. `Scanner.run` and `Scanner.skip` take it whole; what
they leave does not begin with a member (`Stops`), and that settles where a row ends.

# How parsers find rows

The pattern matcher finds a row by counting. The repetitions find it in chunks, and join the chunks
in the end: `Scanner.Chunks` is what a chunk has to be for the chunks to join up to the row, of
whatever sizes they are. One lemma about the loop then serves the repetition of a single character
and that of letters mixed with single characters.
-/
namespace ParserAlgebra

-- ================================================================ rows of characters

/-- A nonempty row of members of a class. -/
@[ext] structure Lexeme (member : Char → Bool) where
  chars : List Char
  nonempty : chars ≠ []
  members : ∀ c ∈ chars, member c = true

/-- The characters do not begin with a member of the class. -/
def Stops (member : Char → Bool) (cs : List Char) : Prop :=
  ∀ c ∈ cs.head?, member c = false

section

variable {member : Char → Bool} {w rest cs : List Char}

/-- A text stops at once if its first character is no member. -/
theorem stops_cons {c : Char} : Stops member (c :: cs) ↔ member c = false := by
  simp [Stops]

/-- A row stops what its members do not belong to. -/
theorem Lexeme.stops {other : Char → Bool} (w : Lexeme member)
    (h : ∀ c, member c = true → other c = false) (rest : List Char) :
    Stops other (w.chars ++ rest) := by
  obtain ⟨chars, hne, hmembers⟩ := w
  cases chars with
  | nil => exact absurd rfl hne
  | cons c chars => exact stops_cons.mpr (h c (hmembers c (List.mem_cons_self ..)))

/-- What is left of a text behind its first members stops. -/
theorem stops_dropWhile (member : Char → Bool) (cs : List Char) :
    Stops member (cs.dropWhile member) := by
  intro c hc
  have hhead := List.head?_dropWhile_not member cs
  rw [hc] at hhead
  exact hhead

/-- What is left of a text from a position on is stopped by the character there, or by the end. -/
theorem stops_drop_iff {chars : Array Char} {j : Nat} :
    Stops member (chars.toList.drop j) ↔ ∀ c, chars[j]? = some c → member c = false := by
  unfold Stops
  rw [List.head?_drop, Array.getElem?_toList]
  rfl

theorem not_member_of_stops {c : Char} (h : Stops member (c :: cs)) : ¬member c = true := by
  rw [stops_cons.mp h]
  exact Bool.false_ne_true

/-- A text that does not stop begins with a member. -/
theorem exists_of_not_stops (h : ¬Stops member cs) :
    ∃ c rest, cs = c :: rest ∧ member c = true := by
  cases cs with
  | nil => exact absurd (fun c hc => nomatch hc) h
  | cons c rest =>
      refine ⟨c, rest, rfl, ?_⟩
      by_contra hc
      refine h fun d hd => ?_
      obtain rfl := Option.some.inj hd
      exact Bool.eq_false_iff.mpr hc

/-- What begins with a member begins with a longest row. -/
theorem exists_row_of_not_stops (h : ¬Stops member cs) :
    ∃ (w : Lexeme member) (rest : List Char), cs = w.chars ++ rest ∧ Stops member rest := by
  obtain ⟨c, tail, rfl, hc⟩ := exists_of_not_stops h
  have hrow : (c :: tail).takeWhile member ≠ [] := by
    rw [List.takeWhile_cons_of_pos hc]
    exact List.cons_ne_nil _ _
  exact ⟨⟨_, hrow, List.all_eq_true.mp List.all_takeWhile⟩, _,
    List.takeWhile_append_dropWhile.symm, stops_dropWhile member _⟩

/-- Nothing is taken from a text that stops. -/
theorem takeWhile_of_stops (h : Stops member cs) : cs.takeWhile member = [] := by
  cases cs with
  | nil => rfl
  | cons c cs => exact List.takeWhile_cons_of_neg (not_member_of_stops h)

/-- A text that stops is left as it is. -/
theorem dropWhile_of_stops (h : Stops member cs) : cs.dropWhile member = cs := by
  cases cs with
  | nil => rfl
  | cons c cs => exact List.dropWhile_cons_of_neg (not_member_of_stops h)

/-- A row of members that nothing extends is the longest one. -/
theorem takeWhile_append_of_stops (hw : ∀ c ∈ w, member c = true) (h : Stops member rest) :
    (w ++ rest).takeWhile member = w := by
  rw [List.takeWhile_append_of_pos hw, takeWhile_of_stops h, List.append_nil]

/-- Members in front are dropped up to where the text stops. -/
theorem dropWhile_append_of_stops (hw : ∀ c ∈ w, member c = true) (h : Stops member rest) :
    (w ++ rest).dropWhile member = rest := by
  rw [List.dropWhile_append_of_pos hw, dropWhile_of_stops h]

/-- A text begins with one longest row only. -/
theorem row_unique {w' rest' : List Char} (hw : ∀ c ∈ w, member c = true)
    (hw' : ∀ c ∈ w', member c = true) (hstops : Stops member rest) (hstops' : Stops member rest')
    (h : w ++ rest = w' ++ rest') : w = w' ∧ rest = rest' := by
  have hrow := congrArg (List.takeWhile member) h
  have hrest := congrArg (List.dropWhile member) h
  rw [takeWhile_append_of_stops hw hstops, takeWhile_append_of_stops hw' hstops'] at hrow
  rw [dropWhile_append_of_stops hw hstops, dropWhile_append_of_stops hw' hstops'] at hrest
  exact ⟨hrow, hrest⟩

/-- Two readings of one text as a lexeme and a rest that stops are the same. -/
theorem Lexeme.unique {w w' : Lexeme member} {rest' : List Char} (hstops : Stops member rest)
    (hstops' : Stops member rest') (h : w.chars ++ rest = w'.chars ++ rest') :
    w = w' ∧ rest = rest' := by
  obtain ⟨hchars, hrest⟩ := row_unique w.members w'.members hstops hstops' h
  exact ⟨Lexeme.ext hchars, hrest⟩

end

-- ================================================================ tokens

namespace Scanner

/-- A given word. -/
def word (s : String) : Scanner :=
  fun cs => if s.toList <+: cs then .taken (.text s) (cs.drop s.length) else .stuck cs

/-- The longest row of members of a class, possibly empty. -/
def skip (member : Char → Bool) : Scanner :=
  fun cs => .taken (.text (String.ofList (cs.takeWhile member))) (cs.dropWhile member)

/-- The longest row of members of a class, at least one. -/
def run (member : Char → Bool) : Scanner :=
  fun cs => if cs.takeWhile member = [] then .stuck cs else skip member cs

variable {member : Char → Bool} {cs rest : List Char} {value : Value}

/-- A word is taken if the text begins with it. -/
theorem word_eq_taken {s : String} :
    word s cs = .taken value rest ↔ cs = s.toList ++ rest ∧ value = .text s := by
  rw [word]
  constructor
  · intro h
    split at h
    · next hword =>
        obtain ⟨tail, rfl⟩ := hword
        cases h
        rw [← String.length_toList, List.drop_left]
        exact ⟨rfl, rfl⟩
    · cases h
  · rintro ⟨rfl, rfl⟩
    rw [if_pos (List.prefix_append ..), ← String.length_toList, List.drop_left]

/-- A symbol is a word of one character. -/
theorem symbol_eq_taken {c : Char} :
    word (String.singleton c) cs = .taken value rest ↔
      cs = c :: rest ∧ value = .text (String.singleton c) := by
  rw [word_eq_taken, String.toList_singleton]
  rfl

/-- As many members as there are, maybe none, are skipped. -/
theorem skip_eq_taken :
    skip member cs = .taken value rest ↔
      ∃ w, cs = w ++ rest ∧ (∀ c ∈ w, member c = true) ∧ Stops member rest ∧
        value = .text (String.ofList w) := by
  constructor
  · intro h
    cases h
    refine ⟨cs.takeWhile member, List.takeWhile_append_dropWhile.symm, ?_,
      stops_dropWhile member cs, rfl⟩
    exact List.all_eq_true.mp List.all_takeWhile
  · rintro ⟨w, rfl, hw, hstops, rfl⟩
    rw [skip, takeWhile_append_of_stops hw hstops, dropWhile_append_of_stops hw hstops]

/-- A run takes a lexeme up to where the text stops. -/
theorem run_eq_taken :
    run member cs = .taken value rest ↔
      ∃ w : Lexeme member, cs = w.chars ++ rest ∧ Stops member rest ∧
        value = .text (String.ofList w.chars) := by
  constructor
  · intro h
    rw [run] at h
    split at h
    · cases h
    · next hrow =>
        obtain ⟨w, rfl, hw, hstops, rfl⟩ := skip_eq_taken.mp h
        rw [takeWhile_append_of_stops hw hstops] at hrow
        exact ⟨⟨w, hrow, hw⟩, rfl, hstops, rfl⟩
  · rintro ⟨w, rfl, hstops, rfl⟩
    rw [run, takeWhile_append_of_stops w.members hstops, if_neg w.nonempty]
    exact skip_eq_taken.mpr ⟨w.chars, rfl, w.members, hstops, rfl⟩

theorem calm_word (s : String) : (word s).Calm := by
  intro cs fault h
  rw [word] at h
  split at h
  · cases h
  · cases h

theorem calm_skip (member : Char → Bool) : (skip member).Calm := by
  intro cs fault h
  cases h

theorem calm_run (member : Char → Bool) : (run member).Calm := by
  intro cs fault h
  rw [run] at h
  split at h
  · cases h
  · exact calm_skip member cs fault h

end Scanner

-- ================================================================ leaves

section

variable {tree : Deferred → State → Outcome State} {rounds : Nat}

/-- The cursor is at the end where no characters are left. -/
theorem State.Faces.atEnd {s : State} {chars : Array Char} {cs : List Char}
    (hs : s.Faces chars cs) : s.atEnd = .ok (decide (cs = [])) := by
  have hend : chars.size ≤ s.index ↔ cs = [] := by
    rw [← hs.rest, List.drop_eq_nil_iff, Array.length_toList]
  rw [State.atEnd, hs.input]
  exact congrArg Except.ok (decide_eq_decide.mpr hend)

/-- A literal stands where the rest of the text begins with it. -/
theorem charsAt_eq_true {chars : Array Char} {i : Nat} {expected : List Char} :
    charsAt chars i expected = true ↔ expected <+: chars.toList.drop i := by
  rw [charsAt, beq_iff_eq, Array.toList_extract, List.extract_eq_take_drop, Nat.add_sub_cancel_left,
    List.prefix_iff_eq_take, eq_comm]

/-- The parser of a word that is not empty scans as its scanner does. -/
theorem Parser.scans_word {w : String} (hw : w.toList ≠ []) :
    (Parser.word w).Scans tree rounds (Scanner.word w) := by
  intro chars cs s hs _
  rw [Parser.word, Parser.denote, if_neg (State.not_failed hs.live), State.readLiteral, hs.atEnd,
    Scanner.word]
  by_cases hend : cs = []
  · have hprefix : ¬w.toList <+: cs := by
      rw [hend, List.prefix_nil]
      exact hw
    rw [if_neg hprefix, decide_eq_true hend]
    exact Scan.ends_stuck_here _
  · have hliteral : s.input.hasLiteral s.index (.text w) =
        .ok (charsAt chars s.index w.toList) := by
      rw [hs.input]
      rfl
    have hsnippet : s.upcoming snippetLength = .ok (.text (String.ofList
        (chars.extract s.index (s.index + snippetLength)).toList)) := by
      rw [State.upcoming, hs.input]
      rfl
    rw [decide_eq_false hend, hliteral, hsnippet]
    by_cases hword : w.toList <+: cs
    · have hfound : charsAt chars s.index w.toList = true := by
        rw [charsAt_eq_true, hs.rest]
        exact hword
      rw [hfound, if_pos hword]
      obtain ⟨rest, rfl⟩ := hword
      rw [← String.length_toList, List.drop_left]
      refine ⟨w.toList, rfl, ?_⟩
      rw [String.length_toList]
      rfl
    · have hmissing : charsAt chars s.index w.toList = false := by
        rw [Bool.eq_false_iff, Ne, charsAt_eq_true, hs.rest]
        exact hword
      rw [hmissing, if_neg hword]
      exact Scan.ends_stuck_here _

/-- So does the parser of a symbol. -/
theorem Parser.scans_symbol (c : Char) :
    (Parser.symbol c).Scans tree rounds (Scanner.word (String.singleton c)) := by
  intro chars cs s hs _
  have htoken : s.input.token s.index =
      .ok (cs.head?.map fun c => .text (String.singleton c)) := by
    rw [hs.input, ← hs.rest, List.head?_drop, Array.getElem?_toList]
    rfl
  rw [Parser.symbol, Parser.char, Parser.denote, if_neg (State.not_failed hs.live), State.readToken,
    htoken, Scanner.word, String.toList_singleton]
  cases cs with
  | nil =>
      rw [if_neg (by simp)]
      exact Scan.ends_stuck_here _
  | cons d cs =>
      have halike : (Value.text (String.singleton d)).alike (.text (String.singleton c)) =
          decide (d = c) := by
        rw [Value.alike, Value.word?, Bool.eq_iff_iff, beq_iff_eq, decide_eq_true_eq,
          Option.some_inj, String.singleton_inj, eq_comm]
      show Scan.Ends s _ _ (.ofExcept (Answer.outcome (if Value.alike _ _ = true then
        Answer.pure (s.advance (s.index + 1) (.text (String.singleton d))) else .pure _)))
      rw [halike]
      by_cases hc : d = c
      · subst hc
        rw [if_pos (by simp), if_pos (by simp), String.length_singleton]
        exact ⟨[d], rfl, rfl⟩
      · rw [if_neg (by simp [Ne.symm hc]), if_neg (by simp [hc])]
        exact Scan.ends_stuck_here _

/-- A word that stands at the cursor is read. -/
theorem Parser.Scans.denote_word {p : Parser} {w : String}
    (hp : p.Scans tree rounds (Scanner.word w)) {chars : Array Char} {rest : List Char} {s : State}
    (hs : s.Faces chars (w.toList ++ rest)) (hrounds : chars.size < rounds) :
    p.denote tree rounds s = .done (s.advance (s.index + w.length) (.text w)) ∧
      (s.advance (s.index + w.length) (.text w)).Faces chars rest := by
  have hends := hp chars _ s hs hrounds
  have htaken : Scanner.word w (w.toList ++ rest) = .taken (.text w) rest :=
    Scanner.word_eq_taken.mpr ⟨rfl, rfl⟩
  rw [htaken] at hends
  rw [← String.length_toList]
  exact ⟨hends.eq_done, hs.advance _⟩

/-- Where the text does not begin with the word, its parser fails. -/
theorem Parser.Scans.denote_word_of_not {p : Parser} {w : String}
    (hp : p.Scans tree rounds (Scanner.word w)) {chars : Array Char} {cs : List Char} {s : State}
    (hs : s.Faces chars cs) (hrounds : chars.size < rounds) (h : ¬w.toList <+: cs) :
    ∃ t, p.denote tree rounds s = .done t ∧ t.failed = true := by
  have hends := hp chars cs s hs hrounds
  rw [Scanner.word, if_neg h] at hends
  obtain ⟨-, t, -, hact, hfailed, -⟩ := hends
  exact ⟨t, hact, hfailed⟩

/-- The length of a run in an array is that of the first members in the text. -/
theorem CharSet.runLength_eq (set : CharSet) (chars : Array Char) :
    ∀ limit i, chars.size - i ≤ limit →
      set.runLength chars limit i = ((chars.toList.drop i).takeWhile set.contains).length := by
  intro limit
  induction limit with
  | zero =>
      intro i hi
      rw [List.drop_eq_nil_of_le (by rw [Array.length_toList]; omega)]
      rfl
  | succ limit ih =>
      intro i hi
      rw [CharSet.runLength]
      by_cases hlt : i < chars.size
      · have hlist : i < chars.toList.length := hlt
        rw [Array.getElem?_eq_getElem hlt, List.drop_eq_getElem_cons hlist, Array.getElem_toList]
        show (if set.contains chars[i] = true then _ else 0) = _
        by_cases hmember : set.contains chars[i] = true
        · rw [if_pos hmember, List.takeWhile_cons_of_pos hmember, List.length_cons,
            ih (i + 1) (by omega)]
        · rw [if_neg hmember, List.takeWhile_cons_of_neg hmember]
          rfl
      · have hend : chars.size ≤ i := Nat.le_of_not_lt hlt
        rw [Array.getElem?_eq_none hend, List.drop_eq_nil_of_le hend]
        rfl

/-- A run ends behind the longest row of members, if there are any. -/
theorem Pattern.matchEnd?_runOf (set : CharSet) (chars : Array Char) (i : Nat) :
    (runOf set).matchEnd? chars i =
      if (chars.toList.drop i).takeWhile set.contains = [] then none
      else some (i + ((chars.toList.drop i).takeWhile set.contains).length) := by
  show longestFirst some i 1 (set.runLength chars (chars.size - i) i) = _
  rw [CharSet.runLength_eq set chars _ _ (Nat.le_refl _)]
  cases (chars.toList.drop i).takeWhile set.contains with
  | nil => rfl
  | cons c row => rfl

/-- What a text goes on with from a position on, cut out of it. -/
theorem toList_extract_of_drop {chars : Array Char} {i : Nat} {taken rest : List Char}
    (h : chars.toList.drop i = taken ++ rest) :
    (chars.extract i (i + taken.length)).toList = taken := by
  rw [Array.toList_extract, List.extract_eq_take_drop, h, Nat.add_sub_cancel_left, List.take_left]

/-- The text in front of the cursor can be cut out of the input. -/
theorem State.Faces.slice {s : State} {chars : Array Char} {taken rest : List Char}
    (hs : s.Faces chars (taken ++ rest)) :
    s.input.slice s.index (s.index + taken.length) = .ok (.text (String.ofList taken)) := by
  rw [hs.input, Input.slice, toList_extract_of_drop hs.rest]

/-- The pattern of a run scans as the scanner of runs does. -/
theorem Parser.scans_run (set : CharSet) (name : String) :
    (Parser.pattern (Pattern.runOf set).matcher name).Scans tree rounds
      (Scanner.run set.contains) := by
  intro chars cs s hs _
  have hmatch := Pattern.matchEnd?_runOf set chars s.index
  rw [hs.rest] at hmatch
  have hsplit := List.takeWhile_append_dropWhile (p := set.contains) (l := cs)
  rw [Parser.denote, if_neg (State.not_failed hs.live), State.readPattern, hs.atEnd, Scanner.run]
  by_cases hend : cs = []
  · subst hend
    exact Scan.ends_stuck_here _
  · rw [decide_eq_false hend, hs.input, Pattern.matchEnd?_matcher, hmatch]
    by_cases hrow : cs.takeWhile set.contains = []
    · rw [if_pos hrow, if_pos hrow]
      exact Scan.ends_stuck_here _
    · rw [if_neg hrow, if_neg hrow]
      rw [← hsplit] at hs
      have hslice := hs.slice
      rw [hs.input] at hslice
      refine ⟨cs.takeWhile set.contains, hsplit.symm, ?_⟩
      show Outcome.ofExcept (Input.slice s.index (s.index + (cs.takeWhile set.contains).length)
        (.text chars) >>= fun value =>
          pure (s.advance (s.index + (cs.takeWhile set.contains).length) value)) = _
      rw [hslice]
      rfl

end

-- ================================================================ letters, digits and joined rows

/-- The set of letters has the letters of ASCII. -/
theorem contains_letterSet (c : Char) : Parser.letterSet.contains c = c.isAlpha := by
  have hupper : c.isUpper = (decide ('A' ≤ c) && decide (c ≤ 'Z')) := Bool.decide_and ..
  have hlower : c.isLower = (decide ('a' ≤ c) && decide (c ≤ 'z')) := rfl
  show _ = (c.isUpper || c.isLower)
  rw [hupper, hlower, Bool.or_comm]
  simp only [CharSet.contains, Parser.letterSet, List.any_cons, List.any_nil, Bool.or_false,
    Bool.bne_false]

/-- The set of digits has the digits of ASCII. -/
theorem contains_digitSet (c : Char) : Parser.digitSet.contains c = c.isDigit := by
  have hdigit : c.isDigit = (decide ('0' ≤ c) && decide (c ≤ '9')) := rfl
  rw [hdigit]
  simp only [CharSet.contains, Parser.digitSet, List.any_cons, List.any_nil, Bool.or_false,
    Bool.bne_false]

section

variable {tree : Deferred → State → Outcome State} {rounds : Nat} {p : Parser} {f : Scanner}
  {member : Char → Bool}

/-- Letters scan as a run of letters. -/
theorem Parser.scans_letters : Parser.letters.Scans tree rounds (Scanner.run Char.isAlpha) := by
  have hclass : Parser.letterSet.contains = Char.isAlpha := funext contains_letterSet
  rw [← hclass]
  exact Parser.scans_run _ _

/-- Digits scan as a run of digits. -/
theorem Parser.scans_digits : Parser.digits.Scans tree rounds (Scanner.run Char.isDigit) := by
  have hclass : Parser.digitSet.contains = Char.isDigit := funext contains_digitSet
  rw [← hclass]
  exact Parser.scans_run _ _

/-- A scanner that cuts a chunk, of whatever size, from every row of members. -/
structure Scanner.Chunks (f : Scanner) (member : Char → Bool) : Prop where
  take : ∀ c cs, member c = true → ∃ w rest, c :: cs = w ++ rest ∧ w ≠ [] ∧
    (∀ d ∈ w, member d = true) ∧ f (c :: cs) = .taken (.text (String.ofList w)) rest
  stop : ∀ cs, Stops member cs → ∃ rest, f cs = .stuck rest

/-- The texts of chunks. -/
def texts (chunks : List (List Char)) : List Value :=
  chunks.map fun w => .text (String.ofList w)

/-- Texts are joined into the text of all their characters. -/
theorem joined?_texts (chunks : List (List Char)) :
    Value.joined? (texts chunks) = some (String.ofList chunks.flatten) := by
  induction chunks with
  | nil => rfl
  | cons w chunks ih =>
      rw [Value.joined?] at ih ⊢
      obtain ⟨words, hwords, hjoin⟩ := Option.map_eq_some_iff.mp ih
      rw [texts, List.map_cons, List.mapM_cons, ← texts, hwords]
      show some (String.join (String.ofList w :: words)) = _
      rw [String.join_cons, hjoin, List.flatten_cons, String.ofList_append]

/-- An attempt at a chunk fails where there is no row, and takes a part of the row otherwise. -/
theorem Parser.Scans.denote_chunk (hp : p.Scans tree rounds f) (hf : f.Chunks member)
    {chars : Array Char} {cs : List Char} {s : State} (hs : s.Faces chars cs)
    (hrounds : chars.size < rounds) :
    (Stops member cs ∧ ∃ t, p.denote tree rounds s = .done t ∧ t.failed = true) ∨
      ∃ w rest, cs = w ++ rest ∧ 0 < w.length ∧ (∀ c ∈ w, member c = true) ∧
        p.denote tree rounds s =
          .done (s.advance (s.index + w.length) (.text (String.ofList w))) := by
  have hends := hp chars cs s hs hrounds
  by_cases hstops : Stops member cs
  · obtain ⟨rest, hrest⟩ := hf.stop cs hstops
    rw [hrest] at hends
    obtain ⟨-, t, -, hout, hfailed, -⟩ := hends
    exact .inl ⟨hstops, t, hout, hfailed⟩
  · obtain ⟨c, cs, rfl, hc⟩ := exists_of_not_stops hstops
    obtain ⟨w, rest, hcs, hw, hmembers, htaken⟩ := hf.take c cs hc
    rw [htaken] at hends
    obtain ⟨taken, hsplit, hout⟩ := hends
    obtain rfl : taken = w := List.append_cancel_right (hsplit.symm.trans hcs)
    exact .inr ⟨taken, rest, hcs, List.length_pos_iff.mpr hw, hmembers, hout⟩

/-- Rounds of chunks take a row of members as a whole. -/
theorem manyLoop_chunks (hp : p.Scans tree rounds f) (hf : f.Chunks member) {chars : Array Char}
    (hrounds : chars.size < rounds) :
    ∀ n (results : List Value) cs (s : State), s.Faces chars cs → cs.length < n →
      ∃ chunks : List (List Char), chunks.flatten = cs.takeWhile member ∧
        manyLoop (p.denote tree rounds) n results s =
          .done (s.advance (s.index + (cs.takeWhile member).length)
            (.list (results.reverse ++ texts chunks))) := by
  intro n
  induction n with
  | zero =>
      intro results cs s _ hlength
      exact absurd hlength (Nat.not_lt_zero _)
  | succ n ih =>
      intro results cs s hs hlength
      rcases hp.denote_chunk hf hs hrounds with
        ⟨hstops, t, hout, hfailed⟩ | ⟨w, rest, rfl, hpos, hmembers, hout⟩
      · refine ⟨[], (takeWhile_of_stops hstops).symm, ?_⟩
        rw [manyLoop_of_failed hout hfailed, takeWhile_of_stops hstops, texts, List.map_nil,
          List.append_nil]
        rfl
      · rw [List.length_append] at hlength
        have hafter := hs.advance (.text (String.ofList w))
        have hmoved : s.index + w.length ≠ s.index := by omega
        obtain ⟨chunks, hflatten, hrest⟩ :=
          ih (.text (String.ofList w) :: results) rest _ hafter (by omega)
        refine ⟨w :: chunks, ?_, ?_⟩
        · rw [List.flatten_cons, hflatten, List.takeWhile_append_of_pos hmembers]
        · rw [manyLoop_of_live hout hafter.live hmoved]
          refine hrest.trans ?_
          rw [List.takeWhile_append_of_pos hmembers, List.length_append, ← Nat.add_assoc,
            List.reverse_cons, List.append_assoc]
          rfl

/-- The texts that a parser has collected are joined into one. -/
theorem denote_joinTexts {s : State} {index : Nat} {chunks : List (List Char)}
    (hs : s.failed = false)
    (hp : p.denote tree rounds s = .done (s.advance index (.list (texts chunks)))) :
    (Parser.joinTexts p).denote tree rounds s =
      .done (s.advance index (.text (String.ofList chunks.flatten))) := by
  rw [Parser.joinTexts, Parser.denote_map_of_live hs hp hs]
  show Outcome.ofExcept (Answer.ofOption _
    ((Value.joined? (texts chunks)).map Value.text)).outcome >>= _ = _
  rw [joined?_texts]
  rfl

/-- Repeated chunks, joined, are the whole row. -/
theorem Parser.Scans.joined_many (hp : p.Scans tree rounds f) (hf : f.Chunks member) :
    (Parser.joinTexts (.many p)).Scans tree rounds (Scanner.skip member) := by
  intro chars cs s hs hrounds
  obtain ⟨chunks, hflatten, hmany⟩ := manyLoop_chunks hp hf hrounds rounds [] cs s hs
    (Nat.lt_of_le_of_lt hs.length_le hrounds)
  rw [← Parser.denote_many hs.live] at hmany
  refine ⟨cs.takeWhile member, List.takeWhile_append_dropWhile.symm, ?_⟩
  rw [denote_joinTexts hs.live hmany, hflatten]

/-- Chunks that are read again and again and joined make up one run. -/
theorem Parser.Scans.joined_many1 (hp : p.Scans tree rounds f) (hf : f.Chunks member) :
    (Parser.joinTexts (.many1 p)).Scans tree rounds (Scanner.run member) := by
  intro chars cs s hs hrounds
  rw [Scanner.run]
  rcases hp.denote_chunk hf hs hrounds with
    ⟨hstops, t, hout, hfailed⟩ | ⟨w, rest, rfl, hpos, hmembers, hout⟩
  · have hmany1 := Parser.denote_many1_of_failed hs.live hout hfailed
    rw [if_pos (takeWhile_of_stops hstops), Parser.joinTexts,
      Parser.denote_map_of_failed hs.live hmany1 rfl]
    exact Scan.ends_stuck_here _
  · have hafter := hs.advance (.text (String.ofList w))
    obtain ⟨chunks, hflatten, hmany⟩ := manyLoop_chunks hp hf hrounds rounds [] rest _ hafter
      (Nat.lt_of_le_of_lt hafter.length_le hrounds)
    have hrow : (w ++ rest).takeWhile member = (w :: chunks).flatten := by
      rw [List.takeWhile_append_of_pos hmembers, List.flatten_cons, hflatten]
    have hmany1 : (Parser.many1 p).denote tree rounds s = .done (s.advance
        (s.index + (w :: chunks).flatten.length) (.list (texts (w :: chunks)))) := by
      rw [Parser.denote_many1_of_live hs.live hout hafter.live, hmany, Outcome.done_bind,
        List.flatten_cons, List.length_append, hflatten, ← Nat.add_assoc]
      rfl
    have hne : (w :: chunks).flatten ≠ [] := by
      rw [List.flatten_cons, ← List.length_pos_iff, List.length_append]
      omega
    rw [hrow, if_neg hne]
    refine ⟨(w :: chunks).flatten, ?_, ?_⟩
    · rw [← hrow, List.takeWhile_append_dropWhile]
    · rw [hrow]
      exact denote_joinTexts hs.live hmany1

end

-- ================================================================ chunks

namespace Scanner

variable {f g : Scanner} {member other : Char → Bool}

/-- Single characters are chunks. -/
theorem chunks_word (c : Char) : (word (String.singleton c)).Chunks fun d => d == c := by
  constructor
  · intro d cs hd
    obtain rfl := beq_iff_eq.mp hd
    refine ⟨[d], cs, rfl, List.cons_ne_nil d [], ?_, ?_⟩
    · intro e he
      rw [List.mem_singleton.mp he]
      exact beq_self_eq_true d
    · rw [word_eq_taken, String.toList_singleton, String.singleton_eq_ofList]
      exact ⟨rfl, rfl⟩
  · intro cs hstops
    refine ⟨cs, ?_⟩
    rw [word, String.toList_singleton, if_neg]
    rintro ⟨rest, rfl⟩
    exact not_member_of_stops hstops (beq_self_eq_true c)

/-- A whole row is a chunk. -/
theorem chunks_run (member : Char → Bool) : (run member).Chunks member := by
  constructor
  · intro c cs hc
    refine ⟨(c :: cs).takeWhile member, (c :: cs).dropWhile member,
      List.takeWhile_append_dropWhile.symm, ?_, List.all_eq_true.mp List.all_takeWhile, ?_⟩
    · rw [List.takeWhile_cons_of_pos hc]
      exact List.cons_ne_nil _ _
    · rw [run, List.takeWhile_cons_of_pos hc, if_neg (List.cons_ne_nil _ _), skip,
        List.takeWhile_cons_of_pos hc]
  · intro cs hstops
    refine ⟨cs, ?_⟩
    rw [run, if_pos (takeWhile_of_stops hstops)]

/-- Chunks of either kind are chunks of the mixed rows. -/
theorem Chunks.rescue (hf : f.Chunks member) (hg : g.Chunks other) :
    Chunks (fun cs => (f cs).rescue fun _ => g cs) fun c => member c || other c := by
  constructor
  · intro c cs hc
    by_cases hmember : member c = true
    · obtain ⟨w, rest, hcs, hw, hall, htaken⟩ := hf.take c cs hmember
      refine ⟨w, rest, hcs, hw, fun d hd => ?_, ?_⟩
      · rw [hall d hd, Bool.true_or]
      · rw [htaken]
        rfl
    · have hother : other c = true := (Bool.or_eq_true _ _ ▸ hc).resolve_left hmember
      have hstops : Stops member (c :: cs) := by
        intro d hd
        obtain rfl := Option.some.inj hd
        exact Bool.eq_false_iff.mpr hmember
      obtain ⟨stuck, hstuck⟩ := hf.stop _ hstops
      obtain ⟨w, rest, hcs, hw, hall, htaken⟩ := hg.take c cs hother
      refine ⟨w, rest, hcs, hw, fun d hd => ?_, ?_⟩
      · rw [hall d hd, Bool.or_true]
      · rw [hstuck]
        exact htaken
  · intro cs hstops
    have hboth : ∀ c ∈ cs.head?, member c = false ∧ other c = false :=
      fun c hc => Bool.or_eq_false_iff.mp (hstops c hc)
    obtain ⟨stuck, hstuck⟩ := hf.stop cs fun c hc => (hboth c hc).1
    obtain ⟨rest, hrest⟩ := hg.stop cs fun c hc => (hboth c hc).2
    refine ⟨rest, ?_⟩
    rw [hstuck]
    exact hrest

end Scanner

/-- Spaces are skipped, and there may be none. -/
theorem Parser.scans_spaces {tree : Deferred → State → Outcome State} {rounds : Nat} :
    Parser.spaces.Scans tree rounds (Scanner.skip fun d => d == ' ') :=
  (Parser.scans_symbol ' ').joined_many (Scanner.chunks_word ' ')

-- ================================================================ one of several words

/-- The words of a kind of token, in the order in which they are tried. No word begins with another
one, so the order does not matter. -/
structure Words (α : Type) where
  spell : α → String
  all : List α
  complete : ∀ a, a ∈ all
  nonempty : ∀ a ∈ all, (spell a).toList ≠ []
  prefixFree : ∀ a ∈ all, ∀ b ∈ all, (spell a).toList <+: (spell b).toList → a = b

namespace Words

variable {α : Type}

/-- Any of the words. -/
def scanner (words : Words α) : Scanner :=
  .first (words.all.map fun a => .word (words.spell a))

/-- A text begins with one word only. -/
theorem unique (words : Words α) {a b : α} {rest rest' : List Char}
    (h : (words.spell a).toList ++ rest = (words.spell b).toList ++ rest') :
    a = b ∧ rest = rest' := by
  have ha := words.complete a
  have hb := words.complete b
  have hboth : (words.spell a).toList <+: (words.spell b).toList ∨
      (words.spell b).toList <+: (words.spell a).toList :=
    List.prefix_or_prefix_of_prefix (List.prefix_append _ rest) (h ▸ List.prefix_append _ rest')
  obtain rfl : a = b := hboth.elim (words.prefixFree a ha b hb)
    fun hprefix => (words.prefixFree b hb a ha hprefix).symm
  exact ⟨rfl, List.append_cancel_left h⟩

/-- The word that is there is taken. -/
theorem scanner_eq_taken (words : Words α) {cs rest : List Char} {value : Value} :
    words.scanner cs = .taken value rest ↔
      ∃ a, cs = (words.spell a).toList ++ rest ∧ value = .text (words.spell a) := by
  have hfirst : ∀ some : List α,
      (Scanner.first (some.map fun a => .word (words.spell a)) cs = .taken value rest ↔
        ∃ a ∈ some, cs = (words.spell a).toList ++ rest ∧ value = .text (words.spell a)) := by
    intro some
    induction some with
    | nil => simp [Scanner.first]
    | cons a some ih =>
        rw [List.map_cons, Scanner.first]
        by_cases hhere : (words.spell a).toList <+: cs
        · obtain ⟨tail, rfl⟩ := hhere
          have hword : Scanner.word (words.spell a) ((words.spell a).toList ++ tail) =
              .taken (.text (words.spell a)) tail := Scanner.word_eq_taken.mpr ⟨rfl, rfl⟩
          rw [hword]
          constructor
          · intro h
            cases h
            exact ⟨a, List.mem_cons_self .., rfl, rfl⟩
          · rintro ⟨b, -, hcs, rfl⟩
            obtain ⟨rfl, rfl⟩ := words.unique hcs
            rfl
        · have hword : Scanner.word (words.spell a) cs = .stuck cs := if_neg hhere
          rw [hword]
          refine ih.trans ⟨?_, ?_⟩
          · rintro ⟨b, hb, h⟩
            exact ⟨b, List.mem_cons_of_mem a hb, h⟩
          · rintro ⟨b, hb, hcs, hvalue⟩
            rcases List.mem_cons.mp hb with rfl | hb
            · exact absurd (hcs ▸ List.prefix_append _ rest) hhere
            · exact ⟨b, hb, hcs, hvalue⟩
  rw [scanner, hfirst words.all]
  constructor
  · rintro ⟨a, -, h⟩
    exact ⟨a, h⟩
  · rintro ⟨a, h⟩
    exact ⟨a, words.complete a, h⟩

theorem calm (words : Words α) : words.scanner.Calm :=
  Scanner.calm_first (List.forall_mem_map.mpr fun _ _ => Scanner.calm_word _)

/-- A choice of words scans as the words in their order. -/
theorem scans (words : Words α) {tree : Deferred → State → Outcome State} {rounds : Nat} :
    (Parser.choice (words.all.map fun a => .word (words.spell a))).Scans tree rounds
      words.scanner := by
  refine Parser.scans_choice (List.forall₂_map_left_iff.mpr (List.forall₂_map_right_iff.mpr ?_))
  exact List.forall₂_same.mpr fun a ha => Parser.scans_word (words.nonempty a ha)

end Words

end ParserAlgebra
