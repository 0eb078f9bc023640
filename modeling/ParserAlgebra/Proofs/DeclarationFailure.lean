import ParserAlgebra.Proofs.DeclarationGrammar

/-!
Where a declaration goes wrong: in front of the first token that is not there.

# Tokens

A declaration is a row of tokens. Each is one of a few words, or the longest row of characters of
some class (`TokenKind.take?`), and which tokens a literal has depends on the word that names the
type. A `Plan` is such a row. To read by a plan is to take one token after another as long as they
are there, and this needs no parser: `Plan.read` gives the tokens, the kind of the first token that
is missing, and the characters in front of which it is.

# Failures

The scanner of a declaration takes the same tokens, though some of them in groups, and gets stuck in
front of the same characters (`tells_scanner`). A token of which only a part is there is not taken
at all, neither by a choice of words nor by a repetition. So the index of a failure is the start and
the lengths of the tokens before it. Where the name is missing, its message quotes that index, since
the message is made from the index of the failure that it replaces.
-/
namespace ParserAlgebra.Declaration

-- ================================================================ tokens

/-- The kinds of tokens. -/
inductive TokenKind where
  | keyword
  | gap
  | name
  | colon
  | typeName
  | equals
  | digits
  | quote
  | letters
  | truth
deriving DecidableEq, Repr

/-- The first of the words that the characters begin with. -/
def firstWord (words : List String) (cs : List Char) : Option (List Char) :=
  (words.map String.toList).find? fun w => w.isPrefixOf cs

/-- The longest row of members of a class, if there is one. -/
def longestRow (member : Char → Bool) (cs : List Char) : Option (List Char) :=
  if cs.takeWhile member = [] then none else some (cs.takeWhile member)

/-- The token of a kind that the characters begin with. Spaces may be missing, so a gap is always
there. -/
def TokenKind.take? : TokenKind → List Char → Option (List Char)
  | keyword => firstWord ["let", "const"]
  | gap => fun cs => some (cs.takeWhile (· == ' '))
  | name => longestRow inName
  | colon => firstWord [":"]
  | typeName => firstWord ["int", "string", "boolean"]
  | equals => firstWord ["="]
  | digits => longestRow Char.isDigit
  | quote => firstWord ["'", "\""]
  | letters => longestRow Char.isAlpha
  | truth => firstWord ["true", "false"]

/-- A row of tokens; what follows a token may depend on it. -/
inductive Plan where
  | finished
  | token (kind : TokenKind) (next : List Char → Plan)

namespace Plan

/-- Tokens of these kinds in front of a plan. -/
def row : List TokenKind → Plan → Plan
  | [], plan => plan
  | kind :: kinds, plan => .token kind fun _ => row kinds plan

/-- The tokens of the literals of a type. -/
def literal : TypeTag → Plan
  | .int => row [.digits] .finished
  | .string => row [.quote, .letters, .quote] .finished
  | .boolean => row [.truth] .finished

/-- The tokens of a declaration. -/
def declaration : Plan :=
  row [.keyword, .gap, .name, .colon, .gap] <| .token .typeName fun word =>
  row [.gap, .equals, .gap] <| ((TypeTag.ofWord? (String.ofList word)).map literal).getD .finished

end Plan

/-- What is found by a plan: the tokens, the kind of the first one that is missing, and the
characters that are left. -/
structure Reading where
  tokens : List (List Char)
  missing : Option TokenKind
  rest : List Char
deriving DecidableEq, Repr

/-- The same reading behind one more token. -/
def Reading.behind (w : List Char) (r : Reading) : Reading :=
  { r with tokens := w :: r.tokens }

/-- Takes tokens as long as they are there. -/
def Plan.read : Plan → List Char → Reading
  | finished, cs => ⟨[], none, cs⟩
  | token kind next, cs =>
    match kind.take? cs with
    | none => ⟨[], some kind, cs⟩
    | some w => ((next w).read (cs.drop w.length)).behind w

-- ================================================================ reading by a plan

section

variable {kind : TokenKind} {next : List Char → Plan} {cs w rest : List Char}

/-- A word that is there is the first. -/
theorem firstWord_cons_pos {s : String} (h : s.toList <+: cs) (words : List String) :
    firstWord (s :: words) cs = some s.toList := by
  rw [firstWord, List.map_cons, List.find?_cons, List.isPrefixOf_iff_prefix.mpr h]

/-- A word that is not there is passed over. -/
theorem firstWord_cons_neg {s : String} (h : ¬s.toList <+: cs) (words : List String) :
    firstWord (s :: words) cs = firstWord words cs := by
  have hnone : s.toList.isPrefixOf cs = false := by
    rw [Bool.eq_false_iff, ne_eq, List.isPrefixOf_iff_prefix]
    exact h
  rw [firstWord, List.map_cons, List.find?_cons, hnone]
  rfl

/-- What is found stands in front. -/
theorem firstWord_prefix {words : List String} (h : firstWord words cs = some w) : w <+: cs := by
  have hfound := List.find?_some h
  exact List.isPrefixOf_iff_prefix.mp hfound

/-- A row stands in front. -/
theorem longestRow_prefix {member : Char → Bool} (h : longestRow member cs = some w) :
    w <+: cs := by
  rw [longestRow] at h
  split at h
  · cases h
  · obtain rfl := Option.some.inj h
    exact List.takeWhile_prefix member

/-- A token is what the characters begin with. -/
theorem TokenKind.take?_prefix (h : kind.take? cs = some w) : w <+: cs := by
  cases kind with
  | keyword | colon | typeName | equals | quote | truth => exact firstWord_prefix h
  | name | digits | letters => exact longestRow_prefix h
  | gap =>
      obtain rfl := Option.some.inj h
      exact List.takeWhile_prefix _

/-- A plan ends at a token that is missing. -/
theorem Plan.read_of_none (h : kind.take? cs = none) :
    (Plan.token kind next).read cs = ⟨[], some kind, cs⟩ := by
  rw [Plan.read, h]

/-- A plan goes on behind a token that is there. -/
theorem Plan.read_of_some (h : kind.take? (w ++ rest) = some w) :
    (Plan.token kind next).read (w ++ rest) = ((next w).read rest).behind w := by
  rw [Plan.read, h]
  show ((next w).read ((w ++ rest).drop w.length)).behind w = _
  rw [List.drop_left]

/-- The tokens and the rest are the characters that are read. -/
theorem Plan.tokens_append_rest (plan : Plan) :
    ∀ cs, (plan.read cs).tokens.flatten ++ (plan.read cs).rest = cs := by
  induction plan with
  | finished => intro cs; rfl
  | token kind next ih =>
      intro cs
      cases h : kind.take? cs with
      | none => rw [read_of_none h]; rfl
      | some w =>
          obtain ⟨rest, rfl⟩ := TokenKind.take?_prefix h
          rw [read_of_some h]
          show (w :: ((next w).read rest).tokens).flatten ++ ((next w).read rest).rest = w ++ rest
          rw [List.flatten_cons, List.append_assoc, ih w rest]

/-- The token that is missing is not there. -/
theorem Plan.take?_of_missing (plan : Plan) :
    ∀ cs, (plan.read cs).missing = some kind → kind.take? (plan.read cs).rest = none := by
  induction plan with
  | finished => intro cs h; cases h
  | token kind' next ih =>
      intro cs hmissing
      cases h : kind'.take? cs with
      | none =>
          rw [read_of_none h] at hmissing ⊢
          obtain rfl := Option.some.inj hmissing
          exact h
      | some w =>
          obtain ⟨rest, rfl⟩ := TokenKind.take?_prefix h
          rw [read_of_some h] at hmissing ⊢
          exact ih w rest hmissing

/-- No token of the kind is asked for. -/
def Plan.Lacks (kind : TokenKind) : Plan → Prop
  | finished => True
  | token kind' next => kind' ≠ kind ∧ ∀ w, (next w).Lacks kind

/-- A plan has a row of tokens and then goes on, so it lacks what neither has. -/
theorem Plan.lacks_row {kinds : List TokenKind} {plan : Plan} (hkinds : kind ∉ kinds)
    (hplan : plan.Lacks kind) : (row kinds plan).Lacks kind := by
  induction kinds with
  | nil => exact hplan
  | cons kind' kinds ih =>
      rw [List.mem_cons, not_or] at hkinds
      exact ⟨fun h => hkinds.1 h.symm, fun _ => ih hkinds.2⟩

theorem Plan.Lacks.missing_ne {plan : Plan} (h : plan.Lacks kind) :
    ∀ cs, (plan.read cs).missing ≠ some kind := by
  induction plan with
  | finished => intro cs hmissing; cases hmissing
  | token kind' next ih =>
      intro cs
      cases htake : kind'.take? cs with
      | none =>
          rw [read_of_none htake]
          exact fun hmissing => h.1 (Option.some.inj hmissing)
      | some w =>
          obtain ⟨rest, rfl⟩ := TokenKind.take?_prefix htake
          rw [read_of_some htake]
          exact ih w (h.2 w) rest

end

-- ================================================================ scanners that take tokens

/-- The scanner takes a token of the kind, or gets stuck where there is none. -/
def Takes (f : Scanner) (kind : TokenKind) : Prop :=
  ∀ cs, (kind.take? cs = none ∧ f cs = .stuck cs) ∨
    ∃ w rest value, cs = w ++ rest ∧ kind.take? cs = some w ∧ f cs = .taken value rest

/-- The scan ends where the reading does, and gets stuck if and only if a token is missing. -/
def Tells (r : Reading) : Scan → Prop
  | .taken _ rest => r.missing = none ∧ r.rest = rest
  | .stuck rest => r.missing ≠ none ∧ r.rest = rest
  | .raised _ => r.missing = none

section

variable {f : Scanner} {kind : TokenKind} {next : Value → Scanner} {plan : List Char → Plan}
  {cs : List Char}

/-- What is told of a reading is told of it behind a token. -/
theorem Tells.behind {r : Reading} {x : Scan} (h : Tells r x) (w : List Char) :
    Tells (r.behind w) x := by
  cases x with
  | taken | stuck | raised => exact h

/-- One token, and what follows it. -/
theorem Takes.tells_chain (hf : Takes f kind)
    (hnext : ∀ w rest value, cs = w ++ rest → f cs = .taken value rest →
      Tells ((plan w).read rest) (next value rest)) :
    Tells ((Plan.token kind plan).read cs) (f.chain next cs) := by
  rcases hf cs with ⟨hnone, hstuck⟩ | ⟨w, rest, value, rfl, htake, htaken⟩
  · rw [Plan.read_of_none hnone, Scanner.chain, hstuck]
    exact ⟨Option.some_ne_none kind, rfl⟩
  · rw [Plan.read_of_some htake, Scanner.chain_of_taken htaken]
    exact (hnext w rest value rfl htaken).behind w

/-- One of several words. -/
theorem takes_first {words : List String} (h : kind.take? = firstWord words) :
    Takes (.first (words.map .word)) kind := by
  unfold Takes
  rw [h]
  clear h
  induction words with
  | nil => exact fun cs => .inl ⟨rfl, rfl⟩
  | cons s words ih =>
      intro cs
      rw [List.map_cons, Scanner.first]
      by_cases hhere : s.toList <+: cs
      · rw [firstWord_cons_pos hhere]
        obtain ⟨rest, rfl⟩ := hhere
        rw [Scanner.word_eq_taken.mpr ⟨rfl, rfl⟩]
        exact .inr ⟨_, rest, _, rfl, rfl, rfl⟩
      · rw [firstWord_cons_neg hhere, Scanner.word, if_neg hhere]
        exact ih cs

/-- The scanner of words takes the first of them that is there. -/
theorem takes_words {α : Type} (words : Words α)
    (h : kind.take? = firstWord (words.all.map words.spell)) : Takes words.scanner kind := by
  have hfirst := takes_first h
  rw [List.map_map] at hfirst
  exact hfirst

theorem takes_word {s : String} (h : kind.take? = firstWord [s]) : Takes (.word s) kind := by
  intro cs
  rw [h]
  by_cases hhere : s.toList <+: cs
  · rw [firstWord_cons_pos hhere]
    obtain ⟨rest, rfl⟩ := hhere
    exact .inr ⟨_, rest, _, rfl, rfl, Scanner.word_eq_taken.mpr ⟨rfl, rfl⟩⟩
  · rw [firstWord_cons_neg hhere]
    exact .inl ⟨rfl, if_neg hhere⟩

/-- A run takes the longest row. -/
theorem takes_run {member : Char → Bool} (h : kind.take? = longestRow member) :
    Takes (.run member) kind := by
  intro cs
  rw [h, longestRow, Scanner.run]
  by_cases hrow : cs.takeWhile member = []
  · rw [if_pos hrow, if_pos hrow]
    exact .inl ⟨rfl, rfl⟩
  · rw [if_neg hrow, if_neg hrow]
    exact .inr ⟨_, _, _, List.takeWhile_append_dropWhile.symm, rfl, rfl⟩

theorem takes_gap : Takes gapScanner .gap :=
  fun _ => .inr ⟨_, _, _, List.takeWhile_append_dropWhile.symm, rfl, rfl⟩

-- ================================================================ the scanner of a declaration

/-- What is made of the last token is stuck nowhere, whether it raises or not. -/
theorem tells_answer (answer : Answer Value) (cs : List Char) :
    Tells (Plan.finished.read cs) (.answer cs answer) := by
  unfold Scan.answer
  split
  · exact ⟨rfl, rfl⟩
  · rfl

/-- The plan of a literal tells how its scanner ends. -/
theorem tells_literal (type : TypeTag) (cs : List Char) :
    Tells ((Plan.literal type).read cs) (literalScanner type cs) := by
  cases type with
  | int => exact (takes_run rfl).tells_chain fun _ rest _ _ _ => tells_answer _ rest
  | string =>
      simp only [literalScanner, Scanner.map_eq_chain, Scanner.allFrom_cons, Scanner.chain_assoc]
      refine (takes_words quotes rfl).tells_chain fun _ rest opening _ _ => ?_
      refine (takes_run rfl).tells_chain fun _ rest letters _ _ => ?_
      refine (takes_words quotes rfl).tells_chain fun _ rest closing _ _ => ?_
      exact tells_answer (.pure (Parser.itemAt 1 (.list [opening, letters, closing]))) rest
  | boolean =>
      exact (takes_words truths rfl).tells_chain fun _ rest _ _ _ => tells_answer _ rest

/-- Behind the last gap there is the literal of the type that was read. -/
theorem tells_value (kind name : Value) (type : TypeTag) (cs : List Char) :
    Tells ((Plan.literal type).read cs) (valueScanner kind name (.tag type) cs) := by
  have hliteral := tells_literal type cs
  rw [valueScanner, Scanner.chain]
  cases hcs : literalScanner type cs with
  | taken | stuck | raised =>
      rw [hcs] at hliteral
      exact hliteral

theorem ofWord?_word (type : TypeTag) :
    TypeTag.ofWord? (String.ofList type.word.toList) = some type := by
  cases type <;> rfl

/-- The type that was read is the one that the rest is chosen by. -/
theorem chain_answer_typeOf (type : TypeTag) (next : Value → Scanner) (rest : List Char) :
    Scanner.chain (fun rest => .answer rest (typeOf (.text (types.spell type)))) next rest =
      next (.tag type) rest := by
  have htype : (typeOf (.text (types.spell type))).outcome = .ok (.tag type) := outcome_typeOf type
  rw [Scanner.chain, Scan.answer, htype]
  rfl

/-- The scanner goes by the plan. -/
theorem tells_scanner (cs : List Char) : Tells (Plan.declaration.read cs) (scanner cs) := by
  unfold scanner colonScanner typeScanner equalsScanner
  simp only [Scanner.map_eq_chain, Scanner.chain_assoc]
  refine (takes_words keywords rfl).tells_chain fun _ cs kind _ _ => ?_
  refine takes_gap.tells_chain fun _ cs _ _ _ => ?_
  refine (takes_run rfl).tells_chain fun _ cs name _ _ => ?_
  refine (takes_word rfl).tells_chain fun _ cs _ _ _ => ?_
  refine takes_gap.tells_chain fun _ cs _ _ _ => ?_
  refine (takes_words types rfl).tells_chain fun w rest word hcs hword => ?_
  obtain ⟨type, hsplit, rfl⟩ := types.scanner_eq_taken.mp hword
  obtain rfl : w = type.word.toList := List.append_cancel_right (hcs.symm.trans hsplit)
  rw [ofWord?_word, chain_answer_typeOf]
  refine takes_gap.tells_chain fun _ cs _ _ _ => ?_
  refine (takes_word rfl).tells_chain fun _ cs _ _ _ => ?_
  exact takes_gap.tells_chain fun _ cs _ _ _ => tells_value kind name type cs

end

-- ================================================================ failures

section

variable {tree : Deferred → State → Outcome State} {rounds : Nat} {chars : Array Char}
  {cs : List Char} {s t : State}

/-- Where a token is missing, the declaration fails behind the tokens that are there. -/
theorem denote_of_missing (hs : s.Faces chars cs) (hrounds : chars.size < rounds)
    (hmissing : (Plan.declaration.read cs).missing ≠ none) :
    ∃ t, parser.denote tree rounds s = .done t ∧ t.failed = true ∧
      t.index = s.index + (Plan.declaration.read cs).tokens.flatten.length := by
  have hends : (scanner cs).Ends s cs (parser.denote tree rounds s) :=
    scans_declaration chars cs s hs hrounds
  have htells := tells_scanner cs
  cases hscan : scanner cs with
  | taken value rest =>
      rw [hscan] at htells
      exact absurd htells.1 hmissing
  | stuck rest =>
      rw [hscan] at hends htells
      obtain ⟨taken, t, hcs, hact, hfailed, hindex⟩ := hends
      refine ⟨t, hact, hfailed, ?_⟩
      have hsplit := Plan.declaration.tokens_append_rest cs
      rw [htells.2] at hsplit
      rw [hindex, List.append_cancel_right (hcs.symm.trans hsplit.symm)]
  | raised fault =>
      rw [hscan] at htells
      exact absurd htells hmissing

/-- Where none is missing, the declaration does not fail. -/
theorem live_of_not_missing (hs : s.Faces chars cs) (hrounds : chars.size < rounds)
    (hnone : (Plan.declaration.read cs).missing = none)
    (ht : parser.denote tree rounds s = .done t) : t.failed = false := by
  have hends : (scanner cs).Ends s cs (parser.denote tree rounds s) :=
    scans_declaration chars cs s hs hrounds
  have htells := tells_scanner cs
  rw [ht] at hends
  cases hscan : scanner cs with
  | taken value rest =>
      rw [hscan] at hends
      obtain ⟨taken, -, hact⟩ := hends
      obtain rfl := Outcome.done.inj hact
      exact hs.live
  | stuck rest =>
      rw [hscan] at htells
      exact absurd hnone htells.1
  | raised fault =>
      rw [hscan] at hends
      cases hends

/-- The message of a name that is not there quotes the index of the failure. -/
theorem error_of_variableName (hs : s.failed = false)
    (h : variableName.denote tree rounds s = .done t) (ht : t.failed = true) :
    t.error = .text ("declaration: expected variable name at index " ++ toString t.index) := by
  rw [variableName, Parser.denote, if_neg (State.not_failed hs)] at h
  obtain ⟨u, -, h⟩ := Outcome.bind_eq_done h
  by_cases hu : u.failed = true
  · rw [if_pos hu] at h
    obtain rfl := Outcome.done.inj h
    rfl
  · rw [if_neg hu] at h
    obtain rfl := Outcome.done.inj h
    exact absurd ht hu

/-- A token that is there is read, and what follows it faces the rest. -/
theorem Takes.denote_of_missing {f : Scanner} {kind : TokenKind} {p : Parser}
    {next : List Char → Plan} (hf : Takes f kind) (hp : p.Scans tree rounds f)
    (hs : s.Faces chars cs) (hrounds : chars.size < rounds) {other : TokenKind}
    (hother : kind ≠ other) (hmissing : ((Plan.token kind next).read cs).missing = some other) :
    ∃ (w rest : List Char) (u : State), p.denote tree rounds s = .done u ∧ u.Faces chars rest ∧
      ((next w).read rest).missing = some other := by
  have hends := hp chars cs s hs hrounds
  rcases hf cs with ⟨hnone, -⟩ | ⟨w, rest, value, rfl, htake, htaken⟩
  · rw [Plan.read_of_none hnone] at hmissing
    exact absurd (Option.some.inj hmissing) hother
  · rw [Plan.read_of_some htake] at hmissing
    rw [htaken] at hends
    exact ⟨w, rest, _, hends.eq_done, hs.advance value, hmissing⟩

/-- Nothing behind the name is a name. -/
theorem lacks_name_declaration (word : List Char) :
    (Plan.row [.gap, .equals, .gap]
      (((TypeTag.ofWord? (String.ofList word)).map Plan.literal).getD .finished)).Lacks .name := by
  refine Plan.lacks_row (by decide) ?_
  cases TypeTag.ofWord? (String.ofList word) with
  | none => trivial
  | some type => cases type with
    | int | string | boolean => exact Plan.lacks_row (by decide) trivial

/-- Where the name is missing, it is the parser of names that has failed. -/
theorem error_of_name_missing (hs : s.Faces chars cs) (hrounds : chars.size < rounds)
    (hmissing : (Plan.declaration.read cs).missing = some .name)
    (ht : parser.denote tree rounds s = .done t) :
    t.error = .text ("declaration: expected variable name at index " ++ toString t.index) := by
  have hkeywords : keyword.Scans tree rounds keywords.scanner := keywords.scans
  have hspaces : Parser.spaces.Scans tree rounds gapScanner := Parser.scans_spaces
  have hnames : Takes (.run inName) .name := takes_run rfl
  obtain ⟨_, rest, u, hkeyword, hu, hmissing⟩ :=
    (takes_words keywords rfl).denote_of_missing hkeywords hs hrounds (by decide) hmissing
  obtain ⟨_, rest, v, hgap, hv, hmissing⟩ :=
    takes_gap.denote_of_missing hspaces hu hrounds (by decide) hmissing
  have hends : (Scanner.run inName rest).Ends v rest (variableName.denote tree rounds v) :=
    scans_variableName chars rest v hv hrounds
  rcases hnames rest with ⟨-, hstuck⟩ | ⟨w, rest', value, rfl, htake, -⟩
  · rw [hstuck] at hends
    obtain ⟨-, last, -, hname, hfailed, -⟩ := hends
    have hact : parser.denote tree rounds s = .done last := by
      rw [parser, Parser.denote, if_neg (State.not_failed hs.live), program,
        Program.denote_step_of_live hkeyword hu.live, Program.denote_step_of_live hgap hv.live,
        Program.denote_step_of_failed hname hfailed]
      rfl
    obtain rfl := Outcome.done.inj (hact.symm.trans ht)
    exact error_of_variableName hv.live hname hfailed
  · rw [Plan.row, Plan.read_of_some htake] at hmissing
    refine absurd hmissing (Plan.Lacks.missing_ne (Plan.lacks_row (by decide) ?_) rest')
    exact ⟨by decide, lacks_name_declaration⟩

end

/-- Declarations fail in front of the first token that is not there. Take one token after another
from the start, as long as the tokens of a declaration are there: they and the rest make up the
text, and the token that is missing is not to be found in front of the rest. The parser fails if and
only if a token is missing, and then behind the tokens that were taken, so that no part of a token
counts. If it is the name that is missing, the message says so and quotes the index. -/
theorem eval_failed_iff_missing {chars : Array Char} {fuel : Nat} (hfuel : chars.size < fuel)
    (rules : Rules) (frame i : Nat) (session : Session) :
    let reading := Plan.declaration.read (chars.toList.drop i)
    let out := (parser.eval rules fuel frame { input := .text chars, index := i } session).1
    reading.tokens.flatten ++ reading.rest = chars.toList.drop i ∧
      (∀ kind, reading.missing = some kind → kind.take? reading.rest = none) ∧
      ((∃ t, out = .done t ∧ t.failed = true) ↔ reading.missing ≠ none) ∧
      (∀ t, out = .done t → t.failed = true →
        t.index = i + reading.tokens.flatten.length ∧
        (reading.missing = some .name → t.error =
          .text ("declaration: expected variable name at index " ++ toString t.index))) := by
  intro reading out
  have hs : State.Faces { input := .text chars, index := i } chars (chars.toList.drop i) :=
    ⟨rfl, rfl, rfl⟩
  have hout : out = parser.denote _ fuel { input := .text chars, index := i } :=
    Parser.eval_of_immediate immediate_declaration rules fuel frame _ session
  have hfails : ∀ t, out = .done t → t.failed = true → reading.missing ≠ none := by
    intro t ht hfailed hnone
    have hlive := live_of_not_missing hs hfuel hnone (hout.symm.trans ht)
    exact State.not_failed hlive hfailed
  refine ⟨Plan.declaration.tokens_append_rest _, fun kind => Plan.declaration.take?_of_missing _,
    ⟨fun ⟨t, ht, hfailed⟩ => hfails t ht hfailed, fun hmissing => ?_⟩, fun t ht hfailed => ?_⟩
  · obtain ⟨t, ht, hfailed, -⟩ := denote_of_missing hs hfuel hmissing
    exact ⟨t, hout.trans ht, hfailed⟩
  · obtain ⟨u, hu, -, hindex⟩ := denote_of_missing hs hfuel (hfails t ht hfailed)
    rw [hout] at ht
    obtain rfl := Outcome.done.inj (hu.symm.trans ht)
    exact ⟨hindex, fun hname => error_of_name_missing hs hfuel hname ht⟩

/-- The text `;let 1`, in which a digit stands for a name. -/
def nameless : Array Char :=
  #[';', 'l', 'e', 't', ' ', '1']

/-- The text `let s:string='a`, in which a quote is not closed. -/
def unquoted : Array Char :=
  #['l', 'e', 't', ' ', 's', ':', 's', 't', 'r', 'i', 'n', 'g', '=', '\'', 'a']

/-- A name is missing behind a keyword that does not stand at the beginning, and a quote at the very
end. -/
theorem eval_failed_iff_missing_samples :
    (∃ t, (parser.eval noRules 7 0 { input := .text nameless, index := 1 } {}).1 = .done t ∧
        t.failed = true ∧ t.index = 5 ∧
        t.error = .text "declaration: expected variable name at index 5") ∧
      ∃ t, (parser.eval noRules 16 0 { input := .text unquoted } {}).1 = .done t ∧
        t.failed = true ∧ t.index = 15 := by
  have hnameless : nameless.size < 7 := by decide
  have hunquoted : unquoted.size < 16 := by decide
  constructor
  · obtain ⟨-, -, hfails, hwhere⟩ := eval_failed_iff_missing hnameless noRules 0 1 {}
    obtain ⟨t, ht, hfailed⟩ := hfails.mpr (by decide)
    obtain ⟨hindex, herror⟩ := hwhere t ht hfailed
    have hfive : t.index = 5 := hindex
    have hmessage := herror rfl
    rw [hfive] at hmessage
    exact ⟨t, ht, hfailed, hfive, hmessage⟩
  · obtain ⟨-, -, hfails, hwhere⟩ := eval_failed_iff_missing hunquoted noRules 0 0 {}
    obtain ⟨t, ht, hfailed⟩ := hfails.mpr (by decide)
    exact ⟨t, ht, hfailed, (hwhere t ht hfailed).1⟩

end ParserAlgebra.Declaration
