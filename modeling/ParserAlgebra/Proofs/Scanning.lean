import Mathlib.Data.List.Forall2
import ParserAlgebra.Parser.Combinators
import ParserAlgebra.Proofs.Stepping

/-!
Reading texts, as functions on what is left of a text.

# Scanners

A state over a text faces the characters from its cursor on. A `Scanner` says how a read ends from
these characters alone: with a value and the characters that are left, stuck in front of some of
them, or in a fault. `Parser.Scans` ties a parser to its scanner: the cursor moves over exactly the
characters that the scanner takes. Messages and the result of a failure are left open.

# One rule for all sequences

Whatever goes on after a part returns (a chain, a step program, a sequence, a transformation) binds
the part's outcome and hands a failed state on. `Scan.Ends.andThen` is the one place where this is
followed; each combinator's rule is an instance of it.
-/
namespace ParserAlgebra

-- ================================================================ scanners

/-- How a read of a text ends. -/
inductive Scan where
  /-- With a value, and the characters that are left. -/
  | taken (value : Value) (rest : List Char)
  /-- With a failure in front of these characters. -/
  | stuck (rest : List Char)
  | raised (fault : Fault)

/-- A read of a text, from the characters that are left of it. -/
abbrev Scanner := List Char → Scan

namespace Scan

/-- Goes on after a read that took something. -/
def andThen (x : Scan) (next : Value → List Char → Scan) : Scan :=
  match x with
  | taken value rest => next value rest
  | other => other

/-- Makes something else of a failure. -/
def rescue (x : Scan) (other : List Char → Scan) : Scan :=
  match x with
  | stuck rest => other rest
  | kept => kept

/-- What a supplied function makes of a value that was read. -/
def answer (rest : List Char) (answer : Answer Value) : Scan :=
  match answer.outcome with
  | .ok value => taken value rest
  | .error fault => raised fault

theorem rescue_stuck (x : Scan) : x.rescue stuck = x := by
  cases x <;> rfl

/-- Two scans in a row take if the first takes and the second does from there. -/
theorem andThen_eq_taken {x : Scan} {next : Value → List Char → Scan} {value : Value}
    {rest : List Char} :
    x.andThen next = taken value rest ↔
      ∃ first middle, x = taken first middle ∧ next first middle = taken value rest := by
  cases x with
  | taken first middle => simp [andThen]
  | stuck middle => simp [andThen]
  | raised fault => simp [andThen]

end Scan

namespace Scanner

/-- One scanner, and then the one that its value selects. -/
def chain (f : Scanner) (next : Value → Scanner) : Scanner :=
  fun cs => (f cs).andThen next

/-- A scanner with its value transformed. -/
def map (f : Scanner) (g : Value → Answer Value) : Scanner :=
  fun cs => (f cs).andThen fun value rest => .answer rest (g value)

/-- Scanners one after another; `results` are those of the earlier ones, latest first. -/
def allFrom : List Scanner → List Value → Scanner
  | [], results, cs => .taken (.list results.reverse) cs
  | f :: fs, results, cs => (f cs).andThen fun value rest => allFrom fs (value :: results) rest

/-- The first scanner that does not get stuck. -/
def first : List Scanner → Scanner
  | [], cs => .stuck cs
  | f :: fs, cs => (f cs).rescue fun _ => first fs cs

variable {f : Scanner} {cs rest : List Char} {value : Value}

/-- Scanners in a row take if each of them does, one behind the other. -/
theorem chain_eq_taken {next : Value → Scanner} :
    f.chain next cs = .taken value rest ↔
      ∃ first middle, f cs = .taken first middle ∧ next first middle = .taken value rest :=
  Scan.andThen_eq_taken

/-- Scanners in a row fault if the first faults, or takes and the second faults from there. -/
theorem chain_eq_raised {next : Value → Scanner} {fault : Fault} :
    f.chain next cs = .raised fault ↔
      f cs = .raised fault ∨
        ∃ first middle, f cs = .taken first middle ∧ next first middle = .raised fault := by
  rw [chain]
  cases f cs with
  | taken first middle => simp [Scan.andThen]
  | stuck middle => simp [Scan.andThen]
  | raised fault => simp [Scan.andThen]

/-- Behind what the first takes, the second goes on. -/
theorem chain_of_taken {next : Value → Scanner} (h : f cs = .taken value rest) :
    f.chain next cs = next value rest := by
  rw [chain, h]
  rfl

/-- It does not matter how three scanners in a row are grouped. -/
theorem chain_assoc (f : Scanner) (next last : Value → Scanner) :
    (f.chain next).chain last = f.chain fun v => (next v).chain last := by
  funext cs
  unfold chain
  cases f cs with
  | taken | stuck | raised => rfl

/-- To map a value is to go on without taking anything more. -/
theorem map_eq_chain (f : Scanner) (g : Value → Answer Value) :
    f.map g = f.chain fun v rest => .answer rest (g v) :=
  rfl

/-- A row of scanners is its first one and then the others. -/
theorem allFrom_cons (f : Scanner) (fs : List Scanner) (results : List Value) :
    allFrom (f :: fs) results = f.chain fun v => allFrom fs (v :: results) :=
  rfl

/-- A scanner that never ends in a fault. -/
def Calm (f : Scanner) : Prop :=
  ∀ cs fault, f cs ≠ .raised fault

/-- A chain whose first part is calm gets stuck there, or does what the rest does. -/
theorem Calm.chain_cases (hf : f.Calm) (next : Value → Scanner) (cs : List Char) :
    (∃ rest, f.chain next cs = .stuck rest) ∨
      ∃ value rest, f cs = .taken value rest ∧ f.chain next cs = next value rest := by
  rw [chain]
  cases hcs : f cs with
  | taken value rest => exact .inr ⟨value, rest, rfl, rfl⟩
  | stuck rest => exact .inl ⟨rest, rfl⟩
  | raised fault => exact absurd hcs (hf cs fault)

/-- Calm scanners in a row are calm. -/
theorem Calm.chain (hf : f.Calm) {next : Value → Scanner} (hnext : ∀ value, (next value).Calm) :
    (f.chain next).Calm := by
  intro cs fault h
  obtain ⟨value, rest, -, h⟩ := (chain_eq_raised.mp h).resolve_left (hf cs fault)
  exact hnext value rest fault h

/-- What is calm before it is mapped can fault in the function only. -/
theorem Calm.map_eq_raised (hf : f.Calm) {g : Value → Answer Value} {fault : Fault}
    (h : f.map g cs = .raised fault) :
    ∃ value rest, f cs = .taken value rest ∧ (g value).outcome = .error fault := by
  obtain ⟨value, rest, hcs, hanswer⟩ := (chain_eq_raised.mp h).resolve_left (hf cs fault)
  refine ⟨value, rest, hcs, ?_⟩
  rw [Scan.answer] at hanswer
  cases hvalue : (g value).outcome with
  | ok answered =>
      rw [hvalue] at hanswer
      cases hanswer
  | error fault' =>
      rw [hvalue] at hanswer
      cases hanswer
      rfl

/-- A row of calm scanners is calm. -/
theorem calm_allFrom {fs : List Scanner} (h : ∀ f ∈ fs, f.Calm) :
    ∀ results, (allFrom fs results).Calm := by
  induction fs with
  | nil =>
      intro results cs fault hcs
      cases hcs
  | cons f fs ih =>
      intro results cs fault hcs
      rw [List.forall_mem_cons] at h
      obtain ⟨value, rest, -, hrest⟩ := (chain_eq_raised.mp hcs).resolve_left (h.1 cs fault)
      exact ih h.2 (value :: results) rest fault hrest

/-- A choice of calm scanners is calm. -/
theorem calm_first {fs : List Scanner} (h : ∀ f ∈ fs, f.Calm) : (first fs).Calm := by
  induction fs with
  | nil =>
      intro cs fault hcs
      cases hcs
  | cons f fs ih =>
      intro cs fault hcs
      rw [List.forall_mem_cons] at h
      rw [first] at hcs
      cases hf : f cs with
      | taken value rest =>
          rw [hf] at hcs
          cases hcs
      | stuck rest =>
          rw [hf] at hcs
          exact ih h.2 cs fault hcs
      | raised fault' => exact h.1 cs fault' hf

/-- What is mapped is taken if the function has a value for it. -/
theorem map_eq_taken {g : Value → Answer Value} :
    f.map g cs = .taken value rest ↔
      ∃ first, f cs = .taken first rest ∧ (g first).outcome = .ok value := by
  have hanswer : ∀ first middle, Scan.answer middle (g first) = .taken value rest ↔
      middle = rest ∧ (g first).outcome = .ok value := by
    intro first middle
    rw [Scan.answer]
    cases (g first).outcome with
    | ok value => simp [and_comm]
    | error fault => simp
  rw [map, Scan.andThen_eq_taken]
  constructor
  · rintro ⟨first, middle, hf, h⟩
    obtain ⟨rfl, hvalue⟩ := (hanswer first middle).mp h
    exact ⟨first, hf, hvalue⟩
  · rintro ⟨first, hf, hvalue⟩
    exact ⟨first, rest, hf, (hanswer first rest).mpr ⟨rfl, hvalue⟩⟩

end Scanner

-- ================================================================ parsers and their scanners

/-- A live state over a text, with these characters left. -/
structure State.Faces (s : State) (chars : Array Char) (cs : List Char) : Prop where
  live : s.failed = false
  input : s.input = .text chars
  rest : chars.toList.drop s.index = cs

/-- A cursor that moves behind the first characters has the others in front of it. -/
theorem State.Faces.advance {s : State} {chars : Array Char} {taken rest : List Char}
    (hs : s.Faces chars (taken ++ rest)) (value : Value) :
    (s.advance (s.index + taken.length) value).Faces chars rest := by
  refine ⟨hs.live, hs.input, ?_⟩
  show chars.toList.drop (s.index + taken.length) = rest
  rw [← List.drop_drop, hs.rest, List.drop_left]

/-- What is left of a text is no longer than the text. -/
theorem State.Faces.length_le {s : State} {chars : Array Char} {cs : List Char}
    (hs : s.Faces chars cs) : cs.length ≤ chars.size := by
  rw [← hs.rest, List.length_drop, Array.length_toList]
  exact Nat.sub_le ..

/-- The outcome is the one that the scan describes, from a state that faces `cs`. -/
def Scan.Ends (s : State) (cs : List Char) : Scan → Outcome State → Prop
  | .taken value rest, out =>
    ∃ taken, cs = taken ++ rest ∧ out = .done (s.advance (s.index + taken.length) value)
  | .stuck rest, out =>
    ∃ taken t, cs = taken ++ rest ∧ out = .done t ∧ t.failed = true ∧
      t.index = s.index + taken.length
  | .raised fault, out => out = .raised fault

/-- The parser does to the texts that the rounds suffice for what the scanner says. -/
def Parser.Scans (tree : Deferred → State → Outcome State) (rounds : Nat) (p : Parser)
    (f : Scanner) : Prop :=
  ∀ chars cs s, s.Faces chars cs → chars.size < rounds → (f cs).Ends s cs (p.denote tree rounds s)

/-- A step program does to texts what the scanner says. -/
def Program.Scans (tree : Deferred → State → Outcome State) (rounds : Nat) (program : Program)
    (f : Scanner) : Prop :=
  ∀ chars cs s, s.Faces chars cs → chars.size < rounds →
    (f cs).Ends s cs (program.denote tree rounds s)

namespace Scan

variable {s : State} {cs rest : List Char} {value : Value} {out : Outcome State}

/-- To succeed where one stands takes nothing. -/
theorem ends_taken_here : (taken value cs).Ends s cs (.done (s.withResult value)) :=
  ⟨[], rfl, rfl⟩

/-- To fail where one stands is to be stuck there. -/
theorem ends_stuck_here (message : Value) : (stuck cs).Ends s cs (.done (s.withError message)) :=
  ⟨[], _, rfl, rfl, rfl, rfl⟩

/-- The cursor moves over what was taken. -/
theorem Ends.eq_done {w : List Char} (h : (taken value rest).Ends s (w ++ rest) out) :
    out = .done (s.advance (s.index + w.length) value) := by
  obtain ⟨w', hw, hout⟩ := h
  obtain rfl := List.append_cancel_right hw
  exact hout

/-- A read that begins where another one has ended is a longer read. -/
theorem Ends.prepend {taken : List Char} {x : Scan}
    (h : x.Ends (s.advance (s.index + taken.length) value) rest out) :
    x.Ends s (taken ++ rest) out := by
  have hlength : ∀ more : List Char,
      s.index + taken.length + more.length = s.index + (taken ++ more).length := by
    intro more
    rw [List.length_append, Nat.add_assoc]
  cases x with
  | taken value' rest' =>
      obtain ⟨more, rfl, hout⟩ := h
      refine ⟨taken ++ more, (List.append_assoc ..).symm, hout.trans ?_⟩
      rw [← hlength]
      rfl
  | stuck rest' =>
      obtain ⟨more, t, rfl, hout, hfailed, hindex⟩ := h
      exact ⟨taken ++ more, t, (List.append_assoc ..).symm, hout, hfailed,
        hindex.trans (hlength more)⟩
  | raised fault => exact h

/-- Going on after a part: a failed part is the end, and a part that took something is gone on from
where it has ended. -/
theorem Ends.andThen {x : Scan} {next : Value → List Char → Scan} {go : State → Outcome State}
    {chars : Array Char} (hs : s.Faces chars cs) (hx : x.Ends s cs out)
    (hgo : ∀ t rest, t.Faces chars rest → (next t.result rest).Ends t rest (go t)) :
    (x.andThen next).Ends s cs (out >>= fun t => if t.failed = true then pure t else go t) := by
  cases x with
  | taken value rest =>
      obtain ⟨taken, rfl, rfl⟩ := hx
      have hafter := hs.advance value
      rw [Outcome.done_bind, if_neg (State.not_failed hafter.live)]
      exact (hgo _ rest hafter).prepend
  | stuck rest =>
      obtain ⟨taken, t, hcs, rfl, hfailed, hindex⟩ := hx
      rw [Outcome.done_bind, if_pos hfailed]
      exact ⟨taken, t, hcs, rfl, hfailed, hindex⟩
  | raised fault =>
      have hout : out = .raised fault := hx
      rw [hout]
      rfl

/-- Going on after a failure: whatever else the part did is the end. -/
theorem Ends.rescue {x : Scan} {other : List Char → Scan} {go : State → Outcome State}
    {chars : Array Char} (hs : s.Faces chars cs) (hx : x.Ends s cs out)
    (hgo : ∀ t rest, (stuck rest).Ends s cs (.done t) → t.failed = true →
      (other rest).Ends s cs (go t)) :
    (x.rescue other).Ends s cs (out >>= fun t => if t.failed = true then go t else pure t) := by
  cases x with
  | taken value rest =>
      obtain ⟨taken, hcs, rfl⟩ := hx
      have hlive : ¬(s.advance (s.index + taken.length) value).failed = true :=
        State.not_failed hs.live
      rw [Outcome.done_bind, if_neg hlive]
      exact ⟨taken, hcs, rfl⟩
  | stuck rest =>
      obtain ⟨taken, t, hcs, rfl, hfailed, hindex⟩ := hx
      rw [Outcome.done_bind, if_pos hfailed]
      exact hgo t rest ⟨taken, t, hcs, rfl, hfailed, hindex⟩ hfailed
  | raised fault =>
      have hout : out = .raised fault := hx
      rw [hout]
      rfl

end Scan

-- ================================================================ combinators

section

variable {tree : Deferred → State → Outcome State} {rounds : Nat} {p q : Parser} {f g : Scanner}

namespace Parser

/-- A function of the result is a function of the value taken. -/
theorem Scans.map (hp : p.Scans tree rounds f) (h : Value → Answer Value) :
    (p.map h).Scans tree rounds (f.map h) := by
  intro chars cs s hs hrounds
  rw [Parser.denote, if_neg (State.not_failed hs.live)]
  refine (hp chars cs s hs hrounds).andThen hs fun t rest ht => ?_
  rw [Scan.answer, Outcome.machine_ofAnswer]
  cases (h t.result).outcome with
  | ok value => exact Scan.ends_taken_here
  | error fault => rfl

/-- Parsers in a row scan as their scanners in a row. -/
theorem Scans.chain {next : Value → Parser} {scan : Value → Scanner} (hp : p.Scans tree rounds f)
    (hnext : ∀ value, (next value).Scans tree rounds (scan value)) :
    (p.chain next).Scans tree rounds (f.chain scan) := by
  intro chars cs s hs hrounds
  rw [Parser.denote, if_neg (State.not_failed hs.live)]
  exact (hp chars cs s hs hrounds).andThen hs fun t rest ht => hnext _ chars rest t ht hrounds

/-- To keep the right result is to forget the left value. -/
theorem Scans.keepRight (hp : p.Scans tree rounds f) (hq : q.Scans tree rounds g) :
    (p.keepRight q).Scans tree rounds (f.chain fun _ => g) :=
  hp.chain fun _ => hq

/-- A sequence scans as the row of its scanners. -/
theorem scans_sequence {ps : List Parser} {fs : List Scanner}
    (h : List.Forall₂ (Parser.Scans tree rounds) ps fs) :
    (sequence ps).Scans tree rounds (Scanner.allFrom fs []) := by
  have hall : ∀ results chars cs (s : State), s.Faces chars cs → chars.size < rounds →
      (Scanner.allFrom fs results cs).Ends s cs (denoteAll tree rounds ps results s) := by
    induction h with
    | nil =>
        intro results chars cs s _ _
        exact Scan.ends_taken_here
    | cons hp _ ih =>
        intro results chars cs s hs hrounds
        rw [denoteAll]
        refine (hp chars cs s hs hrounds).andThen hs fun t rest ht => ?_
        exact ih _ chars rest t ht hrounds
  intro chars cs s hs hrounds
  rw [denote_sequence_of_live hs.live]
  exact hall [] chars cs s hs hrounds

/-- A choice scans as the first of its scanners that is not stuck. -/
theorem scans_choice {ps : List Parser} {fs : List Scanner}
    (h : List.Forall₂ (Parser.Scans tree rounds) ps fs) :
    (choice ps).Scans tree rounds (Scanner.first fs) := by
  have hfirst : ∀ errors chars cs (s : State), s.Faces chars cs → chars.size < rounds →
      (Scanner.first fs cs).Ends s cs (denoteFirst tree rounds ps errors s) := by
    induction h with
    | nil =>
        intro errors chars cs s _ _
        rw [denoteFirst, State.failChoice.eq_def]
        split
        · exact Scan.ends_stuck_here _
        · exact Scan.ends_stuck_here _
    | cons hp _ ih =>
        intro errors chars cs s hs hrounds
        rw [denoteFirst]
        refine (hp chars cs s hs hrounds).rescue hs fun t rest _ _ => ?_
        exact ih _ chars cs s hs hrounds
  intro chars cs s hs hrounds
  rw [Parser.denote, if_neg (State.not_failed hs.live)]
  exact hfirst [] chars cs s hs hrounds

/-- The other way scans where the first is stuck. -/
theorem Scans.orElse (hp : p.Scans tree rounds f) (hq : q.Scans tree rounds g) :
    (p.orElse q).Scans tree rounds fun cs => (f cs).rescue fun _ => g cs := by
  intro chars cs s hs hrounds
  rw [Parser.denote, if_neg (State.not_failed hs.live)]
  exact (hp chars cs s hs hrounds).rescue hs fun t rest _ _ => hq chars cs s hs hrounds

/-- Rewording a message changes nothing else. -/
theorem Scans.errorMap (hp : p.Scans tree rounds f) {h : Value → Nat → Answer Value}
    (hanswers : ∀ message index, ∃ value, (h message index).outcome = .ok value) :
    (p.errorMap h).Scans tree rounds f := by
  intro chars cs s hs hrounds
  rw [Parser.denote, if_neg (State.not_failed hs.live), ← Scan.rescue_stuck (f cs)]
  refine (hp chars cs s hs hrounds).rescue hs fun t rest ht _ => ?_
  obtain ⟨taken, t, hcs, hout, hfailed, hindex⟩ := ht
  obtain rfl := Outcome.done.inj hout
  obtain ⟨message, hmessage⟩ := hanswers t.error t.index
  rw [Outcome.machine_ofAnswer, hmessage]
  exact ⟨taken, _, hcs, rfl, rfl, hindex⟩

end Parser

theorem Program.scans_done (value : Value) :
    (Program.done value).Scans tree rounds fun cs => .taken value cs :=
  fun _ _ _ _ _ => Scan.ends_taken_here

theorem Program.scans_raise (fault : Fault) :
    (Program.raise fault).Scans tree rounds fun _ => .raised fault :=
  fun _ _ _ _ _ => rfl

/-- A program scans as its first step and then the rest for what it has taken. -/
theorem Program.scans_step {next : Value → Program} {scan : Value → Scanner}
    (hp : p.Scans tree rounds f) (hnext : ∀ value, (next value).Scans tree rounds (scan value)) :
    (Program.step p next).Scans tree rounds (f.chain scan) := by
  intro chars cs s hs hrounds
  rw [Program.denote]
  exact (hp chars cs s hs hrounds).andThen hs fun t rest ht => hnext _ chars rest t ht hrounds

/-- A generator scans as its program: events are no part of a scan. -/
theorem Program.Scans.contextual {program : Program} (h : program.Scans tree rounds f)
    (tag : Option String) : (Parser.contextual tag program).Scans tree rounds f := by
  intro chars cs s hs hrounds
  rw [Parser.denote, if_neg (State.not_failed hs.live)]
  exact h chars cs s hs hrounds

end

end ParserAlgebra
