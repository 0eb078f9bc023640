import ParserAlgebra.Proofs.IntegerField

/-!
Literal bytes at any bit offset.

A raw literal is read one character after another, each as an unsigned field of eight bits that is
compared with the code of the character. As long as the codes stand in the buffer, each in the eight
bits behind the one before, the reads go on (`denoteAll_of_spells`), and all that is left of them is
where the cursor is. The first character whose code is not there decides how the literal ends
(`Parser.denote_rawBytes_of_failed`), and it may be missing in two ways. Where eight bits are left
and write something else, they are read and then refused: the cursor is behind them, the byte is
the result, and the message shows both characters. Where fewer are left, the field runs out, and
the cursor is at the end of the buffer, or where it was if that is beyond the end.
-/
namespace ParserAlgebra

open Input (bitSize field)

-- ================================================================ literals in a buffer

namespace Input

/-- Eight bits from `i` on are there, and they write the code of a character. -/
def HasChar (data : Array UInt8) (i : Nat) (c : Char) : Prop :=
  i + 8 ≤ bitSize data ∧ field data i 8 = c.toNat

/-- The codes of characters stand in a buffer one behind the other, from `i` on. -/
def Spells (data : Array UInt8) (i : Nat) (cs : List Char) : Prop :=
  ∀ k c, cs[k]? = some c → HasChar data (i + 8 * k) c

variable {data : Array UInt8} {i : Nat} {c : Char} {cs : List Char}

instance : Decidable (HasChar data i c) :=
  inferInstanceAs (Decidable (_ ∧ _))

theorem spells_nil : Spells data i [] := by
  intro k c hc
  cases hc

/-- The first character, and the others in the bits behind it. -/
theorem spells_cons : Spells data i (c :: cs) ↔ HasChar data i c ∧ Spells data (i + 8) cs := by
  have hplace : ∀ k, i + 8 + 8 * k = i + 8 * (k + 1) := by
    intro k
    omega
  constructor
  · intro h
    refine ⟨h 0 c rfl, fun k d hd => ?_⟩
    rw [hplace]
    exact h (k + 1) d hd
  · rintro ⟨hfirst, hrest⟩ k d hd
    cases k with
    | zero =>
        obtain rfl := Option.some.inj hd
        exact hfirst
    | succ k =>
        rw [← hplace]
        exact hrest k d hd

instance decidableSpells (data : Array UInt8) :
    (i : Nat) → (cs : List Char) → Decidable (Spells data i cs)
  | _, [] => .isTrue spells_nil
  | i, _ :: cs =>
    have := decidableSpells data (i + 8) cs
    decidable_of_iff _ spells_cons.symm

/-- Behind a literal the buffer has not been left, unless it had been before. -/
theorem Spells.le_max (h : Spells data i cs) :
    i + 8 * cs.length ≤ max i (bitSize data) := by
  by_cases hempty : cs.length = 0
  · rw [hempty]
    exact Nat.le_max_left _ _
  · have hlast : cs.length - 1 < cs.length := by omega
    have hroom := (h (cs.length - 1) _ (List.getElem?_eq_getElem hlast)).1
    omega

end Input

-- ================================================================ one character

/-- The message for a byte that is not the code of a character. -/
def wrongByte (c : Char) (byte : Nat) : String :=
  "RawString: Expected " ++ Text.quoted (String.singleton c) ++ ", but got " ++
    Text.quoted (String.singleton (Char.ofNat byte))

theorem Value.alike_int (a b : Int) : (Value.int a).alike (.int b) = (b == a) := by
  simp [Value.alike, Value.number?, Value.integer?]

section

variable {tree : Deferred → State → Outcome State} {rounds : Nat} {data : Array UInt8} {s : State}
  {c : Char}

/-- A character that is there is read. -/
theorem Parser.denote_byteOf_of_hasChar (hs : s.Over data) (h : Input.HasChar data s.index c) :
    (byteOf c).denote tree rounds s = .done (s.advance (s.index + 8) (.int c.toNat)) := by
  have hread : (uint 8).denote tree rounds s = _ := denote_uint_of_le hs h.1
  rw [h.2] at hread
  refine denote_expect_of_alike hs.live hread hs.live ?_
  show (Value.int c.toNat).alike (.int c.toNat) = true
  rw [Value.alike_int, beq_self_eq_true]

/-- Another byte is read and refused. -/
theorem Parser.denote_byteOf_of_ne (hs : s.Over data) (h : s.index + 8 ≤ bitSize data)
    (hne : field data s.index 8 ≠ c.toNat) :
    (byteOf c).denote tree rounds s =
      .done ((s.advance (s.index + 8) (.int (field data s.index 8))).failWith
        (wrongByte c (field data s.index 8))) := by
  have hread : (uint 8).denote tree rounds s = _ := denote_uint_of_le hs h
  have hother : (Value.int (field data s.index 8)).alike (.int c.toNat) = false := by
    rw [Value.alike_int, beq_eq_false_iff_ne]
    exact_mod_cast hne.symm
  exact denote_expect_of_unlike hs.live hread hs.live hother

/-- Fewer than eight bits run out. -/
theorem Parser.denote_byteOf_of_lt (hs : s.Over data) (h : bitSize data < s.index + 8) :
    (byteOf c).denote tree rounds s = .done (s.exhaustBits data) :=
  denote_chain_of_failed hs.live (denote_uint_of_lt hs (by decide) h) rfl

-- ================================================================ all characters

variable (tree rounds) in
/-- Characters whose codes are there are read, whatever is to be read behind them. The result is the
last byte, or what it was before if there are no characters. -/
theorem denoteAll_of_spells {front : List Char} (rest : List Parser) :
    ∀ (results : List Value) {s : State}, s.Over data → Input.Spells data s.index front →
      ∃ results' result, denoteAll tree rounds (front.map Parser.byteOf ++ rest) results s =
        denoteAll tree rounds rest results' (s.advance (s.index + 8 * front.length) result) := by
  induction front with
  | nil => intro results s _ _; exact ⟨results, s.result, rfl⟩
  | cons c front ih =>
      intro results s hs hspells
      obtain ⟨hfirst, hfront⟩ := Input.spells_cons.mp hspells
      have hread : (Parser.byteOf c).denote tree rounds s = _ :=
        Parser.denote_byteOf_of_hasChar hs hfirst
      obtain ⟨results', result, hrest⟩ := ih (.int c.toNat :: results)
        (hs.advance (s.index + 8) (.int c.toNat)) hfront
      refine ⟨results', result, ?_⟩
      rw [List.map_cons, List.cons_append, denoteAll_of_live hread hs.live]
      refine hrest.trans ?_
      have hplace : s.index + 8 * (c :: front).length = s.index + 8 + 8 * front.length := by
        rw [List.length_cons]
        omega
      rw [hplace]
      rfl

variable {cs : List Char} {k : Nat} {result : Value}

/-- Where all characters are there, the literal succeeds behind the last. -/
theorem Parser.denote_rawBytes_of_spells (hs : s.Over data) (h : Input.Spells data s.index cs) :
    (rawBytes cs result).denote tree rounds s =
      .done (s.advance (s.index + 8 * cs.length) result) := by
  obtain ⟨results', last, hall⟩ := denoteAll_of_spells tree rounds [] [] hs h
  rw [List.append_nil, denoteAll, ← denote_sequence_of_live hs.live] at hall
  exact denote_mapPure_of_live hs.live hall hs.live

variable (tree rounds result) in
/-- The first character that cannot be read decides how a literal ends. -/
theorem Parser.denote_rawBytes_of_failed (hs : s.Over data) (hc : cs[k]? = some c)
    (h : Input.Spells data s.index (cs.take k)) :
    ∃ last, ∀ t, (byteOf c).denote tree rounds (s.advance (s.index + 8 * k) last) = .done t →
      t.failed = true → (rawBytes cs result).denote tree rounds s = .done t := by
  obtain ⟨hk, rfl⟩ := List.getElem?_eq_some_iff.mp hc
  have hlength : (cs.take k).length = k := List.length_take_of_le (Nat.le_of_lt hk)
  have hsplit : cs.take k ++ cs[k] :: cs.drop (k + 1) = cs := by
    rw [List.getElem_cons_drop, List.take_append_drop]
  obtain ⟨results', last, hall⟩ :=
    denoteAll_of_spells tree rounds ((cs[k] :: cs.drop (k + 1)).map byteOf) [] hs h
  rw [← List.map_append, hsplit, hlength, ← denote_sequence_of_live hs.live, List.map_cons] at hall
  refine ⟨last, fun t ht hfailed => ?_⟩
  rw [denoteAll_of_failed ht hfailed] at hall
  exact denote_map_of_failed hs.live hall hfailed

/-- Where fewer than eight bits are left, a literal runs out. -/
theorem Parser.denote_rawBytes_of_lt (hs : s.Over data) (hc : cs[k]? = some c)
    (h : Input.Spells data s.index (cs.take k)) (hshort : bitSize data < s.index + 8 * k + 8) :
    ∃ t, (rawBytes cs result).denote tree rounds s = .done t ∧ t.failed = true ∧
      t.error = .text outOfBits ∧ t.index = max s.index (bitSize data) := by
  obtain ⟨last, hends⟩ := denote_rawBytes_of_failed tree rounds result hs hc h
  have hread := hends _ (denote_byteOf_of_lt (hs.advance _ _) hshort) rfl
  refine ⟨_, hread, rfl, rfl, ?_⟩
  -- the characters before it were read within the buffer, so only the start can be beyond the end
  have hlt := (List.getElem?_eq_some_iff.mp hc).1
  have hle := h.le_max
  rw [List.length_take_of_le (Nat.le_of_lt hlt)] at hle
  rw [State.exhaustBits_eq]
  show max (s.index + 8 * k) (bitSize data) = _
  omega

/-- Where eight bits are left that write another byte, a literal reads and refuses them. -/
theorem Parser.denote_rawBytes_of_ne (hs : s.Over data) (hc : cs[k]? = some c)
    (h : Input.Spells data s.index (cs.take k)) (hfits : s.index + 8 * k + 8 ≤ bitSize data)
    (hne : field data (s.index + 8 * k) 8 ≠ c.toNat) :
    (rawBytes cs result).denote tree rounds s =
      .done ((s.advance (s.index + 8 * (k + 1)) (.int (field data (s.index + 8 * k) 8))).failWith
        (wrongByte c (field data (s.index + 8 * k) 8))) := by
  obtain ⟨last, hends⟩ := denote_rawBytes_of_failed tree rounds result hs hc h
  exact hends _ (denote_byteOf_of_ne (hs.advance _ _) hfits hne) rfl

end

-- ================================================================ checked literals

namespace RawLiteral

/-- Characters of one byte each are accepted as they are. -/
theorem mapM_rawCharacter {cs : List Char} (h : ∀ c ∈ cs, c.toNat ≤ 0xFF) :
    cs.mapM rawCharacter = .ok cs := by
  induction cs with
  | nil => rfl
  | cons c cs ih =>
      obtain ⟨hc, hcs⟩ := List.forall_mem_cons.mp h
      rw [List.mapM_cons, ih hcs, rawCharacter, if_neg (Nat.not_lt_of_le hc)]
      rfl

/-- A text of single bytes is accepted as a literal. -/
theorem rawLiteral_text {literal : String} (hne : literal ≠ "")
    (hnarrow : ∀ c ∈ literal.toList, c.toNat ≤ 0xFF) :
    rawLiteral (.text literal) = .ok (.rawBytes literal.toList (.text literal)) := by
  have htrue : (Value.text literal).isTrue = true := bne_iff_ne.mpr hne
  rw [rawLiteral, if_pos htrue, rawCharacters, mapM_rawCharacter hnarrow]
  rfl

theorem immediate_rawBytes (cs : List Char) (result : Value) :
    (Parser.rawBytes cs result).Every Parser.Immediate := by
  refine ⟨trivial, trivial, everyOf_iff.mpr (List.forall_mem_map.mpr fun c _ => ?_)⟩
  exact ⟨trivial, (BitReader.uint 8).immediate, fun _ => trivial⟩

/-- Reading a literal of single bytes from anywhere in a buffer. Where all its characters stand one
behind the other, it is read and given. Otherwise there is a first character, at position `k`, that
is not there. If the bits run out at it, the read fails at the end of the buffer, or where it began
if that is beyond the end. If there are eight bits that differ from its code, the read fails behind
them, with their byte for its result and a message that shows the character and the byte's. -/
theorem eval_rawLiteral (literal : String) (hne : literal ≠ "")
    (hnarrow : ∀ c ∈ literal.toList, c.toNat ≤ 0xFF) :
    ∃ p, rawLiteral (.text literal) = .ok p ∧
      ∀ (rules : Rules) (fuel frame : Nat) (session : Session) (data : Array UInt8) (s : State),
        s.Over data →
        (Input.Spells data s.index literal.toList →
          (p.eval rules fuel frame s session).1 =
            .done (s.advance (s.index + 8 * literal.length) (.text literal))) ∧
        ∀ k c, literal.toList[k]? = some c → Input.Spells data s.index (literal.toList.take k) →
          (bitSize data < s.index + 8 * k + 8 →
            ∃ t, (p.eval rules fuel frame s session).1 = .done t ∧ t.failed = true ∧
              t.error = .text "Bit: Unexpected end of input" ∧
              t.index = max s.index (bitSize data)) ∧
          (s.index + 8 * k + 8 ≤ bitSize data → field data (s.index + 8 * k) 8 ≠ c.toNat →
            (p.eval rules fuel frame s session).1 =
              .done ((s.advance (s.index + 8 * (k + 1))
                (.int (field data (s.index + 8 * k) 8))).failWith
                  ("RawString: Expected " ++ Text.quoted (String.singleton c) ++ ", but got " ++
                    Text.quoted (String.singleton
                      (Char.ofNat (field data (s.index + 8 * k) 8)))))) := by
  refine ⟨_, rawLiteral_text hne hnarrow, fun rules fuel frame session data s hs => ?_⟩
  rw [Parser.eval_of_immediate (immediate_rawBytes _ _)]
  constructor
  · intro hspells
    rw [← String.length_toList]
    exact Parser.denote_rawBytes_of_spells hs hspells
  · intro k c hc hspells
    constructor
    · exact Parser.denote_rawBytes_of_lt hs hc hspells
    · exact Parser.denote_rawBytes_of_ne hs hc hspells

/-- A letter and a line feed from the middle of a byte on: both there, the bits running out in the
second, and a tab in its place. -/
theorem eval_rawLiteral_samples :
    ∃ p, rawLiteral (.text "A\n") = .ok p ∧
      (p.eval noRules 0 0 { input := .buffer .fixed #[0x04, 0x10, 0xA0], index := 4 } {}).1 =
        .done { input := .buffer .fixed #[0x04, 0x10, 0xA0], index := 20, result := .text "A\n" } ∧
      (∃ t, (p.eval noRules 0 0 { input := .buffer .fixed #[0x04, 0x10], index := 4 } {}).1 =
          .done t ∧ t.failed = true ∧ t.error = .text "Bit: Unexpected end of input" ∧
        t.index = 16) ∧
      (p.eval noRules 0 0 { input := .buffer .fixed #[0x04, 0x10, 0x90], index := 4 } {}).1 =
        .done { input := .buffer .fixed #[0x04, 0x10, 0x90], index := 20, result := .int 9,
                failed := true,
                error := .text "RawString: Expected '\\n', but got '\\t'" } := by
  obtain ⟨p, hp, h⟩ := eval_rawLiteral "A\n" (by decide) (by simp)
  refine ⟨p, hp, ?_, ?_, ?_⟩
  · exact (h noRules 0 0 {} #[0x04, 0x10, 0xA0] _ ⟨rfl, .fixed, rfl⟩).1 (by decide)
  · exact ((h noRules 0 0 {} #[0x04, 0x10] _ ⟨rfl, .fixed, rfl⟩).2 1 '\n' rfl (by decide)).1
      (by decide)
  · have hread := ((h noRules 0 0 {} #[0x04, 0x10, 0x90]
      { input := .buffer .fixed #[0x04, 0x10, 0x90], index := 4 } ⟨rfl, .fixed, rfl⟩).2 1 '\n' rfl
      (by decide)).2 (by decide) (by decide)
    have hmessage : "RawString: Expected " ++ Text.quoted (String.singleton '\n') ++
        ", but got " ++ Text.quoted (String.singleton '\t') =
          "RawString: Expected '\\n', but got '\\t'" := by
      decide +kernel
    rw [← hmessage]
    exact hread

end RawLiteral

end ParserAlgebra
