import Mathlib.Data.Int.ModEq
import Mathlib.Data.Nat.Digits.Defs
import ParserAlgebra.Proofs.BitLayout
import ParserAlgebra.Proofs.History

/-!
Integer fields read from anywhere in a buffer: one of them, and as many as there are.

# One field

An unsigned field is cut out of the number of the buffer by a division and a remainder, whatever its
offset is modulo eight and however many bytes it touches (`eval_unsigned`). A read that finds too
few bits still takes those that are there, so it fails at the end of the buffer, with the last bit
for its result; a read that begins at the end or beyond it changes nothing but the message. A signed
field is read from the same bits and ends short in the same states (`eval_signed`). Its value is the
one integer in the range around zero that has the unsigned value as its residue.

# A row of fields

A reader of a fixed width that is repeated reads as often as its width goes into what is left of the
buffer (`BitReader.eval_many`). The attempt after that runs out somewhere within the last field, and
is given up as a whole. So the cursor ends up behind a whole number of fields. Fields side by side
are one wide field, and each of them is a digit of its number (`Input.ofDigits_fields`).
-/
namespace ParserAlgebra

open Input (bitSize field number)

-- ================================================================ too few bits

/-- The last bit of a buffer is that of its number. -/
theorem Input.field_last (data : Array UInt8) :
    field data (bitSize data - 1) 1 = number data % 2 := by
  have hshift : bitSize data - (bitSize data - 1) - 1 = 0 := by omega
  rw [field, hshift, Nat.pow_zero, Nat.div_one, Nat.pow_one]

/-- The state of a read that finds too few bits, part by part. -/
theorem State.exhaustBits_eq (s : State) (data : Array UInt8) :
    s.exhaustBits data =
      { s with
        index := max s.index (bitSize data)
        result := if s.index < bitSize data then .int (number data % 2 : Nat) else s.result
        failed := true
        error := .text outOfBits } := by
  unfold State.exhaustBits
  by_cases h : s.index < bitSize data
  · rw [if_pos h, if_pos h, Nat.max_eq_right (Nat.le_of_lt h), Input.field_last]
    rfl
  · rw [if_neg h, if_neg h, Nat.max_eq_left (Nat.le_of_not_lt h)]
    rfl

-- ================================================================ one field

namespace BitField

variable {f : BitField} {data : Array UInt8} {s : State} (rules : Rules) (fuel frame : Nat)
  (session : Session)

/-- A field is read and decoded where there is room for it. -/
theorem eval_reader_of_le (hs : s.Over data) (h : s.index + f.width ≤ bitSize data) :
    (f.reader.parser.eval rules fuel frame s session).1 =
      .done (s.advance (s.index + f.width) (.int (f.decode (field data s.index f.width)))) := by
  have hread := f.reader.reads.within (fun _ _ => .exhausted) fuel data s hs
  rw [f.width_reader, f.value_reader] at hread
  rw [Parser.eval_of_immediate f.reader.immediate, hread h]

/-- Where there is none, it runs out. -/
theorem eval_reader_of_lt (hs : s.Over data) (h : bitSize data < s.index + f.width) :
    (f.reader.parser.eval rules fuel frame s session).1 = .done (s.exhaustBits data) := by
  rw [Parser.eval_of_immediate f.reader.immediate, denote_reader_of_lt hs h]

/-- A signed field holds as many negative numbers as others. -/
theorem holds_iff_of_signed (hsign : f.sign = .signed) {v : Int} :
    f.Holds v ↔ -2 ^ (f.width - 1) ≤ v ∧ v < 2 ^ (f.width - 1) := by
  unfold Holds
  rw [hsign]

/-- In the lower half of the range a signed field is its number; in the upper half it is below zero
by what the number lacks to the next power of two. -/
theorem decode_of_signed (hsign : f.sign = .signed) {n : Nat} (hn : n < 2 ^ f.width) :
    f.decode n = if n < 2 ^ (f.width - 1) then (n : Int) else n - 2 ^ f.width := by
  have hhalf := f.two_pow_width
  have hlt : (n : Int) < (2 ^ f.width : Nat) := by exact_mod_cast hn
  have hmiddle : ((2 ^ (f.width - 1) : Nat) : Int) = 2 ^ (f.width - 1) := by
    push_cast
    rfl
  have hcast : (2 : Int) ^ f.width = (2 ^ f.width : Nat) := by
    push_cast
    rfl
  have hresidue : (n : Int) % 2 ^ f.width = n :=
    Int.emod_eq_of_lt (Int.natCast_nonneg n) (by omega)
  split
  · next hlow =>
      have hholds : f.Holds n := (holds_iff_of_signed hsign).mpr ⟨by omega, by omega⟩
      exact decode_of_holds hholds hresidue
  · next hhigh =>
      have hholds : f.Holds (n - 2 ^ f.width) :=
        (holds_iff_of_signed hsign).mpr ⟨by omega, by omega⟩
      exact decode_of_holds hholds (by rw [Int.sub_emod_right, hresidue])

end BitField

namespace IntegerField

/-- Reading an unsigned field from anywhere. Where its bits are all there, it is the number that
they write: the number of the buffer without what follows the field, modulo what stands before it.
Otherwise the read fails at the end of the buffer or beyond it, with the last bit for its result if
it has read any. -/
theorem eval_unsigned {n : Nat} (hpos : 1 ≤ n) (hnarrow : n ≤ 32) :
    ∃ p, integerField .unsigned (.int n) = .ok p ∧
      ∀ (rules : Rules) (fuel frame : Nat) (session : Session) (data : Array UInt8) (s : State),
        s.Over data →
        (p.eval rules fuel frame s session).1 = .done
          (if s.index + n ≤ bitSize data then
            s.advance (s.index + n)
              (.int (number data / 2 ^ (bitSize data - s.index - n) % 2 ^ n : Nat))
          else
            { s with
              index := max s.index (bitSize data)
              result := if s.index < bitSize data then .int (number data % 2 : Nat) else s.result
              failed := true
              error := .text "Bit: Unexpected end of input" }) := by
  have hfield := BitField.integerField_eq ⟨.unsigned, n, hpos, hnarrow⟩
  refine ⟨_, hfield, fun rules fuel frame session data s hs => ?_⟩
  split
  · next h => exact BitField.eval_reader_of_le rules fuel frame session hs h
  · next h =>
      rw [BitField.eval_reader_of_lt rules fuel frame session hs (Nat.lt_of_not_le h),
        State.exhaustBits_eq]
      rfl

/-- Seven bits of two bytes: across the boundary, from where five are left, and from beyond the
end. -/
theorem eval_unsigned_samples :
    ∃ p, integerField .unsigned (.int 7) = .ok p ∧
      (p.eval noRules 0 0 { input := .buffer .view #[0xA5, 0x3D], index := 5 } {}).1 =
        .done { input := .buffer .view #[0xA5, 0x3D], index := 12, result := .int 0b1010011 } ∧
      (p.eval noRules 0 0 { input := .buffer .view #[0xA5, 0x3D], index := 11 } {}).1 =
        .done { input := .buffer .view #[0xA5, 0x3D], index := 16, result := .int 1, failed := true,
                error := .text "Bit: Unexpected end of input" } ∧
      (p.eval noRules 0 0
        { input := .buffer .view #[0xA5, 0x3D], index := 20, result := .text "r" } {}).1 =
        .done { input := .buffer .view #[0xA5, 0x3D], index := 20, result := .text "r",
                failed := true, error := .text "Bit: Unexpected end of input" } := by
  obtain ⟨p, hp, h⟩ := eval_unsigned (n := 7) (by decide) (by decide)
  refine ⟨p, hp, ?_, ?_, ?_⟩
  · exact h noRules 0 0 {} #[0xA5, 0x3D] _ ⟨rfl, .view, rfl⟩
  · exact h noRules 0 0 {} #[0xA5, 0x3D] _ ⟨rfl, .view, rfl⟩
  · exact h noRules 0 0 {} #[0xA5, 0x3D] _ ⟨rfl, .view, rfl⟩

-- ================================================================ two readings of the same bits

/-- A signed field and an unsigned one of the same width, read from the same state. They succeed
exactly where the bits are all there, and leave the same state but for the result; otherwise they
fail in the same state. The signed value is in the range around zero, and it is congruent to the
unsigned one, which decides it. -/
theorem eval_signed {n : Nat} (hpos : 1 ≤ n) (hnarrow : n ≤ 32) :
    ∃ unsigned signed, integerField .unsigned (.int n) = .ok unsigned ∧
      integerField .signed (.int n) = .ok signed ∧
      ∀ (rules : Rules) (fuel frame : Nat) (session : Session) (data : Array UInt8) (s : State),
        s.Over data →
        (s.index + n ≤ bitSize data →
          ∃ (u : Nat) (x : Int),
            (unsigned.eval rules fuel frame s session).1 =
              .done (s.advance (s.index + n) (.int u)) ∧
            (signed.eval rules fuel frame s session).1 =
              .done (s.advance (s.index + n) (.int x)) ∧
            u < 2 ^ n ∧ -2 ^ (n - 1) ≤ x ∧ x < 2 ^ (n - 1) ∧ x ≡ u [ZMOD 2 ^ n] ∧
            x = if u < 2 ^ (n - 1) then (u : Int) else u - 2 ^ n) ∧
        (bitSize data < s.index + n →
          ∃ t, t.failed = true ∧ (unsigned.eval rules fuel frame s session).1 = .done t ∧
            (signed.eval rules fuel frame s session).1 = .done t) := by
  have hunsigned := BitField.integerField_eq ⟨.unsigned, n, hpos, hnarrow⟩
  have hsigned := BitField.integerField_eq ⟨.signed, n, hpos, hnarrow⟩
  refine ⟨_, _, hunsigned, hsigned, fun rules fuel frame session data s hs => ⟨?_, ?_⟩⟩
  · intro h
    have hlt := Input.field_lt data s.index n
    have hholds := BitField.holds_decode (f := ⟨.signed, n, hpos, hnarrow⟩) hlt
    have hresidue := BitField.decode_emod (f := ⟨.signed, n, hpos, hnarrow⟩) hlt
    refine ⟨field data s.index n, _, BitField.eval_reader_of_le rules fuel frame session hs h,
      BitField.eval_reader_of_le rules fuel frame session hs h, hlt, hholds.1, hholds.2, ?_,
      BitField.decode_of_signed rfl hlt⟩
    rw [Int.ModEq, hresidue, Int.emod_eq_of_lt (Int.natCast_nonneg _) (by exact_mod_cast hlt)]
  · intro h
    exact ⟨s.exhaustBits data, rfl, BitField.eval_reader_of_lt rules fuel frame session hs h,
      BitField.eval_reader_of_lt rules fuel frame session hs h⟩

/-- Four bits across a byte boundary, read as twelve and as four below zero. Where three bits are
left, both reads take them. -/
theorem eval_signed_samples :
    ∃ unsigned signed, integerField .unsigned (.int 4) = .ok unsigned ∧
      integerField .signed (.int 4) = .ok signed ∧
      (unsigned.eval noRules 0 0 { input := .buffer .fixed #[0x03, 0x07], index := 6 } {}).1 =
        .done { input := .buffer .fixed #[0x03, 0x07], index := 10, result := .int 12 } ∧
      (signed.eval noRules 0 0 { input := .buffer .fixed #[0x03, 0x07], index := 6 } {}).1 =
        .done { input := .buffer .fixed #[0x03, 0x07], index := 10, result := .int (-4) } ∧
      ∃ t, t.failed = true ∧
        (unsigned.eval noRules 0 0 { input := .buffer .fixed #[0x03, 0x07], index := 13 } {}).1 =
          .done t ∧
        (signed.eval noRules 0 0 { input := .buffer .fixed #[0x03, 0x07], index := 13 } {}).1 =
          .done t := by
  obtain ⟨unsigned, signed, hunsigned, hsigned, h⟩ := eval_signed (n := 4) (by decide) (by decide)
  obtain ⟨u, x, hu, hx, -, -, -, -, hvalue⟩ := (h noRules 0 0 {} #[0x03, 0x07]
    { input := .buffer .fixed #[0x03, 0x07], index := 6 } ⟨rfl, .fixed, rfl⟩).1 (by decide)
  obtain rfl : u = 12 := by
    obtain rfl := Except.ok.inj hunsigned
    exact Int.ofNat.inj (Value.int.inj (congrArg State.result (Outcome.done.inj hu.symm)))
  subst hvalue
  exact ⟨unsigned, signed, hunsigned, hsigned, hu, hx, (h noRules 0 0 {} #[0x03, 0x07]
    { input := .buffer .fixed #[0x03, 0x07], index := 13 } ⟨rfl, .fixed, rfl⟩).2 (by decide)⟩

end IntegerField

-- ================================================================ a reader again and again

namespace BitReader

/-- How often a reader goes into what is left of a buffer. -/
def fit (r : BitReader) (data : Array UInt8) (i : Nat) : Nat :=
  (bitSize data - i) / r.width

/-- One field more fits where there is room for it. -/
theorem fit_of_le {r : BitReader} {data : Array UInt8} {i : Nat} (hwidth : 0 < r.width)
    (h : i + r.width ≤ bitSize data) : r.fit data i = r.fit data (i + r.width) + 1 := by
  rw [fit, fit, Nat.div_eq_sub_div hwidth (by omega), Nat.sub_sub]

theorem fit_of_lt {r : BitReader} {data : Array UInt8} {i : Nat} (hwidth : 0 < r.width)
    (h : bitSize data < i + r.width) : r.fit data i = 0 :=
  Nat.div_eq_of_lt (by omega)

/-- The rounds of a reader: one for each time that it goes into what is left, and none for the
attempt that runs out after them. -/
theorem manyLoop_of_width {tree : Deferred → State → Outcome State} {rounds : Nat}
    {data : Array UInt8} {r : BitReader} (hwidth : 0 < r.width) :
    ∀ {n : Nat} (results : List Value) {s : State}, s.Over data → s.index ≤ bitSize data →
      r.fit data s.index < n →
      manyLoop (r.parser.denote tree rounds) n results s =
        .done (s.advance (s.index + r.fit data s.index * r.width)
          (.list (results.reverse ++
            values data s.index (List.replicate (r.fit data s.index) r)))) := by
  intro n
  induction n with
  | zero => intro results s _ _ hlt; exact absurd hlt (Nat.not_lt_zero _)
  | succ n ih =>
      intro results s hs hstart hlt
      by_cases hfits : s.index + r.width ≤ bitSize data
      · have hread := r.reads.within tree rounds data s hs hfits
        have hmoved : s.index + r.width ≠ s.index := by omega
        have hfit := fit_of_le hwidth hfits
        have hrest := ih (r.value data s.index :: results)
          (hs.advance (s.index + r.width) (r.value data s.index)) hfits
          (by show r.fit data (s.index + r.width) < n; omega)
        rw [manyLoop_of_live hread hs.live hmoved]
        refine hrest.trans ?_
        show Outcome.done (s.advance (s.index + r.width + r.fit data (s.index + r.width) * r.width)
          (.list ((r.value data s.index :: results).reverse ++
            values data (s.index + r.width) (List.replicate _ r)))) = _
        rw [hfit, List.replicate_succ, values, List.reverse_cons, List.append_assoc, Nat.succ_mul,
          Nat.add_assoc, Nat.add_comm r.width]
        rfl
      · have hshort := Nat.lt_of_not_le hfits
        obtain ⟨t, ht, hout⟩ := r.reads.beyond tree rounds data s hs hstart hshort
        rw [manyLoop_of_failed ht hout.failed, fit_of_lt hwidth hshort, List.replicate_zero, values,
          List.append_nil, Nat.zero_mul]
        rfl

/-- A repeated reader reads as often as it goes into what is left of the buffer. -/
theorem eval_many {data : Array UInt8} {s : State} {r : BitReader} {fuel : Nat} (rules : Rules)
    (frame : Nat) (session : Session) (hwidth : 0 < r.width) (hs : s.Over data)
    (hstart : s.index ≤ bitSize data) (hfuel : r.fit data s.index < fuel) :
    (r.parser.many.eval rules fuel frame s session).1 =
      .done (s.advance (s.index + r.fit data s.index * r.width)
        (.list (values data s.index (List.replicate (r.fit data s.index) r)))) := by
  have himmediate : r.parser.many.Every Parser.Immediate := ⟨trivial, r.immediate⟩
  rw [Parser.eval_of_immediate himmediate, Parser.denote_many hs.live,
    manyLoop_of_width hwidth [] hs hstart hfuel]
  rfl

end BitReader

-- ================================================================ fields as digits

namespace Input

/-- The numbers of fields of one width side by side. -/
def fields (data : Array UInt8) (i width count : Nat) : List Nat :=
  (List.range count).map fun j => field data (i + j * width) width

theorem length_fields (data : Array UInt8) (i width count : Nat) :
    (fields data i width count).length = count := by
  rw [fields, List.length_map, List.length_range]

/-- Each field is less than the power of two of its width. -/
theorem lt_of_mem_fields {data : Array UInt8} {i width count d : Nat}
    (h : d ∈ fields data i width count) : d < 2 ^ width := by
  obtain ⟨j, -, rfl⟩ := List.mem_map.mp h
  exact field_lt data _ width

/-- Fields side by side are the digits of the field that they make up, most significant first. -/
theorem ofDigits_fields {data : Array UInt8} {i width : Nat} :
    ∀ {count : Nat}, i + count * width ≤ bitSize data →
      Nat.ofDigits (2 ^ width) (fields data i width count).reverse =
        field data i (count * width) := by
  intro count
  induction count with
  | zero =>
      intro _
      rw [Nat.zero_mul, field, Nat.pow_zero, Nat.mod_one]
      rfl
  | succ count ih =>
      intro h
      rw [Nat.succ_mul] at h
      -- the last field is the least significant digit
      rw [fields, List.range_succ, List.map_append, List.map_singleton, List.reverse_append,
        List.reverse_singleton, List.singleton_append, Nat.ofDigits_cons]
      show _ + 2 ^ width * Nat.ofDigits (2 ^ width) (fields data i width count).reverse = _
      rw [ih (by omega), Nat.succ_mul, field_add data h]
      ring

/-- The first field of a row, and the others. -/
theorem fields_succ (data : Array UInt8) (i width count : Nat) :
    fields data i width (count + 1) =
      field data i width :: fields data (i + width) width count := by
  have hfirst : i + 0 * width = i := by rw [Nat.zero_mul, Nat.add_zero]
  rw [fields, List.range_succ_eq_map, List.map_cons, List.map_map, hfirst, fields]
  refine congrArg (field data i width :: ·) (List.map_congr_left fun j _ => ?_)
  show field data (i + (j + 1) * width) width = _
  rw [Nat.succ_mul, Nat.add_comm (j * width), Nat.add_assoc]

/-- Fields of width eight that begin with a byte are bytes. -/
theorem fields_extract {data : Array UInt8} {lo count : Nat} (h : lo + count ≤ data.size) :
    fields data (8 * lo) 8 count = (data.extract lo (lo + count)).toList.map UInt8.toNat := by
  refine List.ext_getElem ?_ fun j hj hj' => ?_
  · rw [length_fields, List.length_map, Array.length_toList, Array.size_extract]
    omega
  · rw [length_fields] at hj
    have hoffset : 8 * lo + j * 8 = 8 * (lo + j) := by omega
    have hbyte : lo + j < data.size := by omega
    simp only [fields, List.getElem_map, List.getElem_range, Array.getElem_toList,
      Array.getElem_extract]
    rw [hoffset, field_byte data hbyte]

/-- Fields of eight bits are bytes. -/
theorem fields_bytes (data : Array UInt8) :
    fields data 0 8 data.size = data.toList.map UInt8.toNat := by
  have hall : fields data (8 * 0) 8 data.size = _ :=
    fields_extract (Nat.le_of_eq (Nat.zero_add data.size))
  rwa [Nat.mul_zero, Nat.zero_add, Array.extract_size] at hall

end Input

/-- The values of a repeated unsigned field are the numbers of the fields. -/
theorem BitReader.values_uint (data : Array UInt8) (width : Nat) :
    ∀ count i : Nat, values data i (List.replicate count (.uint width)) =
      (Input.fields data i width count).map fun d : Nat => .int d := by
  intro count
  induction count with
  | zero => intro i; rfl
  | succ count ih =>
      intro i
      rw [List.replicate_succ, values, Input.fields_succ, List.map_cons]
      exact congrArg _ (ih (i + width))

namespace IntegerField

/-- Reading unsigned fields from anywhere within a buffer, as many as there are: as often as the
width goes into the bits that are left. The cursor ends up behind them, so what remains is less than
a field and is not touched. The values are the digits, most significant first, of the number that
the bits up to there write. Of fields of eight bits, a complete run gives the bytes. -/
theorem eval_many_unsigned :
    (∀ n : Nat, 1 ≤ n → n ≤ 32 →
      ∃ p, integerField .unsigned (.int n) = .ok p ∧
        ∀ (rules : Rules) (fuel frame : Nat) (session : Session) (data : Array UInt8) (s : State),
          s.Over data → s.index ≤ bitSize data →
          ∀ k, k = (bitSize data - s.index) / n → k < fuel →
            ∃ digits : List Nat, digits.length = k ∧ (∀ d ∈ digits, d < 2 ^ n) ∧
              Nat.ofDigits (2 ^ n) digits.reverse = field data s.index (k * n) ∧
              (p.many.eval rules fuel frame s session).1 =
                .done (s.advance (s.index + k * n) (.list (digits.map fun d : Nat => .int d)))) ∧
    ∃ p, integerField .unsigned (.int 8) = .ok p ∧
      ∀ (rules : Rules) (fuel frame : Nat) (session : Session) (kind : BufferKind)
        (data : Array UInt8), data.size < fuel →
        (p.many.run rules fuel frame (.buffer kind data) session).1 =
          .done { input := .buffer kind data, index := bitSize data,
                  result := .list (data.toList.map fun b => .int b.toNat) } := by
  constructor
  · intro n hpos hnarrow
    have hfield := BitField.integerField_eq ⟨.unsigned, n, hpos, hnarrow⟩
    refine ⟨_, hfield, ?_⟩
    rintro rules fuel frame session data s hs hstart k rfl hfuel
    have hrow : s.index + (bitSize data - s.index) / n * n ≤ bitSize data := by
      have hle := Nat.div_mul_le_self (bitSize data - s.index) n
      omega
    refine ⟨Input.fields data s.index n _, Input.length_fields .., fun d => Input.lt_of_mem_fields,
      Input.ofDigits_fields hrow, ?_⟩
    rw [← BitReader.values_uint]
    exact BitReader.eval_many (r := .uint n) rules frame session hpos hs hstart hfuel
  · have hfield := BitField.integerField_eq ⟨.unsigned, 8, by decide, by decide⟩
    refine ⟨_, hfield, fun rules fuel frame session kind data hfuel => ?_⟩
    have hs : (State.initial (.buffer kind data)).Over data := ⟨rfl, kind, rfl⟩
    have hfit : (BitReader.uint 8).fit data 0 = data.size :=
      Nat.mul_div_cancel_left data.size (by decide)
    have hread := BitReader.eval_many (r := .uint 8) rules frame session (by decide) hs
      (Nat.zero_le _) (hfit.trans_lt hfuel)
    rw [Parser.run_fst]
    refine hread.trans ?_
    show Outcome.done ((State.initial _).advance (0 + (BitReader.uint 8).fit data 0 * 8)
      (.list (BitReader.values data 0 (List.replicate ((BitReader.uint 8).fit data 0) _)))) = _
    rw [hfit, BitReader.values_uint, Input.fields_bytes, List.map_map, Nat.zero_add, Nat.mul_comm]
    rfl

/-- Five bits again and again from bit three on: two fields, and three bits that are given back. -/
theorem eval_many_unsigned_samples :
    (∃ p, integerField .unsigned (.int 5) = .ok p ∧
      (p.many.eval noRules 3 0 { input := .buffer .growable #[0xB7, 0x4D], index := 3 } {}).1 =
        .done { input := .buffer .growable #[0xB7, 0x4D], index := 13,
                result := .list [.int 0b10111, .int 0b01001] }) ∧
    ∃ p, integerField .unsigned (.int 8) = .ok p ∧
      (p.many.run noRules 3 0 (.buffer .growable #[0xB7, 0x4D]) {}).1 =
        .done { input := .buffer .growable #[0xB7, 0x4D], index := 16,
                result := .list [.int 0xB7, .int 0x4D] } := by
  obtain ⟨hfields, p, hp, hbytes⟩ := eval_many_unsigned
  obtain ⟨q, hq, hrow⟩ := hfields 5 (by decide) (by decide)
  refine ⟨⟨q, hq, ?_⟩, p, hp, hbytes noRules 3 0 {} .growable #[0xB7, 0x4D] (by decide)⟩
  obtain ⟨digits, hlength, hlt, hvalue, hrun⟩ := hrow noRules 3 0 {} #[0xB7, 0x4D]
    { input := .buffer .growable #[0xB7, 0x4D], index := 3 } ⟨rfl, .growable, rfl⟩ (by decide) 2
    (by decide) (by decide)
  -- two digits below thirty-two are determined by their number
  have hdigits : digits = [0b10111, 0b01001] := by
    match digits, hlength with
    | [a, b], _ =>
        have ha : a < 32 := hlt a (by simp)
        have hb : b < 32 := hlt b (by simp)
        have hnumber : field #[0xB7, 0x4D] 3 10 = 0b1011101001 := by decide
        have hsum : b + 32 * a = field #[0xB7, 0x4D] 3 10 := by simpa [Nat.ofDigits] using hvalue
        obtain ⟨rfl, rfl⟩ : a = 0b10111 ∧ b = 0b01001 := by omega
        rfl
  rw [hdigits] at hrun
  exact hrun

end IntegerField

end ParserAlgebra
