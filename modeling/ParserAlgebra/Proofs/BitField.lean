import Mathlib.Tactic.Linarith
import Mathlib.Tactic.Ring
import ParserAlgebra.Parser.Bits
import ParserAlgebra.Proofs.Stepping

/-!
Fields of bits, and the parsers that read them.

# A buffer as a number

A buffer writes one number, most significant byte first (`Input.number`). The field of width `w` at
bit offset `o` is the number written by the bits `o`, …, `o + w - 1`, again most significant first.
It is cut out of the number of the buffer by a division and a remainder (`Input.field`), wherever
the byte boundaries are. A single bit is a field of width one, a byte is a field of width eight, and
a field is its first bit followed by the field of the other bits; nothing else about numbers is
needed.

# Readers of a fixed width

A `BitReader` is a parser together with the width it reads and the value it gives for the bits
there. Within the buffer it succeeds, and otherwise it runs out: it fails, and the cursor is at the
end of the buffer, wherever the read began and however many bits were missing. Readers in a row
make a reader (`BitReader.sequence`), so a layout of fields is read exactly as soon as its fields
are.
-/
namespace ParserAlgebra

-- ================================================================ numbers of buffers

namespace Input

/-- The number that bytes write, most significant first. -/
def numberOf (bytes : List UInt8) : Nat :=
  bytes.foldl (fun n b => 256 * n + b.toNat) 0

/-- The number that a buffer writes. -/
def number (data : Array UInt8) : Nat :=
  numberOf data.toList

/-- The bits of a buffer. -/
def bitSize (data : Array UInt8) : Nat :=
  8 * data.size

/-- The number written by the `width` bits of a buffer from bit `offset` on. -/
def field (data : Array UInt8) (offset width : Nat) : Nat :=
  number data / 2 ^ (bitSize data - offset - width) % 2 ^ width

/-- A field of some bits is less than that power of two. -/
theorem field_lt (data : Array UInt8) (offset width : Nat) :
    field data offset width < 2 ^ width :=
  Nat.mod_lt _ (Nat.two_pow_pos width)

/-- A number so far is moved up by the bytes behind it. -/
theorem foldl_bytes (bytes : List UInt8) :
    ∀ n : Nat, bytes.foldl (fun n b => 256 * n + b.toNat) n =
      n * 256 ^ bytes.length + numberOf bytes := by
  induction bytes with
  | nil => intro n; simp [numberOf]
  | cons b bytes ih =>
      intro n
      rw [numberOf, List.foldl_cons, List.foldl_cons, ih, ih (256 * 0 + b.toNat),
        List.length_cons, Nat.pow_succ]
      ring

/-- The number of the front is moved up by the bytes of the back. -/
theorem numberOf_append (front back : List UInt8) :
    numberOf (front ++ back) = numberOf front * 256 ^ back.length + numberOf back := by
  rw [numberOf, List.foldl_append, foldl_bytes]
  rfl

/-- Some bytes write less than that power of 256. -/
theorem numberOf_lt (bytes : List UInt8) : numberOf bytes < 256 ^ bytes.length := by
  induction bytes with
  | nil => simp [numberOf]
  | cons b bytes ih =>
      have hb : b.toNat < 256 := b.toNat_lt
      rw [← List.singleton_append, numberOf_append, List.length_append, Nat.pow_add]
      have hone : numberOf [b] = b.toNat := by simp [numberOf]
      rw [hone, List.length_singleton, Nat.pow_one]
      have hle := Nat.mul_le_mul_right (256 ^ bytes.length) (Nat.le_of_lt_succ hb)
      omega

/-- A byte of a buffer in the number of the buffer. -/
theorem toNat_getElem (data : Array UInt8) {k : Nat} (hk : k < data.size) :
    data[k].toNat = number data / 2 ^ (8 * (data.size - k - 1)) % 256 := by
  have hsplit : data.toList = data.toList.take k ++ [data[k]] ++ data.toList.drop (k + 1) := by
    rw [List.append_assoc, List.singleton_append]
    have hlength : k < data.toList.length := hk
    rw [← Array.getElem_toList hk, List.getElem_cons_drop, List.take_append_drop]
  have hlength : (data.toList.drop (k + 1)).length = data.size - k - 1 := by
    rw [List.length_drop, Array.length_toList]
    omega
  have hlt := numberOf_lt (data.toList.drop (k + 1))
  rw [hlength] at hlt
  have hbyte : data[k].toNat < 256 := data[k].toNat_lt
  have hpow : 2 ^ (8 * (data.size - k - 1)) = 256 ^ (data.size - k - 1) := by
    rw [Nat.pow_mul]
  rw [number, hsplit, numberOf_append, numberOf_append, hlength, hpow, Nat.mul_comm,
    Nat.mul_add_div (Nat.pow_pos (by decide)), Nat.div_eq_of_lt hlt]
  have hone : numberOf [data[k]] = data[k].toNat := by simp [numberOf]
  rw [hone, List.length_singleton, Nat.pow_one, Nat.add_zero, Nat.mul_comm,
    Nat.mul_add_mod, Nat.mod_eq_of_lt hbyte]

-- ================================================================ bits and bytes as fields

/-- A byte is the field of its eight bits. -/
theorem field_byte (data : Array UInt8) {k : Nat} (hk : k < data.size) :
    field data (8 * k) 8 = data[k].toNat := by
  have hshift : 8 * data.size - 8 * k - 8 = 8 * (data.size - k - 1) := by omega
  have hbyte : 2 ^ 8 = 256 := rfl
  rw [toNat_getElem data hk, field, bitSize, hshift, hbyte]

/-- A bit of a byte is a bit of the number that the byte is the end of. -/
theorem mod_byte_div_mod_two (n : Nat) {e : Nat} (he : e < 8) :
    n % 256 / 2 ^ e % 2 = n / 2 ^ e % 2 := by
  have hbyte : 256 = 2 ^ e * 2 ^ (8 - e) := by
    rw [← Nat.pow_add, Nat.add_sub_cancel' (Nat.le_of_lt he)]
  have hdvd : 2 ∣ 2 ^ (8 - e) := dvd_pow_self 2 (by omega)
  rw [hbyte, Nat.mod_mul_right_div_self, Nat.mod_mod_of_dvd _ hdvd]

/-- A bit that can be read is the field of that bit. -/
theorem bit?_eq_field (data : Array UInt8) (i : Nat) :
    bit? data i = if i < bitSize data then some (field data i 1) else none := by
  unfold bit? bitSize byteWidth
  split
  · next hi =>
      have hk : i / 8 < data.size := by omega
      have hshift : 8 * data.size - i - 1 = 8 * (data.size - i / 8 - 1) + (8 - 1 - i % 8) := by
        omega
      rw [Array.getElem?_eq_getElem hk, Option.map_some, toNat_getElem data hk,
        Nat.shiftRight_eq_div_pow, mod_byte_div_mod_two _ (by omega), field, bitSize, hshift,
        Nat.pow_add, ← Nat.div_div_eq_div_mul, Nat.pow_one]
  · next hi =>
      have hk : ¬i / 8 < data.size := by omega
      rw [Array.getElem?_eq_none (Nat.le_of_not_lt hk)]
      rfl

/-- Two fields side by side are one field. -/
theorem field_add (data : Array UInt8) {i m n : Nat} (hi : i + (m + n) ≤ bitSize data) :
    field data i (m + n) = field data i m * 2 ^ n + field data (i + m) n := by
  have hrest : bitSize data - (i + m) - n = bitSize data - i - (m + n) := by omega
  have hfirst : bitSize data - i - m = bitSize data - i - (m + n) + n := by omega
  rw [field, field, field, hrest, hfirst, Nat.pow_add 2 m n, Nat.mul_comm (2 ^ m), Nat.mod_mul,
    Nat.pow_add _ _ n, ← Nat.div_div_eq_div_mul]
  ring

/-- A field is its first bit and the field of the other bits. -/
theorem field_succ (data : Array UInt8) {i n : Nat} (hi : i + (n + 1) ≤ bitSize data) :
    field data i (n + 1) = field data i 1 * 2 ^ n + field data (i + 1) n := by
  rw [Nat.add_comm n 1] at hi ⊢
  exact field_add data hi

end Input

-- ================================================================ readers of a fixed width

open Input (bitSize field)

/-- The message of a read beyond the end. -/
def outOfBits : String := "Bit: Unexpected end of input"

/-- A live state over a buffer with these bytes. -/
structure State.Over (s : State) (data : Array UInt8) : Prop where
  live : s.failed = false
  input : ∃ kind, s.input = .buffer kind data

/-- A cursor that moves stays over its buffer. -/
theorem State.Over.advance {s : State} {data : Array UInt8} (hs : s.Over data) (index : Nat)
    (result : Value) : (s.advance index result).Over data :=
  ⟨hs.live, hs.input⟩

/-- A state in which a read has run out of bits. -/
structure State.RunsOut (t : State) (data : Array UInt8) : Prop where
  failed : t.failed = true
  index : t.index = bitSize data
  error : t.error = .text outOfBits

/-- The parser reads `width` bits and gives `value` for those from an index on. -/
structure Parser.ReadsBits (p : Parser) (width : Nat) (value : Array UInt8 → Nat → Value) :
    Prop where
  within : ∀ (tree : Deferred → State → Outcome State) rounds data (s : State),
    s.Over data → s.index + width ≤ bitSize data →
    p.denote tree rounds s = .done (s.advance (s.index + width) (value data s.index))
  beyond : ∀ (tree : Deferred → State → Outcome State) rounds data (s : State),
    s.Over data → s.index ≤ bitSize data → bitSize data < s.index + width →
    ∃ t, p.denote tree rounds s = .done t ∧ t.RunsOut data

/-- A parser of a fixed number of bits. -/
structure BitReader where
  parser : Parser
  width : Nat
  value : Array UInt8 → Nat → Value
  immediate : parser.Every Parser.Immediate
  reads : parser.ReadsBits width value

section

variable {tree : Deferred → State → Outcome State} {rounds : Nat} {data : Array UInt8} {s : State}

/-- In front of the end one bit is read. -/
theorem Parser.denote_bit_of_lt (hs : s.Over data) (h : s.index < bitSize data) :
    Parser.bit.denote tree rounds s =
      .done (s.advance (s.index + 1) (.int (field data s.index 1))) := by
  obtain ⟨kind, hinput⟩ := hs.input
  rw [Parser.denote, if_neg (State.not_failed hs.live), State.readBit, hinput]
  dsimp only
  rw [Input.bit?_eq_field, if_pos h]
  rfl

/-- At the end there is no bit to read. -/
theorem Parser.denote_bit_of_le (hs : s.Over data) (h : bitSize data ≤ s.index) :
    Parser.bit.denote tree rounds s = .done (s.failWith outOfBits) := by
  obtain ⟨kind, hinput⟩ := hs.input
  rw [Parser.denote, if_neg (State.not_failed hs.live), State.readBit, hinput]
  dsimp only
  rw [Input.bit?_eq_field, if_neg (Nat.not_lt_of_le h)]
  rfl

end

namespace BitReader

/-- Single bits. -/
def bit : BitReader where
  parser := .bit
  width := 1
  value data i := .int (field data i 1)
  immediate := trivial
  reads := by
    constructor
    · intro tree rounds data s hs hle
      exact Parser.denote_bit_of_lt hs hle
    · intro tree rounds data s hs hstart hlt
      have hend : s.index = bitSize data := by omega
      exact ⟨_, Parser.denote_bit_of_le hs (Nat.le_of_eq hend.symm), rfl, hend, rfl⟩

/-- A reader with its value transformed. -/
def map (r : BitReader) (f : Value → Value) : BitReader where
  parser := r.parser.mapPure f
  width := r.width
  value data i := f (r.value data i)
  immediate := ⟨trivial, r.immediate⟩
  reads := by
    constructor
    · intro tree rounds data s hs hle
      exact Parser.denote_mapPure_of_live hs.live (r.reads.within tree rounds data s hs hle) hs.live
    · intro tree rounds data s hs hstart hlt
      obtain ⟨t, ht, hout⟩ := r.reads.beyond tree rounds data s hs hstart hlt
      exact ⟨t, Parser.denote_map_of_failed hs.live ht hout.failed, hout⟩

-- ================================================================ readers in a row

/-- The bits that readers in a row take. -/
def totalWidth (rs : List BitReader) : Nat :=
  (rs.map width).sum

theorem totalWidth_cons (r : BitReader) (rs : List BitReader) :
    totalWidth (r :: rs) = r.width + totalWidth rs :=
  rfl

theorem totalWidth_replicate (n : Nat) (r : BitReader) :
    totalWidth (List.replicate n r) = n * r.width := by
  rw [totalWidth, List.map_replicate, List.sum_replicate_nat]

/-- The values that readers in a row give from an index on. -/
def values (data : Array UInt8) : Nat → List BitReader → List Value
  | _, [] => []
  | i, r :: rs => r.value data i :: values data (i + r.width) rs

/-- Each reader starts where those before it end. -/
theorem getElem?_values (data : Array UInt8) (rs : List BitReader) :
    ∀ i k : Nat, (values data i rs)[k]? =
      rs[k]?.map fun r : BitReader => r.value data (i + totalWidth (rs.take k)) := by
  induction rs with
  | nil => intro i k; rfl
  | cons r rs ih =>
      intro i k
      cases k with
      | zero => rfl
      | succ k =>
          rw [values, List.getElem?_cons_succ, List.getElem?_cons_succ, ih, List.take_succ_cons,
            totalWidth_cons, Nat.add_assoc]

section

variable {tree : Deferred → State → Outcome State} {rounds : Nat} {data : Array UInt8}

/-- Fields in a row are read where there is room for all of them. -/
theorem denoteAll_of_le (rs : List BitReader) :
    ∀ (results : List Value) {s : State}, s.Over data → s.index + totalWidth rs ≤ bitSize data →
      denoteAll tree rounds (rs.map parser) results s =
        .done (s.advance (s.index + totalWidth rs)
          (.list (results.reverse ++ values data s.index rs))) := by
  induction rs with
  | nil =>
      intro results s _ _
      rw [List.map_nil, denoteAll, values, List.append_nil]
      rfl
  | cons r rs ih =>
      intro results s hs hle
      rw [totalWidth_cons] at hle
      have hread := r.reads.within tree rounds data s hs (by omega)
      have hrest := ih (r.value data s.index :: results)
        (hs.advance (s.index + r.width) (r.value data s.index))
        (by show s.index + r.width + totalWidth rs ≤ _; omega)
      rw [List.map_cons, denoteAll_of_live hread hs.live]
      refine hrest.trans ?_
      rw [values, List.reverse_cons, List.append_assoc, totalWidth_cons, ← Nat.add_assoc]
      rfl

/-- Where there is room for some only, the first that has none runs out. -/
theorem denoteAll_of_lt (rs : List BitReader) :
    ∀ (results : List Value) {s : State}, s.Over data → s.index ≤ bitSize data →
      bitSize data < s.index + totalWidth rs →
      ∃ t, denoteAll tree rounds (rs.map parser) results s = .done t ∧ t.RunsOut data := by
  induction rs with
  | nil =>
      intro results s _ hstart hlt
      exact absurd hlt (Nat.not_lt_of_le hstart)
  | cons r rs ih =>
      intro results s hs hstart hlt
      rw [totalWidth_cons] at hlt
      rw [List.map_cons]
      by_cases hfits : s.index + r.width ≤ bitSize data
      · have hread := r.reads.within tree rounds data s hs hfits
        rw [denoteAll_of_live hread hs.live]
        exact ih _ (hs.advance _ _) hfits (by show _ < s.index + r.width + totalWidth rs; omega)
      · obtain ⟨t, ht, hout⟩ := r.reads.beyond tree rounds data s hs hstart (by omega)
        exact ⟨t, denoteAll_of_failed ht hout.failed, hout⟩

end

/-- Readers in a row, with the list of their values. -/
def sequence (rs : List BitReader) : BitReader where
  parser := .sequence (rs.map parser)
  width := totalWidth rs
  value data i := .list (values data i rs)
  immediate := ⟨trivial, everyOf_iff.mpr (List.forall_mem_map.mpr fun r _ => r.immediate)⟩
  reads := by
    constructor
    · intro tree rounds data s hs hle
      rw [Parser.denote_sequence_of_live hs.live, denoteAll_of_le rs [] hs hle]
      rfl
    · intro tree rounds data s hs hstart hlt
      rw [Parser.denote_sequence_of_live hs.live]
      exact denoteAll_of_lt rs [] hs hstart hlt

/-- A reader several times, with the list of its values. -/
def count (n : Nat) (r : BitReader) : BitReader where
  parser := .count n r.parser
  width := n * r.width
  value data i := .list (values data i (List.replicate n r))
  immediate := Parser.immediate_count r.immediate n
  reads := by
    have hseq := (sequence (List.replicate n r)).reads
    dsimp only [sequence] at hseq
    rw [List.map_replicate, totalWidth_replicate] at hseq
    unfold Parser.count
    split
    · next hn =>
        subst hn
        constructor
        · intro tree rounds data s hs _
          rw [Parser.denote, if_neg (State.not_failed hs.live), Nat.zero_mul]
          rfl
        · intro tree rounds data s _ hstart hlt
          rw [Nat.zero_mul] at hlt
          exact absurd hlt (Nat.not_lt_of_le hstart)
    · exact hseq

end BitReader

-- ================================================================ runs of bits

/-- The `n` bits of a buffer from `i` on, as results. -/
def bitsFrom (data : Array UInt8) (i n : Nat) : List Value :=
  BitReader.values data i (List.replicate n .bit)

/-- Folding bits makes the number of the field they are. -/
theorem foldl_bitsFrom (data : Array UInt8) :
    ∀ (n i m : Nat), i + n ≤ bitSize data →
      ((bitsFrom data i n).filterMap Value.number?).foldl (fun n b => 2 * n + b) (m : Int) =
        ((m * 2 ^ n + field data i n : Nat) : Int) := by
  intro n
  induction n with
  | zero => intro i m _; simp [bitsFrom, BitReader.values, field, Nat.mod_one]
  | succ n ih =>
      intro i m hi
      have hhead : 2 * (m : Int) + (field data i 1 : Nat) = (2 * m + field data i 1 : Nat) := by
        push_cast
        rfl
      show ((bitsFrom data (i + 1) n).filterMap Value.number?).foldl (fun n b => 2 * n + b)
        (2 * (m : Int) + (field data i 1 : Nat)) = _
      rw [hhead, ih (i + 1) _ (by omega), Input.field_succ data hi, Nat.pow_succ]
      congr 1
      ring

/-- Bits that are read one by one add up to their field. -/
theorem foldBits_bitsFrom {data : Array UInt8} {i n : Nat} (h : i + n ≤ bitSize data) :
    foldBits (Value.list (bitsFrom data i n)).bits = (field data i n : Int) := by
  have hfold := foldl_bitsFrom data n i 0 h
  rw [Nat.zero_mul, Nat.zero_add] at hfold
  exact hfold

theorem length_bits_bitsFrom (data : Array UInt8) :
    ∀ (n i : Nat), (Value.list (bitsFrom data i n)).bits.length = n := by
  intro n
  induction n with
  | zero => intro i; rfl
  | succ n ih =>
      intro i
      show ((Value.list (bitsFrom data (i + 1) n)).bits).length + 1 = n + 1
      rw [ih]

/-- In two's complement the bits of a field make its number, brought into the range around zero. -/
theorem foldSigned_bitsFrom {data : Array UInt8} {i n : Nat} (h : i + n ≤ bitSize data) :
    foldSigned (Value.list (bitsFrom data i n)).bits = (field data i n : Int).bmod (2 ^ n) := by
  cases n with
  | zero => simp [bitsFrom, BitReader.values, Value.bits, foldSigned, Int.bmod_def]
  | succ n =>
      have hrest : foldBits (Value.list (bitsFrom data (i + 1) n)).bits = field data (i + 1) n :=
        foldBits_bitsFrom (by omega)
      have hlt := Input.field_lt data (i + 1) n
      have hsign := Input.field_lt data i 1
      show foldBits (Value.list (bitsFrom data (i + 1) n)).bits - (field data i 1 : Nat) *
        ((1 <<< (Value.list (bitsFrom data (i + 1) n)).bits.length : Nat) : Int) = _
      rw [hrest, length_bits_bitsFrom, Nat.one_shiftLeft, Input.field_succ data h, Nat.pow_succ]
      -- the first bit decides on which side of the middle the number is
      generalize field data (i + 1) n = rest at hlt
      generalize field data i 1 = sign at hsign
      generalize 2 ^ n = half at hlt
      have hcases : sign = 0 ∨ sign = 1 := by omega
      rcases hcases with rfl | rfl
      · rw [Int.bmod_eq_of_le (by omega) (by omega)]
        omega
      · rw [← Int.sub_bmod_right, Int.bmod_eq_of_le (by omega) (by omega)]
        omega

/-- The state of a read that begins at `s` and finds too few bits. Bits that are there are read:
the cursor ends up behind the last one, which is the result. -/
def State.exhaustBits (s : State) (data : Array UInt8) : State :=
  (if s.index < bitSize data then s.advance (bitSize data) (.int (field data (bitSize data - 1) 1))
    else s).failWith outOfBits

section

variable {tree : Deferred → State → Outcome State} {rounds : Nat} {data : Array UInt8}

/-- Where bits are missing, those that are there are read. -/
theorem denoteAll_bits_of_lt :
    ∀ {n : Nat} (results : List Value) {s : State}, s.Over data → 0 < n →
      bitSize data < s.index + n →
      denoteAll tree rounds (List.replicate n .bit) results s = .done (s.exhaustBits data) := by
  intro n
  induction n with
  | zero => intro results s _ hpos; exact absurd hpos (Nat.lt_irrefl 0)
  | succ n ih =>
      intro results s hs _ hlt
      rw [List.replicate_succ, State.exhaustBits]
      by_cases hbit : s.index < bitSize data
      · have hread : Parser.bit.denote tree rounds s = _ := Parser.denote_bit_of_lt hs hbit
        have hrest := ih (.int (field data s.index 1) :: results)
          (hs.advance (s.index + 1) (.int (field data s.index 1))) (by omega)
          (by show _ < s.index + 1 + n; omega)
        rw [denoteAll_of_live hread hs.live, if_pos hbit]
        refine hrest.trans ?_
        -- the last bit has just been read, or the rest reads it
        rw [State.exhaustBits]
        by_cases hlast : s.index + 1 < bitSize data
        · rw [if_pos (by exact hlast)]
          rfl
        · have hend : bitSize data = s.index + 1 := by omega
          rw [if_neg (by exact hlast), hend]
          rfl
      · have hread : Parser.bit.denote tree rounds s = _ :=
          Parser.denote_bit_of_le hs (Nat.le_of_not_lt hbit)
        rw [denoteAll_of_failed hread rfl, if_neg hbit]

variable {n : Nat} {s : State}

/-- Bits are read one by one where there is room for them. -/
theorem Parser.denote_count_bits_of_le (hs : s.Over data) (h : s.index + n ≤ bitSize data) :
    (Parser.count n .bit).denote tree rounds s =
      .done (s.advance (s.index + n) (.list (bitsFrom data s.index n))) := by
  have hwidth : (BitReader.count n .bit).width = n := Nat.mul_one n
  have hread := (BitReader.count n .bit).reads.within tree rounds data s hs
  rw [hwidth] at hread
  exact hread h

/-- Where there is not, the cursor stops at the end. -/
theorem Parser.denote_count_bits_of_lt (hs : s.Over data) (hn : 0 < n)
    (h : bitSize data < s.index + n) :
    (Parser.count n .bit).denote tree rounds s = .done (s.exhaustBits data) := by
  rw [Parser.count, if_neg (Nat.ne_of_gt hn), Parser.denote_sequence_of_live hs.live,
    denoteAll_bits_of_lt [] hs hn h]

/-- An unsigned field within the buffer is read as the number it is. -/
theorem Parser.denote_uint_of_le (hs : s.Over data) (h : s.index + n ≤ bitSize data) :
    (Parser.uint n).denote tree rounds s =
      .done (s.advance (s.index + n) (.int (field data s.index n))) := by
  rw [Parser.uint, Parser.denote_mapPure_of_live hs.live (denote_count_bits_of_le hs h) hs.live]
  show Outcome.done (s.advance _ (.int (foldBits (Value.list _).bits))) = _
  rw [foldBits_bitsFrom h]
  rfl

/-- An unsigned field that does not fit into the buffer uses up all its bits. -/
theorem Parser.denote_uint_of_lt (hs : s.Over data) (hn : 0 < n) (h : bitSize data < s.index + n) :
    (Parser.uint n).denote tree rounds s = .done (s.exhaustBits data) :=
  Parser.denote_map_of_failed hs.live (denote_count_bits_of_lt hs hn h) rfl

/-- A signed field within the buffer is read as its number in two's complement. -/
theorem Parser.denote_sint_of_le (hs : s.Over data) (h : s.index + n ≤ bitSize data) :
    (Parser.sint n).denote tree rounds s =
      .done (s.advance (s.index + n) (.int ((field data s.index n : Int).bmod (2 ^ n)))) := by
  rw [Parser.sint, Parser.denote_mapPure_of_live hs.live (denote_count_bits_of_le hs h) hs.live]
  show Outcome.done (s.advance _ (.int (foldSigned (Value.list _).bits))) = _
  rw [foldSigned_bitsFrom h]
  rfl

/-- A signed field that does not fit into the buffer uses up all its bits. -/
theorem Parser.denote_sint_of_lt (hs : s.Over data) (hn : 0 < n) (h : bitSize data < s.index + n) :
    (Parser.sint n).denote tree rounds s = .done (s.exhaustBits data) :=
  Parser.denote_map_of_failed hs.live (denote_count_bits_of_lt hs hn h) rfl

/-- A read that begins within the buffer ends with it. -/
theorem State.exhaustBits_runsOut (h : s.index ≤ bitSize data) :
    (s.exhaustBits data).RunsOut data := by
  refine ⟨rfl, ?_, rfl⟩
  show (if _ then _ else _ : State).index = _
  split
  · rfl
  · omega

end

/-- Unsigned fields. -/
def BitReader.uint (width : Nat) : BitReader where
  parser := .uint width
  width := width
  value data i := .int (field data i width)
  immediate := ⟨trivial, (BitReader.count width .bit).immediate⟩
  reads := by
    constructor
    · intro tree rounds data s hs hle
      exact Parser.denote_uint_of_le hs hle
    · intro tree rounds data s hs hstart hlt
      exact ⟨_, Parser.denote_uint_of_lt hs (by omega) hlt, State.exhaustBits_runsOut hstart⟩

/-- Signed fields. -/
def BitReader.sint (width : Nat) : BitReader where
  parser := .sint width
  width := width
  value data i := .int ((field data i width : Int).bmod (2 ^ width))
  immediate := ⟨trivial, (BitReader.count width .bit).immediate⟩
  reads := by
    constructor
    · intro tree rounds data s hs hle
      exact Parser.denote_sint_of_le hs hle
    · intro tree rounds data s hs hstart hlt
      exact ⟨_, Parser.denote_sint_of_lt hs (by omega) hlt, State.exhaustBits_runsOut hstart⟩

end ParserAlgebra
