import Mathlib.Data.List.Forall2
import Mathlib.Tactic.LinearCombination
import ParserAlgebra.Proofs.BitField
import ParserAlgebra.Proofs.Counting

/-!
Layouts of bit fields, written and read back.

# Writing

A layout is a list of fields, each with a sign and a width. It is written by writing one integer
for each field as its last binary places, most significant first (`Bits.ofInt`); negative integers
have infinitely many leading ones, so this is two's complement. The bits of all fields stand side
by side (`Layout.pack`), whatever bits come before and after them, and eight bits at a time make a
byte (`Bits.toBytes`).

# Reading

`Layout.unpack` cuts bits at the widths and takes each piece for a number in the range of its field.
It undoes `pack` for integers in range, and `pack` undoes it for any bits. Neither fact mentions
bytes or parsers: bits of a width are the same thing as numbers below the power of two of that
width (`Bits.ofInt_eq_iff`), and the residues modulo that power have one representative each in the
range of a field, signed or not (`BitField.decode_of_holds`, `BitField.decode_emod`).

The parser of a layout unpacks the bits that its cursor is at (`Layout.values_readers`). This is
where the bits of a buffer meet its number: a field of the number is the number of a slice of the
bits.
-/
namespace ParserAlgebra

open Input (bitSize field number numberOf)

-- ================================================================ bits

namespace Bits

/-- The number that bits write, most significant first. -/
def toNat (bits : List Bool) : Nat :=
  bits.foldl (fun n b => 2 * n + b.toNat) 0

/-- The last `width` binary places of an integer, most significant first. -/
def ofInt : (width : Nat) → Int → List Bool
  | 0, _ => []
  | width + 1, v => decide (v / 2 ^ width % 2 = 1) :: ofInt width v

/-- A number so far is doubled for each bit behind it. -/
theorem foldl_bits (bits : List Bool) :
    ∀ n : Nat, bits.foldl (fun n b => 2 * n + b.toNat) n = n * 2 ^ bits.length + toNat bits := by
  induction bits with
  | nil => intro n; simp [toNat]
  | cons b bits ih =>
      intro n
      rw [toNat, List.foldl_cons, List.foldl_cons, ih, ih (2 * 0 + b.toNat), List.length_cons,
        Nat.pow_succ]
      ring

/-- The number of the front is moved up by the bits of the back. -/
theorem toNat_append (front back : List Bool) :
    toNat (front ++ back) = toNat front * 2 ^ back.length + toNat back := by
  rw [toNat, List.foldl_append, foldl_bits]
  rfl

theorem toNat_cons (b : Bool) (bits : List Bool) :
    toNat (b :: bits) = b.toNat * 2 ^ bits.length + toNat bits := by
  rw [← List.singleton_append, toNat_append]
  simp [toNat]

/-- Some bits write less than that power of two. -/
theorem toNat_lt (bits : List Bool) : toNat bits < 2 ^ bits.length := by
  induction bits with
  | nil => simp [toNat]
  | cons b bits ih =>
      have hle := Nat.mul_le_mul_right (2 ^ bits.length) b.toNat_le
      rw [toNat_cons, List.length_cons, Nat.pow_succ]
      omega

/-- Bits of one length are told apart by their number. -/
theorem toNat_inj :
    ∀ {bits other : List Bool}, bits.length = other.length → toNat bits = toNat other →
      bits = other := by
  intro bits
  induction bits with
  | nil => intro other hlength _; exact (List.length_eq_zero_iff.mp hlength.symm).symm
  | cons b bits ih =>
      intro other hlength hnumber
      cases other with
      | nil => cases hlength
      | cons c other =>
          have hrest : bits.length = other.length := Nat.succ.inj hlength
          have hbits := toNat_lt bits
          have hother := toNat_lt other
          rw [toNat_cons, toNat_cons, hrest] at hnumber
          rw [hrest] at hbits
          cases b <;> cases c <;> simp only [Bool.toNat_true, Bool.toNat_false] at hnumber
          · rw [ih hrest (by omega)]
          · omega
          · omega
          · rw [ih hrest (by omega)]

/-- As many bits are written as the field is wide. -/
@[simp] theorem length_ofInt : ∀ (width : Nat) (v : Int), (ofInt width v).length = width := by
  intro width
  induction width with
  | zero => intro v; rfl
  | succ width ih => intro v; rw [ofInt, List.length_cons, ih]

/-- The residue modulo a power of two is the next place and the residue modulo the power below. -/
theorem emod_two_pow_succ (width : Nat) (v : Int) :
    v % 2 ^ (width + 1) = v / 2 ^ width % 2 * 2 ^ width + v % 2 ^ width := by
  have hpos : (0 : Int) < 2 ^ width := by positivity
  have hlow := Int.emod_nonneg v (Int.ne_of_gt hpos)
  have hhigh := Int.emod_lt_of_pos v hpos
  have hsplit : v = v / 2 ^ width % 2 * 2 ^ width + v % 2 ^ width +
      2 ^ (width + 1) * (v / 2 ^ width / 2) := by
    have hv := Int.emod_add_mul_ediv v (2 ^ width)
    have hq := Int.emod_add_mul_ediv (v / 2 ^ width) 2
    rw [pow_succ]
    linear_combination -hv - 2 ^ width * hq
  have hbit : v / 2 ^ width % 2 = 0 ∨ v / 2 ^ width % 2 = 1 := by omega
  conv_lhs => rw [hsplit]
  rw [Int.add_mul_emod_self_left]
  rcases hbit with hbit | hbit
  · rw [hbit, Int.emod_eq_of_lt (by omega) (by rw [pow_succ]; omega)]
  · rw [hbit, Int.emod_eq_of_lt (by omega) (by rw [pow_succ]; omega)]

/-- The places of an integer write its residue. -/
theorem toNat_ofInt (width : Nat) (v : Int) : (toNat (ofInt width v) : Int) = v % 2 ^ width := by
  induction width with
  | zero => simp [ofInt, toNat]
  | succ width ih =>
      have hbit : ((decide (v / 2 ^ width % 2 = 1)).toNat : Int) = v / 2 ^ width % 2 := by
        by_cases h : v / 2 ^ width % 2 = 1
        · simp [h]
        · simp [h]
          omega
      rw [ofInt, toNat_cons, length_ofInt, emod_two_pow_succ, ← ih]
      push_cast
      rw [hbit]

/-- Bits are the places of an integer exactly if they write its residue. -/
theorem ofInt_eq_iff {width : Nat} {v : Int} {bits : List Bool} (h : bits.length = width) :
    ofInt width v = bits ↔ v % 2 ^ width = toNat bits := by
  constructor
  · intro hbits
    rw [← hbits, toNat_ofInt]
  · intro hresidue
    apply toNat_inj
    · rw [length_ofInt, h]
    · have hnumber := (toNat_ofInt width v).trans hresidue
      exact_mod_cast hnumber

-- ================================================================ bits of bytes

/-- The bits of bytes, the most significant bit of each byte first. -/
def ofBytes (bytes : List UInt8) : List Bool :=
  bytes.flatMap fun b => ofInt 8 b.toNat

/-- The first `count` bytes that bits make up. -/
def firstBytes : (count : Nat) → List Bool → List UInt8
  | 0, _ => []
  | count + 1, bits => UInt8.ofNat (toNat (bits.take 8)) :: firstBytes count (bits.drop 8)

/-- The bytes that bits make up. -/
def toBytes (bits : List Bool) : List UInt8 :=
  firstBytes (bits.length / 8) bits

/-- A byte has eight bits. -/
theorem length_ofBytes (bytes : List UInt8) : (ofBytes bytes).length = 8 * bytes.length := by
  induction bytes with
  | nil => rfl
  | cons b bytes ih =>
      rw [ofBytes, List.flatMap_cons, List.length_append, length_ofInt, List.length_cons]
      have hrest : (bytes.flatMap fun b => ofInt 8 b.toNat).length = _ := ih
      omega

/-- Whole bytes of bits are read back as they were. -/
theorem ofBytes_firstBytes :
    ∀ {count : Nat} {bits : List Bool}, bits.length = 8 * count →
      ofBytes (firstBytes count bits) = bits := by
  intro count
  induction count with
  | zero => intro bits h; exact (List.length_eq_zero_iff.mp h).symm
  | succ count ih =>
      intro bits h
      have hfirst : (bits.take 8).length = 8 := by
        rw [List.length_take]
        omega
      have hlt := toNat_lt (bits.take 8)
      rw [hfirst] at hlt
      have hbyte : ofInt 8 (UInt8.ofNat (toNat (bits.take 8))).toNat = bits.take 8 := by
        rw [ofInt_eq_iff hfirst, UInt8.toNat_ofNat']
        omega
      have hrest : ofBytes (firstBytes count (bits.drop 8)) = bits.drop 8 :=
        ih (by rw [List.length_drop]; omega)
      rw [firstBytes, ofBytes, List.flatMap_cons, hbyte]
      exact (congrArg (bits.take 8 ++ ·) hrest).trans (List.take_append_drop 8 bits)

/-- Bits that make up whole bytes are the bits of these bytes. -/
theorem ofBytes_toBytes {bits : List Bool} (h : 8 ∣ bits.length) : ofBytes (toBytes bits) = bits :=
  ofBytes_firstBytes (Nat.mul_div_cancel' h).symm

/-- Bytes write the number that their bits write. -/
theorem toNat_ofBytes (bytes : List UInt8) : toNat (ofBytes bytes) = numberOf bytes := by
  induction bytes with
  | nil => rfl
  | cons b bytes ih =>
      have hlt : b.toNat < 256 := b.toNat_lt
      have hbyte : toNat (ofInt 8 b.toNat) = b.toNat := by
        have hresidue := toNat_ofInt 8 b.toNat
        omega
      have hone : numberOf [b] = b.toNat := by simp [numberOf]
      rw [ofBytes, List.flatMap_cons, toNat_append, hbyte]
      show b.toNat * 2 ^ (ofBytes bytes).length + toNat (ofBytes bytes) = _
      rw [length_ofBytes, ih, ← List.singleton_append, Input.numberOf_append, hone, Nat.pow_mul]

/-- A field of a buffer is the number of a slice of its bits. -/
theorem field_eq_toNat {data : Array UInt8} {i width : Nat} (h : i + width ≤ bitSize data) :
    field data i width = toNat (((ofBytes data.toList).drop i).take width) := by
  have hlength : (ofBytes data.toList).length = bitSize data := length_ofBytes data.toList
  have hnumber : number data = toNat (ofBytes data.toList) := (toNat_ofBytes data.toList).symm
  generalize ofBytes data.toList = bits at hlength hnumber
  have hslice : ((bits.drop i).take width).length = width := by
    rw [List.length_take, List.length_drop]
    omega
  have hback : ((bits.drop i).drop width).length = bitSize data - i - width := by
    rw [List.length_drop, List.length_drop]
    omega
  have hlt := toNat_lt ((bits.drop i).drop width)
  have hslicelt := toNat_lt ((bits.drop i).take width)
  rw [hback] at hlt
  rw [hslice] at hslicelt
  have hsplit : bits = bits.take i ++ ((bits.drop i).take width ++ (bits.drop i).drop width) := by
    rw [List.take_append_drop, List.take_append_drop]
  rw [field, hnumber]
  conv_lhs => rw [hsplit]
  -- what stands behind the slice is lost in the division, what stands before it in the remainder
  rw [← List.append_assoc, toNat_append, hback, Nat.mul_comm, Nat.mul_add_div (Nat.two_pow_pos _),
    Nat.div_eq_of_lt hlt, Nat.add_zero, toNat_append, hslice, Nat.mul_comm, Nat.mul_add_mod,
    Nat.mod_eq_of_lt hslicelt]

end Bits

-- ================================================================ fields

/-- A field of a layout: how its bits are read, and how many they are. -/
structure BitField where
  sign : Signedness
  width : Nat
  positive : 0 < width := by decide
  narrow : width ≤ maxWidth := by decide

namespace BitField

/-- The integers that a field can hold. -/
def Holds (f : BitField) (v : Int) : Prop :=
  match f.sign with
  | .unsigned => 0 ≤ v ∧ v < 2 ^ f.width
  | .signed => -2 ^ (f.width - 1) ≤ v ∧ v < 2 ^ (f.width - 1)

/-- The integer that a number stands for in a field. -/
def decode (f : BitField) (n : Nat) : Int :=
  match f.sign with
  | .unsigned => n
  | .signed => (n : Int).bmod (2 ^ f.width)

/-- The reader of a field. -/
def reader (f : BitField) : BitReader :=
  match f.sign with
  | .unsigned => .uint f.width
  | .signed => .sint f.width

variable {f : BitField}

/-- The numbers of a field's width, in two halves. -/
theorem two_pow_width (f : BitField) :
    ((2 ^ f.width : Nat) : Int) = 2 * 2 ^ (f.width - 1) := by
  rw [← pow_succ', Nat.sub_add_cancel f.positive]
  push_cast
  rfl

/-- A number stands for the one integer in range that has it as its residue. -/
theorem decode_of_holds {v : Int} {n : Nat} (hv : f.Holds v) (hn : v % 2 ^ f.width = n) :
    f.decode n = v := by
  have hhalf := f.two_pow_width
  unfold Holds at hv
  unfold decode
  cases hsign : f.sign with
  | unsigned =>
      rw [hsign] at hv
      show (n : Int) = v
      rw [← hn, Int.emod_eq_of_lt hv.1 hv.2]
  | signed =>
      rw [hsign] at hv
      show (n : Int).bmod (2 ^ f.width) = v
      have hresidue : (n : Int) = v % (2 ^ f.width : Nat) := by
        push_cast
        exact hn.symm
      have hlow : -2 ^ (f.width - 1) ≤ v := hv.1
      have hhigh : v < 2 ^ (f.width - 1) := hv.2
      rw [hresidue, Int.emod_bmod, Int.bmod_eq_of_le (by omega) (by omega)]

/-- Whatever number the bits of a field write, the field can hold what it stands for. -/
theorem holds_decode {n : Nat} (hn : n < 2 ^ f.width) : f.Holds (f.decode n) := by
  have hhalf := f.two_pow_width
  unfold Holds decode
  cases f.sign with
  | unsigned =>
      refine ⟨Int.natCast_nonneg n, ?_⟩
      show (n : Int) < 2 ^ f.width
      exact_mod_cast hn
  | signed =>
      have hpos := Nat.two_pow_pos f.width
      have hlow := Int.le_bmod (x := n) hpos
      have hhigh := Int.bmod_lt (x := n) hpos
      dsimp only
      rw [hhalf] at hlow hhigh
      omega

/-- A decoded field is its number again, up to the width. -/
theorem decode_emod {n : Nat} (hn : n < 2 ^ f.width) : f.decode n % 2 ^ f.width = n := by
  have hresidue : (n : Int) % (2 ^ f.width : Nat) = n := by
    rw [Int.emod_eq_of_lt (Int.natCast_nonneg n) (by exact_mod_cast hn)]
  have hcast : (2 : Int) ^ f.width = (2 ^ f.width : Nat) := by
    push_cast
    rfl
  unfold decode
  rw [hcast]
  cases f.sign with
  | unsigned => exact hresidue
  | signed => exact Int.bmod_emod.trans hresidue

theorem width_reader (f : BitField) : f.reader.width = f.width := by
  unfold reader
  cases f.sign <;> rfl

/-- The reader of a field gives its decoded number. -/
theorem value_reader (f : BitField) (data : Array UInt8) (i : Nat) :
    f.reader.value data i = .int (f.decode (field data i f.width)) := by
  unfold reader decode
  cases f.sign <;> rfl

/-- Widths of fields pass the check of widths. -/
theorem integerField_eq (f : BitField) :
    integerField f.sign (.int f.width) = .ok f.reader.parser := by
  have hpositive := f.positive
  have hnarrow := f.narrow
  unfold integerField fieldWidth
  dsimp only
  rw [if_neg (by omega), if_neg (by omega), Int.toNat_natCast]
  unfold reader
  cases f.sign <;> rfl

/-- Where a field has not all its bits, it is not read, also beyond the end of the buffer. -/
theorem denote_reader_of_lt {tree : Deferred → State → Outcome State} {rounds : Nat}
    {data : Array UInt8} {s : State} (hs : s.Over data) (h : bitSize data < s.index + f.width) :
    f.reader.parser.denote tree rounds s = .done (s.exhaustBits data) := by
  unfold reader
  cases f.sign with
  | unsigned => exact Parser.denote_uint_of_lt hs f.positive h
  | signed => exact Parser.denote_sint_of_lt hs f.positive h

end BitField

-- ================================================================ layouts

namespace Layout

/-- The bits of a layout. -/
def totalWidth (layout : List BitField) : Nat :=
  (layout.map BitField.width).sum

/-- The bits that integers have in the fields of a layout. -/
def pack : List BitField → List Int → List Bool
  | f :: layout, v :: values => Bits.ofInt f.width v ++ pack layout values
  | _, _ => []

/-- The integers that bits stand for in the fields of a layout. -/
def unpack (bits : List Bool) : List BitField → List Int
  | [] => []
  | f :: layout => f.decode (Bits.toNat (bits.take f.width)) :: unpack (bits.drop f.width) layout

/-- The parser of a layout: one checked integer field after another. -/
def parser (layout : List BitField) : Except Fault Parser := do
  let fields ← layout.mapM fun f => integerField f.sign (.int f.width)
  Argument.sequence (fields.map .parser)

/-- The parser of a layout, as readers in a row. -/
def reader (layout : List BitField) : BitReader :=
  .sequence (layout.map BitField.reader)

theorem totalWidth_cons (f : BitField) (layout : List BitField) :
    totalWidth (f :: layout) = f.width + totalWidth layout :=
  rfl

/-- The first bits of a list write a number of that width. -/
theorem toNat_take_lt (bits : List Bool) (width : Nat) :
    Bits.toNat (bits.take width) < 2 ^ width :=
  (Bits.toNat_lt _).trans_le (Nat.pow_le_pow_right (by decide) (List.length_take_le width bits))

/-- What is unpacked is in range. -/
theorem holds_unpack (layout : List BitField) :
    ∀ bits : List Bool, List.Forall₂ BitField.Holds layout (unpack bits layout) := by
  induction layout with
  | nil => intro bits; exact .nil
  | cons f layout ih =>
      intro bits
      exact .cons (BitField.holds_decode (toNat_take_lt bits f.width)) (ih _)

/-- Packing undoes unpacking, whatever the bits are. -/
theorem pack_unpack (layout : List BitField) :
    ∀ {bits : List Bool}, totalWidth layout ≤ bits.length →
      pack layout (unpack bits layout) = bits.take (totalWidth layout) := by
  induction layout with
  | nil => intro bits _; rfl
  | cons f layout ih =>
      intro bits h
      rw [totalWidth_cons] at h
      have hfirst : (bits.take f.width).length = f.width := by
        rw [List.length_take]
        omega
      have hrest : pack layout (unpack (bits.drop f.width) layout) = _ :=
        ih (by rw [List.length_drop]; omega)
      rw [unpack, pack, hrest, totalWidth_cons, List.take_add,
        (Bits.ofInt_eq_iff hfirst).mpr (BitField.decode_emod (toNat_take_lt bits f.width))]

/-- Unpacking undoes packing, whatever follows, for integers in range. -/
theorem unpack_pack {layout : List BitField} {values : List Int}
    (h : List.Forall₂ BitField.Holds layout values) (rest : List Bool) :
    unpack (pack layout values ++ rest) layout = values := by
  induction h with
  | nil => rfl
  | @cons f v layout values hv _ ih =>
      have hlength := Bits.length_ofInt f.width v
      rw [pack, unpack, List.append_assoc, List.take_left' hlength, List.drop_left' hlength, ih,
        BitField.decode_of_holds hv (Bits.toNat_ofInt f.width v).symm]

/-- Values are packed into as many bits as their fields are wide. -/
theorem length_pack {layout : List BitField} {values : List Int}
    (h : List.Forall₂ BitField.Holds layout values) :
    (pack layout values).length = totalWidth layout := by
  induction h with
  | nil => rfl
  | cons _ _ ih => rw [pack, List.length_append, Bits.length_ofInt, ih, totalWidth_cons]

-- ================================================================ the parser of a layout

/-- Parsers are collected as they are, one alone too. -/
theorem sequence_parsers (ps : List Parser) :
    Argument.sequence (ps.map .parser) = .ok (.sequence ps) := by
  unfold Argument.sequence Argument.collect
  split
  · next arg harg =>
      obtain ⟨p, rfl, rfl⟩ : ∃ p, ps = [p] ∧ arg = .parser p := by
        cases ps with
        | nil => cases harg
        | cons p ps =>
            obtain ⟨rfl, hnil⟩ := List.cons.inj harg
            rw [List.map_eq_nil_iff.mp hnil]
            exact ⟨p, rfl, rfl⟩
      rfl
  · rw [Argument.mapM_check_parsers]
    rfl

/-- A layout has its parser, so nothing is refused. -/
theorem parser_eq (layout : List BitField) : parser layout = .ok (reader layout).parser := by
  have hfields : (layout.mapM fun f => integerField f.sign (.int f.width)) =
      .ok (layout.map fun f => f.reader.parser) := by
    induction layout with
    | nil => rfl
    | cons f layout ih =>
        rw [List.mapM_cons, ih, BitField.integerField_eq]
        rfl
  show (layout.mapM _ >>= _) = _
  rw [hfields]
  show Argument.sequence ((layout.map fun f => f.reader.parser).map .parser) = _
  rw [sequence_parsers]
  show Except.ok (Parser.sequence _) = Except.ok (Parser.sequence _)
  rw [List.map_map]
  rfl

theorem width_reader (layout : List BitField) : (reader layout).width = totalWidth layout := by
  show ((layout.map BitField.reader).map BitReader.width).sum = _
  rw [List.map_map, totalWidth]
  congr 1
  exact List.map_congr_left fun f _ => f.width_reader

/-- The readers of a layout unpack the bits from their start on. -/
theorem values_readers (data : Array UInt8) (layout : List BitField) :
    ∀ i : Nat, i + totalWidth layout ≤ bitSize data →
      BitReader.values data i (layout.map BitField.reader) =
        (unpack ((Bits.ofBytes data.toList).drop i) layout).map .int := by
  induction layout with
  | nil => intro i _; rfl
  | cons f layout ih =>
      intro i h
      rw [totalWidth_cons] at h
      rw [List.map_cons, BitReader.values, f.value_reader, f.width_reader, ih _ (by omega), unpack,
        List.map_cons, Bits.field_eq_toNat (by omega), List.drop_drop]

section

variable {tree : Deferred → State → Outcome State} {rounds : Nat} {data : Array UInt8} {s t : State}

/-- Where its bits are all there, a layout is read by unpacking them. -/
theorem denote_reader_of_le {layout : List BitField} (hs : s.Over data)
    (h : s.index + totalWidth layout ≤ bitSize data) :
    (reader layout).parser.denote tree rounds s =
      .done (s.advance (s.index + totalWidth layout)
        (.list ((unpack ((Bits.ofBytes data.toList).drop s.index) layout).map .int))) := by
  have hread := (reader layout).reads.within tree rounds data s hs
  rw [width_reader] at hread
  rw [hread h]
  show Outcome.done (s.advance _ (.list (BitReader.values data s.index _))) = _
  rw [values_readers data layout s.index h]

/-- A layout with fields is read only where its bits are all there. A cursor beyond the end of the
buffer stops the first field; without fields even such a cursor is no failure. -/
theorem fits_of_live {layout : List BitField} (hs : s.Over data) (hfields : layout ≠ [])
    (hread : (reader layout).parser.denote tree rounds s = .done t) (ht : t.failed = false) :
    s.index + totalWidth layout ≤ bitSize data := by
  by_contra hlong
  have hlt := Nat.lt_of_not_le hlong
  have hfailed : t.failed = true := by
    by_cases hstart : s.index ≤ bitSize data
    · rw [← width_reader] at hlt
      obtain ⟨u, hu, hout⟩ := (reader layout).reads.beyond tree rounds data s hs hstart hlt
      obtain rfl := Outcome.done.inj (hread.symm.trans hu)
      exact hout.failed
    · cases layout with
      | nil => exact absurd rfl hfields
      | cons f layout =>
          have hfirst : f.reader.parser.denote tree rounds s = _ :=
            BitField.denote_reader_of_lt hs (by omega)
          have hall := (Parser.denote_sequence_of_live hs.live _).symm.trans hread
          rw [List.map_cons, List.map_cons, denoteAll_of_failed hfirst rfl] at hall
          obtain rfl := Outcome.done.inj hall
          rfl
  rw [ht] at hfailed
  cases hfailed

end

-- ================================================================ round trips

/-- Every layout is read back. Integers in the ranges of its fields, packed between any bits that
make up whole bytes with them, are read from where they start, and the cursor ends up behind them.
Conversely, whatever is read from anywhere in a buffer is in range, and packing it gives the bits
that the cursor has passed. -/
theorem eval_packed (layout : List BitField) (rules : Rules) (fuel frame : Nat)
    (session : Session) :
    ∃ p, parser layout = .ok p ∧
      (∀ kind values leading trailing (s : State),
        List.Forall₂ BitField.Holds layout values →
        8 ∣ (leading ++ pack layout values ++ trailing).length →
        s.failed = false →
        s.input =
          .buffer kind (Bits.toBytes (leading ++ pack layout values ++ trailing)).toArray →
        s.index = leading.length →
        (p.eval rules fuel frame s session).1 =
          .done (s.advance (leading.length + totalWidth layout) (.list (values.map .int)))) ∧
      ∀ data (s t : State), s.Over data →
        (p.eval rules fuel frame s session).1 = .done t → t.failed = false →
        ∃ values, List.Forall₂ BitField.Holds layout values ∧
          t.result = .list (values.map .int) ∧ t.index = s.index + totalWidth layout ∧
          pack layout values =
            ((Bits.ofBytes data.toList).drop s.index).take (totalWidth layout) := by
  refine ⟨(reader layout).parser, parser_eq layout, ?_, ?_⟩
  · intro kind values leading trailing s hvalues hbytes hlive hinput hstart
    rw [Parser.eval_of_immediate (reader layout).immediate]
    have hs : s.Over (Bits.toBytes (leading ++ pack layout values ++ trailing)).toArray :=
      ⟨hlive, kind, hinput⟩
    have hbits := Bits.ofBytes_toBytes hbytes
    have hsize : s.index + totalWidth layout ≤
        bitSize (Bits.toBytes (leading ++ pack layout values ++ trailing)).toArray := by
      show _ ≤ 8 * (Bits.toBytes _).length
      rw [← Bits.length_ofBytes, hbits, List.length_append, List.length_append,
        length_pack hvalues]
      omega
    rw [denote_reader_of_le hs hsize, hbits, hstart, List.append_assoc, List.drop_left,
      unpack_pack hvalues]
  · intro data s t hs hread ht
    rw [Parser.eval_of_immediate (reader layout).immediate] at hread
    by_cases hfields : layout = []
    · subst hfields
      have hnone := (Parser.denote_sequence_of_live hs.live []).symm.trans hread
      rw [denoteAll] at hnone
      obtain rfl := Outcome.done.inj hnone
      exact ⟨[], .nil, rfl, rfl, rfl⟩
    · have hfits := fits_of_live hs hfields hread ht
      rw [denote_reader_of_le hs hfits] at hread
      obtain rfl := Outcome.done.inj hread
      refine ⟨_, holds_unpack layout _, rfl, rfl, pack_unpack layout ?_⟩
      rw [List.length_drop, Bits.length_ofBytes, Array.length_toList]
      unfold bitSize at hfits
      omega

/-- Three fields across byte boundaries, the middle one negative, behind three bits. -/
theorem eval_packed_straddling :
    ∃ p, parser [⟨.unsigned, 2, by decide, by decide⟩, ⟨.signed, 7, by decide, by decide⟩,
        ⟨.unsigned, 1, by decide, by decide⟩] = .ok p ∧
      (p.eval noRules 0 0
        { input := .buffer .fixed #[0b10110110, 0b01011000], index := 3 } {}).1 =
        .done { input := .buffer .fixed #[0b10110110, 0b01011000], index := 13,
                result := .list [.int 2, .int (-27), .int 1] } := by
  obtain ⟨p, hp, hread, -⟩ := eval_packed
    [⟨.unsigned, 2, by decide, by decide⟩, ⟨.signed, 7, by decide, by decide⟩,
      ⟨.unsigned, 1, by decide, by decide⟩] noRules 0 0 {}
  refine ⟨p, hp, hread .fixed [2, -27, 1] [true, false, true] [false, false, false] _ ?_ ?_ rfl
    rfl rfl⟩
  · refine .cons ?_ (.cons ?_ (.cons ?_ .nil))
    · unfold BitField.Holds
      decide
    · unfold BitField.Holds
      decide
    · unfold BitField.Holds
      decide
  · decide

end Layout

end ParserAlgebra
