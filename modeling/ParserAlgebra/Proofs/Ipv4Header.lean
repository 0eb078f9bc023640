import ParserAlgebra.Ipv4
import ParserAlgebra.Proofs.IntegerField

/-!
What reading a header gives, for every buffer.

# The three ways it ends

The fixed fields take twenty bytes. Where the buffer is shorter, one of them runs out. Otherwise the
second field announces the length of the header in words of four bytes. Up to five words there is
nothing more to read, and above that the further words are read byte by byte, until they are all
read or the buffer runs out. Whichever read runs out, the cursor is then at the end of the buffer,
because every read of bits takes what is there.

# The fields

The fixed fields are readers of a fixed width in a row, so the value of each is the field of the
buffer at the sum of the widths before it. The announced length is the field of width four at
offset four, which is the low half of the first byte.
-/
namespace ParserAlgebra.Ipv4

open Input (bitSize field)

-- ================================================================ tables of fields

/-- A key that no entry is alike to is added at the end. -/
theorem insertEntry_of_notMem (name : String) (value : Value) (entries : List (String × Value))
    (h : name ∉ entries.map Prod.fst) :
    Value.insertEntry (.text name) value (entries.map fun e => (.text e.1, e.2)) =
      (entries ++ [(name, value)]).map fun e => (.text e.1, e.2) := by
  induction entries with
  | nil => rfl
  | cons e entries ih =>
      rw [List.map_cons, List.mem_cons, not_or] at h
      have hdiffer : ¬(Value.text e.1).alike (.text name) = true := by
        simpa [Value.alike, Value.word?] using h.1
      rw [List.map_cons, Value.insertEntry, if_neg hdiffer, ih h.2]
      rfl

/-- Fields with different names are all added, in their order. -/
theorem addFields_of_nodup (new : List (String × Value)) :
    ∀ old : List (String × Value), ((old ++ new).map Prod.fst).Nodup →
      addFields (new.map fun e => .field (.text e.1) e.2) (old.map fun e => (.text e.1, e.2)) =
        .ok ((old ++ new).map fun e => (.text e.1, e.2)) := by
  induction new with
  | nil => intro old _; rw [List.append_nil]; rfl
  | cons e new ih =>
      intro old hnodup
      have hnew : e.1 ∉ old.map Prod.fst := by
        rw [List.map_append, List.nodup_append] at hnodup
        intro hmem
        exact hnodup.2.2 _ hmem _ (List.mem_cons_self ..) rfl
      have hassoc : old ++ e :: new = old ++ [(e.1, e.2)] ++ new := by simp
      rw [hassoc] at hnodup ⊢
      have hkey : (Value.text e.1).isKey = true := by simp [Value.isKey]
      rw [List.map_cons, addFields]
      show (if (Value.text e.1).isKey = true then addFields _ _ else _) = _
      rw [if_pos hkey, insertEntry_of_notMem _ _ _ hnew]
      exact ih _ hnodup

/-- Fields of different names make a table with an entry for each. -/
theorem fieldsByType_of_nodup {entries : List (String × Value)}
    (h : (entries.map Prod.fst).Nodup) :
    fieldsByType (.list (entries.map fun e => .field (.text e.1) e.2)) =
      .ok (.table (entries.map fun e => (.text e.1, e.2))) := by
  rw [fieldsByType]
  have hadd := addFields_of_nodup entries [] h
  rw [List.map_nil, List.nil_append] at hadd
  rw [hadd]
  rfl

-- ================================================================ the fixed fields

/-- The bit offset of a fixed field: the widths of those before it. -/
def offset (k : Nat) : Nat :=
  ((layout.take k).map Prod.snd).sum

/-- The reader of a fixed field. -/
def fieldReader (entry : String × Nat) : BitReader :=
  (BitReader.uint entry.2).map (.field (.text entry.1))

/-- The names and values of fields in a row. -/
def entriesFrom (data : Array UInt8) : Nat → List (String × Nat) → List (String × Value)
  | _, [] => []
  | o, (name, width) :: rest =>
    (name, .int (field data o width)) :: entriesFrom data (o + width) rest

/-- The readers of named fields give the fields under their names. -/
theorem values_fieldReader (data : Array UInt8) (fields : List (String × Nat)) :
    ∀ o : Nat, BitReader.values data o (fields.map fieldReader) =
      (entriesFrom data o fields).map fun e => .field (.text e.1) e.2 := by
  induction fields with
  | nil => intro o; rfl
  | cons entry fields ih =>
      intro o
      obtain ⟨name, width⟩ := entry
      rw [List.map_cons, BitReader.values, entriesFrom, List.map_cons, ih]
      rfl

theorem map_fst_entriesFrom (data : Array UInt8) (fields : List (String × Nat)) :
    ∀ o : Nat, (entriesFrom data o fields).map Prod.fst = fields.map Prod.fst := by
  induction fields with
  | nil => intro o; rfl
  | cons entry fields ih =>
      intro o
      obtain ⟨name, width⟩ := entry
      rw [entriesFrom, List.map_cons, List.map_cons, ih]

/-- All fixed fields of a buffer. -/
def fixedEntries (data : Array UInt8) : List (String × Value) :=
  entriesFrom data 0 layout

/-- Names and values as fields. -/
def asFields (entries : List (String × Value)) : List Value :=
  entries.map fun e => .field (.text e.1) e.2

/-- A fixed field stands at the sum of the widths before it. -/
theorem getElem?_fixedEntries (data : Array UInt8) {k : Nat} {name : String} {width : Nat}
    (h : layout[k]? = some (name, width)) :
    (asFields (fixedEntries data))[k]? =
      some (.field (.text name) (.int (field data (offset k) width))) := by
  have hwidth : BitReader.totalWidth ((layout.map fieldReader).take k) = offset k := by
    rw [← List.map_take, BitReader.totalWidth, List.map_map]
    rfl
  rw [asFields, fixedEntries, ← values_fieldReader, BitReader.getElem?_values, List.getElem?_map, h,
    hwidth, Nat.zero_add]
  rfl

-- ================================================================ the options

/-- The words that a buffer announces: the low half of its first byte. -/
def announcedWords (data : Array UInt8) : Nat :=
  (data.getD 0 0).toNat % 16

/-- The announced words are the field of width four at offset four. -/
theorem field_announcedWords {data : Array UInt8} (h : 0 < data.size) :
    field data 4 4 = announcedWords data := by
  have hbyte := Input.field_byte data h
  have hshift : bitSize data - 4 - 4 = bitSize data - 8 * 0 - 8 := by omega
  have hfirst : data.getD 0 0 = data[0] := by rw [Array.getD, dif_pos h]; rfl
  rw [announcedWords, hfirst, ← hbyte, field, field, hshift, Nat.mod_mod_of_dvd _ (by decide)]
  rfl

/-- The bytes of a buffer from `lo` up to `hi`, as results. -/
def octets (data : Array UInt8) (lo hi : Nat) : List Value :=
  (data.extract lo hi).toList.map fun b => .int b.toNat

/-- Bytes that are read one by one are those of the buffer. -/
theorem values_octets {data : Array UInt8} {lo n : Nat} (h : lo + n ≤ data.size) :
    BitReader.values data (8 * lo) (List.replicate n (.uint 8)) = octets data lo (lo + n) := by
  rw [BitReader.values_uint, Input.fields_extract h, List.map_map]
  rfl

-- ================================================================ the whole header

/-- The fields of a header: the fixed ones, and the options where words are left for them. -/
def entries (data : Array UInt8) : List (String × Value) :=
  fixedEntries data ++
    if 5 < announcedWords data then
      [("Options", .list (octets data 20 (4 * announcedWords data)))]
    else []

/-- What the fields of a header are, field by field. -/
structure Lists (data : Array UInt8) (fields : List Value) : Prop where
  fixed : ∀ k name width, layout[k]? = some (name, width) →
    fields[k]? = some (Value.field (.text name) (.int (field data (offset k) width)))
  length : fields.length = if 5 < announcedWords data then 14 else 13
  options : 5 < announcedWords data → fields[13]? =
    some (Value.field (.text "Options") (.list (octets data 20 (4 * announcedWords data))))

/-- The result lists the fields of the header. -/
theorem lists_entries (data : Array UInt8) : Lists data (asFields (entries data)) := by
  have hfields : asFields (entries data) = asFields (fixedEntries data) ++
      asFields (if 5 < announcedWords data then
        [("Options", .list (octets data 20 (4 * announcedWords data)))] else []) := by
    rw [entries, asFields, List.map_append]
    rfl
  have hfixed : (asFields (fixedEntries data)).length = 13 := rfl
  constructor
  · intro k name width hk
    have hlt : k < 13 := (List.getElem?_eq_some_iff.mp hk).1
    rw [hfields, List.getElem?_append_left (by omega), getElem?_fixedEntries data hk]
  · rw [hfields, List.length_append, hfixed]
    split
    · rfl
    · rfl
  · intro hoptions
    rw [hfields, List.getElem?_append_right (by omega), hfixed, if_pos hoptions]
    rfl

/-- The fields have different names. -/
theorem nodup_entries (data : Array UInt8) : ((entries data).map Prod.fst).Nodup := by
  rw [entries, List.map_append, fixedEntries, map_fst_entriesFrom]
  split
  · show (layout.map Prod.fst ++ ["Options"]).Nodup
    decide
  · decide

section

variable {tree : Deferred → State → Outcome State} {rounds : Nat} {data : Array UInt8} {s : State}

/-- Twenty bytes have all fixed fields. -/
theorem denote_fixedHeader_of_le (hs : s.Over data) (hstart : s.index = 0) (h : 20 ≤ data.size) :
    fixedHeader.denote tree rounds s =
      .done (s.advance 160 (.list (asFields (fixedEntries data)))) := by
  have hread := (BitReader.sequence (layout.map fieldReader)).reads.within tree rounds data s hs
  have hwidth : (BitReader.sequence (layout.map fieldReader)).width = 160 := rfl
  have hsize : s.index + 160 ≤ bitSize data := by rw [hstart, bitSize]; omega
  rw [hwidth] at hread
  refine (hread hsize).trans ?_
  rw [asFields, fixedEntries, ← values_fieldReader, hstart]
  rfl

/-- Fewer bytes run out. -/
theorem denote_fixedHeader_of_lt (hs : s.Over data) (hstart : s.index = 0) (h : data.size < 20) :
    ∃ t, fixedHeader.denote tree rounds s = .done t ∧ t.RunsOut data := by
  have hread := (BitReader.sequence (layout.map fieldReader)).reads.beyond tree rounds data s hs
  have hwidth : (BitReader.sequence (layout.map fieldReader)).width = 160 := rfl
  rw [hwidth, hstart] at hread
  exact hread (Nat.zero_le _) (by rw [bitSize]; omega)

/-- The length that the parser goes by is the announced one. -/
theorem headerLength_fixedEntries (h : 0 < data.size) :
    headerLength (.list (asFields (fixedEntries data))) = announcedWords data := by
  rw [← field_announcedWords h]
  rfl

/-- The octets of the words after the fifth. -/
theorem optionsLength_toNat (words : Nat) :
    (optionsLength (words : Int)).toNat = 4 * (words - 5) := by
  rw [optionsLength, minLength, wordOctets]
  omega

/-- Reads the octets of the words after the fifth. -/
def optionsReader (words : Nat) : BitReader :=
  .count (4 * (words - 5)) (.uint 8)

/-- Up to five words nothing follows the fixed fields. -/
theorem options_of_le {fields : Value} {words : Nat} (hfields : headerLength fields = words)
    (h : words ≤ 5) : options fields = .succeed fields := by
  have hle : headerLength fields ≤ minLength := by
    rw [hfields, minLength]
    omega
  rw [options, if_pos hle]

/-- Beyond five words the header has options. -/
theorem options_of_lt {fields : Value} {words : Nat} (hfields : headerLength fields = words)
    (h : 5 < words) :
    options fields = (optionsReader words).parser.mapPure
      fun octets => appendField fields (.field (.text "Options") octets) := by
  have hlt : ¬headerLength fields ≤ minLength := by
    rw [hfields, minLength]
    omega
  rw [options, if_neg hlt, hfields, optionsLength_toNat]
  rfl

/-- The state after the fixed fields. -/
def afterFixed (s : State) (data : Array UInt8) : State :=
  s.advance 160 (.list (asFields (fixedEntries data)))

/-- A header is its fixed fields, if they are all there, and then its options. -/
theorem denote_header (hs : s.Over data) (hstart : s.index = 0) (h : 20 ≤ data.size) :
    header.denote tree rounds s =
      (options (.list (asFields (fixedEntries data)))).denote tree rounds (afterFixed s data) :=
  Parser.denote_chain_of_live hs.live (denote_fixedHeader_of_le hs hstart h) hs.live

/-- A buffer that holds the announced words is read as its fields. -/
theorem denote_header_of_le (hs : s.Over data) (hstart : s.index = 0) (h : 20 ≤ data.size)
    (hwords : 4 * announcedWords data ≤ data.size) :
    header.denote tree rounds s =
      .done (s.advance (32 * max 5 (announcedWords data)) (.list (asFields (entries data)))) := by
  have hpos : 0 < data.size := by omega
  have hafter : (afterFixed s data).Over data := hs.advance _ _
  have hlength := headerLength_fixedEntries hpos
  rw [denote_header hs hstart h, entries]
  by_cases hoptions : 5 < announcedWords data
  · have hsize : 160 + 4 * (announcedWords data - 5) * 8 ≤ bitSize data := by
      rw [bitSize]
      omega
    have hread := (optionsReader (announcedWords data)).reads.within tree rounds data
      (afterFixed s data) hafter hsize
    have hend : 20 + 4 * (announcedWords data - 5) = 4 * announcedWords data := by omega
    have hfits : 20 + 4 * (announcedWords data - 5) ≤ data.size := by omega
    have hindex : 160 + 4 * (announcedWords data - 5) * 8 = 32 * max 5 (announcedWords data) := by
      omega
    have hoctets := values_octets hfits
    rw [hend] at hoctets
    rw [options_of_lt hlength hoptions, if_pos hoptions,
      Parser.denote_mapPure_of_live hafter.live hread hafter.live]
    show Outcome.done (s.advance (160 + 4 * (announcedWords data - 5) * 8)
      (appendField _ (.field _ (.list (BitReader.values data (8 * 20) _))))) = _
    rw [hoctets, hindex, asFields, asFields, List.map_append]
    rfl
  · have hle := Nat.le_of_not_lt hoptions
    rw [options_of_le hlength hle, if_neg hoptions, Nat.max_eq_left hle, List.append_nil,
      Parser.denote, if_neg (State.not_failed hafter.live)]
    rfl

/-- A buffer that ends before the announced words do runs out. -/
theorem denote_header_of_lt (hs : s.Over data) (hstart : s.index = 0)
    (h : data.size < 20 ∨ data.size < 4 * announcedWords data) :
    ∃ t, header.denote tree rounds s = .done t ∧ t.RunsOut data := by
  by_cases hshort : data.size < 20
  · obtain ⟨t, ht, hout⟩ : ∃ t, fixedHeader.denote tree rounds s = .done t ∧ t.RunsOut data :=
      denote_fixedHeader_of_lt hs hstart hshort
    exact ⟨t, Parser.denote_chain_of_failed hs.live ht hout.failed, hout⟩
  · have hlong := Nat.le_of_not_lt hshort
    have hwords := h.resolve_left hshort
    have hpos : 0 < data.size := by omega
    have hafter : (afterFixed s data).Over data := hs.advance _ _
    have hroom : 160 ≤ bitSize data := by
      rw [bitSize]
      omega
    have hmissing : bitSize data < 160 + 4 * (announcedWords data - 5) * 8 := by
      rw [bitSize]
      omega
    obtain ⟨t, ht, hout⟩ := (optionsReader (announcedWords data)).reads.beyond tree rounds data
      (afterFixed s data) hafter hroom hmissing
    refine ⟨t, ?_, hout⟩
    rw [denote_header hs hstart hlong, options_of_lt (headerLength_fixedEntries hpos) (by omega)]
    exact Parser.denote_map_of_failed hafter.live ht hout.failed

end

-- ================================================================ complete runs

/-- Nothing in a header is deferred. -/
theorem immediate_header : header.Every Parser.Immediate := by
  refine ⟨trivial, (BitReader.sequence (layout.map fieldReader)).immediate, fun value => ?_⟩
  unfold options
  split
  · trivial
  · exact ⟨trivial, Parser.immediate_count (BitReader.uint 8).immediate _⟩

/-- Reading a header, for every buffer. It succeeds exactly where the buffer holds twenty bytes and
the announced words. Then the cursor is behind the header, the result lists its fields, and looking
them up by type finds each of them. Otherwise the read runs out. -/
theorem run_header (rules : Rules) (fuel frame : Nat) (kind : BufferKind) (data : Array UInt8)
    (session : Session) :
    ∃ t, (header.run rules fuel frame (.buffer kind data) session).1 = .done t ∧
      (t.failed = false ↔ 20 ≤ data.size ∧ 4 * announcedWords data ≤ data.size) ∧
      (t.failed = false →
        t.index = 32 * max 5 (announcedWords data) ∧
        ∃ fields entries, t.result = .list fields ∧ Lists data fields ∧
          fieldsByType t.result = .ok (.table entries) ∧
          fields = entries.map fun e => Value.field e.1 e.2) ∧
      (t.failed = true →
        t.index = 8 * data.size ∧ t.error = .text "Bit: Unexpected end of input") := by
  have hs : (State.initial (.buffer kind data)).Over data := ⟨rfl, kind, rfl⟩
  rw [Parser.run_fst, Parser.eval_of_immediate immediate_header]
  by_cases h : 20 ≤ data.size ∧ 4 * announcedWords data ≤ data.size
  · refine ⟨_, denote_header_of_le hs rfl h.1 h.2, ⟨fun _ => h, fun _ => rfl⟩, fun _ => ?_,
      fun hfailed => Bool.noConfusion hfailed⟩
    refine ⟨rfl, asFields (entries data), _, rfl, lists_entries data,
      fieldsByType_of_nodup (nodup_entries data), ?_⟩
    rw [List.map_map]
    rfl
  · have hshort : data.size < 20 ∨ data.size < 4 * announcedWords data := by omega
    obtain ⟨t, ht, hout⟩ :
        ∃ t, header.denote (fun _ _ => Outcome.exhausted) fuel (.initial (.buffer kind data)) =
          .done t ∧ t.RunsOut data :=
      denote_header_of_lt hs rfl hshort
    refine ⟨t, ht, ?_, ?_, fun _ => ⟨hout.index, hout.error⟩⟩
    · rw [hout.failed]
      exact ⟨fun hlive => Bool.noConfusion hlive, fun hfits => absurd hfits h⟩
    · rw [hout.failed]
      exact fun hlive => Bool.noConfusion hlive

end ParserAlgebra.Ipv4
