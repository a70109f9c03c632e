import TapeLang.Proofs.Elf.Reading
import TapeLang.Proofs.Elf.StringTable

/-!
# What is read of an object that was written

The parts of an object by their positions, each of which is the length of what stands before it (`write_eq`), and what
a reader makes of them: `read_write`. Of the numbers that an object holds, the format has 32 bits for the position of
a name and for the count of local symbols, and 64 for all that are as large as the file; `Fits` is about the latter.
-/

namespace TapeLang.Elf

variable {arch : Architecture} {r : Routine}

/-! ### Positions -/

/-- The names of the symbols of a routine. -/
def names (r : Routine) : StringTable := .ofNames (symbolNames r.offsets.size)

/-- The names of the sections. -/
def sectionTable : StringTable := .ofNames sectionNames

def symbolsAt (r : Routine) : Nat := headerSize + r.code.size + paddingTo8 (headerSize + r.code.size)

def namesAt (r : Routine) : Nat := symbolsAt r + symbolSize * (symbols (names r) r).length

def sectionNamesAt (r : Routine) : Nat := namesAt r + (names r).bytes.size

def sectionsEnd (r : Routine) : Nat := sectionNamesAt r + sectionTable.bytes.size

def headersAt (r : Routine) : Nat := sectionsEnd r + paddingTo8 (sectionsEnd r)

def textHeader (r : Routine) : SectionHeader :=
  { name := sectionTable.start 0, kind := 1, flags := 6, offset := headerSize, size := r.code.size, align := 16 }

def symbolsHeader (r : Routine) : SectionHeader :=
  { name := sectionTable.start 1, kind := 2, offset := symbolsAt r, size := symbolSize * (symbols (names r) r).length,
    link := 3, info := r.offsets.size + 1, align := 8, entrySize := symbolSize }

def namesHeader (r : Routine) : SectionHeader :=
  { name := sectionTable.start 2, kind := 3, offset := namesAt r, size := (names r).bytes.size, align := 1 }

def sectionNamesHeader (r : Routine) : SectionHeader :=
  { name := sectionTable.start 3, kind := 3, offset := sectionNamesAt r, size := sectionTable.bytes.size, align := 1 }

def sectionHeaders (r : Routine) : List SectionHeader :=
  [{}, textHeader r, symbolsHeader r, namesHeader r, sectionNamesHeader r]

/-- An object part by part. -/
def parts (arch : Architecture) (r : Routine) : List (List UInt8) :=
  [header (machineOf arch) (headersAt r), r.code.toList,
    List.replicate (paddingTo8 (headerSize + r.code.size)) 0, (symbols (names r) r).flatMap Symbol.encode,
    (names r).bytes.toList, sectionTable.bytes.toList, List.replicate (paddingTo8 (sectionsEnd r)) 0,
    (sectionHeaders r).flatMap SectionHeader.encode]

theorem write_eq (arch : Architecture) (r : Routine) : write arch r = (parts arch r).flatten := by
  simp only [parts, List.flatten_cons, List.flatten_nil, List.append_nil, ← List.append_assoc]
  rfl

/-! ### Records -/

/-- The numbers of a file header with their widths. -/
def headerFields (machine headersAt : Nat) : List (Nat × Nat) :=
  [(4, 0x464C457F), (1, 2), (1, 1), (1, 1), (1, 0), (1, 0), (7, 0), (2, 1), (2, machine), (4, 1), (8, 0), (8, 0),
    (8, headersAt), (4, 0), (2, headerSize), (2, 0), (2, 0), (2, sectionHeaderSize), (2, 5), (2, 4)]

theorem header_eq (machine headersAt : Nat) : header machine headersAt = record (headerFields machine headersAt) := by
  simp only [header, headerFields, record, List.flatMap_cons, List.flatMap_nil, List.append_nil, List.append_assoc]
  rfl

/-- The numbers of a section header with their widths. -/
def SectionHeader.fields (h : SectionHeader) : List (Nat × Nat) :=
  [(4, h.name), (4, h.kind), (8, h.flags), (8, 0), (8, h.offset), (8, h.size), (4, h.link), (4, h.info), (8, h.align),
    (8, h.entrySize)]

theorem SectionHeader.encode_eq (h : SectionHeader) : h.encode = record h.fields := by
  simp only [encode, fields, record, List.flatMap_cons, List.flatMap_nil, List.append_nil, List.append_assoc]

/-- The numbers of a symbol with their widths. -/
def Symbol.fields (s : Symbol) : List (Nat × Nat) :=
  [(4, s.name), (1, s.info), (1, 0), (2, s.sectionNumber), (8, s.value), (8, s.size)]

theorem Symbol.encode_eq (s : Symbol) : s.encode = record s.fields := by
  simp only [encode, fields, record, List.flatMap_cons, List.flatMap_nil, List.append_nil, List.append_assoc]

theorem length_record_cons (f : Nat × Nat) (fields : List (Nat × Nat)) :
    (record (f :: fields)).length = f.1 + (record fields).length := by
  rw [record, List.flatMap_cons, List.length_append, length_littleEndian, record]

theorem length_header (machine headersAt : Nat) : (header machine headersAt).length = headerSize := by
  rw [header_eq]
  simp only [headerFields, length_record_cons]
  rfl

theorem SectionHeader.length_encode (h : SectionHeader) : h.encode.length = sectionHeaderSize := by
  rw [encode_eq]
  simp only [fields, length_record_cons]
  rfl

theorem Symbol.length_encode (s : Symbol) : s.encode.length = symbolSize := by
  rw [encode_eq]
  simp only [fields, length_record_cons]
  rfl

theorem length_flatMap_of_length {α : Type} {f : α → List UInt8} {size : Nat} (h : ∀ x, (f x).length = size)
    (xs : List α) : (xs.flatMap f).length = size * xs.length := by
  induction xs with
  | nil => rfl
  | cons x xs ih =>
    rw [List.flatMap_cons, List.length_append, h, ih, List.length_cons, Nat.mul_add, Nat.mul_one, Nat.add_comm]

theorem length_symbols (t : StringTable) (r : Routine) : (symbols t r).length = r.offsets.size + 2 := by
  simp [symbols]

theorem length_write (arch : Architecture) (r : Routine) :
    (write arch r).length = headersAt r + sectionHeaderSize * 5 := by
  rw [write_eq]
  simp only [parts, List.flatten_cons, List.flatten_nil, List.length_append, List.length_nil, length_header,
    Array.length_toList, List.length_replicate, length_flatMap_of_length Symbol.length_encode,
    length_flatMap_of_length SectionHeader.length_encode]
  show _ = headersAt r + sectionHeaderSize * (sectionHeaders r).length
  rw [headersAt, sectionsEnd, sectionNamesAt, namesAt, symbolsAt]
  omega

/-! ### Reading records -/

/-- What is read of a section header: of the number that is told about its section there are 32 bits. -/
def SectionHeader.wrapped (h : SectionHeader) : SectionHeader := { h with info := h.info % 2 ^ 32 }

/-- The numbers of a section header are no larger than the format has bits for, but for `info`. -/
structure SectionHeader.Fits (h : SectionHeader) : Prop where
  name : h.name < 2 ^ 32
  kind : h.kind < 2 ^ 32
  flags : h.flags < 2 ^ 64
  offset : h.offset < 2 ^ 64
  size : h.size < 2 ^ 64
  link : h.link < 2 ^ 32
  align : h.align < 2 ^ 64
  entrySize : h.entrySize < 2 ^ 64

theorem SectionHeader.read?_encode {h : SectionHeader} (hfits : h.Fits) (rest : List UInt8) :
    read? (h.encode ++ rest) = some h.wrapped := by
  have hfields : readFields [4, 4, 8, 8, 8, 8, 4, 4, 8, 8] (h.encode ++ rest) =
      some [h.name % 2 ^ 32, h.kind % 2 ^ 32, h.flags % 2 ^ 64, 0, h.offset % 2 ^ 64, h.size % 2 ^ 64, h.link % 2 ^ 32,
        h.info % 2 ^ 32, h.align % 2 ^ 64, h.entrySize % 2 ^ 64] := by
    rw [encode_eq]
    exact readFields_record h.fields rest
  rw [read?, hfields, Nat.mod_eq_of_lt hfits.name, Nat.mod_eq_of_lt hfits.kind, Nat.mod_eq_of_lt hfits.flags,
    Nat.mod_eq_of_lt hfits.offset, Nat.mod_eq_of_lt hfits.size, Nat.mod_eq_of_lt hfits.link,
    Nat.mod_eq_of_lt hfits.align, Nat.mod_eq_of_lt hfits.entrySize]
  rfl

/-- What is read of a symbol: of the position of its name there are 32 bits. -/
def Symbol.resolved (table : List UInt8) (s : Symbol) : NamedSymbol :=
  ⟨nameAt table (s.name % 2 ^ 32), s.info / 16, s.info % 16, s.sectionNumber, s.value, s.size⟩

/-- The numbers of a symbol are no larger than the format has bits for, but for the position of its name, which is
one of a table. -/
structure Symbol.Fits (table : List UInt8) (s : Symbol) : Prop where
  name : s.name < table.length
  info : s.info < 2 ^ 8
  sectionNumber : s.sectionNumber < 2 ^ 16
  value : s.value < 2 ^ 64
  size : s.size < 2 ^ 64

theorem Symbol.read?_encode {table : List UInt8} (hlast : table.getLast? = some 0) {s : Symbol} (hfits : s.Fits table)
    (rest : List UInt8) : NamedSymbol.read? table (s.encode ++ rest) = some (s.resolved table) := by
  have hfields : readFields [4, 1, 1, 2, 8, 8] (s.encode ++ rest) =
      some [s.name % 2 ^ 32, s.info % 2 ^ 8, 0, s.sectionNumber % 2 ^ 16, s.value % 2 ^ 64, s.size % 2 ^ 64] := by
    rw [encode_eq]
    exact readFields_record s.fields rest
  have hname := readName?_of_lt hlast (Nat.lt_of_le_of_lt (Nat.mod_le s.name (2 ^ 32)) hfits.name)
  rw [NamedSymbol.read?, hfields, Nat.mod_eq_of_lt hfits.info, Nat.mod_eq_of_lt hfits.sectionNumber,
    Nat.mod_eq_of_lt hfits.value, Nat.mod_eq_of_lt hfits.size]
  show (readName? table (s.name % 2 ^ 32) >>= _) = _
  rw [hname]
  rfl

theorem machineOf_lt (arch : Architecture) : machineOf arch < 2 ^ 16 := by
  cases arch <;> decide

theorem FileHeader.read?_header (arch : Architecture) {headersAt : Nat} (h : headersAt < 2 ^ 64) (rest : List UInt8) :
    read? (header (machineOf arch) headersAt ++ rest) = some ⟨machineOf arch, headersAt, 5, 4⟩ := by
  have hfields : readFields [4, 1, 1, 1, 1, 1, 7, 2, 2, 4, 8, 8, 8, 4, 2, 2, 2, 2, 2, 2]
      (header (machineOf arch) headersAt ++ rest) =
      some [0x464C457F, 2, 1, 1, 0, 0, 0, 1, machineOf arch % 2 ^ 16, 1, 0, 0, headersAt % 2 ^ 64, 0, 64, 0, 0, 64, 5,
        4] := by
    rw [header_eq]
    exact readFields_record (headerFields (machineOf arch) headersAt) rest
  rw [read?, hfields, Nat.mod_eq_of_lt (machineOf_lt arch), Nat.mod_eq_of_lt h]
  rfl

/-! ### Reading sections -/

/-- Offsets of instructions are words, and so is the length of the file. -/
structure Fits (arch : Architecture) (r : Routine) : Prop where
  offset {o : Nat} (h : o ∈ r.offsets) : o < 2 ^ 64
  length : (write arch r).length < 2 ^ 64

section Parts

variable (arch r)

/-- Every part starts where the parts in front of it end. -/
theorem length_take_parts :
    ((parts arch r).take 1).flatten.length = headerSize ∧ ((parts arch r).take 3).flatten.length = symbolsAt r ∧
      ((parts arch r).take 4).flatten.length = namesAt r ∧ ((parts arch r).take 5).flatten.length = sectionNamesAt r ∧
      ((parts arch r).take 7).flatten.length = headersAt r := by
  simp only [parts, List.take_succ_cons, List.take_zero, List.flatten_cons, List.flatten_nil, List.length_append,
    List.length_nil, length_header, Array.length_toList, List.length_replicate,
    length_flatMap_of_length Symbol.length_encode]
  simp only [headersAt, sectionsEnd, sectionNamesAt, namesAt, symbolsAt]
  refine ⟨?_, ?_, ?_, ?_, ?_⟩ <;> omega

theorem slice?_text : slice? (write arch r) headerSize r.code.size = some r.code.toList := by
  rw [write_eq]
  exact slice?_flatten (k := 1) rfl (length_take_parts arch r).1.symm Array.length_toList.symm

theorem slice?_symbols : slice? (write arch r) (symbolsAt r) (symbolSize * (symbols (names r) r).length) =
    some ((symbols (names r) r).flatMap Symbol.encode) := by
  rw [write_eq]
  exact slice?_flatten (k := 3) rfl (length_take_parts arch r).2.1.symm
    (length_flatMap_of_length Symbol.length_encode _).symm

theorem slice?_names : slice? (write arch r) (namesAt r) (names r).bytes.size = some (names r).bytes.toList := by
  rw [write_eq]
  exact slice?_flatten (k := 4) rfl (length_take_parts arch r).2.2.1.symm Array.length_toList.symm

theorem slice?_sectionNames :
    slice? (write arch r) (sectionNamesAt r) sectionTable.bytes.size = some sectionTable.bytes.toList := by
  rw [write_eq]
  exact slice?_flatten (k := 5) rfl (length_take_parts arch r).2.2.2.1.symm Array.length_toList.symm

theorem drop_headersAt : (write arch r).drop (headersAt r) = (sectionHeaders r).flatMap SectionHeader.encode := by
  rw [write_eq, drop_flatten (length_take_parts arch r).2.2.2.2.symm]
  exact List.append_nil _

end Parts

theorem size_sectionTable : sectionTable.bytes.size = 33 := by
  rw [sectionTable, StringTable.size_ofNames]
  rfl

theorem start_sectionTable_lt {i : Nat} (h : i < 4) : sectionTable.start i < 33 := by
  rw [← size_sectionTable]
  exact StringTable.start_lt h

theorem SectionHeader.fits_of_lt {name kind flags offset size link info align entrySize : Nat} (hname : name < 33)
    (hoffset : offset < 2 ^ 64) (hsize : size < 2 ^ 64)
    (hsmall : kind < 256 ∧ flags < 256 ∧ link < 256 ∧ align < 256 ∧ entrySize < 256) :
    SectionHeader.Fits ⟨name, kind, flags, offset, size, link, info, align, entrySize⟩ := by
  obtain ⟨hkind, hflags, hlink, halign, hentry⟩ := hsmall
  constructor <;> simp only <;> omega

theorem fits_sectionHeaders (h : Fits arch r) : ∀ header ∈ sectionHeaders r, header.Fits := by
  have hlength := h.length
  rw [length_write, headersAt, sectionsEnd, sectionNamesAt] at hlength
  have hnames : namesAt r < 2 ^ 64 := by omega
  have hsectionNames : sectionNamesAt r < 2 ^ 64 := by
    rw [sectionNamesAt]
    omega
  rw [namesAt, symbolsAt] at hlength
  rw [sectionHeaders]
  simp only [List.forall_mem_cons, List.not_mem_nil, false_imp_iff, implies_true, and_true]
  refine ⟨?_, ?_, ?_, ?_, ?_⟩
  · exact SectionHeader.fits_of_lt (by decide) (by decide) (by decide) (by decide)
  · exact SectionHeader.fits_of_lt (start_sectionTable_lt (by decide)) (by decide) (by omega) (by decide)
  · exact SectionHeader.fits_of_lt (start_sectionTable_lt (by decide)) (by rw [symbolsAt]; omega) (by omega) (by decide)
  · exact SectionHeader.fits_of_lt (start_sectionTable_lt (by decide)) hnames (by omega) (by decide)
  · exact SectionHeader.fits_of_lt (start_sectionTable_lt (by decide)) hsectionNames (by omega) (by decide)

/-- The section headers as they are read. -/
def headersOf (r : Routine) : List SectionHeader :=
  [{}, textHeader r, (symbolsHeader r).wrapped, namesHeader r, sectionNamesHeader r]

/-- The sections of an object with their contents. -/
def sectionsOf (r : Routine) : List Section :=
  [⟨[], {}, []⟩, ⟨nameBytes ".text", textHeader r, r.code.toList⟩,
    ⟨nameBytes ".symtab", (symbolsHeader r).wrapped, (symbols (names r) r).flatMap Symbol.encode⟩,
    ⟨nameBytes ".strtab", namesHeader r, (names r).bytes.toList⟩,
    ⟨nameBytes ".shstrtab", sectionNamesHeader r, sectionTable.bytes.toList⟩]

/-- What is read of the object of a routine. -/
def objectOf (arch : Architecture) (r : Routine) : Object where
  machine := machineOf arch
  sections := sectionsOf r
  symbols := (symbols (names r) r).map (Symbol.resolved (names r).bytes.toList)
  locals := (r.offsets.size + 1) % 2 ^ 32

theorem readHeaders (h : Fits arch r) :
    readAll SectionHeader.read? 64 5 ((write arch r).drop (headersAt r)) = some (headersOf r) := by
  rw [drop_headersAt]
  refine readAll_flatMap (f := SectionHeader.wrapped) SectionHeader.length_encode (sectionHeaders r) ?_
  intro header hmem
  exact SectionHeader.read?_encode (fits_sectionHeaders h header hmem)

theorem nameAt_start {names : List (List UInt8)} {i : Nat} {name : List UInt8} (h : names[i]? = some name)
    (hname : 0 ∉ name) :
    nameAt (StringTable.ofNames names).bytes.toList ((StringTable.ofNames names).start i) = name := by
  obtain ⟨before, after, hbytes, hstart⟩ := StringTable.exists_start h
  exact nameAt_eq hbytes hstart hname

/-- The position zero stands for no name. -/
theorem nameAt_zero (names : List (List UInt8)) : nameAt (StringTable.ofNames names).bytes.toList 0 = [] := by
  rw [StringTable.toList_ofNames]
  rfl

theorem readName?_sectionTable {start : Nat} (h : start < 33) :
    readName? sectionTable.bytes.toList start = some (nameAt sectionTable.bytes.toList start) := by
  refine readName?_of_lt (StringTable.getLast?_ofNames _) ?_
  rwa [Array.length_toList, size_sectionTable]

theorem readSection {h : SectionHeader} {i : Nat} {name : String} {contents : List UInt8}
    (hname : [".text", ".symtab", ".strtab", ".shstrtab"][i]? = some name) (hplain : ∀ c ∈ name.toList, Plain c)
    (hstart : h.name = sectionTable.start i) (hcontents : h.contents? (write arch r) = some contents) :
    Section.read? (write arch r) sectionTable.bytes.toList h = some ⟨nameBytes name, h, contents⟩ := by
  have hlt : i < 4 := (List.getElem?_eq_some_iff.1 hname).1
  have hat : sectionNames[i]? = some (nameBytes name) := by
    rw [sectionNames, List.getElem?_map, hname]
    rfl
  refine Section.read?_eq ?_ hcontents
  rw [hstart, readName?_sectionTable (start_sectionTable_lt hlt)]
  exact congrArg some (nameAt_start hat (zero_notMem_nameBytes hplain))

theorem readSections (arch : Architecture) (r : Routine) :
    (headersOf r).mapM (Section.read? (write arch r) sectionTable.bytes.toList) = some (sectionsOf r) := by
  have hnull : Section.read? (write arch r) sectionTable.bytes.toList {} = some ⟨[], {}, []⟩ := by
    refine Section.read?_eq ?_ rfl
    rw [readName?_sectionTable (by decide)]
    exact congrArg some (nameAt_zero _)
  have htext := readSection (h := textHeader r) (i := 0) rfl (by simp [Plain]) rfl
    (SectionHeader.contents?_eq 1 rfl (by decide) (slice?_text arch r))
  have hsymbols := readSection (h := (symbolsHeader r).wrapped) (i := 1) rfl (by simp [Plain]) rfl
    (SectionHeader.contents?_eq 2 rfl (by decide) (slice?_symbols arch r))
  have hnames := readSection (h := namesHeader r) (i := 2) rfl (by simp [Plain]) rfl
    (SectionHeader.contents?_eq 3 rfl (by decide) (slice?_names arch r))
  have hsectionNames := readSection (h := sectionNamesHeader r) (i := 3) rfl (by simp [Plain]) rfl
    (SectionHeader.contents?_eq 3 rfl (by decide) (slice?_sectionNames arch r))
  simp only [headersOf, List.mapM_cons, List.mapM_nil, hnull, htext, hsymbols, hnames, hsectionNames]
  rfl

theorem fits_symbols (h : Fits arch r) : ∀ s ∈ symbols (names r) r, s.Fits (names r).bytes.toList := by
  have hstart {i : Nat} (hi : i ≤ r.offsets.size) : (names r).start i < (names r).bytes.toList.length := by
    rw [Array.length_toList]
    exact StringTable.start_lt (by simpa [symbolNames] using Nat.lt_succ_of_le hi)
  have hpos : 0 < (names r).bytes.toList.length := Nat.lt_of_le_of_lt (Nat.zero_le _) (hstart (Nat.zero_le _))
  have hcode : r.code.size < 2 ^ 64 := (fits_sectionHeaders h (textHeader r) (by simp [sectionHeaders])).size
  intro s hs
  rw [symbols, List.mem_append, List.mem_cons, List.mem_map, List.mem_singleton] at hs
  rcases hs with (rfl | ⟨⟨offset, ip⟩, hmem, rfl⟩) | rfl
  · exact ⟨hpos, by decide, by decide, by decide, by decide⟩
  · have hoffset := List.mem_zipIdx_iff_getElem?.1 hmem
    obtain ⟨hip, heq⟩ := List.getElem?_eq_some_iff.1 hoffset
    have hvalue : offset < 2 ^ 64 := h.offset (Array.mem_def.2 (List.mem_of_getElem? hoffset))
    exact ⟨hstart (Nat.le_of_lt (by simpa using hip)), Nat.zero_lt_succ _, (by decide : 1 < 2 ^ 16), hvalue,
      Nat.zero_lt_succ _⟩
  · exact ⟨hstart (Nat.le_refl _), (by decide : 18 < 2 ^ 8), (by decide : 1 < 2 ^ 16), Nat.zero_lt_succ _, hcode⟩

theorem readSymbols (h : Fits arch r) :
    readSymbols? (write arch r) (headersOf r) (symbolsHeader r).wrapped =
      some ((symbols (names r) r).map (Symbol.resolved (names r).bytes.toList)) := by
  have hnames : stringTable? (write arch r) (headersOf r) (symbolsHeader r).wrapped.link =
      some (names r).bytes.toList := stringTable?_eq (h := namesHeader r) rfl rfl (slice?_names arch r)
  have hbytes : (symbolsHeader r).wrapped.contents? (write arch r) =
      some ((symbols (names r) r).flatMap Symbol.encode) :=
    SectionHeader.contents?_eq 2 rfl (by decide) (slice?_symbols arch r)
  have hcount : (symbolsHeader r).wrapped.size / (symbolsHeader r).wrapped.entrySize = (symbols (names r) r).length :=
    Nat.mul_div_cancel_left _ (by decide)
  rw [readSymbols?, hnames, hbytes, hcount]
  refine readAll_flatMap Symbol.length_encode (symbols (names r) r) ?_
  intro s hs
  exact Symbol.read?_encode (StringTable.getLast?_ofNames _) (fits_symbols h s hs)

theorem read_write (h : Fits arch r) : read? (write arch r) = some (objectOf arch r) := by
  have hheadersAt : headersAt r < 2 ^ 64 := by
    have := h.length
    rw [length_write] at this
    omega
  have hheader : FileHeader.read? (write arch r) = some ⟨machineOf arch, headersAt r, 5, 4⟩ := by
    rw [write_eq]
    exact FileHeader.read?_header arch hheadersAt _
  have hnames : stringTable? (write arch r) (headersOf r) 4 = some sectionTable.bytes.toList :=
    stringTable?_eq (h := sectionNamesHeader r) rfl rfl (slice?_sectionNames arch r)
  have htable : (headersOf r).filter (·.kind = 2) = [(symbolsHeader r).wrapped] := rfl
  simp only [read?, hheader, readHeaders h, hnames, readSections, htable, readSymbols h, Option.bind_eq_bind,
    Option.bind_some]
  rfl

end TapeLang.Elf
