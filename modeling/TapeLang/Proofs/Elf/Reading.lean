import TapeLang.Elf.Relocatable

/-!
# Reading objects

A reader of 64-bit little-endian relocatable files, from the layouts that the format gives to their records: the file
header says where the section headers are, a section header where its section is, and names are positions in string
tables. It knows nothing of how files are written.

What is proved here is about the parts of a file: a record that was written field by field is read field by field
(`readFields_record`), and so is a table of records (`readAll_flatMap`).
-/

namespace TapeLang.Elf

/-! ### Parts of a file -/

/-- Little-endian numbers of given widths, one after another. -/
def readFields : List Nat → List UInt8 → Option (List Nat)
  | [], _ => some []
  | width :: widths, bytes =>
    if width ≤ bytes.length then do
      return ofLittleEndian (bytes.take width) :: (← readFields widths (bytes.drop width))
    else none

/-- So many records of a size, one after another. -/
def readAll {α : Type} (read : List UInt8 → Option α) (size : Nat) : Nat → List UInt8 → Option (List α)
  | 0, _ => some []
  | count + 1, bytes => do
    let x ← read bytes
    return x :: (← readAll read size count (bytes.drop size))

/-- The bytes in a range; `none` if it does not lie inside the file. -/
def slice? (file : List UInt8) (start length : Nat) : Option (List UInt8) :=
  if start + length ≤ file.length then some ((file.drop start).take length) else none

/-- The bytes of a string table from a position up to the next zero. -/
def nameAt (table : List UInt8) (start : Nat) : List UInt8 := (table.drop start).takeWhile (· ≠ 0)

/-- The name at a position of a string table; `none` if no zero ends it. -/
def readName? (table : List UInt8) (start : Nat) : Option (List UInt8) :=
  if 0 ∈ table.drop start then some (nameAt table start) else none

/-! ### Objects -/

/-- What a file header says. -/
structure FileHeader where
  machine : Nat
  sectionsAt : Nat
  sections : Nat
  /-- Number of the section with the names of sections. -/
  namesSection : Nat

/-- The header of a relocatable file with 64-bit words, the least significant byte first. -/
def FileHeader.read? (file : List UInt8) : Option FileHeader :=
  match readFields [4, 1, 1, 1, 1, 1, 7, 2, 2, 4, 8, 8, 8, 4, 2, 2, 2, 2, 2, 2] file with
  | some [magic, wordSize, order, identVersion, _abi, _abiVersion, _padding, kind, machine, version, _entry,
      _programHeadersAt, sectionsAt, _flags, _headerSize, _programHeaderSize, _programHeaders, sectionHeaderSize,
      sections, namesSection] =>
    if magic = 0x464C457F ∧ wordSize = 2 ∧ order = 1 ∧ identVersion = 1 ∧ kind = 1 ∧ version = 1 ∧
        sectionHeaderSize = 64 then
      some { machine, sectionsAt, sections, namesSection }
    else none
  | _ => none

def SectionHeader.read? (bytes : List UInt8) : Option SectionHeader :=
  match readFields [4, 4, 8, 8, 8, 8, 4, 4, 8, 8] bytes with
  | some [name, kind, flags, _address, offset, size, link, info, align, entrySize] =>
    some { name, kind, flags, offset, size, link, info, align, entrySize }
  | _ => none

/-- The bytes of a section in the file; an unused section header has none there, and neither has a section of
zeros. -/
def SectionHeader.contents? (file : List UInt8) (h : SectionHeader) : Option (List UInt8) :=
  if h.kind = 0 ∨ h.kind = 8 then some [] else slice? file h.offset h.size

/-- A section that was read. -/
structure Section where
  name : List UInt8
  header : SectionHeader
  contents : List UInt8

def Section.read? (file names : List UInt8) (h : SectionHeader) : Option Section := do
  return { name := ← readName? names h.name, header := h, contents := ← h.contents? file }

/-- A symbol that was read. -/
structure NamedSymbol where
  name : List UInt8
  binding : Nat
  kind : Nat
  sectionNumber : Nat
  value : Nat
  size : Nat
  deriving DecidableEq

def NamedSymbol.read? (names bytes : List UInt8) : Option NamedSymbol :=
  match readFields [4, 1, 1, 2, 8, 8] bytes with
  | some [name, info, _visibility, sectionNumber, value, size] => do
    return { name := ← readName? names name, binding := info / 16, kind := info % 16, sectionNumber, value, size }
  | _ => none

/-- An object that was read. -/
structure Object where
  machine : Nat
  sections : List Section
  symbols : List NamedSymbol
  /-- How many symbols are local: the number of the first that is not. -/
  locals : Nat

/-- The bytes of the string table with a number among the sections. -/
def stringTable? (file : List UInt8) (headers : List SectionHeader) (number : Nat) : Option (List UInt8) := do
  let h ← headers[number]?
  if h.kind = 3 then h.contents? file else none

/-- The symbols of a symbol table. -/
def readSymbols? (file : List UInt8) (headers : List SectionHeader) (table : SectionHeader) :
    Option (List NamedSymbol) := do
  let names ← stringTable? file headers table.link
  let bytes ← table.contents? file
  readAll (NamedSymbol.read? names) table.entrySize (table.size / table.entrySize) bytes

/-- Reads a relocatable file that has one symbol table. -/
def read? (file : List UInt8) : Option Object := do
  let header ← FileHeader.read? file
  let headers ← readAll SectionHeader.read? 64 header.sections (file.drop header.sectionsAt)
  let names ← stringTable? file headers header.namesSection
  let sections ← headers.mapM (Section.read? file names)
  match headers.filter (·.kind = 2) with
  | [table] =>
    return { machine := header.machine, sections, symbols := ← readSymbols? file headers table, locals := table.info }
  | _ => none

/-! ### Reading what was written -/

/-- Numbers with their widths, one after another. -/
def record (fields : List (Nat × Nat)) : List UInt8 := fields.flatMap fun f => littleEndian f.1 f.2

theorem readFields_record (fields : List (Nat × Nat)) (rest : List UInt8) :
    readFields (fields.map (·.1)) (record fields ++ rest) = some (fields.map fun f => f.2 % 256 ^ f.1) := by
  induction fields with
  | nil => rfl
  | cons f fields ih =>
    have hbytes : record (f :: fields) ++ rest = littleEndian f.1 f.2 ++ (record fields ++ rest) := by
      rw [record, List.flatMap_cons, List.append_assoc, record]
    have hlen := length_littleEndian f.1 f.2
    rw [hbytes, List.map_cons, readFields, if_pos (by rw [List.length_append]; omega), List.take_left' hlen,
      List.drop_left' hlen, ih, ofLittleEndian_littleEndian]
    rfl

theorem readAll_flatMap {α β : Type} {read : List UInt8 → Option α} {encode : β → List UInt8} {f : β → α} {size : Nat}
    (hsize : ∀ x, (encode x).length = size) (xs : List β)
    (hread : ∀ x ∈ xs, ∀ rest, read (encode x ++ rest) = some (f x)) :
    readAll read size xs.length (xs.flatMap encode) = some (xs.map f) := by
  induction xs with
  | nil => rfl
  | cons x xs ih =>
    rw [List.forall_mem_cons] at hread
    rw [List.flatMap_cons, List.length_cons, readAll, hread.1, List.drop_left' (hsize x), Option.bind_eq_bind,
      Option.bind_some, ih hread.2]
    rfl

section Parts

variable {parts : List (List UInt8)} {k start length : Nat} {bytes : List UInt8}

theorem drop_flatten (hstart : start = (parts.take k).flatten.length) :
    parts.flatten.drop start = (parts.drop k).flatten := by
  conv => lhs; rw [← List.take_append_drop k parts, List.flatten_append]
  exact List.drop_left' hstart.symm

/-- Each of the parts that make up a file is where the lengths of those in front of it say. -/
theorem slice?_flatten (hpart : parts[k]? = some bytes) (hstart : start = (parts.take k).flatten.length)
    (hlength : length = bytes.length) : slice? parts.flatten start length = some bytes := by
  obtain ⟨hlt, rfl⟩ := List.getElem?_eq_some_iff.1 hpart
  have hrest : parts.flatten.drop start = parts[k] ++ (parts.drop (k + 1)).flatten := by
    rw [drop_flatten hstart, List.drop_eq_getElem_cons hlt, List.flatten_cons]
  have hlen := congrArg List.length hrest
  rw [List.length_drop, List.length_append] at hlen
  have hle : start ≤ parts.flatten.length := by
    conv => rhs; rw [← List.take_append_drop k parts, List.flatten_append, List.length_append]
    omega
  rw [slice?, if_pos (by omega), hrest]
  exact congrArg some (List.take_left' hlength.symm)

end Parts

theorem SectionHeader.contents?_eq (kind : Nat) {file bytes : List UInt8} {h : SectionHeader} (hkind : h.kind = kind)
    (hused : ¬(kind = 0 ∨ kind = 8)) (hslice : slice? file h.offset h.size = some bytes) :
    h.contents? file = some bytes := by
  subst hkind
  exact (if_neg hused).trans hslice

theorem stringTable?_eq {file bytes : List UInt8} {headers : List SectionHeader} {number : Nat} {h : SectionHeader}
    (hat : headers[number]? = some h) (hkind : h.kind = 3) (hslice : slice? file h.offset h.size = some bytes) :
    stringTable? file headers number = some bytes := by
  rw [stringTable?, hat, Option.bind_eq_bind, Option.bind_some, if_pos hkind]
  exact SectionHeader.contents?_eq 3 hkind (by decide) hslice

theorem Section.read?_eq {file names name contents : List UInt8} {h : SectionHeader}
    (hname : readName? names h.name = some name) (hcontents : h.contents? file = some contents) :
    Section.read? file names h = some ⟨name, h, contents⟩ := by
  rw [Section.read?, hname, hcontents]
  rfl

theorem nameAt_eq {table before name after : List UInt8} {start : Nat} (htable : table = before ++ (name ++ 0 :: after))
    (hstart : start = before.length) (hname : 0 ∉ name) : nameAt table start = name := by
  subst htable hstart
  have hnonzero : ∀ b ∈ name, decide (b ≠ 0) = true := by
    intro b hb
    refine decide_eq_true ?_
    rintro rfl
    exact hname hb
  rw [nameAt, List.drop_left, List.takeWhile_append_of_pos hnonzero, List.takeWhile_cons_of_neg (by decide),
    List.append_nil]

/-- In a table whose last byte is zero, a name starts at every position. -/
theorem readName?_of_lt {table : List UInt8} {start : Nat} (hlast : table.getLast? = some 0)
    (hstart : start < table.length) : readName? table start = some (nameAt table start) := by
  refine if_pos (List.mem_of_getLast? ?_)
  rwa [List.getLast?_drop, if_neg (by omega)]

end TapeLang.Elf
