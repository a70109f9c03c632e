import TapeLang.Code.Generation
import TapeLang.Elf.StringTable
import TapeLang.LittleEndian

/-!
# Relocatable objects

A routine as a 64-bit little-endian ELF file: a section with the code, a global symbol over all of
it, and a local symbol where each instruction starts. The parts stand in the order header, code,
symbols, names of symbols, names of sections, section headers; symbols and section headers start at
multiples of eight.
-/

namespace TapeLang.Elf

/-- Number of an instruction set in a file header. -/
def machineOf : Architecture → Nat
  | .x86_64 => 62
  | .aarch64 => 183

/-- Size of the file header. -/
def headerSize : Nat := 64

/-- Size of a symbol. -/
def symbolSize : Nat := 24

/-- Size of a section header. -/
def sectionHeaderSize : Nat := 64

/-- Number of the section with the code. -/
def textSection : Nat := 1

/-- How many bytes are missing up to a multiple of eight. -/
def paddingTo8 (size : Nat) : Nat := (8 - size % 8) % 8

/-- A symbol. -/
structure Symbol where
  name : Nat
  info : Nat
  sectionNumber : Nat
  value : Nat
  size : Nat

/-- The bytes of a symbol. -/
def Symbol.encode (s : Symbol) : List UInt8 :=
  littleEndian 4 s.name ++ littleEndian 1 s.info ++ littleEndian 1 0 ++ littleEndian 2 s.sectionNumber ++
    littleEndian 8 s.value ++ littleEndian 8 s.size

/-- A header of a section. -/
structure SectionHeader where
  name : Nat := 0
  kind : Nat := 0
  flags : Nat := 0
  offset : Nat := 0
  size : Nat := 0
  link : Nat := 0
  info : Nat := 0
  align : Nat := 0
  entrySize : Nat := 0

/-- The bytes of a section header. -/
def SectionHeader.encode (h : SectionHeader) : List UInt8 :=
  littleEndian 4 h.name ++ littleEndian 4 h.kind ++ littleEndian 8 h.flags ++ littleEndian 8 0 ++
    littleEndian 8 h.offset ++ littleEndian 8 h.size ++ littleEndian 4 h.link ++
    littleEndian 4 h.info ++ littleEndian 8 h.align ++ littleEndian 8 h.entrySize

/-- The file header. -/
def header (machine sectionHeaders : Nat) : List UInt8 :=
  [0x7F, 0x45, 0x4C, 0x46, 2, 1, 1, 0, 0, 0, 0, 0, 0, 0, 0, 0] ++
    littleEndian 2 1 ++ littleEndian 2 machine ++ littleEndian 4 1 ++ littleEndian 8 0 ++
    littleEndian 8 0 ++ littleEndian 8 sectionHeaders ++ littleEndian 4 0 ++
    littleEndian 2 headerSize ++ littleEndian 2 0 ++ littleEndian 2 0 ++
    littleEndian 2 sectionHeaderSize ++ littleEndian 2 5 ++ littleEndian 2 4

/-- Name of the symbol over the whole routine. -/
def entryName : String := "bf_entry"

/-- Name of the symbol at the start of an instruction. -/
def instructionName (ip : Nat) : String := s!"bf_op_{ip}"

/-- Names of the symbols: those of the instructions, then that of the routine. -/
def symbolNames (count : Nat) : List (List UInt8) :=
  (List.range count).map (fun ip => nameBytes (instructionName ip)) ++ [nameBytes entryName]

/-- Names of the sections, in the order of their headers. -/
def sectionNames : List (List UInt8) := [".text", ".symtab", ".strtab", ".shstrtab"].map nameBytes

/-- The symbols of a routine: none, those of the instructions, which are local, and that of the
routine, a global function. -/
def symbols (names : StringTable) (r : Routine) : List Symbol :=
  ⟨0, 0, 0, 0, 0⟩ ::
    (r.offsets.toList.zipIdx.map fun (offset, ip) => ⟨names.start ip, 0, textSection, offset, 0⟩) ++
    [⟨names.start r.offsets.size, 0x12, textSection, 0, r.code.size⟩]

/-- The object file of a routine. -/
def write (arch : Architecture) (r : Routine) : List UInt8 :=
  let names := StringTable.ofNames (symbolNames r.offsets.size)
  let sections := StringTable.ofNames sectionNames
  let symbols := symbols names r
  let textEnd := headerSize + r.code.size
  let symbolsAt := textEnd + paddingTo8 textEnd
  let symbolsLength := symbolSize * symbols.length
  let namesAt := symbolsAt + symbolsLength
  let sectionsAt := namesAt + names.bytes.size
  let sectionsEnd := sectionsAt + sections.bytes.size
  let headersAt := sectionsEnd + paddingTo8 sectionsEnd
  let headers : List SectionHeader := [
    {},
    { name := sections.start 0, kind := 1, flags := 6, offset := headerSize, size := r.code.size,
      align := 16 },
    { name := sections.start 1, kind := 2, offset := symbolsAt, size := symbolsLength, link := 3,
      info := r.offsets.size + 1, align := 8, entrySize := symbolSize },
    { name := sections.start 2, kind := 3, offset := namesAt, size := names.bytes.size, align := 1 },
    { name := sections.start 3, kind := 3, offset := sectionsAt, size := sections.bytes.size,
      align := 1 }]
  header (machineOf arch) headersAt ++ r.code.toList ++ List.replicate (paddingTo8 textEnd) 0 ++
    symbols.flatMap Symbol.encode ++ names.bytes.toList ++ sections.bytes.toList ++
    List.replicate (paddingTo8 sectionsEnd) 0 ++ headers.flatMap SectionHeader.encode

end TapeLang.Elf
