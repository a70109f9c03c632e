import TapeLang.LittleEndian
import TapeLang.X86.Instruction

/-!
# Decoding of x86-64 instructions

Reads one instruction from the front of a sequence of bytes, in any of the forms of `Op` and
`Branch`, and leaves the rest. Forms outside them are not read.
-/

namespace TapeLang.X86

/-- A prefix byte taken apart. -/
structure Rex where
  /-- Whether there is one. -/
  present : Bool
  wide : Bool
  reg : Nat
  index : Nat
  base : Nat
  deriving DecidableEq, Repr

namespace Rex

/-- No prefix byte. -/
def absent : Rex := ⟨false, false, 0, 0, 0⟩

/-- Reads a prefix byte. -/
def ofByte? (b : UInt8) : Option Rex :=
  if b.toNat / 16 = 4 then
    some ⟨true, b.toNat / 8 % 2 = 1, b.toNat / 4 % 2, b.toNat / 2 % 2, b.toNat % 2⟩
  else none

end Rex

/-- The register with a high bit and three low bits. -/
def regOf (high low : Nat) : Reg := Reg.ofIndex (Fin.ofNat 16 (8 * high + low))

/-- The byte that the number of a register stands for: without a prefix byte, four of the numbers mean
high bytes. -/
def byteReg (rex : Rex) (r : Reg) : ByteReg :=
  if rex.present then .low r
  else
    match r with
    | .rsp => .ah
    | .rbp => .ch
    | .rsi => .dh
    | .rdi => .bh
    | r => .low r

/-- Reads `width` bytes as a number. -/
def takeNat? (width : Nat) (bytes : List UInt8) : Option (Nat × List UInt8) :=
  if width ≤ bytes.length then some (ofLittleEndian (bytes.take width), bytes.drop width) else none

/-- Reads a sign-extended byte. -/
def takeByte? : List UInt8 → Option (Int32 × List UInt8)
  | b :: rest => some (Int32.ofInt b.toInt8.toInt, rest)
  | [] => none

/-- Reads a 32-bit immediate. -/
def takeImm? (bytes : List UInt8) : Option (Int32 × List UInt8) :=
  (takeNat? 4 bytes).map fun (n, rest) => ((UInt32.ofNat n).toInt32, rest)

/-- An operand byte taken apart: a mode, a register or extension, and a register or address. -/
def splitModRM (b : UInt8) : Nat × Nat × Nat := (b.toNat / 64, b.toNat / 8 % 8, b.toNat % 8)

/-- Reads two registers, the one in the middle of the operand byte first. -/
def takeRegs? (rex : Rex) : List UInt8 → Option (Reg × Reg × List UInt8)
  | m :: rest =>
    let (mode, reg, rm) := splitModRM m
    if mode = 3 then some (regOf rex.reg reg, regOf rex.base rm, rest) else none
  | [] => none

/-- Reads an extension and a register. -/
def takeExtension? (rex : Rex) : List UInt8 → Option (Nat × Reg × List UInt8)
  | m :: rest =>
    let (mode, reg, rm) := splitModRM m
    if mode = 3 then some (reg, regOf rex.base rm, rest) else none
  | [] => none

/-- Reads a register and the registers of an address `base + index`. -/
def takeIndexed? (rex : Rex) : List UInt8 → Option (Reg × Reg × Reg × List UInt8)
  | m :: s :: rest =>
    let (mode, reg, rm) := splitModRM m
    let (scale, index, base) := splitModRM s
    let index := regOf rex.index index
    if rm = 4 ∧ scale = 0 ∧ index ≠ .rsp then
      match mode, rest with
      | 0, rest => if base = 5 then none else some (regOf rex.reg reg, regOf rex.base base, index, rest)
      | 1, 0 :: rest => some (regOf rex.reg reg, regOf rex.base base, index, rest)
      | _, _ => none
    else none
  | _ => none

/-- Reads the displacement of a mode. -/
def takeDisplacement? (mode : Nat) (bytes : List UInt8) : Option (Int32 × List UInt8) :=
  match mode with
  | 0 => some (0, bytes)
  | 1 => takeByte? bytes
  | 2 => takeImm? bytes
  | _ => none

/-- Reads a register, and the base and the displacement of an address. -/
def takeDisplaced? (rex : Rex) : List UInt8 → Option (Reg × Reg × Int32 × List UInt8)
  | m :: rest => do
    let (mode, reg, rm) := splitModRM m
    let rest ← if rm = 4 then (match rest with | 0x24 :: rest => some rest | _ => none) else some rest
    if mode = 0 ∧ rm = 5 then none
    else
      let (disp, rest) ← takeDisplacement? mode rest
      return (regOf rex.reg reg, regOf rex.base rm, disp, rest)
  | [] => none

/-- The operation of the immediate group with a number. -/
def immediateOp? (extension : Nat) (reg : Reg) (imm : Int32) : Option Op :=
  match extension with
  | 0 => some (.addImm reg imm)
  | 7 => some (.cmpImm reg imm)
  | 4 => some (.andImm reg imm)
  | _ => none

/-- Reads an instruction of 64-bit operands behind its prefix. -/
def decodeWide (rex : Rex) (opcode : UInt8) (bytes : List UInt8) : Option (Op × List UInt8) :=
  if 0xB8 ≤ opcode ∧ opcode < 0xC0 then do
    let (n, rest) ← takeNat? 8 bytes
    return (.movImm (regOf rex.base (opcode.toNat - 0xB8)) (UInt64.ofNat n), rest)
  else if opcode = 0x01 then do
    let (src, dst, rest) ← takeRegs? rex bytes
    return (.add dst src, rest)
  else if opcode = 0x05 then do
    let (imm, rest) ← takeImm? bytes
    return (.addImm .rax imm, rest)
  else if opcode = 0x25 then do
    let (imm, rest) ← takeImm? bytes
    return (.andImm .rax imm, rest)
  else if opcode = 0x3D then do
    let (imm, rest) ← takeImm? bytes
    return (.cmpImm .rax imm, rest)
  else if opcode = 0x81 then do
    let (extension, reg, rest) ← takeExtension? rex bytes
    let (imm, rest) ← takeImm? rest
    return (← immediateOp? extension reg imm, rest)
  else if opcode = 0x83 then do
    let (extension, reg, rest) ← takeExtension? rex bytes
    let (imm, rest) ← takeByte? rest
    return (← immediateOp? extension reg imm, rest)
  else if opcode = 0x89 then
    match takeRegs? rex bytes with
    | some (src, dst, rest) => some (.mov dst src, rest)
    | none => do
      let (src, base, disp, rest) ← takeDisplaced? rex bytes
      return (.store64 base disp src, rest)
  else if opcode = 0x8B then do
    let (dst, base, disp, rest) ← takeDisplaced? rex bytes
    return (.load64 dst base disp, rest)
  else none

/-- Reads an instruction behind its prefix, its operands not widened by it. -/
def decodeNarrow (rex : Rex) (opcode : UInt8) (bytes : List UInt8) : Option (Op × List UInt8) :=
  if 0x50 ≤ opcode ∧ opcode < 0x58 then some (.push (regOf rex.base (opcode.toNat - 0x50)), bytes)
  else if 0x58 ≤ opcode ∧ opcode < 0x60 then some (.pop (regOf rex.base (opcode.toNat - 0x58)), bytes)
  else if 0xB0 ≤ opcode ∧ opcode < 0xB8 then
    match bytes with
    | imm :: rest => some (.movImm8 (byteReg rex (regOf rex.base (opcode.toNat - 0xB0))) imm, rest)
    | [] => none
  else if opcode = 0x04 then
    match bytes with
    | imm :: rest => some (.addImm8 (.low .rax) imm, rest)
    | [] => none
  else if opcode = 0x3C then
    match bytes with
    | imm :: rest => some (.cmpImm8 (.low .rax) imm, rest)
    | [] => none
  else if opcode = 0x80 then do
    let (extension, reg, rest) ← takeExtension? rex bytes
    match extension, rest with
    | 0, imm :: rest => some (.addImm8 (byteReg rex reg) imm, rest)
    | 7, imm :: rest => some (.cmpImm8 (byteReg rex reg) imm, rest)
    | _, _ => none
  else if opcode = 0x31 then do
    let (src, dst, rest) ← takeRegs? rex bytes
    return (.xor32 dst src, rest)
  else if opcode = 0x88 then do
    let (src, base, index, rest) ← takeIndexed? rex bytes
    return (.store8 base index (byteReg rex src), rest)
  else if opcode = 0x8A then do
    let (dst, base, index, rest) ← takeIndexed? rex bytes
    return (.load8 (byteReg rex dst) base index, rest)
  else if opcode = 0x0F then
    match bytes with
    | 0xB6 :: bytes =>
      match takeRegs? rex bytes with
      | some (dst, src, rest) => some (.zeroExtend8 dst (byteReg rex src), rest)
      | none => do
        let (dst, base, index, rest) ← takeIndexed? rex bytes
        return (.loadZero8 dst base index, rest)
    | _ => none
  else if opcode = 0xFF then do
    let (extension, reg, rest) ← takeExtension? rex bytes
    match extension with
    | 2 => some (.call reg, rest)
    | 4 => some (.jump reg, rest)
    | _ => none
  else if opcode = 0xC3 then some (.ret, bytes)
  else none

/-- Reads a branch. -/
def decodeBranch : List UInt8 → Option (Instr × List UInt8)
  | 0xEB :: rest => (takeByte? rest).map fun (d, rest) => (.branch .always d.toInt, rest)
  | 0x74 :: rest => (takeByte? rest).map fun (d, rest) => (.branch .equal d.toInt, rest)
  | 0x77 :: rest => (takeByte? rest).map fun (d, rest) => (.branch .above d.toInt, rest)
  | 0xE9 :: rest => (takeImm? rest).map fun (d, rest) => (.branch .always d.toInt, rest)
  | 0x0F :: 0x84 :: rest => (takeImm? rest).map fun (d, rest) => (.branch .equal d.toInt, rest)
  | 0x0F :: 0x87 :: rest => (takeImm? rest).map fun (d, rest) => (.branch .above d.toInt, rest)
  | _ => none

/-- Reads an instruction that is no branch. -/
def decodeOp : List UInt8 → Option (Op × List UInt8)
  | [] => none
  | b :: rest =>
    match Rex.ofByte? b with
    | none => decodeNarrow .absent b rest
    | some rex =>
      match rest with
      | [] => none
      | opcode :: rest =>
        if rex.wide then decodeWide rex opcode rest else decodeNarrow rex opcode rest

/-- Reads one instruction. -/
def decode (bytes : List UInt8) : Option (Instr × List UInt8) :=
  match decodeBranch bytes with
  | some result => some result
  | none => (decodeOp bytes).map fun (o, rest) => (.op o, rest)

end TapeLang.X86
