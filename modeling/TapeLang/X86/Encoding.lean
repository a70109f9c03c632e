import TapeLang.Error
import TapeLang.LittleEndian
import TapeLang.X86.Instruction

/-!
# Encoding of x86-64 instructions

The bytes of each form. Of several encodings the shortest is taken that holds the immediate, except
that `rax` always takes its own long form with a 32-bit immediate.
-/

namespace TapeLang.X86

/-- A prefix byte: operand width, and the high bits of the registers in an instruction. -/
def rexByte (wide reg index base : Nat) : UInt8 :=
  UInt8.ofNat (0x40 + 8 * wide + 4 * reg + 2 * index + base)

/-- A prefix byte where one is needed: for a high register, or where `forced`. -/
def rexIf (forced : Bool) (reg index base : Nat) : List UInt8 :=
  if forced || reg + index + base ≠ 0 then [rexByte 0 reg index base] else []

/-- An operand byte: addressing mode and two times three bits. -/
def modRM (mode reg rm : Nat) : UInt8 := UInt8.ofNat (64 * mode + 8 * reg + rm)

/-- Whether a word is the sign extension of its low byte. -/
def fitsByte (n : Int) : Bool := -128 ≤ n && n ≤ 127

/-- The low byte of an immediate. -/
def immByte (imm : Int32) : UInt8 := imm.toUInt32.toUInt8

/-- The four bytes of an immediate. -/
def immBytes (imm : Int32) : List UInt8 := littleEndian 4 imm.toUInt32.toNat

/-- Operand bytes of the address `base + index`. -/
def indexedOperand (reg : Nat) (base index : Reg) : List UInt8 :=
  let scaled := UInt8.ofNat (8 * index.low + base.low)
  if base.low = 5 then [modRM 1 reg 4, scaled, 0] else [modRM 0 reg 4, scaled]

/-- Operand bytes of the address `base + disp`. -/
def displacedOperand (reg : Nat) (base : Reg) (disp : Int32) : List UInt8 :=
  let scaled : List UInt8 := if base.low = 4 then [0x24] else []
  if disp = 0 ∧ base.low ≠ 5 then modRM 0 reg base.low :: scaled
  else if fitsByte disp.toInt then modRM 1 reg base.low :: scaled ++ [immByte disp]
  else modRM 2 reg base.low :: scaled ++ immBytes disp

/-- An operation of the immediate group, `extension` being its number there: on `rax` behind
`accumulator`, else by the size of the immediate. -/
def immediateGroup (accumulator : UInt8) (extension : Nat) (dst : Reg) (imm : Int32) : List UInt8 :=
  rexByte 1 0 0 dst.high ::
    (if dst = .rax then accumulator :: immBytes imm
    else if fitsByte imm.toInt then [0x83, modRM 3 extension dst.low, immByte imm]
    else 0x81 :: modRM 3 extension dst.low :: immBytes imm)

/-- The same group on bytes. -/
def immediateGroup8 (accumulator : UInt8) (extension : Nat) (dst : ByteReg) (imm : UInt8) : List UInt8 :=
  if dst = .low .rax then [accumulator, imm]
  else rexIf dst.needsRex 0 0 dst.code.high ++ [0x80, modRM 3 extension dst.code.low, imm]

/-- Why an instruction has no encoding, if it has none. -/
def Op.refusal? (o : Op) : Option AssemblyError :=
  match o.stackIndexed? with
  | some operand => some (.stackIndex operand o.text)
  | none => if o.mixesHighByte then some (.highByte o.text) else none

/-- The bytes of an instruction that is no branch, if it has an encoding. -/
def Op.encode : Op → List UInt8
  | .mov dst src => [rexByte 1 src.high 0 dst.high, 0x89, modRM 3 src.low dst.low]
  | .movImm dst imm =>
    rexByte 1 0 0 dst.high :: UInt8.ofNat (0xB8 + dst.low) :: littleEndian 8 imm.toNat
  | .load8 dst base index =>
    rexIf dst.needsRex dst.code.high index.high base.high ++ 0x8A :: indexedOperand dst.code.low base index
  | .loadZero8 dst base index =>
    rexIf false dst.high index.high base.high ++ 0x0F :: 0xB6 :: indexedOperand dst.low base index
  | .store8 base index src =>
    rexIf src.needsRex src.code.high index.high base.high ++ 0x88 :: indexedOperand src.code.low base index
  | .zeroExtend8 dst src =>
    rexIf src.needsRex dst.high 0 src.code.high ++ [0x0F, 0xB6, modRM 3 dst.low src.code.low]
  | .addImm8 dst imm => immediateGroup8 0x04 0 dst imm
  | .movImm8 dst imm =>
    rexIf dst.needsRex 0 0 dst.code.high ++ [UInt8.ofNat (0xB0 + dst.code.low), imm]
  | .cmpImm8 reg imm => immediateGroup8 0x3C 7 reg imm
  | .xor32 dst src => rexIf false src.high 0 dst.high ++ [0x31, modRM 3 src.low dst.low]
  | .andImm dst imm => immediateGroup 0x25 4 dst imm
  | .addImm dst imm => immediateGroup 0x05 0 dst imm
  | .add dst src => [rexByte 1 src.high 0 dst.high, 0x01, modRM 3 src.low dst.low]
  | .cmpImm reg imm => immediateGroup 0x3D 7 reg imm
  | .load64 dst base disp =>
    rexByte 1 dst.high 0 base.high :: 0x8B :: displacedOperand dst.low base disp
  | .store64 base disp src =>
    rexByte 1 src.high 0 base.high :: 0x89 :: displacedOperand src.low base disp
  | .push reg => rexIf false 0 0 reg.high ++ [UInt8.ofNat (0x50 + reg.low)]
  | .pop reg => rexIf false 0 0 reg.high ++ [UInt8.ofNat (0x58 + reg.low)]
  | .call target => rexIf false 0 0 target.high ++ [0xFF, modRM 3 2 target.low]
  | .jump target => rexIf false 0 0 target.high ++ [0xFF, modRM 3 4 target.low]
  | .ret => [0xC3]

/-- Size of a branch with an 8-bit displacement. -/
def Branch.shortSize : Nat := 2

/-- Size of a branch with a 32-bit displacement. -/
def Branch.longSize : Branch → Nat
  | always => 5
  | equal | above => 6

/-- Opcode of a short branch. -/
def Branch.shortOpcode : Branch → UInt8
  | always => 0xEB
  | equal => 0x74
  | above => 0x77

/-- Opcode of a long branch. -/
def Branch.longOpcode : Branch → List UInt8
  | always => [0xE9]
  | equal => [0x0F, 0x84]
  | above => [0x0F, 0x87]

/-- Whether a branch of a given size has room for a displacement. -/
def Branch.holds (size : Nat) (displacement : Int) : Bool :=
  if size = shortSize then fitsByte displacement
  else -2 ^ 31 ≤ displacement && displacement < 2 ^ 31

/-- The bytes of a branch of a given size. -/
def Branch.encode (b : Branch) (size : Nat) (displacement : Int) : List UInt8 :=
  if size = shortSize then [b.shortOpcode, UInt8.ofNat (displacement % 2 ^ 8).toNat]
  else b.longOpcode ++ littleEndian 4 (displacement % 2 ^ 32).toNat

end TapeLang.X86
