import TapeLang.X86.Register

/-!
# Instructions of x86-64

The forms that a routine over the tape needs, and sequences of them with a meaning of their own.
-/

namespace TapeLang.X86

/-- An instruction that is no branch. Registers are 64 bits wide unless a form says otherwise. -/
inductive Op where
  | mov (dst src : Reg)
  | movImm (dst : Reg) (imm : UInt64)
  /-- The byte at `base + index` goes to `dst`. -/
  | load8 (dst : ByteReg) (base index : Reg)
  /-- The byte at `base + index` goes to `dst`, zero-extended. -/
  | loadZero8 (dst base index : Reg)
  /-- `src` goes to the byte at `base + index`. -/
  | store8 (base index : Reg) (src : ByteReg)
  /-- `src` goes to `dst`, zero-extended. -/
  | zeroExtend8 (dst : Reg) (src : ByteReg)
  | addImm8 (dst : ByteReg) (imm : UInt8)
  | movImm8 (dst : ByteReg) (imm : UInt8)
  | cmpImm8 (reg : ByteReg) (imm : UInt8)
  /-- Exclusive or of low halves, zero-extended. -/
  | xor32 (dst src : Reg)
  | andImm (dst : Reg) (imm : Int32)
  | addImm (dst : Reg) (imm : Int32)
  | add (dst src : Reg)
  | cmpImm (reg : Reg) (imm : Int32)
  /-- The word at `base + disp` goes to `dst`. -/
  | load64 (dst base : Reg) (disp : Int32)
  /-- `src` goes to the word at `base + disp`. -/
  | store64 (base : Reg) (disp : Int32) (src : Reg)
  | push (reg : Reg)
  | pop (reg : Reg)
  | call (target : Reg)
  | jump (target : Reg)
  | ret
  deriving DecidableEq, Repr

/-- When a branch is taken. -/
inductive Branch where
  | always
  | equal
  /-- Unsigned greater-than. -/
  | above
  deriving DecidableEq, Repr

/-- A machine instruction. The displacement of a branch counts from its end. -/
inductive Instr where
  | op (o : Op)
  | branch (b : Branch) (displacement : Int)
  deriving DecidableEq, Repr

namespace Op

/-- Clears a register through its low half. -/
def zero (reg : Reg) : Op := .xor32 reg reg

/-- Adds any signed word. What does not fit the immediate of an addition goes through `scratch`. -/
def addWord (dst : Reg) (imm : Int64) (scratch : Reg) : List Op :=
  if imm.toInt32.toInt64 = imm then [.addImm dst imm.toInt32]
  else [.movImm scratch imm.toUInt64, .add dst scratch]

/-- Adds one to the word at `base + disp`, through `scratch`. -/
def increment (base : Reg) (disp : Int32) (scratch : Reg) : List Op :=
  [.load64 scratch base disp, .addImm scratch 1, .store64 base disp scratch]

/-- Opens a frame and rounds the stack pointer down as the calling convention asks. -/
def openCall : List Op := [.push .rbp, .mov .rbp .rsp, .andImm .rsp (-16)]

/-- Closes the frame that `openCall` opens. -/
def closeCall : List Op := [.mov .rsp .rbp, .pop .rbp]

/-- Calls an absolute address. -/
def callAddress (target : UInt64) : List Op := [.movImm .rax target, .call .rax]

/-- Opens the frame of a routine. -/
def prologue : List Op := [.push .rbp, .mov .rbp .rsp]

/-- Drops the frame of a routine with all that was pushed in it, and returns. -/
def epilogue : List Op := [.mov .rsp .rbp, .pop .rbp, .ret]

/-- The memory operand, by its position, that has the stack pointer as its index. There is no
encoding for it. -/
def stackIndexed? : Op → Option Nat
  | .load8 _ _ .rsp => some 1
  | .loadZero8 _ _ .rsp => some 1
  | .store8 _ .rsp _ => some 0
  | _ => none

/-- Whether a high byte stands beside a register that only a prefix byte can name. -/
def mixesHighByte : Op → Bool
  | .load8 dst base index => dst.isHigh && base.high + index.high ≠ 0
  | .store8 base index src => src.isHigh && base.high + index.high ≠ 0
  | .zeroExtend8 dst src => src.isHigh && dst.high ≠ 0
  | _ => false

/-- An instruction that may have no encoding, as an assembler listing shows it; empty for other forms. -/
def text : Op → String
  | .load8 dst base index => s!"mov {dst.name},[{base.name64}+{index.name64}]"
  | .loadZero8 dst base index => s!"movzx {dst.name32},byte ptr [{base.name64}+{index.name64}]"
  | .store8 base index src => s!"mov [{base.name64}+{index.name64}],{src.name}"
  | .zeroExtend8 dst src => s!"movzx {dst.name32},{src.name}"
  | _ => ""

end Op

end TapeLang.X86
