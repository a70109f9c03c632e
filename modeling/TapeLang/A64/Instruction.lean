import TapeLang.LittleEndian

/-!
# Instructions of AArch64

The forms that a routine over the tape needs, and their words. Every instruction is one word of
four bytes.
-/

namespace TapeLang.A64

/-- A general register by number; 31 is the stack pointer or zero, as the form has it. -/
abbrev Reg := Fin 32

/-- There are registers. -/
instance instNeZeroRegisters : @NeZero Nat Zero.ofOfNat0 32 := ⟨Nat.succ_ne_zero 31⟩

/-- A register has parts. -/
instance instNeZeroParts : @NeZero Nat Zero.ofOfNat0 4 := ⟨Nat.succ_ne_zero 3⟩

/-- The stack pointer. -/
def sp : Reg := 31

/-- The frame pointer. -/
def fp : Reg := 29

/-- The return address. -/
def lr : Reg := 30

/-- An instruction that is no branch. Registers are 64 bits wide unless a form says otherwise. A
pair is addressed in steps of eight bytes from `base`. -/
inductive Op where
  /-- Moves `base`, then stores a pair there. -/
  | storePairPre (a b base : Reg) (slots : BitVec 7)
  | storePair (a b base : Reg) (slots : BitVec 7)
  | loadPair (a b base : Reg) (slots : BitVec 7)
  /-- Loads a pair, then moves `base`. -/
  | loadPairPost (a b base : Reg) (slots : BitVec 7)
  | addImm (dst src : Reg) (imm : BitVec 12)
  | subImm (dst src : Reg) (imm : BitVec 12)
  /-- Adds in the low halves. -/
  | addImm32 (dst src : Reg) (imm : BitVec 12)
  | mov (dst src : Reg)
  | add (dst a b : Reg)
  | cmpImm (reg : Reg) (imm : BitVec 12)
  /-- Compares the low half. -/
  | cmpImm32 (reg : Reg) (imm : BitVec 12)
  | cmp (a b : Reg)
  /-- Sets a register to 16 bits. -/
  | movz (dst : Reg) (imm : BitVec 16)
  /-- Sets the low half of a register to 16 bits, and the other half to zero. -/
  | movz32 (dst : Reg) (imm : BitVec 16)
  /-- Sets the 16 bits at `16 * part` and keeps the others. -/
  | movk (dst : Reg) (imm : BitVec 16) (part : Fin 4)
  | loadByte (dst base index : Reg)
  | storeByte (src base index : Reg)
  /-- Loads the word at `base + 8 * slot`. -/
  | load (dst base : Reg) (slot : BitVec 12)
  /-- Stores the word at `base + 8 * slot`. -/
  | store (src base : Reg) (slot : BitVec 12)
  /-- Keeps the low byte, in the low half. -/
  | maskByte (dst src : Reg)
  | jump (target : Reg)
  | call (target : Reg)
  | ret
  deriving DecidableEq, Repr

/-- When a branch is taken. -/
inductive Branch where
  | always
  | equal
  /-- Unsigned greater-than. -/
  | above
  deriving DecidableEq, Repr

namespace Op

/-- The 16 bits of a word at `16 * k`. -/
def part (value : UInt64) (k : Fin 4) : BitVec 16 := BitVec.ofNat 16 (value.toNat / 2 ^ (16 * k.val))

/-- Sets 16 bits of a register, unless they are zero. -/
def keepPart (dst : Reg) (value : UInt64) (k : Fin 4) : List Op :=
  if part value k = 0 then [] else [.movk dst (part value k) k]

/-- Sets a register to any word: its low 16 bits, then those of the others that are not zero. -/
def loadWord (dst : Reg) (value : UInt64) : List Op :=
  .movz dst (part value 0) :: keepPart dst value 1 ++ keepPart dst value 2 ++ keepPart dst value 3

/-- Opens the frame of a routine. -/
def prologue : List Op := [.storePairPre fp lr sp (BitVec.ofInt 7 (-2)), .addImm fp sp 0]

/-- Drops the frame of a routine, and returns. -/
def epilogue : List Op := [.addImm sp fp 0, .loadPairPost fp lr sp 2, .ret]

/-- Word of a form with three registers: `a` lowest, then `base`, then `b`. -/
def pairWord (opcode : Nat) (a b base : Reg) (slots : BitVec 7) : Nat :=
  opcode + slots.toNat <<< 15 + b.val <<< 10 + base.val <<< 5 + a.val

/-- Word of a form with a 12-bit immediate. -/
def immWord (opcode : Nat) (dst src : Reg) (imm : BitVec 12) : Nat :=
  opcode + imm.toNat <<< 10 + src.val <<< 5 + dst.val

/-- Word of a form with three registers. -/
def regWord (opcode : Nat) (dst a b : Reg) : Nat :=
  opcode + b.val <<< 16 + a.val <<< 5 + dst.val

/-- Word of a form with 16 bits and where they go. -/
def wideWord (opcode : Nat) (dst : Reg) (imm : BitVec 16) (part : Nat) : Nat :=
  opcode + part <<< 21 + imm.toNat <<< 5 + dst.val

/-- The word of an instruction. -/
def word : Op → Nat
  | storePairPre a b base slots => pairWord 0xA9800000 a b base slots
  | storePair a b base slots => pairWord 0xA9000000 a b base slots
  | loadPair a b base slots => pairWord 0xA9400000 a b base slots
  | loadPairPost a b base slots => pairWord 0xA8C00000 a b base slots
  | addImm dst src imm => immWord 0x91000000 dst src imm
  | subImm dst src imm => immWord 0xD1000000 dst src imm
  | addImm32 dst src imm => immWord 0x11000000 dst src imm
  | mov dst src => regWord 0xAA000000 dst 31 src
  | add dst a b => regWord 0x8B000000 dst a b
  | cmpImm reg imm => immWord 0xF1000000 31 reg imm
  | cmpImm32 reg imm => immWord 0x71000000 31 reg imm
  | cmp a b => regWord 0xEB000000 31 a b
  | movz dst imm => wideWord 0xD2800000 dst imm 0
  | movz32 dst imm => wideWord 0x52800000 dst imm 0
  | movk dst imm part => wideWord 0xF2800000 dst imm part
  | loadByte dst base index => regWord 0x38606800 dst base index
  | storeByte src base index => regWord 0x38206800 src base index
  | load dst base slot => immWord 0xF9400000 dst base slot
  | store src base slot => immWord 0xF9000000 src base slot
  | maskByte dst src => regWord 0x12001C00 dst src 0
  | jump target => regWord 0xD61F0000 0 target 0
  | call target => regWord 0xD63F0000 0 target 0
  | ret => 0xD65F03C0

end Op

namespace Branch

/-- How many bits of a branch hold its displacement. -/
def width : Branch → Nat
  | always => 26
  | equal | above => 19

/-- Whether a displacement, counted in words, fits. -/
def reaches (b : Branch) (words : Int) : Bool :=
  -2 ^ (b.width - 1) ≤ words && words < 2 ^ (b.width - 1)

/-- The word of a branch over a displacement counted in words. -/
def word (b : Branch) (words : Int) : Nat :=
  let field := (words % 2 ^ b.width).toNat
  match b with
  | always => 0x14000000 + field
  | equal => 0x54000000 + field <<< 5
  | above => 0x54000008 + field <<< 5

end Branch

/-- The bytes of a word. -/
def wordBytes (word : Nat) : List UInt8 := littleEndian 4 word

end TapeLang.A64
