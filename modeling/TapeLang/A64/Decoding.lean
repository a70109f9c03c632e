import TapeLang.A64.Instruction

/-!
# Decoding of AArch64 instructions

A word is taken apart by its ten highest bits, which tell the forms apart. Words of other forms than
those in `Op` and `Branch` are not decoded.
-/

namespace TapeLang.A64

/-- An instruction. The displacement of a branch counts words from the branch itself. -/
inductive Instr where
  | op (o : Op)
  | branch (b : Branch) (words : Int)
  deriving DecidableEq, Repr

/-- So many bits of a word as `width` says, from bit `low` on. -/
def bits (word low width : Nat) : Nat := word / 2 ^ low % 2 ^ width

/-- The register at bit `low`. -/
def regAt (word low : Nat) : Reg := Fin.ofNat 32 (word / 2 ^ low)

/-- The displacement of a pair. -/
def slotsOf (word : Nat) : BitVec 7 := BitVec.ofNat 7 (word / 2 ^ 15)

/-- The 12-bit immediate. -/
def immOf (word : Nat) : BitVec 12 := BitVec.ofNat 12 (word / 2 ^ 10)

/-- The 16-bit immediate. -/
def wideOf (word : Nat) : BitVec 16 := BitVec.ofNat 16 (word / 2 ^ 5)

/-- An instruction that is no branch. -/
def decodeOp (word : Nat) : Option Op :=
  let dst := regAt word 0
  let src := regAt word 5
  match bits word 22 10 with
  | 0x2A6 => some (.storePairPre dst (regAt word 10) src (slotsOf word))
  | 0x2A4 => some (.storePair dst (regAt word 10) src (slotsOf word))
  | 0x2A5 => some (.loadPair dst (regAt word 10) src (slotsOf word))
  | 0x2A3 => some (.loadPairPost dst (regAt word 10) src (slotsOf word))
  | 0x244 => some (.addImm dst src (immOf word))
  | 0x344 => some (.subImm dst src (immOf word))
  | 0x044 => some (.addImm32 dst src (immOf word))
  | 0x3C4 => if dst = 31 then some (.cmpImm src (immOf word)) else none
  | 0x1C4 => if dst = 31 then some (.cmpImm32 src (immOf word)) else none
  | 0x3E5 => some (.load dst src (immOf word))
  | 0x3E4 => some (.store dst src (immOf word))
  | 0x048 => if immOf word = 7 then some (.maskByte dst src) else none
  | 0x34A => if bits word 21 1 = 0 then some (.movz dst (wideOf word)) else none
  | 0x14A => if bits word 21 1 = 0 then some (.movz32 dst (wideOf word)) else none
  | 0x3CA | 0x3CB => some (.movk dst (wideOf word) (Fin.ofNat 4 (word / 2 ^ 21)))
  | 0x2A8 =>
    if bits word 21 1 = 0 ∧ bits word 10 6 = 0 ∧ src = 31 then some (.mov dst (regAt word 16)) else none
  | 0x22C => if bits word 21 1 = 0 ∧ bits word 10 6 = 0 then some (.add dst src (regAt word 16)) else none
  | 0x3AC =>
    if bits word 21 1 = 0 ∧ bits word 10 6 = 0 ∧ dst = 31 then some (.cmp src (regAt word 16)) else none
  | 0x0E1 =>
    if bits word 21 1 = 1 ∧ bits word 10 6 = 0x1A then some (.loadByte dst src (regAt word 16)) else none
  | 0x0E0 =>
    if bits word 21 1 = 1 ∧ bits word 10 6 = 0x1A then some (.storeByte dst src (regAt word 16)) else none
  | 0x358 =>
    if dst = 0 ∧ immOf word = 0x7C0 then some (.jump src)
    else if dst = 0 ∧ immOf word = 0xFC0 then some (.call src)
    else none
  | 0x359 => if dst = 0 ∧ immOf word = 0x7C0 ∧ src = lr then some .ret else none
  | _ => none

/-- The number that a field of so many bits stands for in two's complement. -/
def signed (width field : Nat) : Int := (field : Int).bmod (2 ^ width)

/-- A branch. -/
def decodeBranch (word : Nat) : Option Instr :=
  if bits word 26 6 = 5 then some (.branch .always (signed 26 (bits word 0 26)))
  else if bits word 24 8 = 0x54 then
    match bits word 0 5 with
    | 0 => some (.branch .equal (signed 19 (bits word 5 19)))
    | 8 => some (.branch .above (signed 19 (bits word 5 19)))
    | _ => none
  else none

/-- The instruction that a word stands for. -/
def decode (word : Nat) : Option Instr :=
  match decodeBranch word with
  | some i => some i
  | none => (decodeOp word).map .op

end TapeLang.A64
