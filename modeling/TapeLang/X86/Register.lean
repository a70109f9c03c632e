/-!
# General registers of x86-64, and their bytes
-/

namespace TapeLang.X86

/-- There are registers. -/
instance instNeZeroRegisters : @NeZero Nat Zero.ofOfNat0 16 := ⟨Nat.succ_ne_zero 15⟩

/-- A general register, in the order of its encoding. The name is that of its 64-bit form. -/
inductive Reg where
  | rax | rcx | rdx | rbx | rsp | rbp | rsi | rdi
  | r8 | r9 | r10 | r11 | r12 | r13 | r14 | r15
  deriving DecidableEq, Repr, Inhabited

namespace Reg

/-- Number of a register in an encoding. -/
def index : Reg → Fin 16
  | rax => 0 | rcx => 1 | rdx => 2 | rbx => 3 | rsp => 4 | rbp => 5 | rsi => 6 | rdi => 7
  | r8 => 8 | r9 => 9 | r10 => 10 | r11 => 11 | r12 => 12 | r13 => 13 | r14 => 14 | r15 => 15

/-- The registers by number. -/
def all : Vector Reg 16 :=
  #v[rax, rcx, rdx, rbx, rsp, rbp, rsi, rdi, r8, r9, r10, r11, r12, r13, r14, r15]

/-- The register with a number. -/
def ofIndex (i : Fin 16) : Reg := all[i]

@[simp]
theorem ofIndex_index (r : Reg) : ofIndex r.index = r := by cases r <;> rfl

@[simp]
theorem index_ofIndex (i : Fin 16) : (ofIndex i).index = i := by
  revert i; decide

theorem index_injective {r s : Reg} (h : r.index = s.index) : r = s := by
  rw [← ofIndex_index r, h, ofIndex_index]

/-- The three bits of the number that stand in an operand byte. -/
def low (r : Reg) : Nat := r.index % 8

/-- The bit of the number that stands in a prefix byte. -/
def high (r : Reg) : Nat := r.index / 8

/-- Name of the whole register. -/
def name64 : Reg → String
  | rax => "rax" | rcx => "rcx" | rdx => "rdx" | rbx => "rbx"
  | rsp => "rsp" | rbp => "rbp" | rsi => "rsi" | rdi => "rdi"
  | r8 => "r8" | r9 => "r9" | r10 => "r10" | r11 => "r11"
  | r12 => "r12" | r13 => "r13" | r14 => "r14" | r15 => "r15"

/-- Name of the low half. -/
def name32 : Reg → String
  | rax => "eax" | rcx => "ecx" | rdx => "edx" | rbx => "ebx"
  | rsp => "esp" | rbp => "ebp" | rsi => "esi" | rdi => "edi"
  | r8 => "r8d" | r9 => "r9d" | r10 => "r10d" | r11 => "r11d"
  | r12 => "r12d" | r13 => "r13d" | r14 => "r14d" | r15 => "r15d"

/-- Name of the low byte. -/
def name8 : Reg → String
  | rax => "al" | rcx => "cl" | rdx => "dl" | rbx => "bl"
  | rsp => "spl" | rbp => "bpl" | rsi => "sil" | rdi => "dil"
  | r8 => "r8b" | r9 => "r9b" | r10 => "r10b" | r11 => "r11b"
  | r12 => "r12b" | r13 => "r13b" | r14 => "r14b" | r15 => "r15b"

end Reg

/-- A byte that an instruction can name: the lowest one of any register, or the second one of one of the
first four. -/
inductive ByteReg where
  | low (r : Reg)
  | ah | ch | dh | bh
  deriving DecidableEq, Repr

namespace ByteReg

/-- Where a byte is asked for, a register stands for its lowest one. -/
instance instCoeReg : Coe Reg ByteReg := ⟨low⟩

/-- The register that a byte is part of. -/
def whole : ByteReg → Reg
  | low r => r
  | ah => .rax | ch => .rcx | dh => .rdx | bh => .rbx

/-- The register whose number stands for a byte in an encoding. -/
def code : ByteReg → Reg
  | low r => r
  | ah => .rsp | ch => .rbp | dh => .rsi | bh => .rdi

/-- Whether a byte can only be named where there is no prefix byte. -/
def isHigh : ByteReg → Bool
  | low _ => false
  | ah | ch | dh | bh => true

/-- Whether a byte can only be named behind a prefix byte: without one, its number means a high byte. -/
def needsRex (b : ByteReg) : Bool := !b.isHigh && 4 ≤ b.code.index.val && b.code.index.val < 8

/-- Name of a byte. -/
def name : ByteReg → String
  | low r => r.name8
  | ah => "ah" | ch => "ch" | dh => "dh" | bh => "bh"

end ByteReg

end TapeLang.X86
