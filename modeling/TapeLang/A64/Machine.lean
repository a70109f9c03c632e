import TapeLang.A64.Decoding
import TapeLang.Code.Memory
import TapeLang.Code.Routine

/-!
# An AArch64 machine

Executes the words of a routine. Memory is the tape, for bytes; the counters, for single words; and
the stack, for pairs: a step that goes outside of them has no successor, and neither has one that
uses a stack pointer that is no multiple of 16. A host function may leave anything in `x0` to `x18`,
in `x30`, in the flags and on the stack below the stack pointer.
-/

namespace TapeLang.A64

/-- Contents of the general registers; the last is the stack pointer. -/
structure Registers where
  values : Vector UInt64 32
  deriving DecidableEq, Repr

namespace Registers

/-- Every register holds zero. -/
def zero : Registers := ⟨Vector.replicate 32 0⟩

/-- Contents of a register. -/
def get (rs : Registers) (r : Reg) : UInt64 := rs.values[r]

/-- The registers with one assigned. -/
def set (rs : Registers) (r : Reg) (v : UInt64) : Registers := ⟨rs.values.set r v⟩

theorem get_set (rs : Registers) (r s : Reg) (v : UInt64) :
    (rs.set r v).get s = if r = s then v else rs.get s := by
  show (rs.values.set r.val v)[s.val] = if r = s then v else rs.values[s.val]
  rw [Vector.getElem_set]
  by_cases h : r = s
  · simp [h]
  · have : r.val ≠ s.val := fun e => h (Fin.ext e)
    simp [h, this]

end Registers

/-- The flags that branches test. A comparison sets `carry` if it does not borrow. -/
structure Flags where
  zero : Bool
  carry : Bool
  deriving DecidableEq, Repr

/-- Whether a function that is called may leave anything in a register. -/
def Reg.callerSaved (r : Reg) : Bool := r.val ≤ 18 || r.val = 30

/-- What a run happens to find: where things are, and what calls leave behind. -/
structure Environment where
  codeBase : UInt64
  tapeBase : UInt64
  countersBase : UInt64
  returnAddress : UInt64
  host : HostCalls
  /-- What the `n`-th call leaves in registers and flags. -/
  leftover : Nat → Registers × Flags

/-- State of the machine over a sink with states `σ`. -/
structure Machine (σ : Type) where
  registers : Registers
  flags : Flags
  /-- Address of the next instruction. -/
  pc : UInt64
  tape : Tape
  counters : Option Counters
  /-- The words on the stack by their addresses; `none` where nothing is known. -/
  stack : UInt64 → Option UInt64
  host : HostState σ
  /-- How many host functions were called. -/
  calls : Nat

namespace Machine

variable {σ : Type}

/-- Contents of a register, or the stack pointer. -/
def regOrSp (m : Machine σ) (r : Reg) : UInt64 := m.registers.get r

/-- Contents of a register, or zero. -/
def reg (m : Machine σ) (r : Reg) : UInt64 := if r = 31 then 0 else m.regOrSp r

/-- The machine with a register or the stack pointer assigned. -/
def setRegOrSp (m : Machine σ) (r : Reg) (v : UInt64) : Machine σ :=
  { m with registers := m.registers.set r v }

/-- The machine with a register assigned. What is assigned to zero is lost. -/
def setReg (m : Machine σ) (r : Reg) (v : UInt64) : Machine σ := if r = 31 then m else m.setRegOrSp r v

/-- The low half of a word. -/
def low (v : UInt64) : UInt64 := v.toUInt32.toUInt64

/-- The machine with flags as a comparison of `a` and `b` sets them. -/
def compare (m : Machine σ) (a b : UInt64) : Machine σ := { m with flags := ⟨a == b, b ≤ a⟩ }

/-- The byte at an address. -/
def load8? (env : Environment) (m : Machine σ) (address : UInt64) : Option UInt8 :=
  m.tape.load? env.tapeBase address

/-- Stores a byte at an address. -/
def store8? (env : Environment) (m : Machine σ) (address : UInt64) (b : UInt8) : Option (Machine σ) :=
  (m.tape.store? env.tapeBase address b).map fun tape => { m with tape }

/-- The word at an address. -/
def load64? (env : Environment) (m : Machine σ) (address : UInt64) : Option UInt64 :=
  m.counters.bind (·.load? env.countersBase address)

/-- Stores a word at an address. -/
def store64? (env : Environment) (m : Machine σ) (address v : UInt64) : Option (Machine σ) :=
  (m.counters.bind (·.store? env.countersBase address v)).map fun c => { m with counters := some c }

/-- The address so many slots from the stack pointer, if that is the base and aligned. -/
def slotAddress? (m : Machine σ) (base : Reg) (slots : BitVec 7) : Option UInt64 :=
  if base = sp ∧ m.regOrSp sp % 16 = 0 then
    some (m.regOrSp sp + (Int64.ofInt (8 * slots.toInt)).toUInt64)
  else none

/-- Stores a pair of words on the stack. -/
def storePair (m : Machine σ) (address a b : UInt64) : Machine σ :=
  { m with
    stack := fun x => if x = address then some a else if x = address + 8 then some b else m.stack x }

/-- Loads a pair of words from the stack. -/
def loadPair? (m : Machine σ) (a b : Reg) (address : UInt64) : Option (Machine σ) := do
  let v ← m.stack address
  let w ← m.stack (address + 8)
  return (m.setReg a v).setReg b w

/-- The registers after a call, of which those that the caller has to save are left over. -/
def afterCall (saved left : Registers) : Registers :=
  ⟨Vector.ofFn fun i : Reg => if i.callerSaved then left.get i else saved.get i⟩

/-- Calls the function at an address. -/
def call? (env : Environment) (sink : Sink σ) (m : Machine σ) (target : UInt64) : Option (Machine σ) :=
  if m.regOrSp sp % 16 = 0 then do
    let host ← m.host.call? env.host sink target (m.reg 0)
    let (registers, flags) := env.leftover m.calls
    return { m with
      host
      registers := afterCall m.registers registers
      flags
      stack := fun x => if x < m.regOrSp sp then none else m.stack x
      calls := m.calls + 1 }
  else none

/-- A word with the 16 bits at `16 * part` replaced. -/
def insertPart (v : UInt64) (imm : BitVec 16) (part : Fin 4) : UInt64 :=
  UInt64.ofNat (v.toNat % 2 ^ (16 * part.val) + 2 ^ (16 * part.val) * imm.toNat +
    2 ^ (16 * (part.val + 1)) * (v.toNat / 2 ^ (16 * (part.val + 1))))

/-- Executes an instruction that is no branch, the machine having gone past it. -/
def executeOp (env : Environment) (sink : Sink σ) (m : Machine σ) : Op → Option (Machine σ)
  | .storePairPre a b base slots => do
    let address ← m.slotAddress? base slots
    return (m.storePair address (m.reg a) (m.reg b)).setRegOrSp sp address
  | .storePair a b base slots => do
    let address ← m.slotAddress? base slots
    return m.storePair address (m.reg a) (m.reg b)
  | .loadPair a b base slots => do
    let address ← m.slotAddress? base slots
    m.loadPair? a b address
  | .loadPairPost a b base slots => do
    let address ← m.slotAddress? base slots
    let m ← m.loadPair? a b (m.regOrSp sp)
    return m.setRegOrSp sp address
  | .addImm dst src imm => some (m.setRegOrSp dst (m.regOrSp src + UInt64.ofNat imm.toNat))
  | .subImm dst src imm => some (m.setRegOrSp dst (m.regOrSp src - UInt64.ofNat imm.toNat))
  | .addImm32 dst src imm => some (m.setRegOrSp dst (low (m.regOrSp src + UInt64.ofNat imm.toNat)))
  | .mov dst src => some (m.setReg dst (m.reg src))
  | .add dst a b => some (m.setReg dst (m.reg a + m.reg b))
  | .cmpImm reg imm => some (m.compare (m.regOrSp reg) (UInt64.ofNat imm.toNat))
  | .cmpImm32 reg imm => some (m.compare (low (m.regOrSp reg)) (UInt64.ofNat imm.toNat))
  | .cmp a b => some (m.compare (m.reg a) (m.reg b))
  | .movz dst imm | .movz32 dst imm => some (m.setReg dst (UInt64.ofNat imm.toNat))
  | .movk dst imm part => some (m.setReg dst (insertPart (m.reg dst) imm part))
  | .loadByte dst base index => do
    return m.setReg dst (← m.load8? env (m.regOrSp base + m.reg index)).toUInt64
  | .storeByte src base index => m.store8? env (m.regOrSp base + m.reg index) (m.reg src).toUInt8
  | .load dst base slot => do
    return m.setReg dst (← m.load64? env (m.regOrSp base + UInt64.ofNat (8 * slot.toNat)))
  | .store src base slot => m.store64? env (m.regOrSp base + UInt64.ofNat (8 * slot.toNat)) (m.reg src)
  | .maskByte dst src => some (m.setRegOrSp dst (m.reg src).toUInt8.toUInt64)
  | .jump target => some { m with pc := m.reg target }
  | .call target => m.call? env sink (m.reg target)
  | .ret => some { m with pc := m.reg lr }

/-- Whether a branch is taken. -/
def taken (m : Machine σ) : Branch → Bool
  | .always => true
  | .equal => m.flags.zero
  | .above => m.flags.carry && !m.flags.zero

/-- Executes an instruction, the machine having gone past it. -/
def execute (env : Environment) (sink : Sink σ) (m : Machine σ) : Instr → Option (Machine σ)
  | .op o => m.executeOp env sink o
  | .branch b words =>
    some (if m.taken b then { m with pc := m.pc - 4 + (Int64.ofInt (4 * words)).toUInt64 } else m)

/-- The word at a position in code. -/
def fetch? (code : Array UInt8) (position : Nat) : Option Nat :=
  let bytes := (code.extract position (position + 4)).toList
  if bytes.length = 4 then some (ofLittleEndian bytes) else none

/-- Executes the next instruction; `none` if there is none, or if it cannot be executed. -/
def step (env : Environment) (code : Array UInt8) (sink : Sink σ) (m : Machine σ) : Option (Machine σ) := do
  let word ← fetch? code (m.pc - env.codeBase).toNat
  let i ← decode word
  { m with pc := m.pc + 4 }.execute env sink i

/-- The machine as it is called at an address of the code, to go on with a tape from an index. -/
def entry (env : Environment) (stackPointer resume : UInt64) (tape : Tape) (index : Nat)
    (counters : Option Counters) (out : σ) : Machine σ where
  registers := (((((Registers.zero.set sp stackPointer).set lr env.returnAddress).set 0 env.tapeBase).set 1
    (UInt64.ofNat index)).set 2 resume).set 3 (if counters.isSome then env.countersBase else 0)
  flags := ⟨false, false⟩
  pc := env.codeBase
  tape
  counters
  stack _ := none
  host := ⟨out, none⟩
  calls := 0

end Machine

/-- An environment that a run may find. Calls leave all ones behind. -/
def environment : Environment where
  codeBase := 0x0000FFFF80000000
  tapeBase := 0x0000FFFF00000000
  countersBase := 0x0000FFFFC0001000
  returnAddress := 0x0000AAAA00001000
  host := ⟨0x0000AAAA00002000, 0x0000AAAA00003000⟩
  leftover _ := (⟨Vector.replicate 32 0xFFFFFFFFFFFFFFFF⟩, ⟨true, true⟩)

end TapeLang.A64
