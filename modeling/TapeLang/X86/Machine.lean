import TapeLang.Code.Memory
import TapeLang.Code.Routine
import TapeLang.Options
import TapeLang.Sink
import TapeLang.X86.Decoding

/-!
# An x86-64 machine

Executes the bytes of a routine. Memory is the tape, the counters and the stack, and nothing else:
a step that reads or writes outside of them has no successor, and neither has one that calls a host
function with a stack pointer that is no multiple of 16. A host function may leave anything in the
registers and flags that its caller has to save.
-/

namespace TapeLang.X86

/-- Contents of the general registers. -/
structure Registers where
  values : Vector UInt64 16
  deriving DecidableEq, Repr

namespace Registers

/-- Every register holds zero. -/
def zero : Registers := ⟨Vector.replicate 16 0⟩

/-- Contents of a register. -/
def get (rs : Registers) (r : Reg) : UInt64 := rs.values[r.index]

/-- The registers with one assigned. -/
def set (rs : Registers) (r : Reg) (v : UInt64) : Registers := ⟨rs.values.set r.index v⟩

theorem get_set (rs : Registers) (r s : Reg) (v : UInt64) :
    (rs.set r v).get s = if r = s then v else rs.get s := by
  show (rs.values.set r.index v)[(s.index : Nat)] = if r = s then v else rs.values[(s.index : Nat)]
  rw [Vector.getElem_set]
  by_cases h : r = s
  · simp [h]
  · have : (r.index : Nat) ≠ s.index := fun e => h (Reg.index_injective (Fin.ext e))
    simp [h, this]

end Registers

/-- A byte of the contents of its register. -/
def ByteReg.get : ByteReg → UInt64 → UInt8
  | low _, v => v.toUInt8
  | ah, v | ch, v | dh, v | bh, v => (v / 256).toUInt8

/-- The contents of a register with a byte of it assigned, the others as they were. -/
def ByteReg.put : ByteReg → UInt64 → UInt8 → UInt64
  | low _, v, b => v - v % 256 + b.toUInt64
  | ah, v, b | ch, v, b | dh, v, b | bh, v, b => v - v % 65536 + 256 * b.toUInt64 + v % 256

/-- The flags that branches test. -/
structure Flags where
  zero : Bool
  carry : Bool
  deriving DecidableEq, Repr

/-- Whether a function that is called may leave anything in a register. -/
def Reg.callerSaved : Reg → Bool
  | .rbx | .rsp | .rbp | .r12 | .r13 | .r14 | .r15 => false
  | _ => true

/-- What a run happens to find: where things are, and what calls leave behind. -/
structure Environment where
  codeBase : UInt64
  tapeBase : UInt64
  countersBase : UInt64
  /-- The stack pointer on entry. -/
  stackPointer : UInt64
  returnAddress : UInt64
  host : HostCalls
  /-- What the `n`-th call leaves in registers and flags. -/
  leftover : Nat → Registers × Flags

/-- State of the machine over a sink with states `σ`. -/
structure Machine (σ : Type) where
  registers : Registers
  flags : Flags
  /-- Address of the next instruction. -/
  rip : UInt64
  tape : Tape
  counters : Option Counters
  /-- Words on the stack with their addresses, lowest first. Those below the stack pointer are
  lost. -/
  stack : List (UInt64 × UInt64)
  host : HostState σ
  /-- How many host functions were called. -/
  calls : Nat

namespace Machine

variable {σ : Type}

/-- Contents of a register. -/
def reg (m : Machine σ) (r : Reg) : UInt64 := m.registers.get r

/-- The machine with a register assigned. -/
def setReg (m : Machine σ) (r : Reg) (v : UInt64) : Machine σ :=
  { m with registers := m.registers.set r v }

/-- Contents of a byte of a register. -/
def byte (m : Machine σ) (r : ByteReg) : UInt8 := r.get (m.reg r.whole)

/-- The machine with a byte of a register assigned. -/
def setByte (m : Machine σ) (r : ByteReg) (b : UInt8) : Machine σ :=
  m.setReg r.whole (r.put (m.reg r.whole) b)

/-- The machine with flags as a comparison of `a` and `b` sets them. -/
def compare (m : Machine σ) (a b : UInt64) : Machine σ := { m with flags := ⟨a == b, a < b⟩ }

/-- The byte at an address. -/
def load8? (env : Environment) (m : Machine σ) (address : UInt64) : Option UInt8 :=
  m.tape.load? env.tapeBase address

/-- Stores a byte at an address. -/
def store8? (env : Environment) (m : Machine σ) (address : UInt64) (b : UInt8) : Option (Machine σ) :=
  (m.tape.store? env.tapeBase address b).map fun tape => { m with tape }

/-- The word at an address. -/
def load64? (env : Environment) (m : Machine σ) (address : UInt64) : Option UInt64 :=
  m.counters.bind (·.load? env.countersBase address)

/-- Stores a word at an address. -/
def store64? (env : Environment) (m : Machine σ) (address v : UInt64) : Option (Machine σ) :=
  (m.counters.bind (·.store? env.countersBase address v)).map fun c => { m with counters := some c }

/-- The words on the stack that are not lost. -/
def liveStack (m : Machine σ) : List (UInt64 × UInt64) := m.stack.dropWhile (·.1 < m.reg .rsp)

/-- Pushes a word. -/
def push (m : Machine σ) (v : UInt64) : Machine σ :=
  let top := m.reg .rsp - 8
  { m.setReg .rsp top with stack := (top, v) :: m.liveStack }

/-- Pops a word. -/
def pop? (m : Machine σ) : Option (UInt64 × Machine σ) :=
  match m.liveStack with
  | (address, v) :: rest =>
    if address = m.reg .rsp then some (v, { m.setReg .rsp (address + 8) with stack := rest }) else none
  | [] => none

/-- The registers after a call, of which those that the caller has to save are left over. -/
def afterCall (saved left : Registers) : Registers :=
  ⟨Vector.ofFn fun i => if (Reg.ofIndex i).callerSaved then left.values.get i else saved.values.get i⟩

/-- Calls the function at an address. -/
def call? (env : Environment) (sink : Sink σ) (m : Machine σ) (target : UInt64) : Option (Machine σ) :=
  if m.reg .rsp % 16 = 0 then do
    let host ← m.host.call? env.host sink target (m.reg .rdi)
    let (registers, flags) := env.leftover m.calls
    return { m with
      host
      registers := afterCall m.registers registers
      flags
      stack := m.liveStack
      calls := m.calls + 1 }
  else none

/-- A sign-extended immediate. -/
def extend (imm : Int32) : UInt64 := imm.toInt64.toUInt64

/-- Executes an instruction that is no branch, the machine having gone past it. -/
def executeOp (env : Environment) (sink : Sink σ) (m : Machine σ) : Op → Option (Machine σ)
  | .mov dst src => some (m.setReg dst (m.reg src))
  | .movImm dst imm => some (m.setReg dst imm)
  | .load8 dst base index => do return m.setByte dst (← m.load8? env (m.reg base + m.reg index))
  | .loadZero8 dst base index => do
    return m.setReg dst (← m.load8? env (m.reg base + m.reg index)).toUInt64
  | .store8 base index src => m.store8? env (m.reg base + m.reg index) (m.byte src)
  | .zeroExtend8 dst src => some (m.setReg dst (m.byte src).toUInt64)
  | .addImm8 dst imm =>
    let a := m.byte dst
    let sum := a + imm
    some { m.setByte dst sum with flags := ⟨sum == 0, sum < a⟩ }
  | .movImm8 dst imm => some (m.setByte dst imm)
  | .cmpImm8 reg imm =>
    let a := m.byte reg
    some { m with flags := ⟨a == imm, a < imm⟩ }
  | .xor32 dst src =>
    let result := (m.reg dst).toUInt32 ^^^ (m.reg src).toUInt32
    some { m.setReg dst result.toUInt64 with flags := ⟨result == 0, false⟩ }
  | .andImm dst imm =>
    let result := m.reg dst &&& extend imm
    some { m.setReg dst result with flags := ⟨result == 0, false⟩ }
  | .addImm dst imm =>
    let sum := m.reg dst + extend imm
    some { m.setReg dst sum with flags := ⟨sum == 0, sum < m.reg dst⟩ }
  | .add dst src =>
    let sum := m.reg dst + m.reg src
    some { m.setReg dst sum with flags := ⟨sum == 0, sum < m.reg dst⟩ }
  | .cmpImm reg imm => some (m.compare (m.reg reg) (extend imm))
  | .load64 dst base disp => do return m.setReg dst (← m.load64? env (m.reg base + extend disp))
  | .store64 base disp src => m.store64? env (m.reg base + extend disp) (m.reg src)
  | .push reg => some (m.push (m.reg reg))
  | .pop reg => do
    let (v, m) ← m.pop?
    return m.setReg reg v
  | .call target => m.call? env sink (m.reg target)
  | .jump target => some { m with rip := m.reg target }
  | .ret => do
    let (v, m) ← m.pop?
    return { m with rip := v }

/-- Whether a branch is taken. -/
def taken (m : Machine σ) : Branch → Bool
  | .always => true
  | .equal => m.flags.zero
  | .above => !m.flags.carry && !m.flags.zero

/-- Executes an instruction, the machine having gone past it. -/
def execute (env : Environment) (sink : Sink σ) (m : Machine σ) : Instr → Option (Machine σ)
  | .op o => m.executeOp env sink o
  | .branch b displacement =>
    some (if m.taken b then { m with rip := m.rip + (Int64.ofInt displacement).toUInt64 } else m)

/-- At most `n` bytes at a position. -/
def window (code : Array UInt8) : Nat → Nat → List UInt8
  | 0, _ => []
  | n + 1, position =>
    if h : position < code.size then code[position] :: window code n (position + 1) else []

/-- How many bytes an instruction may have. -/
def maxLength : Nat := 15

/-- Executes the next instruction; `none` if there is none, or if it cannot be executed. -/
def step (env : Environment) (code : Array UInt8) (sink : Sink σ) (m : Machine σ) : Option (Machine σ) := do
  let bytes := window code maxLength (m.rip - env.codeBase).toNat
  let (i, rest) ← decode bytes
  { m with rip := m.rip + UInt64.ofNat (bytes.length - rest.length) }.execute env sink i

/-- How a run ends. -/
inductive Ending (σ : Type) where
  /-- The routine returned to its caller. -/
  | returned (m : Machine σ)
  /-- The machine has no next step. -/
  | stuck
  /-- Out of fuel, with the machine to go on from. -/
  | unfinished (m : Machine σ)

/-- Runs a routine for at most `fuel` steps. -/
def run (env : Environment) (code : Array UInt8) (sink : Sink σ) : Nat → Machine σ → Ending σ
  | 0, m => .unfinished m
  | fuel + 1, m =>
    if m.rip = env.returnAddress then .returned m
    else
      match m.step env code sink with
      | some m => run env code sink fuel m
      | none => .stuck

end Machine

end TapeLang.X86
