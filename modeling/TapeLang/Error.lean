import TapeLang.Instruction

/-!
# Errors and warnings

Everything that can end a run of the compiler, by cause. `Error.message` holds the wording; no
other module words an error.
-/

namespace TapeLang

/-- Why a sequence of machine instructions cannot be assembled. -/
inductive AssemblyError where
  /-- A label was bound a second time. -/
  | labelRebound
  /-- The place of a label was asked for that was never bound. -/
  | labelUnbound
  /-- The stack pointer stands as an index in memory operand `operand` of `text`. -/
  | stackIndex (operand : Nat) (text : String)
  /-- A high byte stands in `text` beside a register that needs a prefix byte. -/
  | highByte (text : String)
  /-- A branch to label number `label` does not reach its target. -/
  | outOfReach (label : Nat)
  /-- A displacement does not fit the branch that layout made room for. -/
  | branchRange
  deriving DecidableEq, Repr

namespace AssemblyError

/-- Wording of a cause alone. -/
def cause : AssemblyError → String
  | labelRebound => "Labels can't be re-used and can only be set once."
  | labelUnbound =>
    "The label is not associated with an instruction index. " ++
      "It must be emitted via `CodeAssembler::set_label()`."
  | stackIndex operand text =>
    s!"Operand {operand}: ESP/RSP can't be used as an index register : 0x0 {text}"
  | highByte text =>
    "Registers AH, CH, DH, BH can't be used if there's a REX prefix. " ++
      s!"Use AL, CL, DL, BL, SPL, BPL, SIL, DIL, R8L-R15L instead. : 0x0 {text}"
  | outOfReach label => s!"Impossible relocation: 'target =>{label}'"
  | branchRange => "Branch out of range"

/-- Wording of an assembly error. -/
def message (e : AssemblyError) : String := "assembler error: " ++ e.cause

end AssemblyError

/-- Why the output could not be written: the text is what the sink says. -/
structure SinkError where
  text : String
  deriving DecidableEq, Repr

/-- A condition that ends the run. -/
inductive Error where
  /-- A `]` at byte `position` closes nothing. -/
  | unmatchedLoopEnd (position : Nat)
  /-- A `[` at byte `position` is never closed. -/
  | unclosedLoop (position : Nat)
  /-- The tape pointer would be `index`. -/
  | outOfBounds (index : Int) (capacity : Nat)
  | invalidCapacity (capacity : Nat)
  /-- Input is part of the language but not implemented. -/
  | inputUnsupported (ip : Nat)
  /-- An `input` or a `halt` has no machine code. -/
  | notCompilable (ip : Nat) (instruction : Instruction)
  /-- The bracket at index `ip` has no partner. -/
  | unbalancedLoop (ip : Nat)
  | assembly (e : AssemblyError)
  | executableMemory (text : String)
  | objectFile (text : String)
  | sourceLoad (text : String)
  | output (e : SinkError)
  deriving DecidableEq, Repr

/-- Name of an instruction that has no machine code, as an error reports it. -/
def Instruction.refusalName : Instruction → String
  | input => "Input"
  | halt => "Halt(InfiniteLoop)"
  | i => i.kind.name

/-- Wording of an error. -/
def Error.message : Error → String
  | unmatchedLoopEnd position =>
    s!"program contains a loop ending operator (\"]\") at byte {position} that has no " ++
      "corresponding loop beginning operator (\"[\")"
  | unclosedLoop position =>
    s!"loop beginning operator (\"[\") at byte {position} is never closed"
  | outOfBounds index capacity =>
    s!"trying to access data outside of bounds (index {index}, tape capacity {capacity})"
  | invalidCapacity capacity => s!"invalid tape capacity {capacity}"
  | inputUnsupported ip => s!"input operation reached at instruction {ip} is not implemented"
  | notCompilable ip instruction =>
    s!"instruction {instruction.refusalName} at {ip} cannot be compiled to native code"
  | unbalancedLoop ip =>
    s!"code generation failed: loop end at instruction {ip} has no open loop"
  | assembly e => "code generation failed: " ++ e.message
  | executableMemory text => "executable memory: " ++ text
  | objectFile text => "object file: " ++ text
  | sourceLoad text => "failed to load source: " ++ text
  | output e => "output failed: " ++ e.text

/-- Something worth telling that ends nothing. -/
inductive Warning where
  /-- The header comment is never closed, so nothing is left of the source. -/
  | openHeader
  /-- A run stopped at an empty loop with a live cell. -/
  | halted (ip : Nat)
  deriving DecidableEq, Repr

/-- Wording of a warning. -/
def Warning.message : Warning → String
  | openHeader => "program starts with a comment but ends before the comment"
  | halted ip => s!"halted, reason: infinite loop reached at instruction {ip}"

end TapeLang
