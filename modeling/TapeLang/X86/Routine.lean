import TapeLang.Code.Translation
import TapeLang.Counters
import TapeLang.X86.Assembler

/-!
# Routines for x86-64

A routine in the System V convention. `rcx` holds the tape, `rdx` the index, the low byte of `r8`
the cached cell, `r10` the counters; `r11` is scratch. An index below zero wraps to a large unsigned
one, so a single comparison guards both ends of the tape.
-/

namespace TapeLang.X86

/-- The dialect for a tape whose last index is `last`. -/
def dialect (last : Int32) (counting : Bool) (host : HostCalls) : Dialect Op Branch where
  entry := Op.prologue ++
    [.mov .r9 .rdx, .mov .r10 .rcx, .mov .rcx .rdi, .mov .rdx .rsi, .loadZero8 .r8 .rcx .rdx, .jump .r9]
  count k := if counting then Op.increment .r10 (Int32.ofNat (Counters.slot k)) .r11 else []
  add delta := [.addImm8 (.low .r8) delta]
  set value := if value = 0 then [.zero .r8] else [.movImm8 (.low .r8) value]
  move delta := .store8 .rcx .rdx (.low .r8) :: Op.addWord .rdx delta .r11 ++ [.cmpImm .rdx last]
  reload := [.load8 (.low .r8) .rcx .rdx]
  output :=
    [.push .rcx, .push .rdx, .push .r8] ++ (if counting then [.push .r10] else []) ++
      [.zeroExtend8 .rdi (.low .r8)] ++ Op.openCall ++ Op.callAddress host.putByte ++ Op.closeCall ++
      (if counting then [.pop .r10] else []) ++ [.pop .r8, .pop .rdx, .pop .rcx]
  test := [.cmpImm8 (.low .r8) 0]
  exit := [.store8 .rcx .rdx (.low .r8), .mov .rax .rdx] ++ Op.epilogue
  fault := .mov .rdi .rdx :: Op.openCall ++ Op.callAddress host.outOfBounds ++ Op.closeCall ++
    Op.epilogue
  always := .always
  ifZero := .equal
  ifOutside := .above

/-- The last index of a tape, if it is the immediate of a comparison. -/
def lastIndex? (capacity : Nat) : Option Int32 :=
  if 0 < capacity ∧ capacity ≤ 2 ^ 31 then some (Int32.ofNat (capacity - 1)) else none

/-- Assembles pieces, and finds where the labels in `marks` stand. -/
def assemble (pieces : Array (Piece Op Branch Label)) (marks : Array Label) :
    Except AssemblyError Routine := do
  let a ← Assembler.empty.addAll (pieces.map (·.mapLabel Label.number))
  a.assemble (marks.map Label.number)

/-- The routine of a program. -/
def generate (p : Program) (options : CodeOptions) : Except Error Routine :=
  match lastIndex? options.capacity with
  | none => .error (.invalidCapacity options.capacity)
  | some last => do
    let pieces ← (dialect last options.counting options.host).routine p
    (assemble pieces (instructionLabels p)).mapError .assembly

end TapeLang.X86
