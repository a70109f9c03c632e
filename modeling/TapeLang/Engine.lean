import TapeLang.Code.Generation
import TapeLang.Code.Image
import TapeLang.X86.Machine

/-!
# The native engine

Runs a program as machine code, from the start or from any state that a run can be in. Code is
generated once, when it is first needed, for the capacity of the tape at hand. A run that meets a
fault leaves the cursor where the run started; otherwise the cursor is at the end before the sink
is flushed.
-/

namespace TapeLang

/-- A program with the state of its run. -/
structure Engine where
  program : Program
  counting : Bool
  tape : Tape
  cursor : Cursor
  counters : Option Counters
  /-- The routine, once it has been generated. -/
  compiled : Option Routine

namespace Engine

/-- Goes on from a tape and a cursor. The capacity is that of the tape. -/
def resume (p : Program) (tape : Tape) (cursor : Cursor) (options : Options) : Except Error Engine :=
  if cursor.ptr < tape.capacity then
    .ok {
      program := p
      counting := options.counting
      tape, cursor
      counters := options.newCounters
      compiled := none }
  else .error (.outOfBounds (signedWord cursor.ptr) tape.capacity)

/-- Starts on a tape of zeros. -/
def new (p : Program) (options : Options) : Except Error Engine := do
  resume p (← options.newTape) .start options

/-- Nothing is left to execute. -/
def finished (e : Engine) : Bool := e.program.size ≤ e.cursor.ip

/-- The engine with its routine, which is generated only once. -/
def compile (e : Engine) (host : HostCalls) : Except Error Engine :=
  match e.compiled with
  | some _ => .ok e
  | none => do
    let routine ← Architecture.host.generate e.program ⟨e.tape.capacity, e.counting, host⟩
    let _ ← Image.ofCode routine.code
    return { e with compiled := some routine }

/-- The machine as it enters the routine at the address `resume`. -/
def entryMachine {σ : Type} (env : X86.Environment) (e : Engine) (offset : Nat) (out : σ) : X86.Machine σ where
  registers := ((((X86.Registers.zero.set .rsp env.stackPointer).set .rdi env.tapeBase).set .rsi
    (UInt64.ofNat e.cursor.ptr)).set .rdx (env.codeBase + UInt64.ofNat offset)).set .rcx
    (if e.counters.isSome then env.countersBase else 0)
  flags := ⟨false, false⟩
  rip := env.codeBase
  tape := e.tape
  counters := e.counters
  stack := [(env.stackPointer, env.returnAddress)]
  host := ⟨out, none⟩
  calls := 0

/-- The error that a host fault is reported as. -/
def faultError (capacity : Nat) : HostFault → Error
  | .outOfBounds index => .outOfBounds index.toInt64.toInt capacity
  | .output e => .output e

/-- How a run ends. -/
inductive Ending where
  /-- With an error, or without. -/
  | ended (error : Option Error)
  /-- The machine had no next step. -/
  | stuck
  /-- Out of fuel. -/
  | unfinished
  deriving DecidableEq, Repr

/-- The engine after the routine has returned. -/
def finish {σ : Type} (e : Engine) (sink : Sink σ) (m : X86.Machine σ) : Ending × Engine × σ :=
  let e := { e with tape := m.tape, counters := m.counters }
  match m.host.fault with
  | some f => (.ended (some (faultError e.tape.capacity f)), e, m.host.out)
  | none =>
    let (answer, out) := sink.flush m.host.out
    (.ended (answer.map .output),
      { e with cursor := ⟨e.program.size, (m.reg .rax).toNat⟩ }, out)

/-- What becomes of the wish to run. -/
inductive Entry (σ : Type) where
  /-- Nothing is left to execute. -/
  | idle
  /-- There is no code for the program. -/
  | refused (e : Error)
  /-- The machine stands at the start of the routine. -/
  | entered (engine : Engine) (code : Array UInt8) (m : X86.Machine σ)

/-- Prepares a run. -/
def enter {σ : Type} (env : X86.Environment) (e : Engine) (out : σ) : Entry σ :=
  if e.finished then .idle
  else
    match e.compile env.host with
    | .error error => .refused error
    | .ok e =>
      match e.compiled.bind fun r => (r.resumeOffset? e.cursor.ip).map (r.code, ·) with
      | none => .idle
      | some (code, offset) => .entered e code (e.entryMachine env offset out)

/-- Runs to the end, for at most `fuel` machine steps. -/
def run {σ : Type} (env : X86.Environment) (sink : Sink σ) (fuel : Nat) (e : Engine) (out : σ) :
    Ending × Engine × σ :=
  match e.enter env out with
  | .idle => (.ended none, e, out)
  | .refused error => (.ended (some error), e, out)
  | .entered e code m =>
    match m.run env code sink fuel with
    | .returned m => e.finish sink m
    | .stuck => (.stuck, e, out)
    | .unfinished _ => (.unfinished, e, out)

/-- An environment that a run may find. Calls leave all ones behind. -/
def environment : X86.Environment where
  codeBase := 0x00007F0000000000
  tapeBase := 0x00007E0000000000
  countersBase := 0x00007FFC00001000
  stackPointer := 0x00007FFC00000FF8
  returnAddress := 0x0000560000001000
  host := ⟨0x0000560000002000, 0x0000560000003000⟩
  leftover _ := (⟨Vector.replicate 16 0xFFFFFFFFFFFFFFFF⟩, ⟨true, true⟩)

end Engine

end TapeLang
