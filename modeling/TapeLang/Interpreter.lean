import TapeLang.Options
import TapeLang.Sink

/-!
# The reference interpreter

What a program means, one instruction at a time. A step has one outcome and one successor for each
program, sink and state; a step that fails leaves the tape and the tape pointer as they were, with
the instruction counted and passed.
-/

namespace TapeLang

/-- State of a run. -/
structure Interpreter where
  tape : Tape
  cursor : Cursor
  /-- The run met an empty loop with a live cell. -/
  halted : Bool
  counters : Option Counters

namespace Interpreter

variable {σ : Type}

/-- Start of a run. -/
def new (options : Options) : Except Error Interpreter := do
  let tape ← options.newTape
  return { tape, cursor := .start, halted := false, counters := options.newCounters }

/-- Nothing is left to execute. -/
def finished (p : Program) (m : Interpreter) : Bool := m.halted || p.size ≤ m.cursor.ip

/-- How a step ends. -/
inductive Outcome where
  /-- One instruction was executed. -/
  | running
  /-- Nothing was left to execute. -/
  | stopped
  /-- The instruction at `ip` is an empty loop with a live cell. -/
  | halted (ip : Nat)
  | failed (e : Error)
  deriving DecidableEq, Repr

/-- The state in which instruction `i` has been counted and passed. -/
def pass (m : Interpreter) (i : Instruction) : Interpreter :=
  { m with
    cursor := { m.cursor with ip := m.cursor.ip + 1 }
    counters := m.counters.map (·.record i.kind) }

/-- Goes on with a result, or fails with its error. -/
def attempt {α : Type} (m : Interpreter) (out : σ) (result : Except Error α)
    (next : α → Outcome × Interpreter × σ) : Outcome × Interpreter × σ :=
  match result with
  | .ok a => next a
  | .error e => (.failed e, m, out)

/-- Assigns the current cell. -/
def assign (m : Interpreter) (value : UInt8) (out : σ) : Outcome × Interpreter × σ :=
  m.attempt out (m.tape.set m.cursor.ptr value) fun tape => (.running, { m with tape }, out)

/-- Goes on with the value of the current cell. -/
def onCell (m : Interpreter) (out : σ) (next : UInt8 → Outcome × Interpreter × σ) :
    Outcome × Interpreter × σ :=
  m.attempt out (m.tape.get m.cursor.ptr) next

/-- The state that goes on after the bracket at index `target`. -/
def jumpPast (m : Interpreter) (target : Nat) : Interpreter :=
  { m with cursor := { m.cursor with ip := target + 1 } }

/-- Executes one instruction, `m` being the state in which it is passed and `ip` its index. -/
def execute (sink : Sink σ) (i : Instruction) (ip : Nat) (m : Interpreter) (out : σ) :
    Outcome × Interpreter × σ :=
  match i with
  | .add delta => m.onCell out fun cell => m.assign (cell + delta) out
  | .move delta => m.attempt out (m.tape.offset m.cursor.ptr delta) fun ptr =>
    (.running, { m with cursor := { m.cursor with ptr } }, out)
  | .input => (.failed (.inputUnsupported ip), m, out)
  | .output => m.onCell out fun cell =>
    match sink.write out cell with
    | (none, out) => (.running, m, out)
    | (some e, out) => (.failed (.output e), m, out)
  | .loopBegin close => m.onCell out fun cell =>
    (.running, if cell = 0 then m.jumpPast close else m, out)
  | .loopEnd start => m.onCell out fun cell =>
    (.running, if cell = 0 then m else m.jumpPast start, out)
  | .set value => m.assign value out
  | .halt => m.onCell out fun cell =>
    if cell = 0 then (.running, m, out) else (.halted ip, { m with halted := true }, out)

/-- Executes the next instruction. -/
def step (p : Program) (sink : Sink σ) (m : Interpreter) (out : σ) : Outcome × Interpreter × σ :=
  if m.halted then (.stopped, m, out)
  else
    match p[m.cursor.ip]? with
    | none => (.stopped, m, out)
    | some i => (m.pass i).execute sink i m.cursor.ip out

/-- How a run ends. -/
inductive Ending where
  /-- Out of fuel. -/
  | unfinished
  /-- At the end of the program, or at the empty loop at index `halt`, with what flushing said. -/
  | stopped (halt : Option Nat) (flush : Option SinkError)
  | failed (e : Error)
  deriving DecidableEq, Repr

/-- Ends a run by flushing the sink. -/
def close (sink : Sink σ) (halt : Option Nat) (m : Interpreter) (out : σ) : Ending × Interpreter × σ :=
  let (answer, out) := sink.flush out
  (.stopped halt answer, m, out)

/-- Runs for less than `fuel` steps, to the end if there is one so soon. -/
def run (p : Program) (sink : Sink σ) : Nat → Interpreter → σ → Ending × Interpreter × σ
  | 0, m, out => (.unfinished, m, out)
  | fuel + 1, m, out =>
    match m.step p sink out with
    | (.running, m, out) => run p sink fuel m out
    | (.stopped, m, out) => close sink none m out
    | (.halted ip, m, out) => close sink (some ip) m out
    | (.failed e, m, out) => (.failed e, m, out)

/-- The error that a run ends with. -/
def Ending.error? : Ending → Option Error
  | unfinished => none
  | stopped _ flush => flush.map .output
  | failed e => some e

/-- What a run warns about. -/
def Ending.warning? : Ending → Option Warning
  | stopped (some ip) _ => some (.halted ip)
  | _ => none

end Interpreter

end TapeLang
