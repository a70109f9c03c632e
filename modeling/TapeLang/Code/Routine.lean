import TapeLang.Code.Host

/-!
# Routines

Position-independent machine code for a program, with the offset where each instruction starts.
A routine is called as `entry (tape, index, resume, counters)`: it goes on at the address `resume`,
which is that of the code plus one of the offsets, and returns the final index. It calls two host
functions, one for each byte of output and one when a move leaves the tape.
-/

namespace TapeLang

/-- Machine code and the offset of each instruction in it. -/
structure Routine where
  code : Array UInt8
  offsets : Array Nat
  deriving DecidableEq, Repr

/-- Where to enter the code for the instruction at `ip`; `none` past the end. -/
def Routine.resumeOffset? (r : Routine) (ip : Nat) : Option Nat := r.offsets[ip]?

/-- What code is generated for besides the program. -/
structure CodeOptions where
  capacity : Nat
  counting : Bool
  host : HostCalls
  deriving DecidableEq, Repr

end TapeLang
