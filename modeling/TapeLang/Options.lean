import TapeLang.Counters
import TapeLang.Tape

/-!
# Options of a run
-/

namespace TapeLang

/-- What a run is given besides its program. -/
structure Options where
  /-- Size of the tape in cells. -/
  capacity : Nat := Tape.defaultCapacity
  /-- Whether executed instructions are counted. -/
  counting : Bool := false
  deriving DecidableEq, Repr

namespace Options

/-- A tape of zeros of the size asked for. -/
def newTape (o : Options) : Except Error Tape := Tape.new o.capacity

/-- Fresh counters, if instructions are counted. -/
def newCounters (o : Options) : Option Counters := if o.counting then some Counters.zero else none

end Options

end TapeLang
