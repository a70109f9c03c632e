import TapeLang.Counters
import TapeLang.Tape

/-!
# Memory that generated code works on

The tape and the counters at addresses. An access that is not to one of their cells has no result.
-/

namespace TapeLang

namespace Tape

/-- The byte at an address, for a tape that starts at `base`. -/
def load? (t : Tape) (base address : UInt64) : Option UInt8 :=
  let i := (address - base).toNat
  if i < t.capacity then some (t.cell i) else none

/-- The tape with the byte at an address assigned. -/
def store? (t : Tape) (base address : UInt64) (b : UInt8) : Option Tape :=
  let i := (address - base).toNat
  if i < t.capacity then some (t.assign i b) else none

end Tape

namespace Counters

/-- The counter at an address, for a block that starts at `base`. -/
def indexAt? (base address : UInt64) : Option (Fin 8) :=
  let offset := (address - base).toNat
  if h : offset / 8 < 8 then if offset % 8 = 0 then some ⟨offset / 8, h⟩ else none else none

/-- The word at an address. -/
def load? (c : Counters) (base address : UInt64) : Option UInt64 :=
  (indexAt? base address).map fun (i : Fin 8) => c.counts[i]

/-- The counters with the word at an address assigned. -/
def store? (c : Counters) (base address v : UInt64) : Option Counters :=
  (indexAt? base address).map fun (i : Fin 8) => ⟨c.counts.set i v⟩

end Counters

end TapeLang
