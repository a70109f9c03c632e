import TapeLang.Error
import TapeLang.Sink

/-!
# Host functions

The two functions that a routine calls, and what they work on: a sink, and the first fault of the
run. After a fault nothing more is written.
-/

namespace TapeLang

/-- Addresses of the functions that a routine calls, each with one word as its argument. -/
structure HostCalls where
  putByte : UInt64
  outOfBounds : UInt64
  deriving DecidableEq, Repr

/-- The first thing that went wrong outside of the routine. -/
inductive HostFault where
  | outOfBounds (index : UInt64)
  | output (e : SinkError)
  deriving DecidableEq, Repr

/-- What the host functions work on, over a sink with states `σ`. -/
structure HostState (σ : Type) where
  out : σ
  fault : Option HostFault

namespace HostState

variable {σ : Type}

/-- Records a fault if it is the first. -/
def record (h : HostState σ) (f : HostFault) : HostState σ := { h with fault := h.fault.or (some f) }

/-- Writes a byte, unless there was a fault. -/
def put (sink : Sink σ) (h : HostState σ) (b : UInt8) : HostState σ :=
  if h.fault.isSome then h
  else
    match sink.write h.out b with
    | (none, out) => { h with out }
    | (some e, out) => { h with out }.record (.output e)

/-- What the function at an address does with its argument; `none` if there is no function. -/
def call? (calls : HostCalls) (sink : Sink σ) (h : HostState σ) (target argument : UInt64) :
    Option (HostState σ) :=
  if target = calls.putByte then some (h.put sink argument.toUInt8)
  else if target = calls.outOfBounds then some (h.record (.outOfBounds argument))
  else none

end HostState

end TapeLang
