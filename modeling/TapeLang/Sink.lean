import TapeLang.Error

/-!
# Sinks

Where output goes, one byte at a time. A sink is a state machine: it may answer any write or flush
with an error, and its answers may depend on all that it was sent before.
-/

namespace TapeLang

/-- A sink with states `σ`. An answer of `none` accepts. -/
structure Sink (σ : Type) where
  write : σ → UInt8 → Option SinkError × σ
  flush : σ → Option SinkError × σ

namespace Sink

/-- Keeps every byte and never fails. -/
def buffer : Sink (Array UInt8) where
  write bytes b := (none, bytes.push b)
  flush bytes := (none, bytes)

/-- A buffer that holds only so many bytes, the flush of which may be made to fail. -/
structure Bounded where
  bytes : Array UInt8 := #[]
  /-- How many bytes it holds at most; `none` for any number. -/
  limit : Option Nat := none
  failFlush : Bool := false
  deriving DecidableEq, Repr

/-- Whether another byte is accepted. -/
def Bounded.hasRoom (s : Bounded) : Bool :=
  match s.limit with
  | none => true
  | some n => s.bytes.size < n

/-- Keeps bytes while there is room. -/
def bounded : Sink Bounded where
  write s b :=
    if s.hasRoom then (none, { s with bytes := s.bytes.push b }) else (some ⟨"sink full"⟩, s)
  flush s := (if s.failFlush then some ⟨"flush failed"⟩ else none, s)

end Sink

end TapeLang
