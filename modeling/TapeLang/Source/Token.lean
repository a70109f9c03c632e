import TapeLang.Error

/-!
# Commands in a source

A source is the bytes of its UTF-8 form. Eight bytes are commands and all others are comment. A
source whose very first byte is `[` opens with a header comment, which ends where that bracket
is closed and is cut off before any command is read.
-/

namespace TapeLang

/-- A source text as bytes. -/
abbrev Source := List UInt8

/-- What a byte of a source can ask for. -/
inductive Command where
  | increment | decrement | left | right | output | input | openLoop | closeLoop
  deriving DecidableEq, Repr

namespace Command

/-- The byte of a command. -/
def byte : Command → UInt8
  | increment => 0x2B
  | decrement => 0x2D
  | left => 0x3C
  | right => 0x3E
  | output => 0x2E
  | input => 0x2C
  | openLoop => 0x5B
  | closeLoop => 0x5D

/-- The command of a byte; `none` for comment. -/
def ofByte? (b : UInt8) : Option Command :=
  if b = 0x2B then some increment
  else if b = 0x2D then some decrement
  else if b = 0x3C then some left
  else if b = 0x3E then some right
  else if b = 0x2E then some output
  else if b = 0x2C then some input
  else if b = 0x5B then some openLoop
  else if b = 0x5D then some closeLoop
  else none

/-- The instruction of a command, not linked yet. -/
def instruction : Command → Instruction
  | increment => .add 1
  | decrement => .add 255
  | left => .move (-1)
  | right => .move 1
  | output => .output
  | input => .input
  | openLoop => .loopBegin 0
  | closeLoop => .loopEnd 0

theorem ofByte?_eq_some_iff {b : UInt8} {c : Command} : ofByte? b = some c ↔ b = c.byte := by
  constructor
  · unfold ofByte?
    repeat' split
    all_goals first | (rintro ⟨⟩; assumption) | simp
  · rintro rfl
    cases c <;> rfl

end Command

/-- A command and the byte position where it stands. -/
structure Token where
  command : Command
  position : Nat
  deriving DecidableEq, Repr

/-- The comment that a source opens with. -/
inductive Header where
  /-- The source does not start with `[`. -/
  | absent
  /-- The first bracket is closed, and the header ends, after `length` bytes. -/
  | closed (length : Nat)
  /-- The first bracket is never closed. -/
  | unclosed
  deriving DecidableEq, Repr

namespace Source

/-- The bytes of a text. -/
def ofString (text : String) : Source := text.toUTF8.data.toList

/-- How many bytes there are up to the bracket that closes `depth` open ones, `read` of them
being read. -/
def closingLength? (depth read : Nat) : Source → Option Nat
  | [] => if depth = 0 then some read else none
  | b :: rest =>
    if depth = 0 then some read
    else if b = Command.openLoop.byte then closingLength? (depth + 1) (read + 1) rest
    else if b = Command.closeLoop.byte then closingLength? (depth - 1) (read + 1) rest
    else closingLength? depth (read + 1) rest

/-- The header comment of a source. -/
def header : Source → Header
  | [] => .absent
  | b :: rest =>
    if b = Command.openLoop.byte then
      match closingLength? 1 1 rest with
      | some length => .closed length
      | none => .unclosed
    else .absent

/-- How many bytes the header takes. An unclosed header takes the whole source. -/
def headerLength (source : Source) : Nat :=
  match source.header with
  | .absent => 0
  | .closed length => length
  | .unclosed => source.length

/-- What is left when the header is cut off. -/
def body (source : Source) : Source := source.drop source.headerLength

/-- What cutting the header off warns about. -/
def warning? (source : Source) : Option Warning :=
  if source.header = .unclosed then some .openHeader else none

/-- The commands of a source, the first byte of which stands at `position`. -/
def tokensFrom (position : Nat) (tokens : Array Token) : Source → Array Token
  | [] => tokens
  | b :: rest =>
    match Command.ofByte? b with
    | some c => tokensFrom (position + 1) (tokens.push ⟨c, position⟩) rest
    | none => tokensFrom (position + 1) tokens rest

/-- The commands of a source after its header, at their positions in the whole source. -/
def tokens (source : Source) : Array Token := tokensFrom source.headerLength #[] source.body

end Source

end TapeLang
