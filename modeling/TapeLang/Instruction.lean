/-!
# Instructions

A program of the tape language is a sequence of instructions over one current cell. Brackets carry
the index of their partner, so that a loop is left and repeated by a jump. Only the optimizer
writes `set` and `halt`.
-/

namespace TapeLang

/-- One instruction. Cells hold bytes and wrap at 256, so an addition is a byte too. -/
inductive Instruction where
  /-- Adds to the current cell. -/
  | add (delta : UInt8)
  /-- Moves the tape pointer. -/
  | move (delta : Int64)
  | input
  | output
  /-- Opens a loop that is closed at index `close`. -/
  | loopBegin (close : Nat)
  /-- Closes the loop that is opened at index `start`. -/
  | loopEnd (start : Nat)
  /-- Assigns the current cell. -/
  | set (value : UInt8)
  /-- A loop without a body: it never ends once entered with a live cell. -/
  | halt
  deriving DecidableEq, Repr, Inhabited

/-- An instruction without what it carries. -/
inductive Kind where
  | add | move | input | output | loopBegin | loopEnd | set | halt
  deriving DecidableEq, Repr, Inhabited

namespace Kind

/-- All kinds, in the order in which they are counted and reported. -/
def all : List Kind := [add, move, input, output, loopBegin, loopEnd, set, halt]

/-- Position of a kind in `all`. -/
def index : Kind → Fin 8
  | add => 0
  | move => 1
  | input => 2
  | output => 3
  | loopBegin => 4
  | loopEnd => 5
  | set => 6
  | halt => 7

/-- Name of a kind in reports. -/
def name : Kind → String
  | add => "mod"
  | move => "move_pointer"
  | input => "input"
  | output => "output"
  | loopBegin => "loop_begin"
  | loopEnd => "loop_end"
  | set => "set_value"
  | halt => "halt"

theorem all_get_index (k : Kind) : all[k.index]? = some k := by cases k <;> rfl

theorem index_injective {k l : Kind} (h : k.index = l.index) : k = l := by
  have := all_get_index k
  rw [h, all_get_index l] at this
  exact (Option.some.inj this).symm

end Kind

/-- The kind of an instruction. -/
def Instruction.kind : Instruction → Kind
  | add _ => .add
  | move _ => .move
  | input => .input
  | output => .output
  | loopBegin _ => .loopBegin
  | loopEnd _ => .loopEnd
  | set _ => .set
  | halt => .halt

/-- An instruction with its loop target erased. -/
def Instruction.erase : Instruction → Instruction
  | loopBegin _ => .loopBegin 0
  | loopEnd _ => .loopEnd 0
  | i => i

/-- A program: its instructions in order. -/
abbrev Program := Array Instruction

end TapeLang
