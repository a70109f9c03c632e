import TapeLang.Code.Piece
import TapeLang.Code.Routine

/-!
# Translating programs

Both instruction sets share one shape of routine: an entry, the instructions one after another, the
exit, and a stub for moves that leave the tape. The current cell is cached in a register, which is
written back before a move and at the exit. What differs is gathered in a dialect. Translation
follows the nesting of brackets and not their targets; the first instruction that it cannot
translate decides the error.
-/

namespace TapeLang

/-- Places in a routine. -/
inductive Label where
  /-- The stub for moves that leave the tape. -/
  | fault
  /-- The start of the instruction at `ip`. -/
  | instruction (ip : Nat)
  /-- The test of the loop that opens at `ip`. -/
  | check (ip : Nat)
  /-- Just past the end of the loop that opens at `ip`. -/
  | after (ip : Nat)
  deriving DecidableEq, Repr

/-- Number of a label; no two labels share one. -/
def Label.number : Label → Nat
  | fault => 0
  | instruction ip => 3 * ip + 1
  | check ip => 3 * ip + 2
  | after ip => 3 * ip + 3

theorem Label.number_injective {l m : Label} (h : l.number = m.number) : l = m := by
  cases l <;> cases m <;> simp only [number] at h <;> first | rfl | (congr 1; omega)

/-- How an instruction set expresses the parts of a routine. -/
structure Dialect (ω β : Type) where
  /-- Binds the arguments, fills the cache and goes on at the resume address. -/
  entry : List ω
  /-- Counts one instruction of a kind. -/
  count : Kind → List ω
  add : UInt8 → List ω
  set : UInt8 → List ω
  /-- Writes the cache back, moves and compares the index with the last one. -/
  move : Int64 → List ω
  /-- Fills the cache from the current cell. -/
  reload : List ω
  output : List ω
  /-- Compares the cache with zero. -/
  test : List ω
  /-- Writes the cache back and returns. -/
  exit : List ω
  /-- Reports a move that leaves the tape, and returns. -/
  fault : List ω
  always : β
  ifZero : β
  ifOutside : β

namespace Dialect

variable {ω β : Type}

/-- Operations as pieces. -/
def ops (os : List ω) : List (Piece ω β Label) := os.map .op

/-- Pieces of an instruction and the loops that are open after it. -/
structure Translated (ω β : Type) where
  pieces : List (Piece ω β Label)
  pending : List Nat

/-- Translates the instruction at `ip` inside the loops at `pending`, innermost first. -/
def instruction (d : Dialect ω β) (ip : Nat) (pending : List Nat) (i : Instruction) :
    Except Error (Translated ω β) :=
  let start (rest : List (Piece ω β Label)) := .label (.instruction ip) :: (ops (d.count i.kind) ++ rest)
  match i with
  | .add delta => .ok ⟨start (ops (d.add delta)), pending⟩
  | .move delta =>
    .ok ⟨start (ops (d.move delta) ++ .branch d.ifOutside .fault :: ops d.reload), pending⟩
  | .output => .ok ⟨start (ops d.output), pending⟩
  | .loopBegin _ =>
    .ok ⟨start (.label (.check ip) :: ops d.test ++ [.branch d.ifZero (.after ip)]), ip :: pending⟩
  | .loopEnd _ =>
    match pending with
    | [] => .error (.unbalancedLoop ip)
    | opened :: pending =>
      .ok ⟨start [.branch d.always (.check opened), .label (.after opened)], pending⟩
  | .set value => .ok ⟨start (ops (d.set value)), pending⟩
  | .input | .halt => .error (.notCompilable ip i)

/-- Appends the translation of the instructions from `ip` on. -/
def bodyFrom (d : Dialect ω β) (ip : Nat) (pending : List Nat) (pieces : Array (Piece ω β Label)) :
    List Instruction → Except Error (Array (Piece ω β Label))
  | [] => if pending = [] then .ok pieces else .error (.unbalancedLoop ip)
  | i :: rest =>
    match d.instruction ip pending i with
    | .ok t => bodyFrom d (ip + 1) t.pending (pieces ++ t.pieces) rest
    | .error e => .error e

/-- The exit and the stub behind it. -/
def closing (d : Dialect ω β) : List (Piece ω β Label) := ops d.exit ++ .label .fault :: ops d.fault

/-- The pieces of a routine. -/
def routine (d : Dialect ω β) (p : Program) : Except Error (Array (Piece ω β Label)) := do
  let body ← d.bodyFrom 0 [] (ops d.entry).toArray p.toList
  return body ++ d.closing

end Dialect

/-- The labels of the instructions of a program. -/
def instructionLabels (p : Program) : Array Label := (Array.range p.size).map .instruction

end TapeLang
