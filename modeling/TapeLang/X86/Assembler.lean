import Std.Data.HashMap
import TapeLang.Code.Piece
import TapeLang.Code.Routine
import TapeLang.X86.Layout

/-!
# Assembling x86-64 code

Pieces are appended one at a time, so that a label that is bound twice is refused where that
happens; then they are laid out and encoded from address zero. A branch to label `n` that is never
bound goes to address `n + 1`.
-/

namespace TapeLang.X86

/-- Pieces so far, and at which piece each label is bound. -/
structure Assembler where
  pieces : Array (Piece Op Branch Nat)
  bound : Std.HashMap Nat Nat

namespace Assembler

/-- No code. -/
def empty : Assembler := ⟨#[], ∅⟩

/-- Appends a piece. -/
def add (a : Assembler) (piece : Piece Op Branch Nat) : Except AssemblyError Assembler :=
  match piece with
  | .label l =>
    let index := a.pieces.size
    if l ∈ a.bound then .error .labelRebound
    else .ok ⟨a.pieces.push piece, a.bound.insert l index⟩
  | _ => .ok ⟨a.pieces.push piece, a.bound⟩

/-- Appends pieces. -/
def addAll (a : Assembler) (pieces : Array (Piece Op Branch Nat)) : Except AssemblyError Assembler :=
  pieces.foldlM add a

/-- Where a branch to a label goes. -/
def targetOf (a : Assembler) (l : Nat) : Target :=
  match a.bound[l]? with
  | some index => .piece index
  | none => .address (l + 1)

/-- What layout needs to know of a piece. -/
def extentOf (a : Assembler) : Piece Op Branch Nat → Extent
  | .op o => .fixed o.encode.length
  | .branch b l => .branch b (a.targetOf l)
  | .label _ => .fixed 0

/-- The address of a target under a layout. -/
def addressOf (layout : Layout) : Target → Nat
  | .piece index => layout.starts[index]?.getD 0
  | .address a => a

/-- The bytes of the piece at `index` under a layout. -/
def encodePiece (a : Assembler) (layout : Layout) (index : Nat) :
    Piece Op Branch Nat → Except AssemblyError (List UInt8)
  | .op o =>
    match o.refusal? with
    | some e => .error e
    | none => .ok o.encode
  | .branch b l =>
    let start := layout.starts[index]?.getD 0
    let size := layout.sizes[index]?.getD 0
    let displacement : Int := addressOf layout (a.targetOf l) - (start + size : Nat)
    if Branch.holds size displacement then .ok (b.encode size displacement) else .error .branchRange
  | .label _ => .ok []

/-- Appends to code the bytes of pieces, the first of which is the one at `index`. -/
def encodeTo (a : Assembler) (layout : Layout) (code : Array UInt8) (index : Nat) :
    List (Piece Op Branch Nat) → Except AssemblyError (Array UInt8)
  | [] => .ok code
  | piece :: rest =>
    match a.encodePiece layout index piece with
    | .ok bytes => encodeTo a layout (code ++ bytes) (index + 1) rest
    | .error e => .error e

/-- The bytes of all pieces under a layout. The first piece that has none decides the error. -/
def encode (a : Assembler) (layout : Layout) : Except AssemblyError (Array UInt8) :=
  a.encodeTo layout #[] 0 a.pieces.toList

/-- Where a label stands under a layout. -/
def offsetOf (a : Assembler) (layout : Layout) (l : Nat) : Except AssemblyError Nat :=
  match a.bound[l]? with
  | some index => .ok (layout.starts[index]?.getD 0)
  | none => .error .labelUnbound

/-- The layout of the pieces. -/
def layout (a : Assembler) : Layout := Layout.ofExtents (a.pieces.map a.extentOf)

/-- The code, and where the labels in `marks` stand in it. -/
def assemble (a : Assembler) (marks : Array Nat) : Except AssemblyError Routine := do
  let code ← a.encode a.layout
  let offsets ← marks.mapM (a.offsetOf a.layout)
  return { code, offsets }

end Assembler

end TapeLang.X86
