import Std.Data.HashMap
import TapeLang.A64.Instruction
import TapeLang.Code.Translation

/-!
# Assembling AArch64 code

Operations and branches take four bytes each and labels none, so places are known before anything
is encoded. The first branch that does not reach its target is an error.
-/

namespace TapeLang.A64

/-- Adds to `found` where the labels of pieces stand that start at `offset`. -/
def placesFrom (found : Std.HashMap Nat Nat) (offset : Nat) :
    List (Piece Op Branch Label) → Std.HashMap Nat Nat
  | [] => found
  | .label l :: rest => placesFrom (found.insert l.number offset) offset rest
  | _ :: rest => placesFrom found (offset + 4) rest

/-- Where each label stands, by its number. -/
def places (pieces : Array (Piece Op Branch Label)) : Std.HashMap Nat Nat :=
  placesFrom ∅ 0 pieces.toList

/-- Where a label stands. -/
def place (found : Std.HashMap Nat Nat) (l : Label) : Except AssemblyError Nat :=
  match found[l.number]? with
  | some offset => .ok offset
  | none => .error .labelUnbound

/-- The bytes of the piece at `offset`. `report` is the number that an error gives a label. -/
def encode (report : Label → Nat) (found : Std.HashMap Nat Nat) (offset : Nat) :
    Piece Op Branch Label → Except AssemblyError (List UInt8)
  | .op o => .ok (wordBytes o.word)
  | .branch b target => do
    let goal ← place found target
    let words := ((goal : Int) - offset) / 4
    if b.reaches words then .ok (wordBytes (b.word words)) else .error (.outOfReach (report target))
  | .label _ => .ok []

/-- Appends the bytes of pieces to code. -/
def encodeTo (report : Label → Nat) (found : Std.HashMap Nat Nat) (code : Array UInt8) :
    List (Piece Op Branch Label) → Except AssemblyError (Array UInt8)
  | [] => .ok code
  | piece :: rest =>
    match encode report found code.size piece with
    | .ok bytes => encodeTo report found (code ++ bytes) rest
    | .error e => .error e

/-- The code of a sequence of pieces, and where the labels in `marks` stand in it. -/
def assemble (report : Label → Nat) (pieces : Array (Piece Op Branch Label)) (marks : Array Label) :
    Except AssemblyError Routine := do
  let found := places pieces
  let code ← encodeTo report found #[] pieces.toList
  let offsets ← marks.mapM (place found)
  return { code, offsets }

end TapeLang.A64
