import TapeLang.Instruction

/-!
# Listings

One line per instruction, indented by one blank per loop around it.
-/

namespace TapeLang.Program

/-- A signed number behind the marker of its sign, as in `<-:-2>` and `<+:1>`. -/
def signedField (negative positive : String) (n : Int) : String :=
  let sign := if n < 0 then negative else positive
  s!"<{sign}:{n}>"

/-- The line of an instruction without its indent. -/
def line : Instruction → String
  | .add delta => signedField "-" "+" delta.toInt8.toInt
  | .move delta => signedField "<" ">" delta.toInt
  | .input => "<In>"
  | .output => "<Out>"
  | .loopBegin _ => "<LoopBegin>"
  | .loopEnd _ => "<LoopEnd>"
  | .set value => s!"<Set:{value.toNat}>"
  | .halt => "<Halt>"

/-- Indent of an instruction where `depth` loops are open before it. -/
def indentOf (depth : Nat) : Instruction → Nat
  | .loopEnd _ => depth - 1
  | _ => depth

/-- How many loops are open after an instruction. A `loopEnd` too many closes nothing. -/
def depthAfter (depth : Nat) : Instruction → Nat
  | .loopBegin _ => depth + 1
  | .loopEnd _ => depth - 1
  | _ => depth

/-- Appends the listing of instructions inside `depth` loops to `text`. -/
def renderTo (text : String) (depth : Nat) : List Instruction → String
  | [] => text
  | i :: rest => renderTo ((text.pushn ' ' (indentOf depth i)) ++ line i ++ "\n") (depthAfter depth i) rest

/-- The listing of a program. -/
def render (p : Program) : String := renderTo "" 0 p.toList

end TapeLang.Program
