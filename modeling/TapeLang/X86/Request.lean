import TapeLang.X86.Assembler

/-!
# Requests to the assembler

Code is asked for one request after another: a single instruction, a branch, a label, or a short sequence of
instructions with a meaning of its own.
-/

namespace TapeLang.X86

/-- What the assembler can be asked for. -/
inductive Request where
  /-- Binds a label to the place that was reached. -/
  | bind (l : Nat)
  | op (o : Op)
  | branch (b : Branch) (target : Nat)
  /-- Adds any signed word. -/
  | addWord (dst : Reg) (imm : Int64) (scratch : Reg)
  /-- Adds one to the word at `base + disp`. -/
  | increment (base : Reg) (disp : Int32) (scratch : Reg)
  | openCall
  | closeCall
  | callAddress (target : UInt64)
  | prologue
  | epilogue
  deriving DecidableEq, Repr

namespace Assembler

/-- Appends instructions one after another. -/
def addOps (a : Assembler) (ops : List Op) : Except AssemblyError Assembler := ops.foldlM (fun a o => a.add (.op o)) a

/-- Does what is asked for. -/
def request (a : Assembler) : Request → Except AssemblyError Assembler
  | .bind l => a.add (.label l)
  | .op o => a.add (.op o)
  | .branch b target => a.add (.branch b target)
  | .addWord dst imm scratch => a.addOps (Op.addWord dst imm scratch)
  | .increment base disp scratch => a.addOps (Op.increment base disp scratch)
  | .openCall => a.addOps Op.openCall
  | .closeCall => a.addOps Op.closeCall
  | .callAddress target => a.addOps (Op.callAddress target)
  | .prologue => a.addOps Op.prologue
  | .epilogue => a.addOps Op.epilogue

/-- Makes requests one after another, up to the first that is refused. -/
def requestAll (a : Assembler) (rs : List Request) : Except AssemblyError Assembler := rs.foldlM request a

end Assembler

end TapeLang.X86
