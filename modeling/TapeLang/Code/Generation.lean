import TapeLang.A64.Routine
import TapeLang.X86.Routine

/-!
# Instruction sets
-/

namespace TapeLang

/-- An instruction set that programs are translated to. -/
inductive Architecture where
  | x86_64
  | aarch64
  deriving DecidableEq, Repr

namespace Architecture

/-- The one that the engine runs on. -/
def host : Architecture := x86_64

/-- The routine of a program. -/
def generate : Architecture → Program → CodeOptions → Except Error Routine
  | x86_64 => X86.generate
  | aarch64 => A64.generate

end Architecture

end TapeLang
