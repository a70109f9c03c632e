import TapeLang.Program.Linking
import TapeLang.Source.Token

/-!
# The program of a source

One instruction per command, brackets linked. A bracket without a partner is reported where it
stands in the source; a `]` that closes nothing goes before a `[` that is left open.
-/

namespace TapeLang.Source

/-- The error that reports a bracket without a partner. -/
def unpairedError (tokens : Array Token) (bracket : Unpaired) : Error :=
  let position := (tokens[bracket.index]?.map (·.position)).getD 0
  match bracket with
  | .close _ => .unmatchedLoopEnd position
  | .start _ => .unclosedLoop position

/-- Reads a program. -/
def parse (source : Source) : Except Error Program :=
  let tokens := source.tokens
  match Program.link (tokens.map (·.command.instruction)) with
  | ⟨program, none⟩ => .ok program
  | ⟨_, some bracket⟩ => .error (unpairedError tokens bracket)

end TapeLang.Source
