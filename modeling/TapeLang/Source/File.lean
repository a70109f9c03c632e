import TapeLang.Error
import TapeLang.FileTree
import TapeLang.Source.Utf8

/-!
# Source files
-/

namespace TapeLang.Source

/-- Size of the largest source file in bytes. -/
def maxFileSize : Nat := 1048576

/-- The text of a source file, given what its path leads to. Only a regular file of at most
`maxFileSize` bytes is a source; bytes that are no text are replaced. -/
def load (path : String) (found : Except FileError FileNode) : Except Error String :=
  match found with
  | .error e => .error (.sourceLoad s!"{path}: {e.text}")
  | .ok .directory => .error (.sourceLoad s!"{path}: not a regular file")
  | .ok (.file bytes) =>
    if maxFileSize < bytes.size then
      .error (.sourceLoad s!"{path}: {bytes.size} bytes exceeds the {maxFileSize} byte limit")
    else .ok (Utf8.decode bytes.toList)

end TapeLang.Source
