import TapeLang.CommandLine.Job

/-!
# The command
-/

namespace TapeLang.CommandLine

/-- A file error of the system. -/
def fileErrorOf : IO.Error → FileError
  | .noFileOrDirectory .. => .notFound
  | .permissionDenied .. => .permissionDenied
  | .inappropriateType _ code _ => if code = 21 then .isDirectory else .notDirectory
  | e => .other (toString e)

/-- What a path leads to, the contents being read only if they can be a source. -/
def readNode (path : String) : IO (Except FileError FileNode) := do
  try
    let metadata ← (System.mkFilePath [path]).metadata
    match metadata.type with
    | .file =>
      if Source.maxFileSize < metadata.byteSize.toNat then
        return .ok (.file (Array.replicate metadata.byteSize.toNat 0))
      else return .ok (.file (← IO.FS.readBinFile path).data)
    | _ => return .ok .directory
  catch e => return .error (fileErrorOf e)

/-- Writes a file. -/
def writeFile (path : String) (bytes : Array UInt8) : IO (Except FileError Unit) := do
  try
    IO.FS.writeBinFile path ⟨bytes⟩
    return .ok ()
  catch e => return .error (fileErrorOf e)

/-- Writes bytes to the standard output. -/
def printBytes (bytes : Array UInt8) : IO Unit := do
  if bytes.size ≠ 0 then
    let stdout ← IO.getStdout
    stdout.write ⟨bytes⟩
    stdout.flush

/-- How many steps a job takes between two writes. -/
def stepsPerWrite : Nat := 100000

/-- Brings a job to its end. -/
partial def finishJob (job : Job) : IO Result := do
  let (job, printed) := job.advance stepsPerWrite
  printBytes printed
  match job with
  | .done r => return r
  | job => finishJob job

/-- Carries out a request. -/
def carryOut (request : Request) : IO UInt32 := do
  let (job, printed) := Job.start request (Source.load request.source (← readNode request.source))
  printBytes printed
  let result ← finishJob job
  let answer ← match result.object with
    | some (path, bytes) => writeFile path bytes
    | none => pure (.ok ())
  let (stderr, status) := (result.written answer).close
  IO.eprint stderr
  return UInt32.ofNat status

end TapeLang.CommandLine

open TapeLang.CommandLine in
/-- Runs the command line. -/
def main (arguments : List String) : IO UInt32 := do
  match read arguments with
  | .error .help =>
    IO.print help
    return 0
  | .error .usage =>
    IO.eprint usage
    return 2
  | .ok request => carryOut request
