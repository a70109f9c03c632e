import TapeLang.CommandLine.Arguments
import TapeLang.Elf.Relocatable
import TapeLang.Engine
import TapeLang.Interpreter
import TapeLang.Program.Listing
import TapeLang.Program.Peephole
import TapeLang.Source.File
import TapeLang.Source.Parsing

/-!
# What a request does

A request becomes a job: it is done at once, or it is a run that goes on as long as it is given
fuel. What a job writes to a file is part of its result and left to the caller.
-/

namespace TapeLang.CommandLine

/-- What a job leaves when it is done. -/
structure Result where
  /-- What goes to the standard error stream. -/
  report : String := ""
  /-- An object file and where it is to be written. -/
  object : Option (String × Array UInt8) := none
  error : Option Error := none

/-- A request under way. -/
inductive Job where
  | interpreting (p : Program) (m : Interpreter)
  | native (e : Engine) (code : Array UInt8) (m : X86.Machine (Array UInt8))
  | done (r : Result)

namespace Job

/-- A job that failed. -/
def failed (e : Error) : Job := .done { error := some e }

/-- A job that ran to its end. -/
def ran (counters : Option Counters) (error : Option Error) : Job :=
  match error with
  | some e => failed e
  | none => .done { report := (counters.map Counters.report).getD "" }

/-- The program of a request. -/
def program (r : Request) (text : Except Error String) : Except Error Program := do
  let p ← (Source.ofString (← text)).parse
  if r.noOptimize then return p else p.optimize

/-- The object file of a request. -/
def object (r : Request) (path : String) (p : Program) : Except Error Result := do
  let arch := r.target.getD Architecture.host
  let routine ← arch.generate p ⟨r.tapeSize, r.verbose, Engine.environment.host⟩
  return { object := some (path, (Elf.write arch routine).toArray) }

/-- The start of a job, given the text of its source, and what it prints before anything else. -/
def start (r : Request) (text : Except Error String) : Job × Array UInt8 :=
  match program r text with
  | .error e => (failed e, #[])
  | .ok p =>
    let options : Options := ⟨r.tapeSize, r.verbose⟩
    if r.print then (.done {}, p.render.toUTF8.data)
    else
      match r.emitObject with
      | some path =>
        match object r path p with
        | .ok result => (.done result, #[])
        | .error e => (failed e, #[])
      | none =>
        if r.interpret then
          match Interpreter.new options with
          | .ok m => (.interpreting p m, #[])
          | .error e => (failed e, #[])
        else
          match Engine.new p options with
          | .error e => (failed e, #[])
          | .ok engine =>
            match engine.enter Engine.environment #[] with
            | .idle => (ran engine.counters none, #[])
            | .refused e => (failed e, #[])
            | .entered engine code m => (.native engine code m, #[])

/-- Goes on with a job for so many steps, and gives what it prints meanwhile. -/
def advance (fuel : Nat) : Job → Job × Array UInt8
  | .done r => (.done r, #[])
  | .interpreting p m =>
    match m.run p Sink.buffer fuel #[] with
    | (.unfinished, m, out) => (.interpreting p m, out)
    | (ending, m, out) => (ran m.counters ending.error?, out)
  | .native e code m =>
    match m.run Engine.environment code Sink.buffer fuel with
    | .unfinished m => (.native e code { m with host := { m.host with out := #[] } }, m.host.out)
    | .stuck => (failed (.executableMemory "the routine cannot go on"), #[])
    | .returned m =>
      match e.finish Sink.buffer m with
      | (.ended error, e, out) => (ran e.counters error, out)
      | (_, _, out) => (ran none none, out)

end Job

/-- What a process shows when it has ended. -/
structure Exit where
  status : Nat
  stdout : Array UInt8
  stderr : String
  files : FileTree

/-- The result after its object file has been written, if it has one. -/
def Result.written (r : Result) (answer : Except FileError Unit) : Result :=
  match r.object, answer with
  | some (path, _), .error e => { error := some (.objectFile s!"{path}: {e.text}") }
  | _, _ => r

/-- What goes to the standard error stream, and the status, when a result is final. -/
def Result.close (r : Result) : String × Nat :=
  match r.error with
  | some e => (s!"error: {e.message}\n", 1)
  | none => (r.report, 0)

/-- Runs a command line in a file tree; `none` when fuel runs out. -/
def run (fuel : Nat) (files : FileTree) (arguments : List String) : Option Exit :=
  match read arguments with
  | .error .help => some ⟨0, help.toUTF8.data, "", files⟩
  | .error .usage => some ⟨2, #[], usage, files⟩
  | .ok request =>
    let (job, printed) := Job.start request (Source.load request.source (files.read request.source))
    match job.advance fuel with
    | (.done result, more) =>
      let answer := match result.object with
        | some (path, bytes) => files.write path bytes
        | none => .ok files
      let (stderr, status) := (result.written (answer.map fun _ => ())).close
      some ⟨status, printed ++ more, stderr, (answer.toOption).getD files⟩
    | _ => none

end TapeLang.CommandLine
