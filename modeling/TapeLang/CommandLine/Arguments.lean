import TapeLang.Code.Generation
import TapeLang.Tape

/-!
# Arguments of the command line

Arguments are read from left to right. Options may stand before or after the source, flags may share
a hyphen, a value may be attached with `=`, and `--` ends the options. The first argument that
cannot be read decides; a request for help comes before all that follows it and before anything that
is missing.
-/

namespace TapeLang.CommandLine

/-- What the command line asks for. -/
structure Request where
  source : String
  interpret : Bool
  noOptimize : Bool
  print : Bool
  verbose : Bool
  tapeSize : Nat
  emitObject : Option String
  target : Option Architecture
  deriving DecidableEq, Repr

/-- What was read so far. -/
structure Draft where
  source : Option String := none
  interpret : Bool := false
  noOptimize : Bool := false
  print : Bool := false
  verbose : Bool := false
  tapeSize : Option Nat := none
  emitObject : Option String := none
  target : Option Architecture := none

/-- Why there is no request. -/
inductive Refusal where
  | help
  | usage
  deriving DecidableEq, Repr

/-- Options that take no value. -/
inductive Flag where
  | interpret | noOptimize | print | verbose | help

/-- Options that take a value. -/
inductive Setting where
  | tapeSize | emitObject | target

/-- The flag with a short name. -/
def Flag.ofShort? : Char → Option Flag
  | 'i' => some interpret
  | 'd' => some noOptimize
  | 'p' => some print
  | 'v' => some verbose
  | 'h' => some help
  | _ => none

/-- The flag with a long name. -/
def Flag.ofLong? : String → Option Flag
  | "interpret" => some interpret
  | "no-optimize" => some noOptimize
  | "print" => some print
  | "verbose" => some verbose
  | "help" => some help
  | _ => none

/-- The setting with a long name. -/
def Setting.ofLong? : String → Option Setting
  | "tape-size" => some tapeSize
  | "emit-object" => some emitObject
  | "target" => some target
  | _ => none

/-- The number that decimal digits stand for, after `n`. -/
def digitsFrom? (n : Nat) : List Char → Option Nat
  | [] => some n
  | c :: rest => if c.isDigit then digitsFrom? (10 * n + (c.toNat - '0'.toNat)) rest else none

/-- Reads a count of 64 bits: digits, perhaps behind a plus sign. -/
def readCount? (text : String) : Option Nat :=
  let digits := match text.toList with
    | '+' :: rest => rest
    | cs => cs
  if digits = [] then none
  else
    match digitsFrom? 0 digits with
    | some n => if n < 2 ^ 64 then some n else none
    | none => none

/-- Reads the name of an instruction set. -/
def readTarget? : String → Option Architecture
  | "x64" => some .x86_64
  | "arm64" => some .aarch64
  | _ => none

namespace Draft

/-- Sets a flag, which may be given once. -/
def flag (d : Draft) (f : Flag) : Except Refusal Draft :=
  match f with
  | .help => .error .help
  | .interpret => if d.interpret then .error .usage else .ok { d with interpret := true }
  | .noOptimize => if d.noOptimize then .error .usage else .ok { d with noOptimize := true }
  | .print => if d.print then .error .usage else .ok { d with print := true }
  | .verbose => if d.verbose then .error .usage else .ok { d with verbose := true }

/-- Sets a flag for each character. -/
def shortFlags (d : Draft) : List Char → Except Refusal Draft
  | [] => .ok d
  | c :: rest =>
    match Flag.ofShort? c with
    | some f => do (← d.flag f).shortFlags rest
    | none => .error .usage

/-- Gives a setting its value, which may be done once. -/
def setting (d : Draft) (s : Setting) (value : String) : Except Refusal Draft :=
  match s with
  | .tapeSize =>
    match d.tapeSize, readCount? value with
    | none, some n => .ok { d with tapeSize := some n }
    | _, _ => .error .usage
  | .emitObject =>
    if d.emitObject.isSome || value = "" then .error .usage
    else .ok { d with emitObject := some value }
  | .target =>
    match d.target, readTarget? value with
    | none, some arch => .ok { d with target := some arch }
    | _, _ => .error .usage

/-- Takes the source, of which there is one. -/
def positional (d : Draft) (value : String) : Except Refusal Draft :=
  if d.source.isSome || value = "" then .error .usage else .ok { d with source := some value }

/-- The request, if nothing is missing. -/
def request (d : Draft) : Except Refusal Request :=
  match d.source with
  | none => .error .usage
  | some source =>
    if d.target.isSome && d.emitObject.isNone then .error .usage
    else
      .ok {
        source
        interpret := d.interpret
        noOptimize := d.noOptimize
        print := d.print
        verbose := d.verbose
        tapeSize := d.tapeSize.getD Tape.defaultCapacity
        emitObject := d.emitObject
        target := d.target }

end Draft

/-- An argument by its form. -/
inductive Form where
  | endOfOptions
  /-- A long option, with the value that is attached to it. -/
  | long (name : String) (value : Option String)
  | short (flags : List Char)
  | positional

/-- The form of an argument. A lone hyphen is positional. -/
def Form.of (argument : String) : Form :=
  match argument.toList with
  | ['-', '-'] => endOfOptions
  | '-' :: '-' :: cs =>
    match cs.span (· ≠ '=') with
    | (name, _ :: value) => long (String.ofList name) (some (String.ofList value))
    | (name, []) => long (String.ofList name) none
  | '-' :: c :: cs => short (c :: cs)
  | _ => positional

/-- Reads the arguments that follow what was read so far. -/
def readFrom (d : Draft) : List String → Except Refusal Request
  | [] => d.request
  | argument :: rest =>
    match Form.of argument with
    | .endOfOptions => do (← rest.foldlM Draft.positional d).request
    | .positional => do readFrom (← d.positional argument) rest
    | .short flags => do readFrom (← d.shortFlags flags) rest
    | .long name value =>
      match Flag.ofLong? name, Setting.ofLong? name, value with
      | some f, _, none => do readFrom (← d.flag f) rest
      | some _, _, some _ => .error .usage
      | none, some s, some value => do readFrom (← d.setting s value) rest
      | none, some s, none =>
        match rest with
        | value :: rest =>
          match Form.of value with
          | .positional => do readFrom (← d.setting s value) rest
          | _ => .error .usage
        | [] => .error .usage
      | none, none, _ => .error .usage

/-- Reads the arguments of a command line. -/
def read (arguments : List String) : Except Refusal Request := readFrom {} arguments

/-- How the command line is used. -/
def usage : String := "Usage: bfjit [OPTIONS] <SOURCE>\n"

/-- What a request for help prints. -/
def help : String :=
  "Compile and run tape-language programs\n\n" ++ usage ++
  "\nArguments:\n" ++
  "  <SOURCE>  Program source file\n\n" ++
  "Options:\n" ++
  "  -i, --interpret           Run with the reference interpreter instead of native code\n" ++
  "  -d, --no-optimize         Disable the peephole optimizer\n" ++
  "  -p, --print               Print the IR and exit\n" ++
  "  -v, --verbose             Count executed instructions and print the totals to stderr\n" ++
  s!"      --tape-size <CELLS>   Tape size in cells [default: {Tape.defaultCapacity}]\n" ++
  "      --emit-object <PATH>  Write the generated code as an ELF object to PATH and exit\n" ++
  "      --target <TARGET>     Architecture for --emit-object (defaults to the host) " ++
  "[possible values: x64, arm64]\n" ++
  "  -h, --help                Print help\n"

end TapeLang.CommandLine
