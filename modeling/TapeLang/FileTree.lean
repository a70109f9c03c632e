/-!
# File trees

A tree of directories and files, and how a path leads through it. A path is followed from left to
right; each of its parts but the last has to lead to a directory, and so has the last one if a
slash follows it.
-/

namespace TapeLang

/-- Why a file cannot be read or written. -/
inductive FileError where
  | notFound
  | permissionDenied
  | notDirectory
  | isDirectory
  | nameTooLong
  /-- The path holds a zero character. -/
  | nulInPath
  /-- Any other reason, in the words of the system. -/
  | other (text : String)
  deriving DecidableEq, Repr

/-- Wording of a file error. -/
def FileError.text : FileError → String
  | notFound => "No such file or directory (os error 2)"
  | permissionDenied => "Permission denied (os error 13)"
  | notDirectory => "Not a directory (os error 20)"
  | isDirectory => "Is a directory (os error 21)"
  | nameTooLong => "File name too long (os error 36)"
  | nulInPath => "file name contained an unexpected NUL byte"
  | other text => text

/-- What a path leads to. -/
inductive FileNode where
  | directory
  | file (bytes : Array UInt8)
  deriving DecidableEq, Repr

/-- Directories and files by the names that lead to them from the root, and the directory that
relative paths start from. -/
structure FileTree where
  nodes : List (List String × FileNode)
  working : List String
  deriving Repr

namespace FileTree

/-- A working directory with files and directories in it. -/
def ofWorking (name : String) (nodes : List (String × FileNode)) : FileTree where
  nodes := ([], .directory) :: ([name], .directory) :: nodes.map fun (n, node) => ([name, n], node)
  working := [name]

/-- What is at a place. -/
def at? (t : FileTree) (place : List String) : Option FileNode := t.nodes.lookup place

/-- Where a path ends. -/
inductive Found where
  | node (place : List String) (node : FileNode)
  /-- Nothing is there, but its directory is; `slash` if a slash follows. -/
  | absent (place : List String) (slash : Bool)
  deriving Repr

/-- Follows the parts of a path from a place. -/
def follow (t : FileTree) (place : List String) : List String → Except FileError Found
  | [] =>
    match t.at? place with
    | some node => .ok (.node place node)
    | none => .error .notFound
  | part :: rest =>
    match t.at? place with
    | some .directory =>
      if part = "" ∨ part = "." then t.follow place rest
      else if part = ".." then t.follow place.dropLast rest
      else if 255 < part.utf8ByteSize then .error .nameTooLong
      else
        let next := place ++ [part]
        match t.at? next with
        | some _ => t.follow next rest
        | none =>
          if rest = [] then .ok (.absent next false)
          else if rest.all (· = "") then .ok (.absent next true)
          else .error .notFound
    | some (.file _) => .error .notDirectory
    | none => .error .notFound

/-- Follows a path. -/
def find (t : FileTree) (path : String) : Except FileError Found :=
  if path.toList.contains '\x00' then .error .nulInPath
  else if path = "" then .error .notFound
  else if 4096 ≤ path.utf8ByteSize then .error .nameTooLong
  else t.follow (if path.toList.head? = some '/' then [] else t.working) (path.splitOn "/")

/-- What a path leads to. -/
def read (t : FileTree) (path : String) : Except FileError FileNode :=
  match t.find path with
  | .ok (.node _ node) => .ok node
  | .ok (.absent ..) => .error .notFound
  | .error e => .error e

/-- Writes a file where a path leads, in place of what it held. -/
def write (t : FileTree) (path : String) (bytes : Array UInt8) : Except FileError FileTree :=
  match t.find path with
  | .ok (.node _ .directory) => .error .isDirectory
  | .ok (.node place (.file _)) | .ok (.absent place false) =>
    .ok { t with nodes := (place, .file bytes) :: t.nodes }
  | .ok (.absent _ true) => .error .isDirectory
  | .error e => .error e

end FileTree

end TapeLang
