/-!
# String tables

Names one after another, each ended by a zero byte, behind a zero byte that stands for no name. The
names are sorted by their bytes from the last to the first, the largest first.
-/

namespace TapeLang.Elf

/-- The bytes of a name. -/
def nameBytes (name : String) : List UInt8 := name.toUTF8.data.toList

/-- A name on its way into a table: its position among the names, and its bytes from the last. -/
structure TableEntry where
  position : Nat
  reversed : List UInt8

/-- Whether the first sequence is the second one or comes after it. -/
def isAfter : List UInt8 → List UInt8 → Bool
  | _, [] => true
  | [], _ :: _ => false
  | a :: as, b :: bs => if a = b then isAfter as bs else b < a

/-- Names in a row, and where each of them starts, by its position. -/
structure StringTable where
  bytes : Array UInt8
  starts : Array Nat

namespace StringTable

/-- Appends names to a table, one after another. -/
def fill (bytes : Array UInt8) (starts : Array Nat) : List TableEntry → StringTable
  | [] => ⟨bytes, starts⟩
  | e :: rest =>
    let start := bytes.size
    fill ((bytes ++ e.reversed.reverse).push 0) (starts.setIfInBounds e.position start) rest

/-- Names with their positions, in the order of a table. -/
def sorted (names : List (List UInt8)) : List TableEntry :=
  let entries := names.zipIdx.map fun (name, position) => ⟨position, name.reverse⟩
  entries.mergeSort fun (a b : TableEntry) => isAfter a.reversed b.reversed

/-- The table of a list of names. -/
def ofNames (names : List (List UInt8)) : StringTable :=
  fill #[0] (Array.replicate names.length 0) (sorted names)

/-- Where the name at a position starts. -/
def start (t : StringTable) (position : Nat) : Nat := t.starts[position]?.getD 0

end StringTable

end TapeLang.Elf
