import TapeLang.Instruction

/-!
# Counters

How many instructions of each kind a run has executed: eight words in the order of `Kind.all`, the
word of kind `k` at byte `8 * k` of the block that generated code increments.
-/

namespace TapeLang

/-- One count per kind. -/
structure Counters where
  counts : Vector UInt64 8
  deriving DecidableEq, Repr

namespace Counters

/-- Nothing counted yet. -/
def zero : Counters := ⟨Vector.replicate 8 0⟩

/-- Byte offset of a kind's word in the block. -/
def slot (k : Kind) : Nat := 8 * k.index

/-- Count of a kind. -/
def get (c : Counters) (k : Kind) : UInt64 := c.counts[k.index]

/-- The counters with one count assigned. -/
def set (c : Counters) (k : Kind) (n : UInt64) : Counters := ⟨c.counts.set k.index n⟩

/-- Counts one more instruction of a kind. -/
def record (c : Counters) (k : Kind) : Counters := c.set k (c.get k + 1)

/-- Sum of all counts. -/
def total (c : Counters) : UInt64 := c.counts.foldl (· + ·) 0

/-- The report: the total, then a line per kind that was executed. -/
def report (c : Counters) : String :=
  Kind.all.foldl
    (fun text k => if c.get k = 0 then text else text ++ s!"  {k.name}: {(c.get k).toNat}\n")
    s!"Executed instructions: {c.total.toNat}\n"

theorem get_set (c : Counters) (k l : Kind) (n : UInt64) :
    (c.set k n).get l = if k = l then n else c.get l := by
  show (c.counts.set k.index n)[(l.index : Nat)] = if k = l then n else c.counts[(l.index : Nat)]
  rw [Vector.getElem_set]
  by_cases h : k = l
  · simp [h]
  · have : (k.index : Nat) ≠ l.index := fun e => h (Kind.index_injective (Fin.ext e))
    simp [h, this]

end Counters

end TapeLang
