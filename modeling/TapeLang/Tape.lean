import Std.Data.ExtTreeMap
import TapeLang.Error
import TapeLang.LittleEndian

/-!
# The tape

A bounded row of byte cells, all zero at first. Only the live cells are stored, each with a value
other than zero, so that two tapes with the same capacity and the same cells are equal
(`Tape.ext_cell`). Capacity is part of the type: there is no tape that a run cannot be given.
-/

namespace TapeLang

/-- The word that a count of cells, or an index, is read back as: two's complement on 64 bits. -/
def signedWord (n : Nat) : Int := (n : Int).bmod (2 ^ 64)

/-- A row of `capacity` byte cells. -/
structure Tape where
  capacity : Nat
  /-- The cells that are not zero. -/
  live : Std.ExtTreeMap Nat UInt8
  capacity_pos : 0 < capacity
  capacity_lt : capacity < 2 ^ 31
  live_ne_zero : ∀ i : Nat, live[i]? ≠ some 0
  lt_of_live : ∀ i : Nat, i ∈ live → i < capacity

namespace Tape

/-- Capacity of a tape when none is asked for. -/
def defaultCapacity : Nat := 4096

/-- Largest capacity of a tape. -/
def maxCapacity : Nat := 2147483647

/-- A tape of zeros. -/
def new (capacity : Nat) : Except Error Tape :=
  if h : 0 < capacity ∧ capacity ≤ maxCapacity then
    .ok {
      capacity
      live := ∅
      capacity_pos := h.1
      capacity_lt := by have := h.2; simp only [maxCapacity] at this; omega
      live_ne_zero := by simp
      lt_of_live := by simp }
  else .error (.invalidCapacity capacity)

/-- Value of a cell; zero outside the tape. -/
def cell (t : Tape) (i : Nat) : UInt8 := t.live[i]?.getD 0

/-- The tape with one cell assigned; unchanged if there is no such cell. -/
def assign (t : Tape) (i : Nat) (v : UInt8) : Tape :=
  if hi : i < t.capacity then
    if hv : v = 0 then
      { t with
        live := t.live.erase i
        live_ne_zero := fun j => by
          rw [Std.ExtTreeMap.getElem?_erase]
          split
          · simp
          · exact t.live_ne_zero j
        lt_of_live := fun j hj => t.lt_of_live j (Std.ExtTreeMap.mem_of_mem_erase hj) }
    else
      { t with
        live := t.live.insert i v
        live_ne_zero := fun j => by
          rw [Std.ExtTreeMap.getElem?_insert]
          split
          · simpa using hv
          · exact t.live_ne_zero j
        lt_of_live := fun j hj => by
          rcases Std.ExtTreeMap.mem_insert.1 hj with h | h
          · rwa [← Std.LawfulEqCmp.eq_of_compare h]
          · exact t.lt_of_live j h }
  else t

/-- Value of the cell at `index`. -/
def get (t : Tape) (index : Nat) : Except Error UInt8 :=
  if index < t.capacity then .ok (t.cell index)
  else .error (.outOfBounds (signedWord index) t.capacity)

/-- Assigns the cell at `index`. -/
def set (t : Tape) (index : Nat) (value : UInt8) : Except Error Tape :=
  if index < t.capacity then .ok (t.assign index value)
  else .error (.outOfBounds (signedWord index) t.capacity)

/-- Index that is `delta` cells from `index`. A sum that no signed word holds is reported as the
largest one, whichever way it overflows. -/
def offset (t : Tape) (index : Nat) (delta : Int64) : Except Error Nat :=
  let target := signedWord index + delta.toInt
  if target < -2 ^ 63 ∨ 2 ^ 63 ≤ target then .error (.outOfBounds (2 ^ 63 - 1) t.capacity)
  else if 0 ≤ target ∧ target < t.capacity then .ok target.toNat
  else .error (.outOfBounds target t.capacity)

/-- The cells that are not zero, from left to right. -/
def liveCells (t : Tape) : List (Nat × UInt8) := t.live.toList

@[simp]
theorem capacity_assign (t : Tape) (i : Nat) (v : UInt8) : (t.assign i v).capacity = t.capacity := by
  unfold assign
  split
  · split <;> rfl
  · rfl

theorem cell_assign (t : Tape) (i : Nat) (v : UInt8) (j : Nat) :
    (t.assign i v).cell j = if i = j ∧ i < t.capacity then v else t.cell j := by
  unfold assign cell
  split
  · rename_i hi
    split
    · rename_i hv
      simp only [Std.ExtTreeMap.getElem?_erase, Std.LawfulEqCmp.compare_eq_iff_eq]
      by_cases h : i = j
      · subst h; simp [hv, hi]
      · simp [h]
    · simp only [Std.ExtTreeMap.getElem?_insert, Std.LawfulEqCmp.compare_eq_iff_eq]
      by_cases h : i = j
      · subst h; simp [hi]
      · simp [h]
  · rename_i hi
    simp [hi]

/-- Tapes are equal when their capacities and their cells are. -/
theorem ext_cell {s t : Tape} (hc : s.capacity = t.capacity) (h : ∀ i, s.cell i = t.cell i) :
    s = t := by
  obtain ⟨c, l, _, _, hl, _⟩ := s
  obtain ⟨c', l', _, _, hl', _⟩ := t
  obtain rfl : c = c' := hc
  have : l = l' := by
    refine Std.ExtTreeMap.ext_getElem? fun i => ?_
    have hi : l[i]?.getD 0 = l'[i]?.getD 0 := h i
    have h1 := hl i
    have h2 := hl' i
    cases ha : l[i]? <;> cases hb : l'[i]? <;> simp_all
  subst this
  rfl

end Tape

/-- Where a run stands: the next instruction and the current cell. -/
structure Cursor where
  ip : Nat
  ptr : Nat
  deriving DecidableEq, Repr, Inhabited

/-- Start of the program, first cell. -/
def Cursor.start : Cursor := ⟨0, 0⟩

end TapeLang
