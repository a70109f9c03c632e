import TapeLang.Proofs.Code.Host
import TapeLang.Proofs.Code.Memory

/-!
# Memory behind a cached cell

Both machines hold a state of the interpreter in the same way: all of its tape but for the current
cell, which is in a register (`Memory.Caches`). Once that is written back, the tape is the
interpreter's (`Memory.Stores`).
-/

namespace TapeLang

/-- What a machine has outside of its registers and its stack. -/
structure Memory (σ : Type) where
  tape : Tape
  counters : Option Counters
  host : HostState σ
  /-- How many host functions were called. -/
  calls : Nat

namespace Memory

variable {σ : Type} {sink : Sink σ} {counting : Bool} {x₀ x : Memory σ} {s s' : Interpreter} {out : Array UInt8}

/-- The counters, where nothing is counted those that the run began with. -/
def countersOf (counting : Bool) (x₀ : Memory σ) (s : Interpreter) : Option Counters :=
  if counting then s.counters else x₀.counters

/-- The memory holds a state of the interpreter but for the current cell, in a run that began with
`x₀` and has written `out`. -/
structure Caches (sink : Sink σ) (counting : Bool) (x₀ : Memory σ) (s : Interpreter) (out : Array UInt8)
    (x : Memory σ) : Prop where
  ptr_lt : s.cursor.ptr < s.tape.capacity
  capacity : x.tape.capacity = s.tape.capacity
  entered : s.tape.capacity = x₀.tape.capacity
  cells (i : Nat) (hi : i ≠ s.cursor.ptr) : x.tape.cell i = s.tape.cell i
  counted (hc : counting = true) : s.counters.isSome = true
  counters : x.counters = countersOf counting x₀ s
  host : x.host = x₀.host.putAll sink out.toList
  calls : x.calls = x₀.calls + out.size

/-- The memory holds a state of the interpreter, the host and its calls being as they are given. -/
structure Stores (counting : Bool) (x₀ : Memory σ) (s : Interpreter) (host : HostState σ) (calls : Nat)
    (x : Memory σ) : Prop where
  tape : x.tape = s.tape
  counters : x.counters = countersOf counting x₀ s
  host : x.host = host
  calls : x.calls = calls

namespace Caches

theorem initial (ht : x₀.tape = s.tape) (hlt : s.cursor.ptr < s.tape.capacity)
    (hc : counting = true → x₀.counters = s.counters ∧ s.counters.isSome = true) :
    Caches sink counting x₀ s #[] x₀ := by
  refine ⟨hlt, by rw [ht], by rw [ht], fun i _ => by rw [ht], fun h => (hc h).2, ?_, rfl, rfl⟩
  unfold countersOf
  split
  · rename_i h
    exact (hc h).1
  · rfl

theorem congr_state (h : Caches sink counting x₀ s out x) (ht : s'.tape = s.tape)
    (hp : s'.cursor.ptr = s.cursor.ptr) (hc : s'.counters = s.counters) : Caches sink counting x₀ s' out x := by
  have hcounters : countersOf counting x₀ s' = countersOf counting x₀ s := by rw [countersOf, hc, countersOf]
  refine ⟨?_, ?_, ?_, ?_, ?_, ?_, h.host, h.calls⟩
  · rw [hp, ht]
    exact h.ptr_lt
  · rw [ht, h.capacity]
  · rw [ht, h.entered]
  · intro i hi
    rw [hp] at hi
    rw [ht, h.cells i hi]
  · intro hcounting
    rw [hc]
    exact h.counted hcounting
  · rw [hcounters, h.counters]

/-- The current cell is not in memory, so memory holds the state whatever it is assigned. -/
theorem withCell (h : Caches sink counting x₀ s out x) (v : UInt8) :
    Caches sink counting x₀ (s.withCell v) out x := by
  have hcapacity : (s.withCell v).tape.capacity = s.tape.capacity := Tape.capacity_assign ..
  refine ⟨?_, ?_, ?_, ?_, h.counted, h.counters, h.host, h.calls⟩
  · rw [hcapacity]
    exact h.ptr_lt
  · rw [hcapacity, h.capacity]
  · rw [hcapacity, h.entered]
  · intro i hi
    show _ = (s.tape.assign s.cursor.ptr v).cell i
    rw [Tape.cell_assign, if_neg fun heq => hi heq.1.symm, h.cells i hi]

theorem uncounted (h : Caches sink false x₀ s out x) (i : Instruction) : Caches sink false x₀ (s.pass i) out x :=
  { h with counted := fun hc => by cases hc }

/-- An instruction that is counted. -/
theorem record (h : Caches sink true x₀ s out x) (i : Instruction) :
    ∃ c, x.counters = some c ∧
      Caches sink true x₀ (s.pass i) out { x with counters := some (c.record i.kind) } := by
  obtain ⟨c, hc⟩ := Option.isSome_iff_exists.1 (h.counted rfl)
  have hpass : (s.pass i).counters = some (c.record i.kind) := by rw [Interpreter.counters_pass, hc]; rfl
  refine ⟨c, h.counters.trans hc, { h with counted := ?_, counters := ?_ }⟩
  · intro _
    rw [hpass]
    rfl
  · exact hpass.symm

theorem put (h : Caches sink counting x₀ s out x) (b : UInt8) :
    Caches sink counting x₀ s (out.push b) { x with host := x.host.put sink b, calls := x.calls + 1 } :=
  { h with
    host := by
      show x.host.put sink b = _
      rw [h.host, Array.toList_push, HostState.putAll_append_singleton]
    calls := by
      show x.calls + 1 = _
      rw [h.calls, Array.size_push, Nat.add_assoc] }

/-- Writing the cache back makes the tape that of the interpreter. -/
theorem store (h : Caches sink counting x₀ s out x) (base : UInt64) :
    x.tape.store? base (base + UInt64.ofNat s.cursor.ptr) s.cell = some s.tape :=
  Tape.store_cached base h.ptr_lt h.capacity h.cells

theorem stored (h : Caches sink counting x₀ s out x) :
    Stores counting x₀ s (x₀.host.putAll sink out.toList) (x₀.calls + out.size) { x with tape := s.tape } :=
  ⟨rfl, h.counters, h.host, h.calls⟩

/-- From a state that is stored, any cell of its tape can be cached. -/
theorem of_stores {ptr : Nat} (h : Caches sink counting x₀ s out x) (hptr : ptr < s.tape.capacity) {y : Memory σ}
    (hy : Stores counting x₀ s (x₀.host.putAll sink out.toList) (x₀.calls + out.size) y) :
    Caches sink counting x₀ (s.withPtr ptr) out y :=
  ⟨hptr, by rw [hy.tape]; rfl, h.entered, fun i _ => by rw [hy.tape]; rfl, h.counted, hy.counters, hy.host, hy.calls⟩

end Caches

end Memory

end TapeLang
