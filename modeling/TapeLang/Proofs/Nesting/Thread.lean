import TapeLang.Tape
import TapeLang.Proofs.Nesting.Block

/-!
# Structured semantics

What a block means, without indices: a thread is what is left to execute and the world it is
executed in. A loop is skipped when the current cell is zero; otherwise its body is put before it and
the loop is tried again. A thread has one successor or one ending, so runs are counted in steps.
-/

namespace TapeLang

/-- A tape, the current cell, and the bytes written so far. -/
structure World where
  tape : Tape
  ptr : Nat
  output : List UInt8
  ptr_lt : ptr < tape.capacity

namespace World

/-- The zeroed tape of a capacity, before anything is written. -/
def start (tape : Tape) : World := ⟨tape, 0, [], tape.capacity_pos⟩

/-- Value of the current cell. -/
def cell (w : World) : UInt8 := w.tape.cell w.ptr

/-- The world with the current cell assigned. -/
def assign (w : World) (v : UInt8) : World :=
  { w with tape := w.tape.assign w.ptr v, ptr_lt := by simpa using w.ptr_lt }

/-- The world in which the current cell has been written. -/
def emit (w : World) : World := { w with output := w.output ++ [w.cell] }

/-- The world at another cell. -/
def goTo (w : World) (i : Nat) (h : i < w.tape.capacity) : World := { w with ptr := i, ptr_lt := h }

/-- Where a move aims at. -/
def target (w : World) (delta : Int64) : Int := w.ptr + delta.toInt

@[simp] theorem cell_assign (w : World) (v : UInt8) : (w.assign v).cell = v := by
  simp [cell, assign, Tape.cell_assign, w.ptr_lt]

@[simp] theorem capacity_assign (w : World) (v : UInt8) :
    (w.assign v).tape.capacity = w.tape.capacity := Tape.capacity_assign ..

@[ext] theorem ext {v w : World} (ht : v.tape = w.tape) (hp : v.ptr = w.ptr) (ho : v.output = w.output) :
    v = w := by
  cases v
  cases w
  simp_all

/-- Only the last of two assignments counts. -/
@[simp] theorem assign_assign (w : World) (a b : UInt8) : (w.assign a).assign b = w.assign b := by
  refine World.ext (Tape.ext_cell (by simp [assign]) fun i => ?_) rfl rfl
  simp only [assign, Tape.cell_assign, Tape.capacity_assign]
  split <;> simp_all

/-- Assigning what is there changes nothing. -/
@[simp] theorem assign_cell (w : World) : w.assign w.cell = w := by
  refine World.ext (Tape.ext_cell (by simp [assign]) fun i => ?_) rfl rfl
  simp only [assign, Tape.cell_assign, cell]
  split <;> simp_all

end World

/-- What is wrong with a run that fails. -/
inductive Fault where
  | outOfBounds (index : Int) (capacity : Nat)
  /-- Input is not implemented. -/
  | input
  deriving DecidableEq, Repr

namespace Thread

/-- How a run ends. -/
inductive Ending where
  | finished
  /-- At an empty loop with a live cell. -/
  | halted
  | failed (f : Fault)
  deriving DecidableEq, Repr

end Thread

theorem World.toNat_target_lt {w : World} {delta : Int64}
    (h : 0 ≤ w.target delta ∧ w.target delta < w.tape.capacity) : (w.target delta).toNat < w.tape.capacity := by
  omega

/-- What an action makes of a world. A move that leaves the tape reports its target, or the largest
signed word if no signed word holds that. -/
def Action.perform (w : World) : Action → Except Thread.Ending World
  | add delta => .ok (w.assign (w.cell + delta))
  | move delta =>
    if h : 0 ≤ w.target delta ∧ w.target delta < w.tape.capacity then
      .ok (w.goTo (w.target delta).toNat (World.toNat_target_lt h))
    else .error (.failed (.outOfBounds (min (w.target delta) (2 ^ 63 - 1)) w.tape.capacity))
  | input => .error (.failed .input)
  | output => .ok w.emit
  | set value => .ok (w.assign value)
  | halt => if w.cell = 0 then .ok w else .error .halted

theorem Action.perform_halt_zero {w : World} (h : w.cell = 0) : Action.halt.perform w = .ok w := by
  rw [perform, if_pos h]

theorem Action.perform_halt_live {w : World} (h : w.cell ≠ 0) : Action.halt.perform w = .error .halted := by
  rw [perform, if_neg h]

/-- What is left to execute, and the world it is executed in. -/
structure Thread where
  rest : Block
  world : World

namespace Thread

/-- One step: an action, or a loop that is tried. -/
def step (t : Thread) : Except Ending Thread :=
  match t.rest with
  | .done => .error .finished
  | .act a rest => (a.perform t.world).map fun w => ⟨rest, w⟩
  | .loop body rest =>
    if t.world.cell = 0 then .ok ⟨rest, t.world⟩ else .ok ⟨body ++ .loop body rest, t.world⟩

/-- The ending of a run of less than `n` steps, if it ends so soon, and the world at its end. -/
def run : Nat → Thread → Option (Ending × World)
  | 0, _ => none
  | n + 1, t =>
    match t.step with
    | .ok t => run n t
    | .error e => some (e, t.world)

theorem step_act_ok {a : Action} {r : Block} {w w' : World} (h : a.perform w = .ok w') :
    step ⟨.act a r, w⟩ = .ok ⟨r, w'⟩ := by
  simp [step, h, Except.map]

theorem step_act_error {a : Action} {r : Block} {w : World} {e : Ending} (h : a.perform w = .error e) :
    step ⟨.act a r, w⟩ = .error e := by
  simp [step, h, Except.map]

theorem step_loop_zero {b r : Block} {w : World} (h : w.cell = 0) :
    step ⟨.loop b r, w⟩ = .ok ⟨r, w⟩ := by
  simp [step, h]

theorem step_loop_live {b r : Block} {w : World} (h : w.cell ≠ 0) :
    step ⟨.loop b r, w⟩ = .ok ⟨b ++ .loop b r, w⟩ := by
  simp [step, h]

theorem run_succ_of_step {t t' : Thread} (h : t.step = .ok t') (n : Nat) : t.run (n + 1) = t'.run n := by
  simp [run, h]

theorem run_succ_of_end {t : Thread} {e : Ending} (h : t.step = .error e) (n : Nat) :
    t.run (n + 1) = some (e, t.world) := by
  simp [run, h]

/-- More steps do not change a run that has ended. -/
theorem run_mono {n m : Nat} (hnm : n ≤ m) {t : Thread} {r : Ending × World} (h : t.run n = some r) :
    t.run m = some r := by
  induction n generalizing m t with
  | zero => simp [run] at h
  | succ n ih =>
    obtain ⟨m, rfl⟩ : ∃ k, m = k + 1 := ⟨m - 1, by omega⟩
    cases hs : t.step with
    | ok t' =>
      rw [run_succ_of_step hs] at h ⊢
      exact ih (by omega) h
    | error e =>
      rw [run_succ_of_end hs] at h ⊢
      exact h

end Thread

end TapeLang
