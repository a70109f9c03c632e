import TapeLang.Proofs.Interpreter
import TapeLang.Proofs.Nesting.Linked
import TapeLang.Proofs.Nesting.Reaches

/-!
# The interpreter runs threads

The interpreter of a linked program and the thread of its block go in lockstep. What the thread has
left to execute is read off the program at the instruction pointer (`Continues`): behind the last
instruction of a loop's body stands the loop itself, to be tried again, and there the interpreter
stands at the closing bracket. So one step of either is one step of the other (`Matches.step`), and
runs of the same length end together (`Matches.run`).
-/

namespace TapeLang

/-! ### What is left at an index -/

/-- The block that is left to execute of a program from an index on, with the loops around it. -/
inductive Continues (p : Program) : Nat → Block → Prop where
  | done : Continues p p.size .done
  | act {i : Nat} {a : Action} {k : Block} (h : p[i]? = some a.instruction) (hk : Continues p (i + 1) k) :
    Continues p i (.act a k)
  /-- At the opening bracket of a loop. -/
  | enter {i : Nat} {body k : Block} (h : Block.Occurs p i (.loop body .done))
    (hk : Continues p (i + body.size + 2) k) : Continues p i (.loop body k)
  /-- At the closing bracket of a loop, where the loop is tried again. -/
  | again {i : Nat} {body k : Block} (h : Block.Occurs p i (.loop body .done))
    (hk : Continues p (i + body.size + 2) k) : Continues p (i + body.size + 1) (.loop body k)

/-- A block that stands before what is left. -/
theorem Continues.append {p : Program} {b k : Block} {i : Nat} (h : Block.Occurs p i b)
    (hk : Continues p (i + b.size) k) : Continues p i (b ++ k) := by
  induction b generalizing i with
  | done => exact hk
  | act a rest ih =>
    refine .act h.1 (ih h.2 ?_)
    rwa [show i + 1 + rest.size = i + (Block.act a rest).size by simp only [Block.size]; omega]
  | loop body rest _ ih =>
    obtain ⟨hbegin, hbody, hend, hrest⟩ := h
    refine .enter ⟨hbegin, hbody, hend, trivial⟩ (ih hrest ?_)
    rwa [show i + body.size + 2 + rest.size = i + (Block.loop body rest).size by
      simp only [Block.size]; omega]

/-- At its start a program has its whole block left. -/
theorem Continues.start (b : Block) : Continues (b.linkedFrom 0).toArray 0 b := by
  have hocc : Block.Occurs (b.linkedFrom 0).toArray 0 b := Block.occurs_of_eq b [] [] (by simp)
  have hsize : (b.linkedFrom 0).toArray.size = 0 + b.size := by simp
  have hdone : Continues (b.linkedFrom 0).toArray (0 + b.size) .done := by
    rw [← hsize]
    exact .done
  have := Continues.append hocc hdone
  rwa [Block.append_done] at this

/-! ### Matching states -/

/-- The ending of a run of the interpreter that stands for the ending of a thread. -/
inductive EndsAs : Thread.Ending → Interpreter.Ending → Prop where
  | finished : EndsAs .finished (.stopped none none)
  | halted (ip : Nat) : EndsAs .halted (.stopped (some ip) none)
  | input (ip : Nat) : EndsAs (.failed .input) (.failed (.inputUnsupported ip))
  | outOfBounds (index : Int) (capacity : Nat) :
    EndsAs (.failed (.outOfBounds index capacity)) (.failed (.outOfBounds index capacity))

/-- An interpreter that writes to a sink, and a thread, stand at the same place in the same world. -/
structure Matches {σ : Type} (p : Program) (sink : Sink σ) (out₀ : σ) (m : Interpreter) (out : σ)
    (t : Thread) : Prop where
  live : m.halted = false
  tape : m.tape = t.world.tape
  ptr : m.cursor.ptr = t.world.ptr
  out : out = sink.writeAll out₀ t.world.output
  rest : Continues p m.cursor.ip t.rest

namespace Matches

variable {σ : Type} {p : Program} {sink : Sink σ} {out₀ out : σ} {m : Interpreter} {t : Thread}

theorem cell_eq (h : Matches p sink out₀ m out t) : m.cell = t.world.cell := by
  simp only [Interpreter.cell, World.cell, h.tape, h.ptr]

theorem ptr_lt (h : Matches p sink out₀ m out t) : m.cursor.ptr < m.tape.capacity := by
  rw [h.tape, h.ptr]
  exact t.world.ptr_lt

/-- The move of a matching interpreter. -/
theorem offset_eq (h : Matches p sink out₀ m out t) (delta : Int64) :
    m.tape.offset m.cursor.ptr delta =
      if 0 ≤ t.world.target delta ∧ t.world.target delta < t.world.tape.capacity then
        .ok (t.world.target delta).toNat
      else .error (.outOfBounds (min (t.world.target delta) (2 ^ 63 - 1)) t.world.tape.capacity) := by
  rw [Tape.offset_eq h.ptr_lt, h.tape, h.ptr]
  rfl

/-- What one step of a thread means for a matching interpreter. -/
def StepsTo (p : Program) (sink : Sink σ) (out₀ : σ) (m : Interpreter) (out : σ) (t : Thread) :
    Except Thread.Ending Thread → Prop
  | .ok t' => ∃ m' out', m.step p sink out = (.running, m', out') ∧ Matches p sink out₀ m' out' t'
  | .error .finished => m.step p sink out = (.stopped, m, out)
  | .error .halted => ∃ ip m', m.step p sink out = (.halted ip, m', out) ∧ m'.halted = true ∧
      m'.tape = t.world.tape ∧ m'.cursor.ptr = t.world.ptr
  | .error (.failed f) => ∃ e m', m.step p sink out = (.failed e, m', out) ∧
      EndsAs (.failed f) (.failed e) ∧ m'.halted = false ∧ m'.tape = t.world.tape ∧
      m'.cursor.ptr = t.world.ptr

theorem stepsTo_act (hs : sink.Faultless) (h : Matches p sink out₀ m out t) {a : Action} {k : Block}
    (hk : t.rest = .act a k) (hi : p[m.cursor.ip]? = some a.instruction)
    (hrest : Continues p (m.cursor.ip + 1) k) : StepsTo p sink out₀ m out t t.step := by
  obtain ⟨rest, w⟩ := t
  obtain rfl : rest = .act a k := hk
  have hat : m.At p a.instruction := ⟨h.live, hi, h.ptr_lt⟩
  have hcell : m.cell = w.cell := h.cell_eq
  cases a with
  | add delta =>
    rw [Thread.step_act_ok rfl]
    refine ⟨_, out, Interpreter.step_add hat sink out, h.live, ?_, h.ptr, h.out, hrest⟩
    simp only [Interpreter.withCell, Interpreter.tape_pass, Interpreter.ptr_pass, World.assign, h.tape, h.ptr,
      hcell]
  | set v =>
    rw [Thread.step_act_ok rfl]
    refine ⟨_, out, Interpreter.step_set hat sink out, h.live, ?_, h.ptr, h.out, hrest⟩
    simp only [Interpreter.withCell, Interpreter.tape_pass, Interpreter.ptr_pass, World.assign, h.tape, h.ptr]
  | move delta =>
    have hoff := h.offset_eq delta
    by_cases hin : 0 ≤ w.target delta ∧ w.target delta < w.tape.capacity
    · rw [if_pos hin] at hoff
      have hperf : (Action.move delta).perform w = .ok (w.goTo (w.target delta).toNat (by omega)) := by
        rw [Action.perform, dif_pos hin]
      rw [Thread.step_act_ok hperf]
      exact ⟨_, out, Interpreter.step_move_ok hat hoff sink out, h.live, h.tape, rfl, h.out, hrest⟩
    · rw [if_neg hin] at hoff
      have hperf : (Action.move delta).perform w =
          .error (.failed (.outOfBounds (min (w.target delta) (2 ^ 63 - 1)) w.tape.capacity)) := by
        rw [Action.perform, dif_neg hin]
      rw [Thread.step_act_error hperf]
      exact ⟨_, _, Interpreter.step_move_error hat hoff sink out, .outOfBounds _ _, h.live, h.tape, h.ptr⟩
  | input =>
    rw [Thread.step_act_error rfl]
    exact ⟨_, _, Interpreter.step_input hat sink out, .input _, h.live, h.tape, h.ptr⟩
  | output =>
    rw [Thread.step_act_ok rfl]
    refine ⟨_, _, Interpreter.step_output hat hs out, h.live, h.tape, h.ptr, ?_, hrest⟩
    rw [World.emit, Sink.writeAll_append_singleton, hcell, h.out]
  | halt =>
    by_cases hz : w.cell = 0
    · rw [Thread.step_act_ok (Action.perform_halt_zero hz)]
      exact ⟨_, out, Interpreter.step_halt_zero hat (hcell.trans hz) sink out, h.live, h.tape, h.ptr, h.out,
        hrest⟩
    · rw [Thread.step_act_error (Action.perform_halt_live hz)]
      have hlive : m.cell ≠ 0 := by rwa [hcell]
      exact ⟨_, _, Interpreter.step_halt_live hat hlive sink out, rfl, h.tape, h.ptr⟩

/-- One step of a thread is one step of a matching interpreter. -/
theorem step (hs : sink.Faultless) (h : Matches p sink out₀ m out t) :
    StepsTo p sink out₀ m out t t.step := by
  obtain ⟨rest, w⟩ := t
  have hcont := h.rest
  have hcell : m.cell = w.cell := h.cell_eq
  generalize hip : m.cursor.ip = ip at hcont
  cases hcont with
  | done => exact Interpreter.step_of_size_le h.live (Nat.le_of_eq hip.symm) sink out
  | act hi hrest =>
    subst hip
    exact stepsTo_act hs h rfl hi hrest
  | @enter _ body k hocc hrest =>
    subst hip
    have hat : m.At p _ := ⟨h.live, hocc.1, h.ptr_lt⟩
    by_cases hz : w.cell = 0
    · rw [Thread.step_loop_zero hz]
      refine ⟨_, out, Interpreter.step_loopBegin hat sink out, ?_⟩
      rw [if_pos (hcell.trans hz)]
      exact ⟨h.live, h.tape, h.ptr, h.out, hrest⟩
    · rw [Thread.step_loop_live hz]
      refine ⟨_, out, Interpreter.step_loopBegin hat sink out, ?_⟩
      rw [if_neg (by rwa [hcell])]
      refine ⟨h.live, h.tape, h.ptr, h.out, Continues.append hocc.2.1 ?_⟩
      show Continues p (m.cursor.ip + 1 + body.size) (.loop body k)
      rw [show m.cursor.ip + 1 + body.size = m.cursor.ip + body.size + 1 by omega]
      exact .again hocc hrest
  | @again i body k hocc hrest =>
    have hi : p[m.cursor.ip]? = some (.loopEnd i) := by
      rw [hip]
      exact hocc.2.2.1
    have hat : m.At p (.loopEnd i) := ⟨h.live, hi, h.ptr_lt⟩
    by_cases hz : w.cell = 0
    · rw [Thread.step_loop_zero hz]
      refine ⟨_, out, Interpreter.step_loopEnd hat sink out, ?_⟩
      rw [if_pos (hcell.trans hz)]
      refine ⟨h.live, h.tape, h.ptr, h.out, ?_⟩
      rw [Interpreter.ip_pass, hip]
      exact hrest
    · rw [Thread.step_loop_live hz]
      refine ⟨_, out, Interpreter.step_loopEnd hat sink out, ?_⟩
      rw [if_neg (by rwa [hcell])]
      refine ⟨h.live, h.tape, h.ptr, h.out, Continues.append hocc.2.1 ?_⟩
      show Continues p (i + 1 + body.size) (.loop body k)
      rw [show i + 1 + body.size = i + body.size + 1 by omega]
      exact .again hocc hrest

/-- The sink after a run that ends so: a run that does not fail flushes it. -/
def closed (sink : Sink σ) (out : σ) : Thread.Ending → σ
  | .failed _ => out
  | _ => (sink.flush out).2

/-- How a run of the interpreter ends where the run of a thread ends with `e` in `w`. -/
structure EndsWith (e : Thread.Ending) (w : World) (sink : Sink σ) (out₀ : σ)
    (ending : Interpreter.Ending) (m : Interpreter) (out : σ) : Prop where
  ending : EndsAs e ending
  tape : m.tape = w.tape
  ptr : m.cursor.ptr = w.ptr
  halted : m.halted = decide (e = .halted)
  out : out = closed sink (sink.writeAll out₀ w.output) e

theorem close_eq (hs : sink.Faultless) (halt : Option Nat) (m : Interpreter) (out : σ) :
    Interpreter.close sink halt m out = (.stopped halt none, m, (sink.flush out).2) := by
  rw [Interpreter.close, hs.flush_eq]

/-- Runs of the same length end together, or not at all. -/
theorem run (hs : sink.Faultless) (h : Matches p sink out₀ m out t) (n : Nat) :
    match t.run n with
    | none => (Interpreter.run p sink n m out).1 = .unfinished
    | some (e, w) => ∃ ending m' out', Interpreter.run p sink n m out = (ending, m', out') ∧
        EndsWith e w sink out₀ ending m' out' := by
  induction n generalizing m out t with
  | zero => rfl
  | succ n ih =>
    have hstep := h.step hs
    cases ht : t.step with
    | ok t' =>
      rw [ht] at hstep
      obtain ⟨m', out', hm, h'⟩ := hstep
      rw [Thread.run_succ_of_step ht]
      simp only [Interpreter.run, hm]
      exact ih h'
    | error e =>
      rw [ht] at hstep
      rw [Thread.run_succ_of_end ht]
      simp only [Interpreter.run]
      cases e with
      | finished =>
        rw [show m.step p sink out = (.stopped, m, out) from hstep]
        refine ⟨_, _, _, close_eq hs none m out, .finished, h.tape, h.ptr, h.live, ?_⟩
        exact congrArg (fun o => (sink.flush o).2) h.out
      | halted =>
        obtain ⟨ip, m', hm, hhalted, htape, hptr⟩ := hstep
        rw [hm]
        refine ⟨_, _, _, close_eq hs (some ip) m' out, .halted ip, htape, hptr, hhalted, ?_⟩
        exact congrArg (fun o => (sink.flush o).2) h.out
      | failed f =>
        obtain ⟨e, m', hm, he, hlive, htape, hptr⟩ := hstep
        rw [hm]
        exact ⟨_, _, _, rfl, he, htape, hptr, hlive, h.out⟩

/-- Where the thread has come to, the interpreter has. -/
theorem run_of_advance (hs : sink.Faultless) (h : Matches p sink out₀ m out t) {n : Nat} {t' : Thread}
    (ht : advance Thread.next n t = some t') :
    ∃ m' out', Interpreter.run p sink n m out = (.unfinished, m', out') ∧ Matches p sink out₀ m' out' t' := by
  induction n generalizing m out t with
  | zero =>
    cases ht
    exact ⟨m, out, rfl, h⟩
  | succ n ih =>
    rw [advance] at ht
    obtain ⟨t₁, ht₁, ht⟩ := Option.bind_eq_some_iff.1 ht
    have hstep := h.step hs
    rw [Thread.next_eq_some_iff.1 ht₁] at hstep
    obtain ⟨m₁, out₁, hm, h₁⟩ := hstep
    simp only [Interpreter.run, hm]
    exact ih h₁ ht

/-- The start of a run matches the whole block of its program. -/
theorem start (b : Block) (sink : Sink σ) (out : σ) {options : Options} {m : Interpreter}
    (hm : Interpreter.new options = .ok m) :
    Matches (b.linkedFrom 0).toArray sink out m out ⟨b, World.start m.tape⟩ := by
  simp only [Interpreter.new] at hm
  cases ht : options.newTape with
  | error e => rw [ht] at hm; cases hm
  | ok tape =>
    rw [ht] at hm
    cases hm
    exact ⟨rfl, rfl, rfl, rfl, Continues.start b⟩

end Matches

end TapeLang
