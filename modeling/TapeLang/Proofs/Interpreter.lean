import TapeLang.Interpreter
import TapeLang.Proofs.Sink

/-!
# Steps of the interpreter on its tape

While the tape pointer is on the tape, reading and assigning the current cell succeed, and a step
does what its instruction says: one equation per instruction. All that a step can do is put together in
`Interpreter.performs_or_refuses`.
-/

namespace TapeLang

namespace Tape

variable {t : Tape} {i : Nat}

theorem get_eq_ok (h : i < t.capacity) : t.get i = .ok (t.cell i) := by
  simp [get, h]

theorem set_eq_ok (h : i < t.capacity) (v : UInt8) : t.set i v = .ok (t.assign i v) := by
  simp [set, h]

theorem signedWord_of_lt (h : i < t.capacity) : signedWord i = i := by
  have := t.capacity_lt
  exact Int.bmod_eq_of_le (by omega) (by omega)

/-- A move from a cell on the tape, by the exact sum. -/
theorem offset_eq (h : i < t.capacity) (delta : Int64) :
    t.offset i delta =
      if 0 ≤ (i : Int) + delta.toInt ∧ (i : Int) + delta.toInt < t.capacity then
        .ok ((i : Int) + delta.toInt).toNat
      else .error (.outOfBounds (min ((i : Int) + delta.toInt) (2 ^ 63 - 1)) t.capacity) := by
  have hcap := t.capacity_lt
  have hlow := delta.le_toInt
  simp only [offset, signedWord_of_lt h]
  split
  case isTrue hover =>
    rw [if_neg (by omega), Int.min_eq_right (by omega)]
  case isFalse hover =>
    rw [Int.min_eq_left (by omega)]

/-- Where a move that stays on the tape leads. -/
theorem lt_of_offset_eq_ok {delta : Int64} {j : Nat} (h : t.offset i delta = .ok j) : j < t.capacity := by
  simp only [offset] at h
  split at h
  · simp at h
  · split at h
    · simp only [Except.ok.injEq] at h
      omega
    · simp at h

end Tape

namespace Interpreter

variable {σ : Type} {p : Program} {m : Interpreter} {i : Instruction}

/-- The value of the current cell. -/
def cell (m : Interpreter) : UInt8 := m.tape.cell m.cursor.ptr

/-- The state with the current cell assigned. -/
def withCell (m : Interpreter) (v : UInt8) : Interpreter :=
  { m with tape := m.tape.assign m.cursor.ptr v }

/-- The state with the tape pointer moved. -/
def withPtr (m : Interpreter) (ptr : Nat) : Interpreter := { m with cursor := { m.cursor with ptr } }

@[simp] theorem tape_pass (m : Interpreter) (i : Instruction) : (m.pass i).tape = m.tape := rfl

@[simp] theorem ptr_pass (m : Interpreter) (i : Instruction) :
    (m.pass i).cursor.ptr = m.cursor.ptr := rfl

@[simp] theorem ip_pass (m : Interpreter) (i : Instruction) :
    (m.pass i).cursor.ip = m.cursor.ip + 1 := rfl

@[simp] theorem halted_pass (m : Interpreter) (i : Instruction) : (m.pass i).halted = m.halted := rfl

@[simp] theorem counters_pass (m : Interpreter) (i : Instruction) :
    (m.pass i).counters = m.counters.map (·.record i.kind) := rfl

/-- The interpreter stands at an instruction, with its tape pointer on the tape. -/
structure At (p : Program) (m : Interpreter) (i : Instruction) : Prop where
  live : m.halted = false
  instruction : p[m.cursor.ip]? = some i
  ptr_lt : m.cursor.ptr < m.tape.capacity

theorem step_eq_execute (h : m.At p i) (sink : Sink σ) (out : σ) :
    m.step p sink out = (m.pass i).execute sink i m.cursor.ip out := by
  simp [step, h.live, h.instruction]

theorem attempt_ok {α : Type} {r : Except Error α} {a : α} (h : r = .ok a) (m : Interpreter) (out : σ)
    (next : α → Outcome × Interpreter × σ) : m.attempt out r next = next a := by
  rw [h, attempt]

theorem attempt_error {α : Type} {r : Except Error α} {e : Error} (h : r = .error e) (m : Interpreter)
    (out : σ) (next : α → Outcome × Interpreter × σ) : m.attempt out r next = (.failed e, m, out) := by
  rw [h, attempt]

theorem onCell_eq (h : m.At p i) (out : σ) (next : UInt8 → Outcome × Interpreter × σ) :
    (m.pass i).onCell out next = next m.cell :=
  attempt_ok (Tape.get_eq_ok h.ptr_lt) _ out next

theorem assign_eq (h : m.At p i) (v : UInt8) (out : σ) :
    (m.pass i).assign v out = (.running, (m.pass i).withCell v, out) :=
  attempt_ok (Tape.set_eq_ok h.ptr_lt v) _ out _

theorem step_add {delta : UInt8} (h : m.At p (.add delta)) (sink : Sink σ) (out : σ) :
    m.step p sink out = (.running, (m.pass (.add delta)).withCell (m.cell + delta), out) := by
  rw [step_eq_execute h, execute, onCell_eq h, assign_eq h]

theorem step_set {v : UInt8} (h : m.At p (.set v)) (sink : Sink σ) (out : σ) :
    m.step p sink out = (.running, (m.pass (.set v)).withCell v, out) := by
  rw [step_eq_execute h, execute, assign_eq h]

theorem step_move_ok {delta : Int64} (h : m.At p (.move delta)) {ptr : Nat}
    (hp : m.tape.offset m.cursor.ptr delta = .ok ptr) (sink : Sink σ) (out : σ) :
    m.step p sink out = (.running, (m.pass (.move delta)).withPtr ptr, out) := by
  rw [step_eq_execute h, execute, tape_pass, ptr_pass, attempt_ok hp]
  rfl

theorem step_move_error {delta : Int64} (h : m.At p (.move delta)) {e : Error}
    (hp : m.tape.offset m.cursor.ptr delta = .error e) (sink : Sink σ) (out : σ) :
    m.step p sink out = (.failed e, m.pass (.move delta), out) := by
  rw [step_eq_execute h, execute, tape_pass, ptr_pass, attempt_error hp]

theorem step_input (h : m.At p .input) (sink : Sink σ) (out : σ) :
    m.step p sink out = (.failed (.inputUnsupported m.cursor.ip), m.pass .input, out) := by
  rw [step_eq_execute h, execute]

theorem step_output (h : m.At p .output) {sink : Sink σ} (hs : sink.Faultless) (out : σ) :
    m.step p sink out = (.running, m.pass .output, (sink.write out m.cell).2) := by
  rw [step_eq_execute h, execute, onCell_eq h, hs.write_eq]

theorem step_loopBegin {close : Nat} (h : m.At p (.loopBegin close)) (sink : Sink σ) (out : σ) :
    m.step p sink out =
      (.running, if m.cell = 0 then (m.pass (.loopBegin close)).jumpPast close else m.pass (.loopBegin close),
        out) := by
  rw [step_eq_execute h, execute, onCell_eq h]

theorem step_loopEnd {start : Nat} (h : m.At p (.loopEnd start)) (sink : Sink σ) (out : σ) :
    m.step p sink out =
      (.running, if m.cell = 0 then m.pass (.loopEnd start) else (m.pass (.loopEnd start)).jumpPast start,
        out) := by
  rw [step_eq_execute h, execute, onCell_eq h]

theorem step_halt_zero (h : m.At p .halt) (hz : m.cell = 0) (sink : Sink σ) (out : σ) :
    m.step p sink out = (.running, m.pass .halt, out) := by
  rw [step_eq_execute h, execute, onCell_eq h, if_pos hz]

theorem step_halt_live (h : m.At p .halt) (hz : m.cell ≠ 0) (sink : Sink σ) (out : σ) :
    m.step p sink out = (.halted m.cursor.ip, { m.pass .halt with halted := true }, out) := by
  rw [step_eq_execute h, execute, onCell_eq h, if_neg hz]

theorem step_of_size_le (hl : m.halted = false) (h : p.size ≤ m.cursor.ip) (sink : Sink σ) (out : σ) :
    m.step p sink out = (.stopped, m, out) := by
  simp [step, hl, h]

/-! ### All that a step can do -/

/-- What an instruction leaves that does not fail. It is counted, and the next one follows unless a bracket leads
elsewhere. -/
structure Performs (m : Interpreter) (i : Instruction) (o : Outcome) (m' : Interpreter) : Prop where
  goes : o = .running ∧ m'.halted = m.halted ∨ o = .halted m.cursor.ip
  capacity : m'.tape.capacity = m.tape.capacity
  ptr_lt : m'.cursor.ptr < m.tape.capacity
  counters : m'.counters = m.counters.map (·.record i.kind)
  ip : m'.cursor.ip = m.cursor.ip + 1 ∨
    ∃ target, (i = .loopBegin target ∨ i = .loopEnd target) ∧ m'.cursor.ip = target + 1

/-- Why an instruction fails, and what the sink holds then. -/
inductive Refuses (m : Interpreter) (sink : Sink σ) (out : σ) : Instruction → Error → σ → Prop
  | input : Refuses m sink out .input (.inputUnsupported m.cursor.ip) out
  | move {delta : Int64} {e : Error} (h : m.tape.offset m.cursor.ptr delta = .error e) :
    Refuses m sink out (.move delta) e out
  | output {e : SinkError} {out' : σ} (h : sink.write out m.cell = (some e, out')) :
    Refuses m sink out .output (.output e) out'

theorem At.ip_lt (h : m.At p i) : m.cursor.ip < p.size := (Array.getElem?_eq_some_iff.1 h.instruction).1

theorem At.performs_pass (h : m.At p i) : m.Performs i .running (m.pass i) :=
  ⟨.inl ⟨rfl, rfl⟩, rfl, h.ptr_lt, rfl, .inl rfl⟩

theorem At.performs_withCell (h : m.At p i) (v : UInt8) : m.Performs i .running ((m.pass i).withCell v) :=
  ⟨.inl ⟨rfl, rfl⟩, Tape.capacity_assign .., h.ptr_lt, rfl, .inl rfl⟩

theorem At.performs_jumpPast (h : m.At p i) {target : Nat} (ht : i = .loopBegin target ∨ i = .loopEnd target) :
    m.Performs i .running ((m.pass i).jumpPast target) :=
  ⟨.inl ⟨rfl, rfl⟩, rfl, h.ptr_lt, rfl, .inr ⟨target, ht, rfl⟩⟩

/-- An instruction is performed, or it fails; then it is passed all the same. -/
theorem performs_or_refuses (hat : m.At p i) {sink : Sink σ} {o : Outcome} {m' : Interpreter} {out out' : σ}
    (h : m.step p sink out = (o, m', out')) :
    m.Performs i o m' ∨ ∃ e, o = .failed e ∧ m.Refuses sink out i e out' ∧ m' = m.pass i := by
  cases i with
  | add delta =>
    rw [step_add hat] at h
    cases h
    exact .inl (hat.performs_withCell _)
  | set v =>
    rw [step_set hat] at h
    cases h
    exact .inl (hat.performs_withCell _)
  | move delta =>
    cases hmove : m.tape.offset m.cursor.ptr delta with
    | ok ptr =>
      rw [step_move_ok hat hmove] at h
      cases h
      exact .inl ⟨.inl ⟨rfl, rfl⟩, rfl, Tape.lt_of_offset_eq_ok hmove, rfl, .inl rfl⟩
    | error e =>
      rw [step_move_error hat hmove] at h
      cases h
      exact .inr ⟨e, rfl, .move hmove, rfl⟩
  | input =>
    rw [step_input hat] at h
    cases h
    exact .inr ⟨_, rfl, .input, rfl⟩
  | output =>
    rw [step_eq_execute hat, execute, onCell_eq hat] at h
    rcases hwrite : sink.write out m.cell with ⟨_ | e, out₁⟩
    · rw [hwrite] at h
      cases h
      exact .inl hat.performs_pass
    · rw [hwrite] at h
      cases h
      exact .inr ⟨_, rfl, .output hwrite, rfl⟩
  | loopBegin close =>
    rw [step_loopBegin hat] at h
    cases h
    split
    · exact .inl (hat.performs_jumpPast (.inl rfl))
    · exact .inl hat.performs_pass
  | loopEnd start =>
    rw [step_loopEnd hat] at h
    cases h
    split
    · exact .inl hat.performs_pass
    · exact .inl (hat.performs_jumpPast (.inr rfl))
  | halt =>
    by_cases hz : m.cell = 0
    · rw [step_halt_zero hat hz] at h
      cases h
      exact .inl hat.performs_pass
    · rw [step_halt_live hat hz] at h
      cases h
      exact .inl ⟨.inr rfl, rfl, hat.ptr_lt, rfl, .inl rfl⟩

/-! ### Steps that go on -/

/-- The state after a step that goes on, with the sink after it. -/
def next (p : Program) (sink : Sink σ) (s : Interpreter × σ) : Option (Interpreter × σ) :=
  match s.1.step p sink s.2 with
  | (.running, m, out) => some (m, out)
  | _ => none

theorem next_of_step {sink : Sink σ} {m' : Interpreter} {out out' : σ}
    (h : m.step p sink out = (.running, m', out')) : next p sink (m, out) = some (m', out') := by
  simp only [next, h]

theorem step_of_next {sink : Sink σ} {m' : Interpreter} {out out' : σ}
    (h : next p sink (m, out) = some (m', out')) : m.step p sink out = (.running, m', out') := by
  unfold next at h
  split at h
  case h_1 m₁ out₁ hstep =>
    cases h
    exact hstep
  case h_2 => cases h

theorem next_of_failed {sink : Sink σ} {m' : Interpreter} {out out' : σ} {e : Error}
    (h : m.step p sink out = (.failed e, m', out')) : next p sink (m, out) = none := by
  simp only [next, h]

theorem next_of_size_le (hl : m.halted = false) (h : p.size ≤ m.cursor.ip) {sink : Sink σ} {out : σ} :
    next p sink (m, out) = none := by
  simp only [next, step_of_size_le hl h]

end Interpreter

end TapeLang
