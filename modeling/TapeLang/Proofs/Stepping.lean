import TapeLang.Proofs.Emission
import TapeLang.Proofs.Nesting.Linked

/-!
# Steps called one after another

A caller may step on after an error, and bring another sink each time (`Interpreter.Calls`). Whatever it
does, the tape pointer stays on the tape and the instruction pointer in the program or at its end
(`Interpreter.Intact`): a move is checked before it is stored, and a jump leads past a bracket of the
program. So reading and assigning the current cell never fail. All that can fail is an `input`, a move
that leaves the tape, and an `output` that the sink refuses (`Interpreter.Failure`), and then that
instruction is passed and nothing else is lost (`Interpreter.FailsAt`).

`Interpreter.step_cases` says all that a step can do; the rest is read off it.
-/

namespace TapeLang

namespace Counters

theorem get_record (c : Counters) (k l : Kind) :
    (c.record k).get l = if k = l then c.get l + 1 else c.get l := by
  rw [record, get_set]
  split
  · rename_i hkl
    rw [hkl]
  · rfl

/-- One count more is one more in the sum. -/
theorem foldl_add_set (l : List UInt64) {i : Nat} (h : i < l.length) (a : UInt64) :
    (l.set i (l[i] + 1)).foldl (· + ·) a = l.foldl (· + ·) a + 1 := by
  induction l generalizing i a with
  | nil => cases h
  | cons n l ih =>
    cases i with
    | zero =>
      show l.foldl (· + ·) (a + (n + 1)) = l.foldl (· + ·) (a + n) + 1
      rw [← UInt64.add_assoc, UInt64.add_comm, UInt64.add_comm (l.foldl _ _)]
      exact List.foldl_assoc
    | succ i => exact ih (Nat.lt_of_succ_lt_succ h) (a + n)

theorem total_record (c : Counters) (k : Kind) : (c.record k).total = c.total + 1 := by
  show (c.counts.set k.index (c.counts[k.index] + 1)).foldl (· + ·) 0 = c.counts.foldl (· + ·) 0 + 1
  rw [← Vector.foldl_toList, ← Vector.foldl_toList, Vector.toList_set]
  exact foldl_add_set c.counts.toList (by simp) 0

theorem total_zero : zero.total = 0 := by decide

end Counters

namespace Interpreter

variable {σ : Type} {p : Program} {sink : Sink σ} {options : Options} {m m' : Interpreter} {out out' : σ}
  {i : Instruction} {o : Outcome} {outcomes : List Outcome} {e : Error}

/-- Calls of `step`, one after another whatever they return, and each with any sink. -/
inductive Calls (p : Program) (m₀ : Interpreter) : List Outcome → Interpreter → Prop
  | none : Calls p m₀ [] m₀
  | step {outcomes : List Outcome} {o : Outcome} {m m' : Interpreter} {σ : Type} {sink : Sink σ} {out out' : σ}
    (h : Calls p m₀ outcomes m) (hstep : m.step p sink out = (o, m', out')) : Calls p m₀ (outcomes ++ [o]) m'

/-- How many instructions calls have executed: those that found nothing left to execute do not count. -/
def executed (outcomes : List Outcome) : Nat := outcomes.countP (· ≠ .stopped)

/-- Why the next instruction fails. -/
inductive Failure (m : Interpreter) (sink : Sink σ) (out : σ) : Instruction → Error → Prop
  | input : Failure m sink out .input (.inputUnsupported m.cursor.ip)
  | move {delta : Int64} (h : m.tape.Leaves m.cursor.ptr delta) :
    Failure m sink out (.move delta)
      (.outOfBounds (min ((m.cursor.ptr : Int) + delta.toInt) (2 ^ 63 - 1)) m.tape.capacity)
  | output {e : SinkError} (h : (sink.write out m.cell).1 = some e) : Failure m sink out .output (.output e)

/-- Instruction `i` fails with `e`: it is passed and counted, and all else stays as it is. The sink has
been sent nothing but the byte that it refused. -/
structure FailsAt (p : Program) (sink : Sink σ) (m : Interpreter) (out : σ) (i : Instruction) (e : Error)
    (m' : Interpreter) (out' : σ) : Prop where
  instruction : p[m.cursor.ip]? = some i
  failure : Failure m sink out i e
  tape : m'.tape = m.tape
  cursor : m'.cursor = ⟨m.cursor.ip + 1, m.cursor.ptr⟩
  halted : m'.halted = m.halted
  uncounted : m.counters = none → m'.counters = none
  counted : ∀ c, m.counters = some c →
    ∃ c', m'.counters = some c' ∧ ∀ k, c'.get k = if i.kind = k then c.get k + 1 else c.get k
  sent : out' = if i = .output then (sink.write out m.cell).2 else out

/-- What holds in every state after so many instructions. -/
structure Intact (p : Program) (options : Options) (n : Nat) (m : Interpreter) : Prop where
  capacity : m.tape.capacity = options.capacity
  ptr_lt : m.cursor.ptr < m.tape.capacity
  ip_le : m.cursor.ip ≤ p.size
  uncounted : options.counting = false → m.counters = none
  counted : options.counting = true → ∃ c, m.counters = some c ∧ c.total = UInt64.ofNat n

/-- What the next step can do in such a state, whatever the sink. -/
structure Yields (p : Program) (m : Interpreter) : Prop where
  get : m.tape.get m.cursor.ptr = .ok m.cell
  set (v : UInt8) : m.tape.set m.cursor.ptr v = .ok (m.withCell v).tape
  fails {σ : Type} {sink : Sink σ} {out out' : σ} {e : Error} {m' : Interpreter}
    (h : m.step p sink out = (.failed e, m', out')) : ∃ i, m.FailsAt p sink out i e m' out'
  stopped_iff {σ : Type} (sink : Sink σ) (out : σ) :
    (m.step p sink out).1 = .stopped ↔ m.finished p = true
  settled (h : m.finished p = true) {σ : Type} (sink : Sink σ) (out : σ) : m.step p sink out = (.stopped, m, out)

/-! ### One step -/

theorem step_of_finished (h : m.finished p = true) (sink : Sink σ) (out : σ) :
    m.step p sink out = (.stopped, m, out) := by
  unfold finished at h
  cases hm : m.halted with
  | true => simp [step, hm]
  | false =>
    rw [hm, Bool.false_or, decide_eq_true_iff] at h
    exact step_of_size_le hm h sink out

/-- Unless a run is over, it stands at an instruction. -/
theorem finished_or_exists_at (hptr : m.cursor.ptr < m.tape.capacity) :
    m.finished p = true ∨ ∃ i, m.At p i := by
  unfold finished
  cases hm : m.halted with
  | true => exact .inl rfl
  | false =>
    rcases Nat.lt_or_ge m.cursor.ip p.size with hip | hip
    · exact .inr ⟨p[m.cursor.ip], hm, Array.getElem?_eq_getElem hip, hptr⟩
    · exact .inl (by simpa using hip)

theorem step_output_answered (h : m.At p .output) (sink : Sink σ) (out : σ) :
    m.step p sink out =
      (answered (sink.write out m.cell).1, m.pass .output, (sink.write out m.cell).2) := by
  rw [step_eq_execute h, execute, onCell_eq h]
  generalize sink.write out m.cell = answer
  obtain ⟨_ | e, out'⟩ := answer <;> rfl

/-- How an instruction ends that does not fail: it is counted, and the state is still one that a run can
be in. -/
structure Proceeds (p : Program) (m : Interpreter) (i : Instruction) (o : Outcome) (m' : Interpreter) : Prop where
  goes : o = .running ∨ o = .halted m.cursor.ip
  capacity : m'.tape.capacity = m.tape.capacity
  ptr_lt : m'.cursor.ptr < m.tape.capacity
  ip_le : m'.cursor.ip ≤ p.size
  counters : m'.counters = m.counters.map (·.record i.kind)

theorem At.failsAt (h : m.At p i) (hf : Failure m sink out i e) :
    m.FailsAt p sink out i e (m.pass i) (if i = .output then (sink.write out m.cell).2 else out) where
  instruction := h.instruction
  failure := hf
  tape := rfl
  cursor := rfl
  halted := rfl
  uncounted hc := by rw [counters_pass, hc, Option.map_none]
  counted c hc := ⟨c.record i.kind, by rw [counters_pass, hc, Option.map_some], c.get_record i.kind⟩
  sent := rfl

/-- All that a step can do in a linked program. -/
theorem step_cases (hp : p.Linked) (hat : m.At p i) (h : m.step p sink out = (o, m', out')) :
    m.Proceeds p i o m' ∨
      ∃ e, o = .failed e ∧ Failure m sink out i e ∧ m' = m.pass i ∧
        out' = if i = .output then (sink.write out m.cell).2 else out := by
  rcases performs_or_refuses hat h with hperforms | ⟨e, rfl, hrefuses, rfl⟩
  · refine .inl ⟨hperforms.goes.imp_left And.left, hperforms.capacity, hperforms.ptr_lt, ?_, hperforms.counters⟩
    rcases hperforms.ip with hip | ⟨target, rfl | rfl, hip⟩
    · rw [hip]
      exact hat.ip_lt
    · have hclose := (hp.close_of_loopBegin hat.instruction).2
      rw [hip]
      exact (Array.getElem?_eq_some_iff.1 hclose).1
    · have hopen := (hp.open_of_loopEnd hat.instruction).2
      rw [hip]
      exact (Array.getElem?_eq_some_iff.1 hopen).1
  · refine .inr ⟨e, rfl, ?_⟩
    cases hrefuses with
    | input => exact ⟨.input, rfl, rfl⟩
    | move hmove =>
      have hleaves := Tape.leaves_of_offset_error hat.ptr_lt hmove
      rw [Tape.offset_of_leaves hat.ptr_lt hleaves] at hmove
      cases hmove
      exact ⟨.move hleaves, rfl, rfl⟩
    | output hwrite => exact ⟨.output (by rw [hwrite]), rfl, by rw [if_pos rfl, hwrite]⟩

/-- A step that stands at an instruction executes it. -/
theorem step_ne_stopped (hp : p.Linked) (hat : m.At p i) (h : m.step p sink out = (o, m', out')) :
    o ≠ .stopped := by
  rcases step_cases hp hat h with hgoes | ⟨e, rfl, _⟩
  · rcases hgoes.goes with rfl | rfl <;> nofun
  · nofun

theorem yields (hp : p.Linked) (hptr : m.cursor.ptr < m.tape.capacity) : m.Yields p where
  get := Tape.get_eq_ok hptr
  set v := Tape.set_eq_ok hptr v
  fails h := by
    rcases finished_or_exists_at hptr with hfinished | ⟨i, hat⟩
    · rw [step_of_finished hfinished] at h
      cases h
    · rcases step_cases hp hat h with hgoes | ⟨_, he, hfailure, rfl, rfl⟩
      · rcases hgoes.goes with hgoes | hgoes <;> cases hgoes
      · cases he
        exact ⟨i, hat.failsAt hfailure⟩
  stopped_iff sink out := by
    constructor
    · intro h
      rcases finished_or_exists_at hptr with hfinished | ⟨i, hat⟩
      · exact hfinished
      · exact absurd h (step_ne_stopped hp hat rfl)
    · intro h
      rw [step_of_finished h]
  settled h := step_of_finished h

/-! ### All steps -/

@[simp] theorem executed_nil : executed [] = 0 := rfl

theorem executed_append_stopped (outcomes : List Outcome) :
    executed (outcomes ++ [.stopped]) = executed outcomes := by
  simp [executed]

theorem executed_append (h : o ≠ .stopped) (outcomes : List Outcome) :
    executed (outcomes ++ [o]) = executed outcomes + 1 := by
  simp [executed, h]

theorem exists_intact_new (hpos : 0 < options.capacity) (hle : options.capacity ≤ Tape.maxCapacity) :
    ∃ m₀, new options = .ok m₀ ∧ m₀.Intact p options 0 := by
  have htape : options.newTape = Tape.new options.capacity := rfl
  rw [Tape.new, dif_pos ⟨hpos, hle⟩] at htape
  refine ⟨_, by rw [new, htape]; rfl, rfl, hpos, Nat.zero_le _, ?_, ?_⟩
  · intro hcounting
    simp [Options.newCounters, hcounting]
  · intro hcounting
    exact ⟨.zero, by simp [Options.newCounters, hcounting], Counters.total_zero⟩

/-- Counting one instruction more. -/
theorem Intact.of_counters {n : Nat} (h : m.Intact p options n) (hcapacity : m'.tape.capacity = m.tape.capacity)
    (hptr : m'.cursor.ptr < m.tape.capacity) (hip : m'.cursor.ip ≤ p.size)
    (hcounters : m'.counters = m.counters.map (·.record i.kind)) : m'.Intact p options (n + 1) where
  capacity := hcapacity.trans h.capacity
  ptr_lt := hcapacity ▸ hptr
  ip_le := hip
  uncounted hcounting := by rw [hcounters, h.uncounted hcounting, Option.map_none]
  counted hcounting := by
    obtain ⟨c, hc, htotal⟩ := h.counted hcounting
    refine ⟨c.record i.kind, by rw [hcounters, hc, Option.map_some], ?_⟩
    rw [Counters.total_record, htotal, UInt64.ofNat_add]
    rfl

theorem Intact.step (hp : p.Linked) (h : m.Intact p options (executed outcomes))
    (hstep : m.step p sink out = (o, m', out')) : m'.Intact p options (executed (outcomes ++ [o])) := by
  rcases finished_or_exists_at (p := p) h.ptr_lt with hfinished | ⟨i, hat⟩
  · rw [step_of_finished hfinished] at hstep
    cases hstep
    rw [executed_append_stopped]
    exact h
  · rw [executed_append (step_ne_stopped hp hat hstep)]
    rcases step_cases hp hat hstep with hgoes | ⟨e, rfl, _, rfl, _⟩
    · exact h.of_counters hgoes.capacity hgoes.ptr_lt hgoes.ip_le hgoes.counters
    · exact h.of_counters rfl hat.ptr_lt hat.ip_lt rfl

theorem Calls.intact {m₀ : Interpreter} (hp : p.Linked) (h₀ : m₀.Intact p options 0) (h : Calls p m₀ outcomes m) :
    m.Intact p options (executed outcomes) := by
  induction h with
  | none => exact h₀
  | step _ hstep ih => exact ih.step hp hstep

/-- Once a run is over, calls change nothing. -/
theorem Calls.eq_of_finished {m₀ : Interpreter} (h₀ : m₀.finished p = true) (h : Calls p m₀ outcomes m) :
    m = m₀ ∧ ∀ o ∈ outcomes, o = .stopped := by
  induction h with
  | none => exact ⟨rfl, nofun⟩
  | step _ hstep ih =>
    obtain ⟨rfl, hall⟩ := ih
    rw [step_of_finished h₀] at hstep
    cases hstep
    refine ⟨rfl, fun o ho => ?_⟩
    rcases List.mem_append.1 ho with ho | ho
    · exact hall o ho
    · exact List.mem_singleton.1 ho

variable (options) in
/-- However a linked program is stepped through, on a tape of any size, what the interpreter relies on holds
in every state. -/
theorem intact_of_calls (hp : p.Linked) (hpos : 0 < options.capacity) (hle : options.capacity ≤ Tape.maxCapacity) :
    ∃ m₀, new options = .ok m₀ ∧ ∀ {outcomes m}, Calls p m₀ outcomes m →
      m.Intact p options (executed outcomes) ∧ m.Yields p ∧
      (m.finished p = true →
        ∀ {later m'}, Calls p m later m' → m' = m ∧ ∀ o ∈ later, o = .stopped) := by
  obtain ⟨m₀, hnew, h₀⟩ := exists_intact_new (p := p) hpos hle
  refine ⟨m₀, hnew, fun h => ?_⟩
  have hintact := h.intact hp h₀
  exact ⟨hintact, yields hp hintact.ptr_lt, fun hfinished _ _ hlater => hlater.eq_of_finished hfinished⟩

/-- A loop that is skipped, then an `input`, a move off the tape and an `output` that is refused: all three
fail, and the next call finds the end of the program. -/
theorem intact_of_calls_failing :
    let p : Program := #[.loopBegin 2, .add 1, .loopEnd 0, .input, .move (-1), .output]
    ∃ m₀ m, new ⟨2, true⟩ = .ok m₀ ∧
      Calls p m₀ [.running, .failed (.inputUnsupported 3), .failed (.outOfBounds (-1) 2),
        .failed (.output ⟨"sink full"⟩), .stopped] m ∧
      m.Intact p ⟨2, true⟩ 4 ∧ m.Yields p := by
  intro p
  have hlinked : p.Linked := Program.linked_of_block
    (.loop (.act (.add 1) .done) (.act .input (.act (.move (-1)) (.act .output .done))))
  obtain ⟨m₀, hnew, h⟩ := intact_of_calls ⟨2, true⟩ hlinked (by decide) (by decide)
  let full : Sink.Bounded := { limit := some 0 }
  let m₁ := (m₀.pass (.loopBegin 2)).jumpPast 2
  let m₂ := m₁.pass .input
  let m₃ := m₂.pass (.move (-1))
  let m₄ := m₃.pass .output
  have hskip : m₀.step p Sink.bounded full = (.running, m₁, full) := by
    cases hnew
    rfl
  have hinput : m₁.step p Sink.bounded full = (.failed (.inputUnsupported 3), m₂, full) := by
    cases hnew
    rfl
  have hmove : m₂.step p Sink.bounded full = (.failed (.outOfBounds (-1) 2), m₃, full) := by
    cases hnew
    have hat : m₂.At p (.move (-1)) := ⟨rfl, rfl, Nat.zero_lt_two⟩
    have hleaves : m₂.tape.Leaves m₂.cursor.ptr (-1) := .inl (by decide)
    exact step_move_error hat (Tape.offset_of_leaves hat.ptr_lt hleaves) _ _
  have houtput : m₃.step p Sink.bounded full = (.failed (.output ⟨"sink full"⟩), m₄, full) := by
    cases hnew
    rfl
  have hend : m₄.step p Sink.bounded full = (.stopped, m₄, full) := by
    cases hnew
    rfl
  have hcalls := ((((Calls.none.step hskip).step hinput).step hmove).step houtput).step hend
  obtain ⟨hintact, hyields, _⟩ := h hcalls
  exact ⟨m₀, m₄, hnew, hcalls, hintact, hyields⟩

end Interpreter

end TapeLang
