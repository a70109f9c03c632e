import TapeLang.Proofs.Overruns
import TapeLang.Proofs.Sending

/-!
# What the interpreter sends to a sink

A step writes nothing, or it writes one byte and fails if that is refused; which of the two is no matter
of the sink (`Interpreter.silent_or_writes`). So a run over any sink is the run over a buffer as long as
all bytes are accepted (`Interpreter.advance_iff_send`). It fails at once where one is refused
(`Interpreter.exists_run_failed`), and has sent no other byte by then (`Interpreter.issues_iff`).
-/

namespace TapeLang.Interpreter

variable {σ : Type} {p : Program} {sink : Sink σ} {m m' : Interpreter} {out out' : σ}

/-! ### One step -/

/-- How a step ends that writes a byte, by what the sink answers. -/
def answered : Option SinkError → Outcome
  | none => .running
  | some e => .failed (.output e)

/-- Whatever the sink is, nothing is written. -/
def Silent (f : ∀ {σ : Type}, Sink σ → σ → Outcome × Interpreter × σ) (o : Outcome) (m : Interpreter) : Prop :=
  ∀ {σ : Type} (sink : Sink σ) (out : σ), f sink out = (o, m, out)

/-- Whatever the sink is, one byte is written, and it is a failure if that is refused. -/
def Writes (f : ∀ {σ : Type}, Sink σ → σ → Outcome × Interpreter × σ) (b : UInt8) (m : Interpreter) : Prop :=
  ∀ {σ : Type} (sink : Sink σ) (out : σ), f sink out = (answered (sink.write out b).1, m, (sink.write out b).2)

/-- A cell that is not on the tape is an error before anything else. -/
theorem onCell_silent_or_writes {next : ∀ {σ : Type}, Sink σ → σ → UInt8 → Outcome × Interpreter × σ}
    (h : ∀ cell, (∃ o m', Silent (next · · cell) o m') ∨ ∃ b m', Writes (next · · cell) b m') (m : Interpreter) :
    (∃ o m', Silent (fun sink out => m.onCell out (next sink out)) o m') ∨
      ∃ b m', Writes (fun sink out => m.onCell out (next sink out)) b m' := by
  unfold onCell
  cases m.tape.get m.cursor.ptr with
  | ok cell => exact h cell
  | error e => exact .inl ⟨_, _, fun _ _ => rfl⟩

theorem exists_silent_assign (m : Interpreter) (v : UInt8) :
    ∃ o m', Silent (fun _ out => m.assign v out) o m' := by
  unfold assign
  cases m.tape.set m.cursor.ptr v with
  | ok tape => exact ⟨_, _, fun _ _ => rfl⟩
  | error e => exact ⟨_, _, fun _ _ => rfl⟩

theorem execute_silent_or_writes (i : Instruction) (ip : Nat) (m : Interpreter) :
    (∃ o m', Silent (m.execute · i ip ·) o m') ∨ ∃ b m', Writes (m.execute · i ip ·) b m' := by
  unfold execute
  cases i with
  | input => exact .inl ⟨_, _, fun _ _ => rfl⟩
  | move delta =>
    dsimp only
    cases m.tape.offset m.cursor.ptr delta with
    | ok ptr => exact .inl ⟨_, _, fun _ _ => rfl⟩
    | error e => exact .inl ⟨_, _, fun _ _ => rfl⟩
  | set value => exact .inl (exists_silent_assign m value)
  | add delta => exact onCell_silent_or_writes (fun cell => .inl (exists_silent_assign m (cell + delta))) m
  | output =>
    refine onCell_silent_or_writes (fun cell => .inr ⟨cell, m, fun sink out => ?_⟩) m
    dsimp only
    generalize sink.write out cell = answer
    obtain ⟨_ | e, out'⟩ := answer <;> rfl
  | loopBegin close => exact onCell_silent_or_writes (fun cell => .inl ⟨_, _, fun _ _ => rfl⟩) m
  | loopEnd start => exact onCell_silent_or_writes (fun cell => .inl ⟨_, _, fun _ _ => rfl⟩) m
  | halt =>
    refine onCell_silent_or_writes (fun cell => .inl ?_) m
    by_cases hz : cell = 0
    · exact ⟨_, _, fun _ _ => if_pos hz⟩
    · exact ⟨_, _, fun _ _ => if_neg hz⟩

variable (p m) in
/-- A step writes nothing, or one byte. -/
theorem silent_or_writes : (∃ o m', Silent (m.step p) o m') ∨ ∃ b m', Writes (m.step p) b m' := by
  unfold step
  cases hm : m.halted with
  | true => exact .inl ⟨_, _, fun _ _ => rfl⟩
  | false =>
    cases p[m.cursor.ip]? with
    | none => exact .inl ⟨_, _, fun _ _ => rfl⟩
    | some i => exact execute_silent_or_writes i m.cursor.ip (m.pass i)

theorem Silent.step_eq {o : Outcome} (h : Silent (m.step p) o m') (sink : Sink σ) (out : σ) :
    m.step p sink out = (o, m', out) :=
  h sink out

theorem Writes.step_eq {b : UInt8} (h : Writes (m.step p) b m') (sink : Sink σ) (out : σ) :
    m.step p sink out = (answered (sink.write out b).1, m', (sink.write out b).2) :=
  h sink out

/-- A step goes on if it writes nothing and does not end the run, or if the byte that it writes is accepted. -/
theorem next_eq_some_iff :
    next p sink (m, out) = some (m', out') ↔
      (Silent (m.step p) .running m' ∧ out' = out) ∨ ∃ b, Writes (m.step p) b m' ∧ sink.write out b = (none, out') := by
  constructor
  · intro h
    have hstep := step_of_next h
    rcases silent_or_writes p m with ⟨o, m₁, hsilent⟩ | ⟨b, m₁, hwrites⟩
    · rw [hsilent.step_eq] at hstep
      cases hstep
      exact .inl ⟨hsilent, rfl⟩
    · rw [hwrites.step_eq] at hstep
      match hb : sink.write out b with
      | (none, out₁) =>
        rw [hb] at hstep
        cases hstep
        exact .inr ⟨b, hwrites, hb⟩
      | (some e, out₁) =>
        rw [hb] at hstep
        cases hstep
  · rintro (⟨hsilent, rfl⟩ | ⟨b, hwrites, hb⟩)
    · exact next_of_step (hsilent sink out')
    · refine next_of_step ?_
      rw [hwrites.step_eq, hb]
      rfl

/-- Over a buffer a step keeps one byte more, or none. -/
theorem next_buffer_eq_some_iff {bytes bytes' : Array UInt8} :
    next p Sink.buffer (m, bytes) = some (m', bytes') ↔
      (Silent (m.step p) .running m' ∧ bytes' = bytes) ∨ ∃ b, Writes (m.step p) b m' ∧ bytes' = bytes.push b := by
  rw [next_eq_some_iff]
  constructor
  · rintro (hsilent | ⟨b, hwrites, hb⟩)
    · exact .inl hsilent
    · cases hb
      exact .inr ⟨b, hwrites, rfl⟩
  · rintro (hsilent | ⟨b, hwrites, rfl⟩)
    · exact .inl hsilent
    · exact .inr ⟨b, hwrites, rfl⟩

/-! ### Many steps -/

/-- A run goes on over a sink as it does over a buffer, as long as all bytes are accepted. -/
theorem advance_iff_send {k : Nat} :
    advance (next p sink) k (m, out) = some (m', out') ↔
      ∃ bytes, advance (next p Sink.buffer) k (m, #[]) = some (m', bytes) ∧
        sink.send out bytes.toList = (none, out') := by
  induction k generalizing m' out' with
  | zero =>
    constructor
    · intro h
      cases h
      exact ⟨#[], rfl, rfl⟩
    · rintro ⟨_, h, hsend⟩
      cases h
      cases hsend
      rfl
  | succ k ih =>
    constructor
    · intro h
      rw [advance_succ_right] at h
      obtain ⟨⟨m₁, out₁⟩, hk, hnext⟩ := Option.bind_eq_some_iff.1 h
      obtain ⟨bytes, hbuffer, hsend⟩ := ih.1 hk
      rcases next_eq_some_iff.1 hnext with ⟨hsilent, rfl⟩ | ⟨b, hwrites, hb⟩
      · refine ⟨bytes, ?_, hsend⟩
        rw [advance_succ_right, hbuffer, Option.bind_some]
        exact next_buffer_eq_some_iff.2 (.inl ⟨hsilent, rfl⟩)
      · refine ⟨bytes.push b, ?_, ?_⟩
        · rw [advance_succ_right, hbuffer, Option.bind_some]
          exact next_buffer_eq_some_iff.2 (.inr ⟨b, hwrites, rfl⟩)
        · rw [Array.toList_push]
          exact Sink.send_append_singleton_eq_iff.2 (.inl ⟨out₁, hsend, hb⟩)
    · rintro ⟨bytes, h, hsend⟩
      rw [advance_succ_right] at h ⊢
      obtain ⟨⟨m₁, bytes₁⟩, hbuffer, hnext⟩ := Option.bind_eq_some_iff.1 h
      rcases next_buffer_eq_some_iff.1 hnext with ⟨hsilent, rfl⟩ | ⟨b, hwrites, rfl⟩
      · rw [ih.2 ⟨bytes, hbuffer, hsend⟩, Option.bind_some]
        exact next_eq_some_iff.2 (.inl ⟨hsilent, rfl⟩)
      · rw [Array.toList_push] at hsend
        rcases Sink.send_append_singleton_eq_iff.1 hsend with ⟨out₁, hfront, hb⟩ | ⟨_, hnone, _⟩
        case inr => cases hnone
        rw [ih.2 ⟨bytes₁, hbuffer, hfront⟩, Option.bind_some]
        exact next_eq_some_iff.2 (.inr ⟨b, hwrites, hb⟩)

/-- A run fails with the first byte that is refused, and sends no other after it. -/
theorem exists_run_failed {k : Nat} {bytes : Array UInt8} {e : SinkError}
    (h : advance (next p Sink.buffer) k (m, #[]) = some (m', bytes))
    (hsend : sink.send out bytes.toList = (some e, out')) :
    ∃ fuel s, m.run p sink fuel out = (.failed (.output e), s, out') := by
  induction k generalizing m' bytes with
  | zero =>
    cases h
    cases hsend
  | succ k ih =>
    rw [advance_succ_right] at h
    obtain ⟨⟨m₁, bytes₁⟩, hbuffer, hnext⟩ := Option.bind_eq_some_iff.1 h
    rcases next_buffer_eq_some_iff.1 hnext with ⟨_, rfl⟩ | ⟨b, hwrites, rfl⟩
    · exact ih hbuffer hsend
    · rw [Array.toList_push] at hsend
      rcases Sink.send_append_singleton_eq_iff.1 hsend with ⟨out₁, hfront, hb⟩ | ⟨_, heq, hfront⟩
      case inr =>
        cases heq
        exact ih hbuffer hfront
      · have hk := advance_iff_send.2 ⟨bytes₁, hbuffer, hfront⟩
        refine ⟨k + 1, m', ?_⟩
        rw [run_of_advance hk, run, hwrites.step_eq, hb]
        rfl

/-- A run is not over, or the state that it has come to has no next step and one call more ends it. -/
theorem exists_advance_of_run (p : Program) (sink : Sink σ) (n : Nat) (m : Interpreter) (out : σ) :
    ∃ k m' out', advance (next p sink) k (m, out) = some (m', out') ∧
      (m.run p sink n out = (.unfinished, m', out') ∨
        next p sink (m', out') = none ∧ m.run p sink n out = m'.run p sink 1 out') := by
  induction n generalizing m out with
  | zero => exact ⟨0, m, out, rfl, .inl rfl⟩
  | succ n ih =>
    cases hnext : next p sink (m, out) with
    | some x =>
      obtain ⟨m₁, out₁⟩ := x
      obtain ⟨k, m', out', hk, hrun⟩ := ih m₁ out₁
      have hstep : m.run p sink (n + 1) out = m₁.run p sink n out₁ := by rw [run, step_of_next hnext]
      refine ⟨k + 1, m', out', (advance_succ hnext k).trans hk, ?_⟩
      rw [hstep]
      exact hrun
    | none =>
      refine ⟨0, m, out, rfl, .inr ⟨hnext, ?_⟩⟩
      rw [run, run]
      rcases hstep : m.step p sink out with ⟨_ | _ | ip | e, m₁, out₁⟩
      · rw [next_of_step hstep] at hnext
        cases hnext
      · rfl
      · rfl
      · rfl

/-! ### What a run has sent -/

/-- At some time, these are the bytes that a run has sent, in this order. -/
def Issues (p : Program) (sink : Sink σ) (m : Interpreter) (out : σ) (log : List UInt8) : Prop :=
  ∃ fuel, (m.run p sink.logged fuel (out, #[])).2.2.2.toList = log

/-- The last call of a run that writes nothing leaves the log as it is. -/
theorem log_run_of_silent {log : Array UInt8} {o : Outcome} (h : Silent (m.step p) o m')
    (hnext : next p sink.logged (m, out, log) = none) :
    (m.run p sink.logged 1 (out, log)).2.2.2 = log := by
  have hstep := h.step_eq sink.logged (out, log)
  rw [run, hstep]
  cases o with
  | running =>
    rw [next_of_step hstep] at hnext
    cases hnext
  | stopped => rfl
  | halted ip => rfl
  | failed e => rfl

/-- A run has sent the bytes that the run over a buffer keeps, up to the first that is refused. -/
theorem issues_iff {log : List UInt8} :
    m.Issues p sink out log ↔
      ∃ k m' bytes, advance (next p Sink.buffer) k (m, #[]) = some (m', bytes) ∧
        log = sink.issued out bytes.toList := by
  constructor
  · rintro ⟨fuel, rfl⟩
    obtain ⟨k, m', ⟨out', log⟩, hk, hrun⟩ := exists_advance_of_run p sink.logged fuel m (out, #[])
    obtain ⟨bytes, hbuffer, hsend⟩ := advance_iff_send.1 hk
    rcases hrun with hrun | ⟨hnext, hrun⟩
    · rw [hrun]
      exact ⟨k, m', bytes, hbuffer, Sink.log_eq_of_send_logged hsend⟩
    rw [hrun]
    rcases silent_or_writes p m' with ⟨o, m₁, hsilent⟩ | ⟨b, m₁, hwrites⟩
    · rw [log_run_of_silent hsilent hnext]
      exact ⟨k, m', bytes, hbuffer, Sink.log_eq_of_send_logged hsend⟩
    · rcases hb : sink.logged.write (out', log) b with ⟨_ | e, x⟩
      · rw [next_eq_some_iff.2 (.inr ⟨b, hwrites, hb⟩)] at hnext
        cases hnext
      · -- a buffer keeps the byte that is refused
        refine ⟨k + 1, m₁, bytes.push b, ?_, ?_⟩
        · rw [advance_succ_right, hbuffer, Option.bind_some]
          exact next_buffer_eq_some_iff.2 (.inr ⟨b, hwrites, rfl⟩)
        · rw [run, hwrites.step_eq, hb, Array.toList_push]
          exact Sink.log_eq_of_send_logged (Sink.send_append_singleton_eq_iff.2 (.inl ⟨_, hsend, hb⟩))
  · rintro ⟨k, m', bytes, hbuffer, rfl⟩
    have hlogged := sink.send_logged out #[] bytes.toList
    rw [Array.empty_append] at hlogged
    rcases hsend : sink.send out bytes.toList with ⟨_ | e, out'⟩
    · rw [hsend] at hlogged
      have hk := advance_iff_send.2 ⟨bytes, hbuffer, hlogged⟩
      exact ⟨k + 0, by rw [run_of_advance hk, run]⟩
    · rw [hsend] at hlogged
      obtain ⟨fuel, s, hrun⟩ := exists_run_failed hbuffer hlogged
      exact ⟨fuel, by rw [hrun]⟩

/-! ### Runs without their output -/

section Ends

variable {bytes : Array UInt8} {delta : Int64}

/-- The whole run from a state, its output dropped, ends in the state `m'`. -/
def EndsIn (p : Program) (m m' : Interpreter) : Prop :=
  ∃ fuel ending, ending ≠ .unfinished ∧ m.run p Sink.discard fuel () = (ending, m', ())

theorem Completes.endsIn (h : Completes p Sink.buffer m #[] m' bytes) : EndsIn p m m' := by
  obtain ⟨⟨k, hk⟩, hip⟩ : Completes p Sink.discard m () m' () :=
    (completes_iff Sink.discard_faultless).2 ⟨bytes, h, rfl⟩
  have hstep : m'.step p Sink.discard () = (.stopped, m', ()) := by
    unfold step
    rw [hip, Array.getElem?_eq_none (Nat.le_refl _)]
    cases m'.halted <;> rfl
  refine ⟨k + 1, .stopped none none, by simp, ?_⟩
  rw [run_of_advance hk, run, hstep]
  rfl

theorem Overruns.endsIn (h : Overruns p Sink.buffer m #[] delta m' bytes) (hm : m.halted = false)
    (hptr : m.cursor.ptr < m.tape.capacity) : EndsIn p m (m'.pass (.move delta)) := by
  have hoverruns : Overruns p Sink.discard m () delta m' () :=
    (overruns_iff Sink.discard_faultless).2 ⟨bytes, h, rfl⟩
  obtain ⟨fuel, hrun⟩ := (faults_iff hm hptr).2 ⟨delta, m', hoverruns, rfl, rfl, rfl⟩
  exact ⟨fuel, _, by simp, hrun⟩

/-- Where the run ends, the run over a buffer has no next step. -/
theorem EndsIn.exists_last (h : EndsIn p m m') :
    ∃ k s bytes, advance (next p Sink.buffer) k (m, #[]) = some (s, bytes) ∧ next p Sink.buffer (s, bytes) = none := by
  obtain ⟨fuel, ending, hending, hrun⟩ := h
  obtain ⟨k, s, out, hk, hlast⟩ := exists_advance_of_run p Sink.discard fuel m ()
  obtain ⟨bytes, hbuffer, _⟩ := advance_iff_send.1 hk
  rcases hlast with hlast | ⟨hnext, _⟩
  · rw [hrun] at hlast
    cases hlast
    exact absurd rfl hending
  · refine ⟨k, s, bytes, hbuffer, ?_⟩
    exact Option.map_eq_none_iff.1 ((next_writeAll Sink.discard_faultless () (s, bytes)).symm.trans hnext)

end Ends

/-! ### Moves that leave the tape -/

section Overruns

variable {delta : Int64}

/-- A run over any sink comes to such a move where the run over a buffer does, if all bytes are accepted. -/
theorem Overruns.exists_send (h : Overruns p sink m out delta m' out') :
    ∃ bytes, Overruns p Sink.buffer m #[] delta m' bytes ∧ sink.send out bytes.toList = (none, out') := by
  obtain ⟨⟨k, hk⟩, hmove, hleaves⟩ := h
  obtain ⟨bytes, hbuffer, hsend⟩ := advance_iff_send.1 hk
  exact ⟨bytes, ⟨⟨k, hbuffer⟩, hmove, hleaves⟩, hsend⟩

/-- Whatever the sink is, the run then fails. -/
theorem Overruns.faults (h : Overruns p sink m out delta m' out') (hm : m.halted = false)
    (hptr : m.cursor.ptr < m.tape.capacity) :
    m.Faults p sink out (min ((m'.cursor.ptr : Int) + delta.toInt) (2 ^ 63 - 1)) m'.tape.capacity
      (m'.pass (.move delta)) out' := by
  obtain ⟨bytes, hbuffer, _⟩ := h.exists_send
  have hat := hbuffer.at_move hm hptr
  obtain ⟨k, hk⟩ := h.reaches
  refine ⟨k + 1, ?_⟩
  rw [run_of_advance hk, run, step_move_error hat (Tape.offset_of_leaves hat.ptr_lt h.leaves) sink out']

end Overruns

end TapeLang.Interpreter
